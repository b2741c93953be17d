import Mathlib.Data.Nat.Choose.Sum
import TabletopDice.Proofs.Law

/-!
# Independent samples

Lists of independent outcomes of one law. A mean over such lists that looks at
the members in a class and at those outside of it splits by how many members
the class has, with a binomial coefficient for the places that they may take.
-/

namespace TabletopDice.Law

open Finset (range)

variable {β γ : Type}

def sample (l : Law β) : Nat → Law (List β)
  | 0 => pure []
  | n + 1 => do
    let b ← l
    let bs ← l.sample n
    return b :: bs

@[simp] theorem mean_sample_zero (l : Law β) (f : List β → Rat) :
    (l.sample 0).mean f = f [] := by
  simp [sample]

theorem mean_sample_succ (l : Law β) (n : Nat) (f : List β → Rat) :
    (l.sample (n + 1)).mean f = l.mean fun b => (l.sample n).mean fun bs => f (b :: bs) := by
  simp [sample]

theorem mapM_replicate (g : γ → Law β) (c : γ) (n : Nat) :
    (List.replicate n c).mapM g = (g c).sample n := by
  induction n with
  | zero => rfl
  | succ n ih => simp [List.replicate_succ, sample, ih]

theorem mem_sample {l : Law β} {n : Nat} {o : List β × Rat} (ho : o ∈ (l.sample n).outcomes) :
    o.1.length = n ∧ ∀ b ∈ o.1, ∃ w, (b, w) ∈ l.outcomes := by
  induction n generalizing o with
  | zero =>
    obtain rfl : o = ([], 1) := by simpa [sample, pure_def] using ho
    simp
  | succ n ih =>
    simp only [sample, bind_def, pure_def, List.mem_flatMap, List.mem_map] at ho
    obtain ⟨⟨b, w⟩, hb, _, ⟨p, hp, _, hq, rfl⟩, rfl⟩ := ho
    obtain rfl := List.mem_singleton.mp hq
    obtain ⟨hlen, hmem⟩ := ih hp
    refine ⟨by simp [hlen], fun c hc => ?_⟩
    rcases List.mem_cons.mp hc with rfl | hc
    · exact ⟨w, hb⟩
    · exact hmem c hc

theorem mean_sample_congr {l m : Law β} (h : ∀ f, l.mean f = m.mean f) (n : Nat)
    (f : List β → Rat) : (l.sample n).mean f = (m.sample n).mean f := by
  induction n generalizing f with
  | zero => simp
  | succ n ih => simp only [mean_sample_succ, h, ih]

theorem mean_sample_map (g : β → γ) (l : Law β) (n : Nat) (f : List γ → Rat) :
    ((g <$> l).sample n).mean f = (l.sample n).mean fun bs => f (bs.map g) := by
  induction n generalizing f with
  | zero => simp
  | succ n ih => simp only [mean_sample_succ, mean_map, ih, List.map_cons]

theorem mean_sample_add (l : Law β) (m n : Nat) (f : List β → Rat) :
    (l.sample (m + n)).mean f =
      (l.sample m).mean fun bs => (l.sample n).mean fun cs => f (bs ++ cs) := by
  induction m generalizing f with
  | zero => simp
  | succ m ih =>
    rw [Nat.succ_add]
    simp only [mean_sample_succ, ih, List.cons_append]

theorem mean_sample_length (l : Law β) (n : Nat) (f : Nat → List β → Rat) :
    ((l.sample n).mean fun bs => f bs.length bs) = (l.sample n).mean (f n) :=
  mean_congr fun o ho => by rw [(mem_sample ho).1]

theorem mean_sample_const (l : Law β) (n : Nat) (c : Rat) :
    ((l.sample n).mean fun _ => c) = (l.mean fun _ => 1) ^ n * c := by
  induction n with
  | zero => simp
  | succ n ih =>
    rw [mean_sample_succ, ih, mean_const, pow_succ]
    ring

theorem mean_sample_scaled {l m : Law β} {c : Rat} (h : ∀ f, c * l.mean f = m.mean f) (n : Nat)
    (f : List β → Rat) : c ^ n * (l.sample n).mean f = (m.sample n).mean f := by
  induction n generalizing f with
  | zero => simp
  | succ n ih =>
    simp only [mean_sample_succ, ← ih, ← h]
    rw [mean_mul_left, pow_succ]
    ring

theorem Nonneg.mean_sample_nonneg {l : Law β} (h : l.Nonneg) (n : Nat) {f : List β → Rat}
    (hf : ∀ bs, 0 ≤ f bs) : 0 ≤ (l.sample n).mean f := by
  induction n generalizing f with
  | zero =>
    rw [mean_sample_zero]
    exact hf []
  | succ n ih =>
    rw [mean_sample_succ]
    exact h.mean_nonneg fun b => ih fun bs => hf (b :: bs)

-- ---------------------------------------------------------------------------
-- Members of a class
-- ---------------------------------------------------------------------------

/-- The mean over two samples, one from a class and one from outside of it. -/
def meanApart (l : Law β) (P : β → Bool) (f : List β → List β → Rat) (m n : Nat) : Rat :=
  ((l.only P).sample m).mean fun bs => ((l.only (!P ·)).sample n).mean (f bs)

theorem meanApart_succ_left (l : Law β) (P : β → Bool) (f : List β → List β → Rat) (m n : Nat) :
    l.meanApart P f (m + 1) n =
      (l.only P).mean fun b => l.meanApart P (fun bs cs => f (b :: bs) cs) m n := by
  simp only [meanApart, mean_sample_succ]

theorem meanApart_succ_right (l : Law β) (P : β → Bool) (f : List β → List β → Rat) (m n : Nat) :
    l.meanApart P f m (n + 1) =
      (l.only (!P ·)).mean fun c => l.meanApart P (fun bs cs => f bs (c :: cs)) m n := by
  simp only [meanApart, mean_sample_succ]
  exact mean_comm _ _ _

/-- A sample splits by how many of its members are in a class. -/
theorem mean_sample_split (l : Law β) (P : β → Bool) (n : Nat) (f : List β → List β → Rat) :
    ((l.sample n).mean fun bs => f (bs.filter P) (bs.filter (!P ·))) =
      ∑ m ∈ range (n + 1), n.choose m * l.meanApart P f m (n - m) := by
  induction n generalizing f with
  | zero => simp [meanApart]
  | succ n ih =>
    have hin : ((l.only P).mean fun b => (l.sample n).mean fun bs =>
        f ((b :: bs).filter P) ((b :: bs).filter (!P ·))) =
          ∑ m ∈ range (n + 1), n.choose m * l.meanApart P f (m + 1) (n - m) := by
      simp only [meanApart_succ_left, ← mean_mul_left, ← mean_finset_sum]
      refine mean_congr fun o ho => ?_
      have hP : P o.1 = true := (mem_only.mp ho).2
      simpa [List.filter_cons, hP] using ih fun bs cs => f (o.1 :: bs) cs
    have hout : ((l.only (!P ·)).mean fun b => (l.sample n).mean fun bs =>
        f ((b :: bs).filter P) ((b :: bs).filter (!P ·))) =
          ∑ m ∈ range (n + 1), n.choose m * l.meanApart P f m (n + 1 - m) := by
      rw [Finset.sum_congr rfl fun m hm => by
        rw [Nat.succ_sub (Nat.lt_succ_iff.mp (Finset.mem_range.mp hm)), meanApart_succ_right]]
      simp only [← mean_mul_left, ← mean_finset_sum]
      refine mean_congr fun o ho => ?_
      have hP : P o.1 = false := by simpa using (mem_only.mp ho).2
      simpa [List.filter_cons, hP] using ih fun bs cs => f bs (o.1 :: cs)
    rw [mean_sample_succ, mean_eq_only_add l P, hin, hout,
      Finset.sum_choose_succ_mul fun m k => l.meanApart P f m k]
    ring

end TabletopDice.Law
