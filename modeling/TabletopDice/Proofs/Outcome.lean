import Mathlib.Data.List.Forall2
import TabletopDice.Fault

/-!
# Computations that succeed

A computation that can end in a fault is taken apart step by step: when the
whole of it succeeds, so does every step before.
-/

namespace TabletopDice

variable {ε ε' : Type} {β γ : Type}

theorem bind_ok {x : Except ε β} {f : β → Except ε γ} {c : γ} :
    x >>= f = .ok c ↔ ∃ b, x = .ok b ∧ f b = .ok c := by
  cases x <;> simp [bind, Except.bind]

theorem pure_ok {b c : β} : (pure b : Except ε β) = .ok c ↔ b = c := by
  simp [pure, Except.pure]

theorem mapError_ok {x : Except ε β} {f : ε → ε'} {b : β} : x.mapError f = .ok b ↔ x = .ok b := by
  cases x <;> simp [Except.mapError]

theorem map_ok {x : Except ε β} {f : β → γ} {c : γ} :
    x.map f = .ok c ↔ ∃ b, x = .ok b ∧ f b = c := by
  cases x <;> simp [Except.map]

theorem ok_bind (b : β) (f : β → Except ε γ) : (Except.ok b >>= f) = f b := rfl

theorem error_bind (e : ε) (f : β → Except ε γ) :
    (Except.error e >>= f) = (.error e : Except ε γ) := rfl

theorem unless_ok {P : Prop} [Decidable P] {e : ε} {x : Except ε β} {b : β} :
    (if P then .error e else x) = .ok b ↔ ¬ P ∧ x = .ok b := by
  split <;> simp_all

theorem ok_of_toOption {x : Except ε β} {b : β} (h : x.toOption = some b) : x = .ok b := by
  cases x with
  | error e => cases h
  | ok c => exact congrArg Except.ok (Option.some.inj h)

theorem toOption_of_ok {x : Except ε β} {b : β} (h : x = .ok b) : x.toOption = some b := by
  rw [h]
  rfl

theorem toOption_of_not_ok {x : Except ε β} (h : ∀ b, x ≠ .ok b) : x.toOption = none := by
  cases x with
  | error e => rfl
  | ok b => exact absurd rfl (h b)

theorem toOption_map (x : Except ε β) (f : β → γ) : (x.map f).toOption = x.toOption.map f := by
  cases x <;> rfl

theorem toOption_bind {β' γ' : Type} {x : Except ε β} {x' : Except ε β'} {f : β → Except ε γ}
    {f' : β' → Except ε γ'} {g : β → β'} {k : γ → γ'} (hx : x'.toOption = x.toOption.map g)
    (hf : ∀ b, (f' (g b)).toOption = (f b).toOption.map k) :
    (x' >>= f').toOption = (x >>= f).toOption.map k := by
  cases x <;> cases x' <;> cases hx
  · rfl
  · exact hf _

/-- What is done last makes the difference. -/
theorem toOption_bind_last {γ' : Type} {x x' : Except ε β} {f : β → Except ε γ} {f' : β → Except ε γ'}
    {k : γ → γ'} (hx : x'.toOption = x.toOption) (hf : ∀ b, (f' b).toOption = (f b).toOption.map k) :
    (x' >>= f').toOption = (x >>= f).toOption.map k :=
  toOption_bind (hx.trans Option.map_id_apply.symm) hf

theorem toOption_mapM {β' γ' : Type} {f : β → Except ε γ} {f' : β' → Except ε γ'} {g : β → β'} {k : γ → γ'}
    (h : ∀ b, (f' (g b)).toOption = (f b).toOption.map k) (bs : List β) :
    ((bs.map g).mapM f').toOption = (bs.mapM f).toOption.map (List.map k) := by
  induction bs with
  | nil => rfl
  | cons b bs ih =>
    rw [List.map_cons, List.mapM_cons, List.mapM_cons]
    exact toOption_bind (h b) fun c => toOption_bind ih fun cs => rfl

theorem forall_of_forall₂ {P : γ → Prop} {bs : List β} {cs : List γ}
    (h : List.Forall₂ (fun _ c => P c) bs cs) : ∀ c ∈ cs, P c := by
  induction h with
  | nil => nofun
  | cons hc _ ih => exact List.forall_mem_cons.mpr ⟨hc, ih⟩

theorem mapM_ok {f : β → Except ε γ} {bs : List β} {cs : List γ} (h : bs.mapM f = .ok cs) :
    List.Forall₂ (fun b c => f b = .ok c) bs cs := by
  induction bs generalizing cs with
  | nil =>
    obtain rfl := pure_ok.mp h
    exact .nil
  | cons b bs ih =>
    simp only [List.mapM_cons, bind_ok, pure_ok] at h
    obtain ⟨c, hc, ds, hds, rfl⟩ := h
    exact .cons hc (ih hds)

theorem ok_mapM {f : β → Except ε γ} {bs : List β} {cs : List γ}
    (h : List.Forall₂ (fun b c => f b = .ok c) bs cs) : bs.mapM f = .ok cs := by
  induction h with
  | nil => rfl
  | cons hc _ ih =>
    rw [List.mapM_cons, hc, ih]
    rfl

theorem mapM_ok_getElem? {f : β → Except ε γ} {bs : List β} {cs : List γ} (h : bs.mapM f = .ok cs)
    {i : Nat} {b : β} (hb : bs[i]? = some b) : ∃ c, f b = .ok c ∧ cs[i]? = some c := by
  have hall := mapM_ok h
  clear h
  induction hall generalizing i with
  | nil => simp at hb
  | @cons b' c' bs cs hc _ ih =>
    cases i with
    | zero =>
      obtain rfl : b' = b := by simpa using hb
      exact ⟨c', hc, by simp⟩
    | succ i => exact ih (by simpa using hb)

theorem mapM_self {f : β → Except ε β} {bs : List β} (h : ∀ b ∈ bs, f b = .ok b) :
    bs.mapM f = .ok bs := by
  induction bs with
  | nil => rfl
  | cons b bs ih =>
    rw [List.forall_mem_cons] at h
    rw [List.mapM_cons, h.1, ih h.2]
    rfl

theorem exists_mapM_iff {f : β → Except ε γ} {bs : List β} :
    (∃ cs, bs.mapM f = .ok cs) ↔ ∀ b ∈ bs, ∃ c, f b = .ok c := by
  constructor
  · rintro ⟨cs, h⟩ b hb
    obtain ⟨i, hi⟩ := List.mem_iff_getElem?.mp hb
    obtain ⟨c, hc, -⟩ := mapM_ok_getElem? h hi
    exact ⟨c, hc⟩
  · intro h
    induction bs with
    | nil => exact ⟨[], rfl⟩
    | cons b bs ih =>
      rw [List.forall_mem_cons] at h
      obtain ⟨c, hc⟩ := h.1
      obtain ⟨cs, hcs⟩ := ih h.2
      exact ⟨c :: cs, by rw [List.mapM_cons, hc, hcs]; rfl⟩

/-- The first that fails makes all fail. -/
theorem mapM_eq_error {f : β → Except ε γ} {bs : List β} {e : ε} : bs.mapM f = .error e ↔
    ∃ before b after, bs = before ++ b :: after ∧ (∀ b ∈ before, ∃ c, f b = .ok c) ∧ f b = .error e := by
  constructor
  · intro h
    induction bs with
    | nil => cases h
    | cons b bs ih =>
      rw [List.mapM_cons] at h
      cases hb : f b with
      | error e' =>
        rw [hb] at h
        cases h
        exact ⟨[], b, bs, rfl, List.forall_mem_nil _, hb⟩
      | ok c =>
        cases hbs : bs.mapM f with
        | error e' =>
          rw [hb, hbs] at h
          cases h
          obtain ⟨before, b', after, rfl, hbefore, hb'⟩ := ih hbs
          exact ⟨b :: before, b', after, rfl, List.forall_mem_cons.mpr ⟨⟨c, hb⟩, hbefore⟩, hb'⟩
        | ok cs =>
          rw [hb, hbs] at h
          cases h
  · rintro ⟨before, b, after, rfl, hbefore, hb⟩
    induction before with
    | nil => rw [List.nil_append, List.mapM_cons, hb, error_bind]
    | cons b' before ih =>
      rw [List.forall_mem_cons] at hbefore
      obtain ⟨⟨c, hc⟩, hbefore⟩ := hbefore
      rw [List.cons_append, List.mapM_cons, hc, ih hbefore]
      rfl

theorem foldlM_ok {f : γ → β → Except ε γ} {bs : List β} {c d : γ} (h : bs.foldlM f c = .ok d)
    {b : β} (hb : b ∈ bs) : ∃ x y, f x b = .ok y := by
  induction bs generalizing c with
  | nil => cases hb
  | cons b' bs ih =>
    simp only [List.foldlM_cons, bind_ok] at h
    obtain ⟨x, hx, h⟩ := h
    rcases List.mem_cons.mp hb with rfl | hb
    · exact ⟨c, x, hx⟩
    · exact ih h hb

theorem exists_foldlM {f : γ → β → Except ε γ} {bs : List β} (h : ∀ b ∈ bs, ∀ c, ∃ d, f c b = .ok d)
    (c : γ) : ∃ d, bs.foldlM f c = .ok d := by
  induction bs generalizing c with
  | nil => exact ⟨c, rfl⟩
  | cons b bs ih =>
    rw [List.forall_mem_cons] at h
    obtain ⟨d, hd⟩ := h.1 c
    obtain ⟨e, he⟩ := ih h.2 d
    exact ⟨e, by rw [List.foldlM_cons, hd]; exact he⟩

theorem exists_allM {f : β → Except ε Bool} {bs : List β} (h : ∀ b ∈ bs, ∃ c, f b = .ok c) :
    ∃ c, bs.allM f = .ok c := by
  induction bs with
  | nil => exact ⟨true, rfl⟩
  | cons b bs ih =>
    rw [List.forall_mem_cons] at h
    obtain ⟨c, hc⟩ := h.1
    obtain ⟨c', hc'⟩ := ih h.2
    cases c with
    | false => exact ⟨false, by rw [List.allM, hc]; rfl⟩
    | true => exact ⟨c', by rw [List.allM, hc]; exact hc'⟩

-- ---------------------------------------------------------------------------
-- Faults of one kind
-- ---------------------------------------------------------------------------

/-- If it ends in a fault at all, the fault is of this kind. -/
def FailsAs (P : ε → Prop) (x : Except ε β) : Prop := ∀ e, x = .error e → P e

namespace FailsAs

variable {P Q : ε → Prop} {x : Except ε β}

theorem ok (b : β) : FailsAs P (.ok b) := nofun

theorem error {e : ε} (h : P e) : FailsAs P (.error e : Except ε β) := fun _ he => Except.error.inj he ▸ h

theorem mono (h : FailsAs P x) (hPQ : ∀ e, P e → Q e) : FailsAs Q x := fun e he => hPQ e (h e he)

theorem bind {f : β → Except ε γ} (hx : FailsAs P x) (hf : ∀ b, x = .ok b → FailsAs P (f b)) :
    FailsAs P (x >>= f) := by
  cases x with
  | error e => exact error (hx e rfl)
  | ok b => exact hf b rfl

theorem map {f : β → γ} (hx : FailsAs P x) : FailsAs P (x.map f) := by
  cases x with
  | error e => exact error (hx e rfl)
  | ok b => exact ok (f b)

theorem ite {c : Prop} [Decidable c] {y : Except ε β} (hx : c → FailsAs P x) (hy : ¬ c → FailsAs P y) :
    FailsAs P (if c then x else y) := by
  split
  · exact hx ‹_›
  · exact hy ‹_›

theorem mapM {f : β → Except ε γ} {bs : List β} (h : ∀ b ∈ bs, FailsAs P (f b)) : FailsAs P (bs.mapM f) := by
  induction bs with
  | nil => exact ok []
  | cons b bs ih =>
    rw [List.forall_mem_cons] at h
    rw [List.mapM_cons]
    exact h.1.bind fun _ _ => (ih h.2).bind fun _ _ => ok _

theorem foldlM {f : γ → β → Except ε γ} {bs : List β} (h : ∀ c, ∀ b ∈ bs, FailsAs P (f c b)) (c : γ) :
    FailsAs P (bs.foldlM f c) := by
  induction bs generalizing c with
  | nil => exact ok c
  | cons b bs ih =>
    rw [List.foldlM_cons]
    exact (h c b List.mem_cons_self).bind fun d _ => ih (fun c b hb => h c b (List.mem_cons_of_mem _ hb)) d

end FailsAs

end TabletopDice
