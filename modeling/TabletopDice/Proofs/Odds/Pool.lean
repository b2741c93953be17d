import Std.Data.HashMap.Lemmas
import TabletopDice.Proofs.Law
import TabletopDice.Odds.Pool

/-!
# Pools as laws

A pool that was gathered by additions lists each of its keys once, and an
addition changes the mass of one key alone. Over fractions a pool is then a law
of its keys: adding to it adds the weighed value of the key to every mean.
-/

namespace TabletopDice

-- ---------------------------------------------------------------------------
-- Folds
-- ---------------------------------------------------------------------------

theorem foldl_of_mem {β γ : Type} {step : β → γ → β} {Q P : β → Prop} {xs : List γ} {b : β}
    (h0 : Q b) (hQ : ∀ b x, Q b → Q (step b x)) (hkeep : ∀ b x, Q b → P b → P (step b x)) {x : γ}
    (hx : x ∈ xs) (hat : ∀ b, Q b → P (step b x)) : P (xs.foldl step b) := by
  obtain ⟨before, after, rfl⟩ := List.append_of_mem hx
  rw [List.foldl_append, List.foldl_cons]
  have hbefore : Q (before.foldl step b) := List.foldlRecOn before _ h0 fun b hb y _ => hQ b y hb
  refine (List.foldlRecOn (motive := fun b => Q b ∧ P b) after _
    ⟨hQ _ _ hbefore, hat _ hbefore⟩ fun b hb y _ => ?_).2
  exact ⟨hQ b y hb.1, hkeep b y hb.1 hb.2⟩

/-- What every step of a fold adds to a number adds up, as long as an invariant holds. -/
theorem foldl_sum {β γ : Type} {step : β → γ → β} (Q : β → Prop) (xs : List γ)
    {g : β → Rat} {w : γ → Rat} {b : β} (h0 : Q b) (hQ : ∀ b, ∀ x ∈ xs, Q b → Q (step b x))
    (hg : ∀ b, ∀ x ∈ xs, Q b → g (step b x) = g b + w x) :
    g (xs.foldl step b) = g b + (xs.map w).sum := by
  induction xs generalizing b with
  | nil => simp
  | cons x xs ih =>
    have hx := List.mem_cons_self (a := x) (l := xs)
    rw [List.foldl_cons, ih (hQ b x hx h0) (fun b y hy => hQ b y (List.mem_cons_of_mem x hy))
      fun b y hy => hg b y (List.mem_cons_of_mem x hy), hg b x hx h0, List.map_cons, List.sum_cons,
      add_assoc]

theorem foldl_all {β γ : Type} {step : β → γ → β} {g : β → Bool} {w : γ → Bool}
    (hg : ∀ b x, g (step b x) = (g b && w x)) (xs : List γ) (b : β) :
    g (xs.foldl step b) = (g b && xs.all w) := by
  induction xs generalizing b with
  | nil => simp
  | cons x xs ih => rw [List.foldl_cons, ih, hg, List.all_cons, Bool.and_assoc]

namespace Pool

section
variable {κ α : Type} [BEq κ] [Hashable κ] [Mass α]

def keys (pool : Pool κ α) : List κ := pool.order.toList

theorem keys_entries (pool : Pool κ α) : pool.entries.map (·.1) = pool.keys := by
  simp [entries, keys, Function.comp_def]

theorem add_of_mem {pool : Pool κ α} {k : κ} (h : k ∈ pool.masses) (p : α) :
    pool.add k p = ⟨pool.order, pool.masses.modify k (· + p)⟩ := by
  obtain ⟨order, masses⟩ := pool
  exact if_pos (Std.HashMap.mem_iff_contains.mp h)

theorem add_of_not_mem {pool : Pool κ α} {k : κ} (h : k ∉ pool.masses) (p : α) :
    pool.add k p = ⟨pool.order.push k, pool.masses.insert k (0 + p)⟩ := by
  obtain ⟨order, masses⟩ := pool
  exact if_neg fun hc => h (Std.HashMap.mem_iff_contains.mpr hc)

/-- The keys are listed once each, and exactly those that have an entry in the index. -/
structure Sound (pool : Pool κ α) : Prop where
  nodup : pool.keys.Nodup
  mem_keys : ∀ k, k ∈ pool.masses ↔ k ∈ pool.keys

omit [Mass α] in
theorem sound_empty [LawfulBEq κ] : Sound ({} : Pool κ α) where
  nodup := List.nodup_nil
  mem_keys := by simp [keys]

theorem ofEntries_induction {Q : Pool κ α → Prop} (h0 : Q {}) (entries : List (κ × α))
    (hadd : ∀ pool, ∀ e ∈ entries, Q pool → Q (pool.add e.1 e.2)) : Q (ofEntries entries) :=
  List.foldlRecOn entries _ h0 fun pool hq e he => hadd pool e he hq

theorem Sound.mem_keys_add {pool : Pool κ α} (h : pool.Sound) (k : κ) (p : α) (j : κ) :
    j ∈ (pool.add k p).keys ↔ j = k ∨ j ∈ pool.keys := by
  by_cases hk : k ∈ pool.masses
  · rw [add_of_mem hk]
    exact ⟨.inr, fun hj => hj.elim (fun e => e ▸ (h.mem_keys k).mp hk) id⟩
  · rw [add_of_not_mem hk]
    simp [keys, or_comm]

variable [LawfulBEq κ]

theorem mem_masses_add (pool : Pool κ α) (k : κ) (p : α) (j : κ) :
    j ∈ (pool.add k p).masses ↔ j = k ∨ j ∈ pool.masses := by
  by_cases h : k ∈ pool.masses
  · rw [add_of_mem h, Std.HashMap.mem_modify]
    exact ⟨.inr, fun hj => hj.elim (fun e => e ▸ h) id⟩
  · rw [add_of_not_mem h, Std.HashMap.mem_insert, beq_iff_eq, eq_comm]

theorem Sound.add {pool : Pool κ α} (h : pool.Sound) (k : κ) (p : α) : (pool.add k p).Sound where
  nodup := by
    by_cases hk : k ∈ pool.masses
    · rw [add_of_mem hk]
      exact h.nodup
    · have hne : k ∉ pool.keys := fun hm => hk ((h.mem_keys k).mpr hm)
      rw [add_of_not_mem hk]
      simp only [keys, Array.toList_push]
      exact h.nodup.append (List.nodup_singleton k) (by simpa using hne)
  mem_keys j := by rw [mem_masses_add, h.mem_keys_add, h.mem_keys]

theorem mass_add (pool : Pool κ α) (k : κ) (p : α) (j : κ) :
    (pool.add k p).mass j = if k == j then pool.mass k + p else pool.mass j := by
  by_cases h : k ∈ pool.masses
  · rw [add_of_mem h]
    simp only [mass, Std.HashMap.getD_modify]
    split
    · simp [Std.HashMap.getElem?_eq_some_getElem h, Std.HashMap.getD_eq_getD_getElem?]
    · rfl
  · rw [add_of_not_mem h]
    simp only [mass, Std.HashMap.getD_insert, Std.HashMap.getD_eq_fallback h]

/-- Adds to the mass of a key in a list of entries, at the end if the key is new. -/
def bump : List (κ × α) → κ → α → List (κ × α)
  | [], k, p => [(k, 0 + p)]
  | e :: es, k, p => if e.1 == k then (e.1, e.2 + p) :: es else e :: bump es k p

omit [Hashable κ] in
theorem bump_map_of_mem {ks : List κ} (hnd : ks.Nodup) {k : κ} (hk : k ∈ ks) {mass mass' : κ → α}
    {p : α} (hself : mass' k = mass k + p) (hother : ∀ j, j ≠ k → mass' j = mass j) :
    bump (ks.map fun j => (j, mass j)) k p = ks.map fun j => (j, mass' j) := by
  induction ks with
  | nil => cases hk
  | cons j ks ih =>
    rw [List.nodup_cons] at hnd
    by_cases he : j = k
    · subst he
      have htail : ∀ i ∈ ks, (i, mass i) = (i, mass' i) := fun i hi => by
        rw [hother i fun e => hnd.1 (e ▸ hi)]
      simp [bump, hself, List.map_congr_left htail]
    · have hks := ih hnd.2 ((List.mem_cons.mp hk).resolve_left (Ne.symm he))
      simp [bump, he, hks, hother j he]

omit [Hashable κ] in
theorem bump_map_of_not_mem {ks : List κ} {k : κ} (hk : k ∉ ks) {mass mass' : κ → α} {p : α}
    (hself : mass' k = 0 + p) (hother : ∀ j, j ≠ k → mass' j = mass j) :
    bump (ks.map fun j => (j, mass j)) k p = (ks ++ [k]).map fun j => (j, mass' j) := by
  induction ks with
  | nil => simp [bump, hself]
  | cons j ks ih =>
    rw [List.mem_cons, not_or] at hk
    simp [bump, Ne.symm hk.1, ih hk.2, hother j (Ne.symm hk.1)]

omit [Hashable κ] in
theorem bump_of_not_mem {es : List (κ × α)} {k : κ} (hk : k ∉ es.map (·.1)) (p : α) :
    bump es k p = es ++ [(k, 0 + p)] := by
  induction es with
  | nil => rfl
  | cons e es ih =>
    rw [List.map_cons, List.mem_cons, not_or] at hk
    rw [bump, if_neg (by simpa using Ne.symm hk.1), ih hk.2, List.cons_append]

/-- A pool adds as a list of its entries does. -/
theorem Sound.entries_add {pool : Pool κ α} (h : pool.Sound) (k : κ) (p : α) :
    (pool.add k p).entries = bump pool.entries k p := by
  have hother : ∀ j, j ≠ k → (pool.add k p).mass j = pool.mass j := fun j hj => by
    rw [mass_add, if_neg (by simpa using Ne.symm hj)]
  by_cases hk : k ∈ pool.masses
  · have hself : (pool.add k p).mass k = pool.mass k + p := by
      rw [mass_add, if_pos (beq_self_eq_true k)]
    have horder : (pool.add k p).order = pool.order := by rw [add_of_mem hk]
    rw [entries, entries, horder]
    exact (bump_map_of_mem h.nodup ((h.mem_keys k).mp hk) hself hother).symm
  · have hself : (pool.add k p).mass k = 0 + p := by
      simp only [add_of_not_mem hk, mass, Std.HashMap.getD_insert_self]
    have horder : (pool.add k p).order.toList = pool.order.toList ++ [k] := by
      simp [add_of_not_mem hk]
    rw [entries, entries, horder]
    exact (bump_map_of_not_mem (fun hm => hk ((h.mem_keys k).mpr hm)) hself hother).symm

omit [Hashable κ] [LawfulBEq κ] in
theorem forall_bump {P : α → Prop} {es : List (κ × α)} (h : ∀ e ∈ es, P e.2) (k : κ) {p : α}
    (hnew : P (0 + p)) (hadd : ∀ q, P q → P (q + p)) : ∀ e ∈ bump es k p, P e.2 := by
  induction es with
  | nil => simpa [bump] using hnew
  | cons e es ih =>
    rw [List.forall_mem_cons] at h
    unfold bump
    split
    · exact List.forall_mem_cons.mpr ⟨hadd e.2 h.1, h.2⟩
    · exact List.forall_mem_cons.mpr ⟨h.1, ih h.2⟩

omit [LawfulBEq κ] in
@[simp] theorem entries_empty : ({} : Pool κ α).entries = [] := rfl

omit [LawfulBEq κ] in
theorem isEmpty_single (k : κ) (p : α) : (add {} k p).isEmpty = false := by
  rw [add_of_not_mem (by simp)]
  rfl

theorem sound_ofEntries (entries : List (κ × α)) : (ofEntries entries).Sound :=
  ofEntries_induction sound_empty entries fun _ e _ h => h.add e.1 e.2

theorem exists_of_mem_keys_ofEntries {entries : List (κ × α)} {k : κ}
    (hk : k ∈ (ofEntries entries).keys) : ∃ e ∈ entries, e.1 = k := by
  refine (ofEntries_induction (Q := fun pool => pool.Sound ∧ ∀ k ∈ pool.keys, ∃ e ∈ entries, e.1 = k)
    ⟨sound_empty, nofun⟩ entries fun pool e he hq => ⟨hq.1.add e.1 e.2, fun j hj => ?_⟩).2 k hk
  rcases (hq.1.mem_keys_add ..).mp hj with rfl | hj
  · exact ⟨e, he, rfl⟩
  · exact hq.2 j hj

/-- Masses that are listed for one key each stay as they are listed. -/
theorem entries_ofEntries {es : List (κ × α)} (h : (es.map (·.1)).Nodup) :
    (ofEntries es).entries = es.map fun e => (e.1, 0 + e.2) := by
  induction es using List.reverseRecOn with
  | nil => rfl
  | append_singleton es e ih =>
    rw [List.map_append, List.nodup_append] at h
    have hnew : e.1 ∉ (es.map fun e => (e.1, 0 + e.2)).map (·.1) := by
      rw [List.map_map]
      exact fun he => h.2.2 e.1 he e.1 (by simp) rfl
    rw [ofEntries, List.foldl_append]
    refine ((sound_ofEntries es).entries_add e.1 e.2).trans ?_
    rw [ih h.1, bump_of_not_mem hnew, List.map_append]
    rfl

/-- The mass of a key is what was listed for it, added up in turn. -/
theorem mass_ofEntries (entries : List (κ × α)) (k : κ) : (ofEntries entries).mass k =
    ((entries.filter (·.1 == k)).map (·.2)).foldl (· + ·) 0 := by
  have hfold : ∀ pool : Pool κ α, (entries.foldl (fun pool e => pool.add e.1 e.2) pool).mass k =
      ((entries.filter (·.1 == k)).map (·.2)).foldl (· + ·) (pool.mass k) := by
    induction entries with
    | nil => exact fun _ => rfl
    | cons e es ih =>
      intro pool
      rw [List.foldl_cons, ih, mass_add, List.filter_cons]
      split
      · rename_i he
        rw [eq_of_beq he]
        rfl
      · rfl
  rw [ofEntries, hfold]
  congr 1
  simp [mass]

theorem mem_keys_ofEntries {entries : List (κ × α)} {e : κ × α} (he : e ∈ entries) :
    e.1 ∈ (ofEntries entries).keys :=
  foldl_of_mem (Q := Sound) (P := fun pool => e.1 ∈ pool.keys) sound_empty
    (fun _ e' h => h.add e'.1 e'.2) (fun _ _ h hk => (h.mem_keys_add ..).mpr (.inr hk)) he
    fun _ h => (h.mem_keys_add ..).mpr (.inl rfl)

end

-- ---------------------------------------------------------------------------
-- Pools of fractions
-- ---------------------------------------------------------------------------

variable {κ : Type} [BEq κ] [Hashable κ]

def law (pool : Pool κ Rat) : Law κ := ⟨pool.entries⟩

@[simp] theorem mean_law_empty (f : κ → Rat) : (law ({} : Pool κ Rat)).mean f = 0 := rfl

variable [LawfulBEq κ]

omit [Hashable κ] in
theorem mean_bump (es : List (κ × Rat)) (k : κ) (p : Rat) (f : κ → Rat) :
    Law.mean ⟨bump es k p⟩ f = Law.mean ⟨es⟩ f + p * f k := by
  induction es with
  | nil => simp [bump]
  | cons e es ih =>
    unfold bump
    split
    · rename_i he
      rw [Law.mean_mk_cons, Law.mean_mk_cons, eq_of_beq he]
      ring
    · rw [Law.mean_mk_cons, ih, Law.mean_mk_cons, add_assoc]

theorem Sound.mean_add {pool : Pool κ Rat} (h : pool.Sound) (k : κ) (p : Rat) (f : κ → Rat) :
    (pool.add k p).law.mean f = pool.law.mean f + p * f k := by
  rw [law, h.entries_add, mean_bump, law]

theorem mean_ofEntries (entries : List (κ × Rat)) (f : κ → Rat) :
    (ofEntries entries).law.mean f = Law.mean ⟨entries⟩ f := by
  have hsum := foldl_sum Sound entries (g := fun pool : Pool κ Rat => pool.law.mean f)
    (w := fun e => e.2 * f e.1) sound_empty
    (fun pool e _ h => h.add e.1 e.2) fun pool e _ h => h.mean_add e.1 e.2 f
  rw [mean_law_empty, zero_add] at hsum
  exact hsum

def Positive (pool : Pool κ Rat) : Prop := ∀ e ∈ pool.entries, 0 < e.2

omit [LawfulBEq κ] in
theorem positive_empty : Positive ({} : Pool κ Rat) := fun _ he => absurd he List.not_mem_nil

theorem Sound.positive_add {pool : Pool κ Rat} (h : pool.Sound) (hpos : pool.Positive) (k : κ)
    {p : Rat} (hp : 0 < p) : (pool.add k p).Positive := by
  rw [Positive, h.entries_add]
  exact forall_bump (P := (0 < ·)) hpos k (by simpa using hp) fun q hq => add_pos hq hp

theorem positive_ofEntries {entries : List (κ × Rat)} (h : ∀ e ∈ entries, 0 < e.2) :
    (ofEntries entries).Positive :=
  (ofEntries_induction (Q := fun pool => pool.Sound ∧ pool.Positive) ⟨sound_empty, positive_empty⟩
    entries fun _ e he hq => ⟨hq.1.add e.1 e.2, hq.1.positive_add hq.2 e.1 (h e he)⟩).2

end Pool

end TabletopDice
