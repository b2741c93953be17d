import TabletopDice.Proofs.Odds.Support

/-!
# Bounds of rolls

The bounds of a die whose chains are cut come from a formula: every adding rule
adds its highest trigger as often as it can, and a subtraction starts from its
lowest trigger. What is left to add goes down by the highest trigger of a rule
each time that the rule is used, so a running total that has got ahead of the
formula can only owe this to a face that a rule keeps. Where no such face is
worth more than a use of an adding rule the formula bounds every roll.
-/

namespace TabletopDice.RuledDie

variable {d : RuledDie}

-- ---------------------------------------------------------------------------
-- Triggers
-- ---------------------------------------------------------------------------

def triggered (d : RuledDie) (effect : Effect) : List Int :=
  d.faces.filter fun face => d.rerolls.any fun rule => rule.effect = effect && rule.applies face

theorem mem_triggered {rule : RerollRule} (hrule : rule ∈ d.rerolls) {face : Int}
    (hface : face ∈ d.faces) (h : rule.applies face) : face ∈ d.triggered rule.effect := by
  simp only [triggered, List.mem_filter, List.any_eq_true, Bool.and_eq_true, decide_eq_true_eq]
  exact ⟨hface, rule, hrule, rfl, h⟩

theorem mem_faces_of_mem_triggered {effect : Effect} {face : Int} (h : face ∈ d.triggered effect) :
    face ∈ d.faces := (List.mem_filter.mp h).1

theorem triggerBounds?_of_applies {rule : RerollRule} {face : Int} (hface : face ∈ d.faces)
    (h : rule.applies face) :
    ∃ ends, d.triggerBounds? rule = some ends ∧ ends.1 ≤ face ∧ face ≤ ends.2 := by
  have hmem : face ∈ d.faces.filter rule.applies := List.mem_filter.mpr ⟨hface, h⟩
  unfold triggerBounds?
  cases htriggers : d.faces.filter rule.applies with
  | nil => rw [htriggers] at hmem; cases hmem
  | cons first more => exact ⟨_, rfl, Distribution.bounds_le first more (htriggers ▸ hmem)⟩

theorem triggerBounds?_mem {rule : RerollRule} {ends : Int × Int}
    (h : d.triggerBounds? rule = some ends) :
    ends.1 ∈ d.faces.filter rule.applies ∧ ends.2 ∈ d.faces.filter rule.applies := by
  unfold triggerBounds? at h
  cases htriggers : d.faces.filter rule.applies with
  | nil => rw [htriggers] at h; cases h
  | cons first more =>
    rw [htriggers] at h
    obtain rfl := Option.some.inj h
    exact Distribution.bounds_mem first more

def adding (d : RuledDie) : List (Int × Int) :=
  d.rerolls.filterMap fun rule => if rule.effect = .add then d.triggerBounds? rule else none

def added (d : RuledDie) (rule : RerollRule) : Int :=
  match rule.effect, d.triggerBounds? rule with
  | .add, some (_, highest) => highest
  | _, _ => 0

theorem added_nonneg (d : RuledDie) (rule : RerollRule) : 0 ≤ d.added rule := by
  unfold added
  split
  · rename_i h
    have hface := (List.mem_filter.mp (triggerBounds?_mem h).2).1
    exact zero_le_one.trans (Die.mem_faces.mp hface).1
  · exact le_rfl

theorem mostAdded_eq (d : RuledDie) (rule : RerollRule) :
    d.mostAdded rule = d.added rule * rule.limit := by
  unfold mostAdded added
  cases rule.effect with
  | add =>
    cases d.triggerBounds? rule with
    | none => exact (zero_mul _).symm
    | some ends => rfl
  | _ => exact (zero_mul _).symm

theorem added_of_applies {rule : RerollRule} (hrule : rule ∈ d.rerolls) (heffect : rule.effect = .add)
    {face : Int} (hface : face ∈ d.faces) (h : rule.applies face) :
    ∃ ends ∈ d.adding, ends.2 = d.added rule ∧ ends.1 ≤ face ∧ face ≤ ends.2 := by
  obtain ⟨ends, hends, hwithin⟩ := triggerBounds?_of_applies hface h
  refine ⟨ends, List.mem_filterMap.mpr ⟨rule, hrule, by rw [if_pos heffect, hends]⟩, ?_, hwithin⟩
  rw [added, heffect, hends]

-- ---------------------------------------------------------------------------
-- The formula
-- ---------------------------------------------------------------------------

def toAdd (d : RuledDie) (left : List Nat) : Int :=
  ((d.rerolls.zip left).map fun e => d.added e.1 * e.2).sum

theorem toAdd_nonneg (d : RuledDie) (left : List Nat) : 0 ≤ d.toAdd left := by
  refine List.sum_nonneg fun x hx => ?_
  obtain ⟨e, -, rfl⟩ := List.mem_map.mp hx
  exact mul_nonneg (d.added_nonneg e.1) (Int.natCast_nonneg e.2)

theorem toAdd_uses (d : RuledDie) : d.toAdd d.uses = (d.rerolls.map d.mostAdded).sum := by
  rw [toAdd, uses, ← List.map_prod_left_eq_zip, List.map_map, funext d.mostAdded_eq]
  rfl

def leastSubtraction? (d : RuledDie) : Option Int :=
  match d.rerolls.filterMap d.leastSubtracted? with
  | [] => none
  | first :: more => some (Distribution.bounds first more).1

def highTotal (d : RuledDie) : Int := d.sides + d.toAdd d.uses

def lowTotal (d : RuledDie) : Int :=
  match d.leastSubtraction? with
  | none => 1
  | some least => least - d.highTotal

theorem leastSubtraction?_mem {least : Int} (h : d.leastSubtraction? = some least) :
    least ∈ d.faces := by
  unfold leastSubtraction? at h
  split at h
  · cases h
  · rename_i first more hall
    obtain rfl := Option.some.inj h
    have hmem := (Distribution.bounds_mem first more).1
    rw [← hall] at hmem
    obtain ⟨rule, -, hrule⟩ := List.mem_filterMap.mp hmem
    unfold leastSubtracted? at hrule
    split at hrule
    · rename_i hends
      obtain rfl := Option.some.inj hrule
      exact (List.mem_filter.mp (triggerBounds?_mem hends).1).1
    · cases hrule

theorem leastSubtraction?_le {rule : RerollRule} (hrule : rule ∈ d.rerolls)
    (heffect : rule.effect = .subtract) {face : Int} (hface : face ∈ d.faces)
    (h : rule.applies face) : ∃ least, d.leastSubtraction? = some least ∧ least ≤ face := by
  obtain ⟨ends, hends, hle, -⟩ := triggerBounds?_of_applies hface h
  have hmem : ends.1 ∈ d.rerolls.filterMap d.leastSubtracted? :=
    List.mem_filterMap.mpr ⟨rule, hrule, by rw [leastSubtracted?, heffect, hends]⟩
  unfold leastSubtraction?
  split
  · rename_i hnil
    rw [hnil] at hmem
    cases hmem
  · rename_i first more hall
    rw [hall] at hmem
    exact ⟨_, rfl, (Distribution.bounds_le first more hmem).1.trans hle⟩

theorem chainBounds_eq (d : RuledDie) :
    d.chainBounds = if d.maps.isEmpty then (d.lowTotal, d.highTotal)
      else d.mapBounds ((List.range (d.highTotal - d.lowTotal + 1).toNat).map
        fun (i : Nat) => d.lowTotal + i) := by
  have hhigh : d.sides + (d.rerolls.map d.mostAdded).foldr (· + ·) (0 : Int) = d.highTotal := by
    rw [highTotal, toAdd_uses, List.sum_eq_foldr]
  unfold chainBounds lowTotal leastSubtraction?
  rw [hhigh]
  cases d.rerolls.filterMap d.leastSubtracted? <;> rfl

theorem valueOf_within_mapBounds (hmaps : d.maps.isEmpty = false) {totals : List Int} {t : Int}
    (ht : t ∈ totals) : (d.mapBounds totals).1 ≤ d.valueOf t ∧ d.valueOf t ≤ (d.mapBounds totals).2 := by
  have hmem : d.valueOf t ∈ totals.map fun total => (d.mapTotal total).value := by
    simp only [valueOf, hmaps]
    exact List.mem_map_of_mem ht
  unfold mapBounds
  split
  · rename_i hnil
    rw [hnil] at hmem
    cases hmem
  · rename_i first more hall
    exact Distribution.bounds_le first more (hall ▸ hmem)

theorem valueOf_within_chainBounds {t : Int} (hlow : d.lowTotal ≤ t) (hhigh : t ≤ d.highTotal) :
    d.chainBounds.1 ≤ d.valueOf t ∧ d.valueOf t ≤ d.chainBounds.2 := by
  rw [chainBounds_eq]
  cases hmaps : d.maps.isEmpty with
  | true =>
    rw [valueOf_of_isEmpty hmaps]
    exact ⟨hlow, hhigh⟩
  | false =>
    refine valueOf_within_mapBounds hmaps (List.mem_map.mpr ⟨(t - d.lowTotal).toNat, ?_, ?_⟩)
    · rw [List.mem_range]
      omega
    · omega

-- ---------------------------------------------------------------------------
-- Running totals
-- ---------------------------------------------------------------------------

/-- No face that a rule keeps is worth more than the use of an adding rule that it can stand in
for, neither on the way up nor, once a roll has been subtracted, on the way down. -/
structure Covered (d : RuledDie) : Prop where
  best : ∀ ends ∈ d.adding, ∀ x ∈ d.triggered .useBest, x ≤ ends.2
  worst : ∀ least, d.leastSubtraction? = some least →
    ∀ ends ∈ d.adding, ∀ x ∈ d.triggered .useWorst, x ≤ ends.2 ∧ least ≤ x + ends.2
  fresh : ∀ least, d.leastSubtraction? = some least →
    (d.triggered .useWorst ≠ [] ∨ d.triggered .replace ≠ []) →
    ∀ ends ∈ d.adding, least ≤ ends.1 + ends.2

/-- A total on its way up: with all that is left to add it is ahead of the formula by the last
face at most, or by a face that is kept. -/
structure Rising (d : RuledDie) (left : List Nat) (total face : Int) : Prop where
  pos : 1 ≤ total
  most : ∃ x, (x = face ∨ x ∈ d.triggered .useBest) ∧
    total + d.toAdd left ≤ d.toAdd d.uses + x

/-- A total on its way down from the lowest subtraction: what has been taken off it is what
adding rules were used for, but for the last face or a face that was kept; or it is still
as high as a face that the next use of a rule makes up for. -/
inductive Falling (d : RuledDie) (least : Int) (left : List Nat) (total face : Int) : Prop
  | taken {x : Int} (hx : x = face ∨ x ∈ d.triggered .useBest ∨ x ∈ d.triggered .useWorst)
      (h : least + d.toAdd left ≤ total + d.toAdd d.uses + x)
  | held {x : Int} (hx : x ∈ d.triggered .useWorst) (h : x ≤ total)
  | fresh (hx : d.triggered .useWorst ≠ [] ∨ d.triggered .replace ≠ []) (h : face ≤ total)

/-- What a total and the last face satisfy together while the die is rolled. -/
structure Joined (d : RuledDie) (left : List Nat) (subtracting : Bool) (total face : Int) :
    Prop where
  left_le : d.toAdd left ≤ d.toAdd d.uses
  rising : subtracting = false → d.Rising left total face
  falling : subtracting = true → total ≤ d.sides ∧
    ∃ least, d.leastSubtraction? = some least ∧ d.Falling least left total face

-- ---------------------------------------------------------------------------
-- One more roll
-- ---------------------------------------------------------------------------

theorem toAdd_useRule {left left' : List Nat} {face : Int} {first : Bool} {effect : Effect}
    (h : useRule d.rerolls left face first = some (effect, left')) :
    ∃ rule ∈ d.rerolls, rule.effect = effect ∧ rule.answers face first ∧
      d.toAdd left' + d.added rule = d.toAdd left := by
  obtain ⟨before, rule, after, used, uses, unused, hrules, rfl, rfl, hlen, heffect, hanswers⟩ :=
    useRule_some h
  refine ⟨rule, by simp [hrules], heffect, hanswers, ?_⟩
  unfold toAdd
  rw [hrules, List.zip_append hlen.symm, List.zip_append hlen.symm]
  simp only [List.zip_cons_cons, List.map_append, List.map_cons, List.sum_append, List.sum_cons]
  push_cast
  ring

section
variable {left left' : List Nat} {total face next : Int}

theorem Rising.of_le (hleft : d.toAdd left ≤ d.toAdd d.uses) (hpos : 1 ≤ total)
    (h : total ≤ face) : d.Rising left total face :=
  ⟨hpos, face, .inl rfl, by omega⟩

theorem Rising.add (h : d.Rising left total face) (hd : d.Covered) {ends : Int × Int}
    (hends : ends ∈ d.adding) (hface : face ≤ ends.2)
    (hleft : d.toAdd left' + ends.2 = d.toAdd left) (hnext : 1 ≤ next) :
    d.Rising left' (total + next) next := by
  obtain ⟨hpos, x, hx, hmost⟩ := h
  have hle : x ≤ ends.2 := by
    rcases hx with rfl | hx
    · exact hface
    · exact hd.best ends hends x hx
  exact ⟨by omega, next, .inl rfl, by omega⟩

theorem Rising.useBest (h : d.Rising left total face) (hface : face ∈ d.triggered .useBest)
    (hle : d.toAdd left ≤ d.toAdd d.uses) : d.Rising left (max total next) next := by
  obtain ⟨hpos, x, hx, hmost⟩ := h
  have hx : x ∈ d.triggered .useBest := by
    rcases hx with rfl | hx
    · exact hface
    · exact hx
  rcases max_choice total next with hmax | hmax
  · rw [hmax]
    exact ⟨hpos, x, .inr hx, hmost⟩
  · rw [hmax]
    exact .of_le hle (hpos.trans (max_eq_right_iff.mp hmax)) le_rfl

theorem Falling.begin {least : Int} (hleft : d.toAdd left ≤ d.toAdd d.uses) (h : least ≤ face) :
    d.Falling least left (face - next) next :=
  .taken (.inl rfl) (by omega)

theorem Falling.add {least : Int} (h : d.Falling least left total face) (hd : d.Covered)
    (hleast : d.leastSubtraction? = some least) (hle : d.toAdd left ≤ d.toAdd d.uses)
    {ends : Int × Int} (hends : ends ∈ d.adding) (hlow : ends.1 ≤ face) (hhigh : face ≤ ends.2)
    (hleft : d.toAdd left' + ends.2 = d.toAdd left) : d.Falling least left' (total - next) next := by
  refine .taken (.inl rfl) ?_
  cases h with
  | @taken x hx h =>
    have hle : x ≤ ends.2 := by
      rcases hx with rfl | hx | hx
      · exact hhigh
      · exact hd.best ends hends x hx
      · exact (hd.worst least hleast ends hends x hx).1
    omega
  | @held x hx h =>
    have := (hd.worst least hleast ends hends x hx).2
    omega
  | fresh hx h =>
    have := hd.fresh least hleast hx ends hends
    omega

theorem Falling.useBest {least : Int} (h : d.Falling least left total face)
    (hface : face ∈ d.triggered .useBest) : d.Falling least left (max total next) next := by
  cases h with
  | taken hx h =>
    refine .taken (.inr ?_) (h.trans (by gcongr; exact le_max_left total next))
    rcases hx with rfl | hx
    · exact .inl hface
    · exact hx
  | held hx h => exact .held hx (h.trans (le_max_left total next))
  | fresh hx h => exact .fresh hx (le_max_right total next)

theorem Falling.useWorst {least : Int} (h : d.Falling least left total face)
    (hface : face ∈ d.triggered .useWorst) : d.Falling least left (min total next) next := by
  rcases min_choice total next with hmin | hmin <;> rw [hmin]
  · cases h with
    | taken hx h =>
      refine .taken (.inr ?_) h
      rcases hx with rfl | hx
      · exact .inr hface
      · exact hx
    | held hx h => exact .held hx h
    | fresh hx h => exact .held hface h
  · exact .fresh (.inl (List.ne_nil_of_mem hface)) le_rfl

theorem Falling.replace {least : Int} (hface : face ∈ d.triggered .replace) :
    d.Falling least left next next :=
  .fresh (.inr (List.ne_nil_of_mem hface)) le_rfl

theorem Joined.mono {subtracting : Bool} (h : d.Joined left subtracting total face)
    (hle : d.toAdd left' ≤ d.toAdd left) : d.Joined left' subtracting total face where
  left_le := hle.trans h.left_le
  rising hs := by
    obtain ⟨hpos, x, hx, hmost⟩ := h.rising hs
    exact ⟨hpos, x, hx, by omega⟩
  falling hs := by
    obtain ⟨hsides, least, hleast, hfalling⟩ := h.falling hs
    refine ⟨hsides, least, hleast, ?_⟩
    cases hfalling with
    | taken hx h => exact .taken hx (by omega)
    | held hx h => exact .held hx h
    | fresh hx h => exact .fresh hx h

/-- One more roll, by the effect of the rule that calls for it. -/
theorem Joined.step {subtracting first : Bool} {effect : Effect}
    (h : d.Joined left subtracting total face) (hd : d.Covered) (hface : face ∈ d.faces)
    (hfirst : first → subtracting = false ∧ total = face)
    (hrule : useRule d.rerolls left face first = some (effect, left')) (hnext : next ∈ d.faces) :
    d.Joined left' ((⟨some total, subtracting⟩ : Running).join next effect).subtracting
      ((⟨some total, subtracting⟩ : Running).joined next effect) next := by
  obtain ⟨rule, hmem, heffect, hanswers, hleft⟩ := toAdd_useRule hrule
  have happlies : rule.applies face := (Bool.and_eq_true_iff.mp hanswers).2
  have htriggered := heffect ▸ mem_triggered hmem hface happlies
  have h' : d.Joined left' subtracting total face :=
    h.mono (by have := d.added_nonneg rule; omega)
  obtain ⟨hlow, hhigh⟩ := Die.mem_faces.mp hnext
  -- Only a subtraction, which a first roll alone calls for, turns a rising total into a falling one.
  cases effect with
  | basic => exact absurd heffect rule.not_basic
  | add =>
    obtain ⟨ends, hends, hadded, hle, hge⟩ := added_of_applies hmem heffect hface happlies
    rw [← hadded] at hleft
    cases subtracting with
    | false => exact ⟨h'.left_le, fun _ => (h.rising rfl).add hd hends hge hleft hlow, nofun⟩
    | true =>
      obtain ⟨hsides, least, hleast, hfalling⟩ := h.falling rfl
      exact ⟨h'.left_le, nofun, fun _ => ⟨by show total - next ≤ _; omega, least, hleast,
        hfalling.add hd hleast h.left_le hends hle hge hleft⟩⟩
  | subtract =>
    have hisFirst : first = true := by simpa [RerollRule.answers, heffect, happlies] using hanswers
    obtain ⟨rfl, rfl⟩ := hfirst hisFirst
    obtain ⟨least, hleast, hle⟩ := leastSubtraction?_le hmem heffect hface happlies
    have hsides := (Die.mem_faces.mp hface).2
    exact ⟨h'.left_le, nofun, fun _ => ⟨by show total - next ≤ _; omega, least, hleast,
      .begin h'.left_le hle⟩⟩
  | replace =>
    cases subtracting with
    | false => exact ⟨h'.left_le, fun _ => .of_le h'.left_le hlow le_rfl, nofun⟩
    | true =>
      obtain ⟨-, least, hleast, -⟩ := h'.falling rfl
      exact ⟨h'.left_le, nofun, fun _ => ⟨hhigh, least, hleast, .replace htriggered⟩⟩
  | useBest =>
    cases subtracting with
    | false => exact ⟨h'.left_le, fun _ => (h'.rising rfl).useBest htriggered h'.left_le, nofun⟩
    | true =>
      obtain ⟨hsides, least, hleast, hfalling⟩ := h'.falling rfl
      exact ⟨h'.left_le, nofun, fun _ => ⟨max_le hsides hhigh, least, hleast,
        hfalling.useBest htriggered⟩⟩
  | useWorst =>
    cases subtracting with
    | false =>
      exact ⟨h'.left_le, fun _ => .of_le h'.left_le (le_min (h'.rising rfl).pos hlow)
        (min_le_right total next), nofun⟩
    | true =>
      obtain ⟨hsides, least, hleast, hfalling⟩ := h'.falling rfl
      exact ⟨h'.left_le, nofun, fun _ => ⟨(min_le_left total next).trans hsides, least, hleast,
        hfalling.useWorst htriggered⟩⟩

theorem Joined.within {subtracting : Bool} (h : d.Joined left subtracting total face)
    (hface : face ∈ d.faces) : d.lowTotal ≤ total ∧ total ≤ d.highTotal := by
  obtain ⟨hpos, hsides⟩ := Die.mem_faces.mp hface
  have hleft := d.toAdd_nonneg left
  have huses := d.toAdd_nonneg d.uses
  have hkept : ∀ {effect : Effect} {x : Int}, x ∈ d.triggered effect → 1 ≤ x ∧ x ≤ d.sides :=
    fun hx => Die.mem_faces.mp (mem_faces_of_mem_triggered hx)
  unfold lowTotal highTotal
  cases subtracting with
  | false =>
    obtain ⟨htotal, x, hx, hmost⟩ := h.rising rfl
    have hx : x ≤ d.sides := by
      rcases hx with rfl | hx
      · exact hsides
      · exact (hkept hx).2
    refine ⟨?_, by omega⟩
    split
    · exact htotal
    · rename_i least hleast
      have := (Die.mem_faces.mp (leastSubtraction?_mem hleast)).2
      omega
  | true =>
    obtain ⟨htotal, least, hleast, hfalling⟩ := h.falling rfl
    have := (Die.mem_faces.mp (leastSubtraction?_mem hleast)).2
    rw [hleast]
    refine ⟨?_, by omega⟩
    show least - (d.sides + d.toAdd d.uses) ≤ total
    cases hfalling with
    | taken hx h =>
      rcases hx with rfl | hx | hx
      · omega
      · have := (hkept hx).2
        omega
      · have := (hkept hx).2
        omega
    | held hx h =>
      have := (hkept hx).1
      omega
    | fresh hx h => omega

end

-- ---------------------------------------------------------------------------
-- All rolls
-- ---------------------------------------------------------------------------

/-- Whatever face comes up next in a branch joins its total well. -/
structure Tame (d : RuledDie) (b : Branch) : Prop where
  first : b.running.total = none → b.running.subtracting = false
  joined : ∀ face ∈ d.faces,
    d.Joined b.left (b.running.join face b.effect).subtracting (b.total face) face

theorem tame_start (d : RuledDie) : d.Tame (Branch.start d) where
  first _ := rfl
  joined _ hface := ⟨le_rfl, fun _ => .of_le le_rfl (Die.mem_faces.mp hface).1 le_rfl, nofun⟩

theorem Tame.after {b b' : Branch} {face : Int} (h : d.Tame b) (hd : d.Covered)
    (hface : face ∈ d.faces) (ha : b.after d face = some b') : d.Tame b' := by
  obtain ⟨⟨effect, left⟩, hrule, rfl⟩ := Option.map_eq_some_iff.mp ha
  refine ⟨nofun, fun next hnext => ?_⟩
  refine (h.joined face hface).step hd hface (fun hfirst => ?_) hrule hnext
  rw [Option.isNone_iff_eq_none] at hfirst
  simp [Branch.total, Running.join, Running.joined, hfirst, h.first hfirst]

theorem Tame.within {b : Branch} {t : Int} (h : d.Tame b) (hd : d.Covered) (ht : b.Ends d t) :
    d.lowTotal ≤ t ∧ t ≤ d.highTotal := by
  induction ht with
  | done hface _ => exact (h.joined _ hface).within hface
  | more hface ha _ ih => exact ih (h.after hd hface ha)

/-- The formula bounds every roll of a die that it covers. -/
theorem Covered.within (hd : d.Covered) {t : Int} (ht : t ∈ d.endings) :
    d.lowTotal ≤ t ∧ t ≤ d.highTotal :=
  d.tame_start.within hd (Branch.mem_settle_drawAny.mp ht)

-- ---------------------------------------------------------------------------
-- The bounds of a die
-- ---------------------------------------------------------------------------

section
variable {α : Type} [Mass α] {low high : Int}

theorem endings_of_isEmpty (h : d.rerolls.isEmpty) {t : Int} (ht : t ∈ d.endings) : t ∈ d.faces := by
  cases Branch.mem_settle_drawAny.mp ht with
  | done hface _ => exact hface
  | more _ ha _ =>
    rw [Branch.after_start_of_isEmpty h] at ha
    cases ha

theorem within_of_isEmpty (hrerolls : d.rerolls.isEmpty) (h : d.bounds α = .ok (low, high)) {t : Int}
    (ht : t ∈ d.endings) : low ≤ d.valueOf t ∧ d.valueOf t ≤ high := by
  have hface := endings_of_isEmpty hrerolls ht
  simp only [bounds, hrerolls, if_true, pure_ok] at h
  cases hmaps : d.maps.isEmpty with
  | true =>
    simp only [hmaps, if_true, Prod.mk.injEq] at h
    obtain ⟨rfl, rfl⟩ := h
    rw [valueOf_of_isEmpty hmaps]
    exact Die.mem_faces.mp hface
  | false =>
    simp only [hmaps, Bool.false_eq_true, if_false] at h
    have hwithin := valueOf_within_mapBounds hmaps hface
    rwa [h] at hwithin

theorem bounds_ok_of_rerolls (hrerolls : d.rerolls.isEmpty = false)
    (h : d.bounds α = .ok (low, high)) : ∃ o : Odds α, d.odds = .ok o ∧
      (o.complete = true → low = o.distribution.low ∧ high = o.distribution.high) ∧
      (o.complete = false → low = min o.distribution.low d.chainBounds.1 ∧
        high = max o.distribution.high d.chainBounds.2) := by
  simp only [bounds, hrerolls, Bool.false_eq_true, if_false, bind_ok] at h
  obtain ⟨o, ho, h⟩ := h
  refine ⟨o, ho, ?_⟩
  split at h
  · rename_i hc
    obtain ⟨rfl, rfl⟩ := Prod.mk.inj (pure_ok.mp h)
    exact ⟨fun _ => ⟨rfl, rfl⟩, fun hc' => absurd hc (by simp [hc'])⟩
  · rename_i hc
    obtain ⟨rfl, rfl⟩ := Prod.mk.inj (pure_ok.mp h)
    exact ⟨fun hc' => absurd hc' hc, fun _ => ⟨rfl, rfl⟩⟩

theorem HasExactOdds.rollsWithin (hd : d.HasExactOdds α) (h : d.bounds α = .ok (low, high)) :
    d.RollsWithin low high := by
  refine rollsWithin_iff.mpr fun t ht => ?_
  cases hrerolls : d.rerolls.isEmpty with
  | true => exact within_of_isEmpty hrerolls h ht
  | false =>
    obtain ⟨o, ho, hbounds, -⟩ := bounds_ok_of_rerolls hrerolls h
    obtain ⟨rfl, rfl⟩ := hbounds ((odds_ok_of_rerolls hrerolls ho).1.trans hd.complete)
    exact hd.within ho hrerolls ht

/-- Where the odds are cut, totals within the formula have values within the bounds. -/
theorem valueOf_within_bounds (hcut : (Chains.ofDie d : Chains α).complete = false)
    (h : d.bounds α = .ok (low, high)) {t : Int} (ht : t ∈ d.endings) (hlow : d.lowTotal ≤ t)
    (hhigh : t ≤ d.highTotal) : low ≤ d.valueOf t ∧ d.valueOf t ≤ high := by
  cases hrerolls : d.rerolls.isEmpty with
  | true => exact within_of_isEmpty hrerolls h ht
  | false =>
    obtain ⟨o, ho, -, hbounds⟩ := bounds_ok_of_rerolls hrerolls h
    obtain ⟨rfl, rfl⟩ := hbounds ((odds_ok_of_rerolls hrerolls ho).1.trans hcut)
    obtain ⟨hle, hge⟩ := valueOf_within_chainBounds hlow hhigh
    exact ⟨(min_le_right _ _).trans hle, hge.trans (le_max_right _ _)⟩

theorem Covered.rollsWithin (hd : d.Covered) (hcut : (Chains.ofDie d : Chains α).complete = false)
    (h : d.bounds α = .ok (low, high)) : d.RollsWithin low high := by
  refine rollsWithin_iff.mpr fun t ht => ?_
  obtain ⟨hle, hge⟩ := hd.within ht
  exact valueOf_within_bounds hcut h ht hle hge

end

end TabletopDice.RuledDie
