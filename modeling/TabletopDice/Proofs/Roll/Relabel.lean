import TabletopDice.Proofs.Dice.Created
import TabletopDice.Proofs.Notation.Relabel
import TabletopDice.Proofs.Roll.Shown

/-!
# Other labels for what is rolled

Dice with other labels are built, rolled and totalled as they are; only the
labels are other ones. A report of the roll shows whether they are: where each
label is as long as the one it stands for, the two reports are the same exactly
if all labels that are shown are.
-/

namespace TabletopDice

-- ---------------------------------------------------------------------------
-- Labels
-- ---------------------------------------------------------------------------

section
variable (f : String → String)

def Mapped.relabel (mapped : Mapped) : Mapped := { mapped with label := f mapped.label }

def MapRule.relabel (rule : MapRule) : MapRule := { rule with mapped := rule.mapped.relabel f }

def RuledDie.relabel (d : RuledDie) : RuledDie := { d with maps := d.maps.map (MapRule.relabel f) }

def Bunch.relabel (b : Bunch) : Bunch := { b with die := b.die.relabel f }

def Term.relabel (t : Term) : Term := { t with bunch := t.bunch.relabel f }

def Dice.relabel (d : Dice) : Dice := { d with terms := d.terms.map (Term.relabel f) }

def History.relabel (h : History) : History := { h with mapped := h.mapped.map (Mapped.relabel f) }

def BunchRoll.relabel (r : BunchRoll) : BunchRoll where
  details := r.details.map (History.relabel f)
  kept := r.kept.map (History.relabel f)
  discarded := r.discarded.map (History.relabel f)

def DiceRoll.relabel (r : DiceRoll) : DiceRoll := { r with bunches := r.bunches.map (BunchRoll.relabel f) }

@[simp] theorem RuledDie.toDie_relabel (d : RuledDie) : (d.relabel f).toDie = d.toDie := rfl

@[simp] theorem RuledDie.rerolls_relabel (d : RuledDie) : (d.relabel f).rerolls = d.rerolls := rfl

@[simp] theorem RuledDie.uses_relabel (d : RuledDie) : (d.relabel f).uses = d.uses := rfl

@[simp] theorem Bunch.count_relabel (b : Bunch) : (b.relabel f).count = b.count := rfl

@[simp] theorem Bunch.keep_relabel (b : Bunch) : (b.relabel f).keep = b.keep := rfl

@[simp] theorem Dice.offset_relabel (d : Dice) : (d.relabel f).offset = d.offset := rfl

@[simp] theorem History.steps_relabel (h : History) : (h.relabel f).steps = h.steps := rfl

@[simp] theorem History.total_relabel (h : History) : (h.relabel f).total = h.total := rfl

@[simp] theorem History.relabel_ofRoll (roll : Int) : (ofRoll roll).relabel f = ofRoll roll := rfl

@[simp] theorem History.value_relabel (h : History) : (h.relabel f).value = h.value := by
  cases hm : h.mapped <;> simp [value, value?, relabel, Mapped.relabel, hm, total]

@[simp] theorem Bunch.hasMaps_relabel (b : Bunch) : (b.relabel f).hasMaps = b.hasMaps := by
  simp [hasMaps, relabel, RuledDie.relabel]

@[simp] theorem BunchRoll.result_relabel (r : BunchRoll) : (r.relabel f).result = r.result := by
  simp [result, relabel, Function.comp_def]

@[simp] theorem Dice.scaledResults_relabel (d : Dice) (rolls : List BunchRoll) :
    (d.relabel f).scaledResults (rolls.map (BunchRoll.relabel f)) = d.scaledResults rolls := by
  simp [scaledResults, relabel, List.zip_map, Term.relabel, Function.comp_def]

end

theorem History.label_relabel {f : String → String} (hf : f "" = "") (h : History) :
    (h.relabel f).label = f h.label := by
  cases hm : h.mapped <;> simp [label, relabel, Mapped.relabel, hm, hf]

/-- Two ways of naming that come to the same roll agree on its labels. -/
theorem DiceRoll.label_eq {f g : String → String} (hf : f "" = "") (hg : g "" = "") {r : DiceRoll}
    (heq : r.relabel f = r.relabel g) : ∀ b ∈ r.bunches, ∀ h ∈ b.details, f h.label = g h.label := by
  intro b hb h hh
  have hbunch := List.map_inj_left.mp (congrArg DiceRoll.bunches heq) b hb
  have hdetail := List.map_inj_left.mp (congrArg BunchRoll.details hbunch) h hh
  rw [← h.label_relabel hf, ← h.label_relabel hg, hdetail]

-- ---------------------------------------------------------------------------
-- Building and rolling
-- ---------------------------------------------------------------------------

/-- What is done with each is done with what became of it. -/
theorem mapM_map_eq {m : Type → Type} [Monad m] [LawfulMonad m] {β β' γ γ' : Type} {run : β → m γ}
    {run' : β' → m γ'} {g : β → β'} {k : γ → γ'} (h : ∀ b, run' (g b) = k <$> run b) (bs : List β) :
    (bs.map g).mapM run' = List.map k <$> bs.mapM run := by
  induction bs with
  | nil => simp
  | cons b bs ih => simp [h, ih]

section
variable {f : String → String} (hf : f "" = "")
include hf

theorem MapSpec.build_relabel (s : MapSpec) : (s.relabel f).build = s.build.relabel f := by
  cases hs : s.label <;> simp [build, relabel, MapRule.relabel, Mapped.relabel, hs, hf]

theorem RuledDie.ofSpecs_relabel (sides : Int) (rerolls : List RerollSpec) (maps : List MapSpec) :
    ofSpecs sides rerolls (maps.map (MapSpec.relabel f)) =
      RuledDie.relabel f <$> ofSpecs sides rerolls maps := by
  simp [ofSpecs, relabel, MapSpec.build_relabel hf, Function.comp_def]

theorem Bunch.ofSpec_relabel (s : BunchSpec) : ofSpec (s.relabel f) = Bunch.relabel f <$> ofSpec s := by
  have hmaps : (s.relabel f).maps.getD [] = (s.maps.getD []).map (MapSpec.relabel f) := by
    cases h : s.maps <;> simp [BunchSpec.relabel, h]
  unfold ofSpec
  rw [hmaps, RuledDie.ofSpecs_relabel hf]
  simp [relabel, BunchSpec.relabel]

/-- Dice are built with other labels as they are without. -/
theorem Dice.ofSpec_relabel (s : RollSpec) : ofSpec (s.relabel f) = Dice.relabel f <$> ofSpec s := by
  have hterm : ∀ b : BunchSpec, (do return ⟨(b.relabel f).multiplier, ← Bunch.ofSpec (b.relabel f)⟩) =
      Term.relabel f <$> (do return ⟨b.multiplier, ← Bunch.ofSpec b⟩ : Except Fault Term) := by
    intro b
    rw [Bunch.ofSpec_relabel hf]
    simp [Term.relabel, BunchSpec.relabel]
  unfold ofSpec
  rw [RollSpec.relabel, mapM_map_eq hterm]
  simp [relabel]

theorem RuledDie.mapTotal_relabel (d : RuledDie) (total : Int) :
    (d.relabel f).mapTotal total = (d.mapTotal total).relabel f := by
  have hmap : ∀ rule : MapRule, (rule.relabel f).map? total = (rule.map? total).map (Mapped.relabel f) := by
    intro rule
    unfold MapRule.map? MapRule.relabel
    split <;> rfl
  have hfind : (d.relabel f).maps.findSome? (·.map? total) =
      (d.maps.findSome? (·.map? total)).map (Mapped.relabel f) := by
    rw [List.map_findSome?, relabel, List.findSome?_map]
    exact congrArg (d.maps.findSome? ·) (funext hmap)
  unfold mapTotal
  rw [hfind]
  cases d.maps.findSome? (·.map? total) with
  | none => simp [Mapped.relabel, hf]
  | some mapped => rfl

theorem RuledDie.finish_relabel (d : RuledDie) (h : History) :
    (d.relabel f).finish (h.relabel f) = (d.finish h).relabel f := by
  unfold finish
  rw [History.total_relabel, d.mapTotal_relabel hf]
  simp only [relabel, List.isEmpty_map]
  split <;> rfl

section
variable {m : Type → Type} [Monad m] [LawfulMonad m] (draw : Nat → m Int)

omit hf in
theorem RuledDie.rollOn_relabel (d : RuledDie) (fuel : Nat) (left : List Nat) (face : Int) (h : History) :
    (d.relabel f).rollOn draw fuel left face (h.relabel f) =
      History.relabel f <$> d.rollOn draw fuel left face h := by
  induction fuel generalizing left face h with
  | zero => simp [rollOn]
  | succ fuel ih =>
    rw [rollOn_succ, rollOn_succ, rerolls_relabel, History.steps_relabel]
    cases useRule d.rerolls left face (h.steps.size = 1) with
    | none => simp
    | some next =>
      obtain ⟨effect, left⟩ := next
      dsimp only
      rw [map_bind]
      exact bind_congr fun face => ih left face (h.add face effect)

theorem RuledDie.roll_relabel (d : RuledDie) : (d.relabel f).roll draw = History.relabel f <$> d.roll draw := by
  have hon := fun fuel left face => d.rollOn_relabel (f := f) draw fuel left face (History.ofRoll face)
  simp only [History.relabel_ofRoll] at hon
  unfold roll
  simp [hon, d.finish_relabel hf]

omit hf in
theorem Keep.divide_relabel (k : Keep) (hs : List History) :
    k.divide History.value (hs.map (History.relabel f)) =
      Prod.map (List.map (History.relabel f)) (List.map (History.relabel f)) (k.divide History.value hs) := by
  have hsort : (hs.map (History.relabel f)).mergeSort (fun a b => decide (a.value ≤ b.value)) =
      (hs.mergeSort fun a b => decide (a.value ≤ b.value)).map (History.relabel f) :=
    (List.map_mergeSort fun a _ b _ => by simp).symm
  unfold divide
  rw [hsort]
  cases k.mode <;> simp

omit hf in
theorem Bunch.choose_relabel (b : Bunch) (hs : List History) :
    (b.relabel f).choose (hs.map (History.relabel f)) = (b.choose hs).relabel f := by
  unfold choose
  rw [keep_relabel, count_relabel]
  cases b.keep with
  | none => rfl
  | some k =>
    simp only [k.divide_relabel]
    split <;> rfl

theorem Bunch.roll_relabel (b : Bunch) : (b.relabel f).roll draw = BunchRoll.relabel f <$> b.roll draw := by
  have hrolls : (List.replicate b.count (b.relabel f).die).mapM (RuledDie.roll draw) =
      List.map (History.relabel f) <$> (List.replicate b.count b.die).mapM (RuledDie.roll draw) := by
    have hdie : (b.relabel f).die = b.die.relabel f := rfl
    rw [hdie, ← List.map_replicate]
    exact mapM_map_eq (fun d => d.roll_relabel hf draw) _
  unfold roll
  rw [count_relabel, hrolls]
  simp [b.choose_relabel]

/-- Dice with other labels roll as they do without. -/
theorem Dice.roll_relabel (d : Dice) : (d.relabel f).roll draw = DiceRoll.relabel f <$> d.roll draw := by
  have hrolls : ((d.relabel f).terms.mapM fun t => t.bunch.roll draw) =
      List.map (BunchRoll.relabel f) <$> d.terms.mapM fun t => t.bunch.roll draw :=
    mapM_map_eq (fun t => t.bunch.roll_relabel hf draw) d.terms
  have htotal : ∀ rolls, (d.relabel f).total (rolls.map (BunchRoll.relabel f)) = (d.total rolls).relabel f := by
    intro rolls
    simp [total, DiceRoll.relabel]
  unfold roll
  rw [hrolls]
  simp [htotal]

end

end

-- ---------------------------------------------------------------------------
-- Wordings
-- ---------------------------------------------------------------------------

namespace Wording

@[simp] theorem text_append (w w' : Wording) : (w ++ w').text = w.text ++ w'.text := by
  simp [text]

@[simp] theorem writable_append {w w' : Wording} : (w ++ w').Writable ↔ w.Writable ∧ w'.Writable :=
  List.forall_mem_append

/-- Their texts have one length. They are the same exactly if something holds, and if one of them can
be written so can the other. -/
structure SameIff (P : Prop) (w w' : Wording) : Prop where
  length : w'.text.length = w.text.length
  text : w'.text = w.text ↔ P
  writable : w'.Writable ↔ w.Writable

namespace SameIff

variable {P Q : Prop} {w w' v v' : Wording}

theorem refl (w : Wording) : SameIff True w w := ⟨rfl, by simp, .rfl⟩

theorem iff (h : SameIff P w w') (hPQ : P ↔ Q) : SameIff Q w w' := ⟨h.length, h.text.trans hPQ, h.writable⟩

theorem append (h : SameIff P w w') (hv : SameIff Q v v') : SameIff (P ∧ Q) (w ++ v) (w' ++ v') where
  length := by simp [h.length, hv.length]
  text := by
    rw [text_append, text_append, ← h.text, ← hv.text]
    constructor
    · intro heq
      have hlists := congrArg String.toList heq
      rw [String.toList_append, String.toList_append] at hlists
      obtain ⟨hleft, hright⟩ := List.append_inj hlists h.length
      exact ⟨String.toList_injective hleft, String.toList_injective hright⟩
    · rintro ⟨hleft, hright⟩
      rw [hleft, hright]
  writable := by rw [writable_append, writable_append, h.writable, hv.writable]

theorem append_left (v : Wording) (h : SameIff P w w') : SameIff P (v ++ w) (v ++ w') :=
  ((refl v).append h).iff (by rw [true_and])

theorem append_right (h : SameIff P w w') (v : Wording) : SameIff P (w ++ v) (w' ++ v) :=
  (h.append (refl v)).iff (by rw [and_true])

theorem words {s s' : String} (h : s'.length = s.length) : SameIff (s' = s) [.words s] [.words s'] where
  length := by simpa [Wording.text, Piece.text] using h
  text := by simp [Wording.text, Piece.text]
  writable := by simp [Writable, Piece.Writable]

variable {β : Type} {R : β → Prop} {f f' : β → Wording} {bs : List β}

theorem flatMap (h : ∀ b ∈ bs, SameIff (R b) (f b) (f' b)) :
    SameIff (∀ b ∈ bs, R b) (bs.flatMap f) (bs.flatMap f') := by
  induction bs with
  | nil => exact (refl []).iff (by simp)
  | cons b bs ih =>
    rw [List.forall_mem_cons] at h
    exact (h.1.append (ih h.2)).iff List.forall_mem_cons.symm

/-- Some that may differ, and then more that are the same. -/
theorem join (separator : String) (h : ∀ b ∈ bs, SameIff (R b) (f b) (f' b)) (more : List Wording) :
    SameIff (∀ b ∈ bs, R b) (Wording.join separator (bs.map f ++ more))
      (Wording.join separator (bs.map f' ++ more)) := by
  cases bs with
  | nil => exact (refl _).iff (by simp)
  | cons b bs =>
    rw [List.forall_mem_cons] at h
    have hrest := (flatMap fun b hb => (h.2 b hb).append_left [.words separator]).append_right
      (more.flatMap (.words separator :: ·))
    simp only [List.map_cons, List.cons_append, join_cons, List.flatMap_append, List.flatMap_map]
    exact (h.1.append hrest).iff List.forall_mem_cons.symm

end SameIff

end Wording

-- ---------------------------------------------------------------------------
-- Reports
-- ---------------------------------------------------------------------------

section
variable {f : String → String} (hf : ∀ s, (f s).length = s.length)
include hf

theorem eq_empty_iff_of_length (s : String) : f s = "" ↔ s = "" := by
  rw [← String.length_eq_zero_iff, hf, String.length_eq_zero_iff]

theorem History.same_labelSuffix (h : History) :
    Wording.SameIff (f h.label = h.label) h.labelSuffix (h.relabel f).labelSuffix := by
  have hempty := (eq_empty_iff_of_length hf "").mpr rfl
  simp only [labelSuffix, h.label_relabel hempty, eq_empty_iff_of_length hf]
  split
  · rename_i hlabel
    exact (Wording.SameIff.refl []).iff (by simp [hlabel, hempty])
  · exact (Wording.SameIff.words (by simp [hf])).iff (String.append_right_inj " ")

theorem History.same_explain (h : History) :
    Wording.SameIff (f h.label = h.label) h.explain (h.relabel f).explain :=
  (h.same_labelSuffix hf).append_left h.breakdown

theorem History.same_explainTotal (h : History) :
    Wording.SameIff (f h.label = h.label) h.explainTotal (h.relabel f).explainTotal :=
  (h.same_labelSuffix hf).append_left _

omit hf in
theorem History.same_join {explain : History → Wording}
    (h : ∀ x : History, Wording.SameIff (f x.label = x.label) (explain x) (explain (x.relabel f)))
    (separator : String) (hs : List History) : Wording.SameIff (∀ x ∈ hs, f x.label = x.label)
      (Wording.join separator (hs.map explain))
      (Wording.join separator ((hs.map (History.relabel f)).map explain)) := by
  have hjoin := Wording.SameIff.join separator (fun x (_ : x ∈ hs) => h x) []
  simpa [Function.comp_def] using hjoin

/-- The dice that are kept are named after all have been, with the same labels. -/
theorem Bunch.same_explain (b : Bunch) {r : BunchRoll} (hkept : r.kept ⊆ r.details) :
    Wording.SameIff (∀ h ∈ r.details, f h.label = h.label) (b.explain r)
      ((b.relabel f).explain (r.relabel f)) := by
  have hdetails := fun separator => History.same_join (History.same_explain hf) separator r.details
  have hshown := fun separator => History.same_join (History.same_explainTotal hf) separator r.kept
  unfold explain
  simp only [keep_relabel, count_relabel, hasMaps_relabel, BunchRoll.result_relabel]
  cases b.keep with
  | none =>
    dsimp only
    split
    · exact (hdetails _).append_right _
    · exact (hdetails _).append_right _
  | some k =>
    have hboth := ((hdetails ", ").append ((hshown (if b.hasMaps then ", " else " + ")).append_left
      [.words ". Keep: "])).append_right
        (if b.hasMaps then [.words ". Successes: ", .number r.result]
          else if k.count > 1 then [.words " = ", .number r.result] else [])
    exact hboth.iff (and_iff_left_of_imp fun hall h hh => hall h (hkept hh))

theorem Dice.same_explain (d : Dice) {rolls : List BunchRoll} (hlen : rolls.length = d.terms.length)
    (hkept : ∀ r ∈ rolls, r.kept ⊆ r.details) :
    Wording.SameIff (∀ r ∈ rolls, ∀ h ∈ r.details, f h.label = h.label) (d.explain (d.total rolls))
      ((d.relabel f).explain ((d.total rolls).relabel f)) := by
  have hall : (∀ e ∈ d.terms.zip rolls, ∀ h ∈ e.2.details, f h.label = h.label) ↔
      ∀ r ∈ rolls, ∀ h ∈ r.details, f h.label = h.label := by
    have hsnd : (d.terms.zip rolls).map Prod.snd = rolls := List.map_snd_zip hlen.le
    rw [← List.forall_mem_map (f := Prod.snd) (P := fun r : BunchRoll => ∀ h ∈ r.details, f h.label = h.label),
      hsnd]
  have hpart : ∀ e ∈ d.terms.zip rolls, Wording.SameIff (∀ h ∈ e.2.details, f h.label = h.label)
      (e.1.bunch.explainLabelled e.2) ((e.1.bunch.relabel f).explainLabelled (e.2.relabel f)) := fun e he =>
    (e.1.bunch.same_explain hf (hkept e.2 (List.of_mem_zip he).2)).append_left [.words (e.1.bunch.label ++ ": ")]
  have hparts := fun sum => (Wording.SameIff.join ". " hpart sum).iff hall
  obtain ⟨terms, offset⟩ := d
  cases terms with
  | nil =>
    obtain rfl := List.eq_nil_of_length_eq_zero hlen
    exact (Wording.SameIff.refl _).iff (by simp)
  | cons first rest =>
    have hscaled := Dice.scaledResults_relabel f ⟨first :: rest, offset⟩ rolls
    have hzip : (Dice.relabel f ⟨first :: rest, offset⟩).terms.zip (rolls.map (BunchRoll.relabel f)) =
        ((first :: rest).zip rolls).map (Prod.map (Term.relabel f) (BunchRoll.relabel f)) := List.zip_map ..
    have hterms : (Dice.relabel f ⟨first :: rest, offset⟩).terms =
        first.relabel f :: rest.map (Term.relabel f) := rfl
    simp only [explain, DiceRoll.relabel, total, hterms] at hzip ⊢
    simp only [hzip, hscaled, List.map_map]
    exact hparts _

/-- Reports of a roll, with these labels and with others. -/
theorem Report.same_roll (style : Style) (d : Dice) {rolls : List BunchRoll}
    (hlen : rolls.length = d.terms.length) (hkept : ∀ r ∈ rolls, r.kept ⊆ r.details) :
    Wording.SameIff (∀ r ∈ rolls, ∀ h ∈ r.details, f h.label = h.label)
      (Report.roll style d (some (d.total rolls)))
      (Report.roll style (d.relabel f) (some ((d.total rolls).relabel f))) :=
  ((d.same_explain hf hlen hkept).append_left [.words (" " ++ style.arrow ++ " ")]).append_left
    (style.bold [.number (d.total rolls).result])

end

-- ---------------------------------------------------------------------------
-- What is rolled
-- ---------------------------------------------------------------------------

theorem Bunch.kept_choose (b : Bunch) (hs : List History) : (b.choose hs).kept ⊆ (b.choose hs).details := by
  unfold choose
  cases b.keep with
  | none => exact List.Subset.refl hs
  | some keep =>
    dsimp only
    split
    · exact List.Subset.refl hs
    · obtain ⟨l, hpart, hperm⟩ := keep.exists_infix_divide History.value hs
      exact List.Subset.trans hpart.subset hperm.subset

/-- A roll is made up of one roll for each bunch, with no dice kept but such as were rolled. -/
theorem Dice.exists_total {σ : Type} (draw : Nat → StateM σ Int) (d : Dice) (s : σ) :
    ∃ rolls, (d.roll draw s).1 = d.total rolls ∧ rolls.length = d.terms.length ∧
      ∀ r ∈ rolls, r.kept ⊆ r.details := by
  have hbunch : ∀ b : Bunch, Returns (fun r => r.kept ⊆ r.details) (b.roll draw) := fun b s =>
    b.kept_choose _
  have hall := Returns.mapM (fun (t : Term) (_ : t ∈ d.terms) => hbunch t.bunch) s
  exact ⟨_, rfl, hall.length_eq.symm, forall_of_forall₂ hall⟩

end TabletopDice
