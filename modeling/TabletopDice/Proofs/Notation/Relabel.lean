import TabletopDice.Proofs.Notation.Parse

/-!
# Other labels for what is read

Nothing is decided by a label. Tokens with other labels are read to the same
bunches with other labels.
-/

namespace TabletopDice

variable (f : String → String)

namespace Modifier

def label? : Modifier → Option String
  | .map _ _ _ label => label
  | _ => none

def relabel : Modifier → Modifier
  | .map c n mapped label => .map c n mapped (label.map f)
  | m => m

end Modifier

def Token.relabel : Token → Token
  | .modifier m => .modifier (m.relabel f)
  | t => t

def Token.label? : Token → Option String
  | .modifier m => m.label?
  | _ => none

variable {f} in
theorem Token.relabel_congr {g : String → String} {t : Token} (h : ∀ s ∈ t.label?, f s = g s) :
    t.relabel f = t.relabel g := by
  cases t with
  | modifier m =>
    cases m with
    | map c n value label =>
      exact congrArg (fun label => Token.modifier (.map c n value label)) (Option.map_congr h)
    | _ => rfl
  | _ => rfl

def MapSpec.relabel (rule : MapSpec) : MapSpec := { rule with label := rule.label.map f }

def BunchSpec.relabel (b : BunchSpec) : BunchSpec :=
  { b with maps := b.maps.map (List.map (MapSpec.relabel f)) }

def RollSpec.relabel (s : RollSpec) : RollSpec :=
  { s with bunches := s.bunches.map (BunchSpec.relabel f) }

theorem BunchSpec.modify_relabel (b : BunchSpec) (m : Modifier) :
    (b.relabel f).modify (m.relabel f) = (b.modify m).map (BunchSpec.relabel f) := by
  have hmap : ∀ rule : MapSpec, (b.relabel f).addMap (rule.relabel f) = (b.addMap rule).relabel f := by
    intro rule
    cases hmaps : b.maps <;> simp [addMap, BunchSpec.relabel, hmaps]
  have hkeep : ∀ mode count,
      (b.relabel f).setKeep mode count = (b.setKeep mode count).map (BunchSpec.relabel f) := by
    intro mode count
    cases hmode : b.keepMode <;> simp [setKeep, BunchSpec.relabel, hmode, Except.map]
  cases m with
  | explode | rerollAtMost | reroll => rfl
  | successAtLeast n => exact congrArg Except.ok (hmap ⟨n, .le, 1, none⟩)
  | map c n value label => exact congrArg Except.ok (hmap ⟨n, c, value, label⟩)
  | keepBest n => exact hkeep .best n
  | keep n mode => exact hkeep mode n

namespace Notation

def Progress.relabel (p : Progress) : Progress :=
  { p with complete := p.complete.map (BunchSpec.relabel f), current := p.current.map (BunchSpec.relabel f) }

namespace Progress

variable (p : Progress)

@[simp] theorem offset_relabel : (p.relabel f).offset = p.offset := rfl

@[simp] theorem sign_relabel : (p.relabel f).sign = p.sign := rfl

@[simp] theorem seenTerm_relabel : (p.relabel f).seenTerm = p.seenTerm := rfl

@[simp] theorem bunches_relabel : (p.relabel f).bunches = p.bunches.map (BunchSpec.relabel f) := by
  cases hp : p.current <;> simp [bunches, Progress.relabel, hp]

theorem beginTerm_relabel (t t' : Token) :
    ((p.relabel f).beginTerm t').toOption = (p.beginTerm t).toOption.map (Prod.map id (Progress.relabel f)) := by
  simp only [beginTerm, bunches_relabel, offset_relabel, sign_relabel, seenTerm_relabel]
  split <;> rfl

theorem step_relabel (t : Token) :
    ((p.relabel f).step (t.relabel f)).toOption = (p.step t).toOption.map (Progress.relabel f) := by
  cases t with
  | sign s =>
    simp only [Token.relabel, step, bunches_relabel, sign_relabel]
    split <;> rfl
  | constant n => exact toOption_bind (p.beginTerm_relabel f _ _) fun _ => rfl
  | dice count sides => exact toOption_bind (p.beginTerm_relabel f _ _) fun _ => rfl
  | modifier m =>
    cases hb : p.current with
    | none => simp only [Token.relabel, step, Progress.relabel, hb]; rfl
    | some b =>
      simp only [Token.relabel, step, Progress.relabel, hb, Option.map_some, b.modify_relabel]
      cases b.modify m <;> rfl

theorem finish_relabel : (p.relabel f).finish.toOption = p.finish.toOption.map (RollSpec.relabel f) := by
  simp only [finish, bunches_relabel, offset_relabel, sign_relabel, seenTerm_relabel]
  split
  · rfl
  · split <;> rfl

end Progress

/-- Tokens with other labels describe the same dice with other labels. -/
theorem run_relabel (p : Progress) (ts : List Token) :
    (run (p.relabel f) (ts.map (Token.relabel f))).toOption = (run p ts).toOption.map (RollSpec.relabel f) := by
  induction ts generalizing p with
  | nil => exact p.finish_relabel f
  | cons t ts ih =>
    rw [List.map_cons, run_cons, run_cons]
    exact toOption_bind (p.step_relabel f t) ih

end Notation

end TabletopDice
