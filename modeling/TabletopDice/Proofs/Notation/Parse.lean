import Mathlib.Data.List.Chain
import TabletopDice.Proofs.Notation.Reading
import TabletopDice.Proofs.Notation.Sentence

/-!
# What is dice notation

A text of ASCII is dice notation just where it holds the tokens of a sentence,
one after another with blanks at will around and between them. Nothing has to
stand between two tokens of a sentence: each ends where the next can begin.
-/

namespace TabletopDice.Notation

open Text (sameLetter isDigit_eq_false)
open Decimal (isDigit)

-- ---------------------------------------------------------------------------
-- Where tokens end
-- ---------------------------------------------------------------------------

section
variable {rest : List Char}

theorem Written.fragmentLength {t : Token} {cs : List Char} (h : Written t cs) (hcs : Plain cs)
    (hrest : (∃ s, t = .sign s) ∨ Boundary rest) : fragmentLength (cs ++ rest) = cs.length := by
  have hboundary : (∀ s, t ≠ .sign s) → Boundary rest := fun hne =>
    hrest.resolve_left fun ⟨s, hs⟩ => hne s hs
  cases h with
  | plus => exact fragmentLength_single (by decide) (isDigit_eq_false (by decide))
  | minus => exact fragmentLength_single (by decide) (isDigit_eq_false (by decide))
  | constant hn =>
    have hb := hboundary (by simp)
    exact fragmentLength_number hn.digits hb.digit hb.dice
  | @dice count n c sides s hn hc hs =>
    have hletter : sameLetter 'd' c := hcs.right.sameLetter_of_toLower hc
    have hlen := fragmentLength_dice hn.digits hletter hs.digits (hboundary (by simp)).digit
    rw [List.append_assoc, List.cons_append, hlen]
    simp only [List.length_append, List.length_cons]
    omega
  | terse h =>
    have hb := hboundary (by simp)
    obtain ⟨c, ds, stop, hc, hds, rfl | rfl, rfl⟩ := h.split hcs
    · simpa using fragmentLength_terse hc hds hb.terse
    · have hlen : Notation.fragmentLength (c :: (ds ++ '.' :: rest)) = ds.length + 2 :=
        fragmentLength_terse_stop hc hds
      simpa using hlen
  | verbose h =>
    obtain ⟨c, body, hc, hbody, rfl⟩ := h.split hcs
    have hlen : Notation.fragmentLength (c :: ':' :: (body ++ '.' :: rest)) = body.length + 3 :=
      fragmentLength_verbose hc hbody
    simpa using hlen

end

-- ---------------------------------------------------------------------------
-- Tokens one after another
-- ---------------------------------------------------------------------------

/-- No term comes right after anything but a sign. -/
def Joins (t t' : Token) : Prop :=
  (∃ s, t = .sign s) ∨ (∃ s, t' = .sign s) ∨ ∃ m, t' = .modifier m

theorem chain_phrase (phrase : Phrase) : phrase.tokens.IsChain Joins := by
  have hmodifiers : ∀ (ms : List Modifier) (t : Token), (t :: ms.map Token.modifier).IsChain Joins := by
    intro ms
    induction ms with
    | nil => simp
    | cons m ms ih => exact fun t => (ih _).cons_cons (.inr (.inr ⟨m, rfl⟩))
  cases phrase with
  | constant n => exact hmodifiers [] _
  | dice count sides ms => exact hmodifiers ms _

theorem chain_sign (s : Sign) {ts : List Token} (h : ts.IsChain Joins) :
    (Token.sign s :: ts).IsChain Joins := by
  cases ts with
  | nil => simp
  | cons t ts => exact h.cons_cons (.inl ⟨s, rfl⟩)

theorem head_more {more : List SignedPhrase} :
    ∀ t ∈ (more.flatMap SignedPhrase.tokens).head?, ∃ s, t = .sign s := by
  cases more with
  | nil => simp
  | cons x more =>
    rintro _ ⟨⟩
    exact ⟨x.sign, rfl⟩

theorem chain_more (more : List SignedPhrase) : (more.flatMap SignedPhrase.tokens).IsChain Joins := by
  induction more with
  | nil => simp
  | cons x more ih =>
    rw [List.flatMap_cons]
    refine (chain_sign x.sign (chain_phrase x.phrase)).append ih ?_
    exact fun _ _ t ht => .inr (.inl (head_more t ht))

theorem Sentence.chain (s : Sentence) : s.tokens.IsChain Joins := by
  have hunsigned : (s.first.tokens ++ s.more.flatMap SignedPhrase.tokens).IsChain Joins :=
    (chain_phrase s.first).append (chain_more s.more) fun _ _ t ht => .inr (.inl (head_more t ht))
  rw [Sentence.tokens]
  cases s.sign with
  | none => exact hunsigned
  | some sign => exact chain_sign sign hunsigned

theorem Written.boundary {t : Token} {cs : List Char} (h : Written t cs) (hcs : Plain cs)
    (ht : (∃ s, t = .sign s) ∨ ∃ m, t = .modifier m) : cs ≠ [] ∧ Boundary cs := by
  have hletter : (∃ c rest, isTerseLetter c ∧ isDigit c = false ∧ cs = c :: rest) →
      cs ≠ [] ∧ Boundary cs := by
    rintro ⟨c, rest, hc, -, rfl⟩
    refine ⟨List.cons_ne_nil c rest, ?_⟩
    rintro _ ⟨⟩
    exact .inr (.inr (.inr hc))
  cases h with
  | plus => simp [Boundary]
  | minus => simp [Boundary]
  | constant | dice => simp at ht
  | terse h => exact hletter (h.head hcs)
  | verbose h => exact hletter (h.head hcs)

theorem Spaced.boundary {pieces : List (List Char)} {rest : List Char} (h : Spaced pieces rest)
    (hhead : ∀ piece ∈ pieces.head?, piece ≠ [] ∧ Boundary piece) : Boundary rest := by
  cases h with
  | nil hblanks =>
    intro c hc
    exact .inl (hblanks c (List.mem_of_mem_head? hc))
  | @cons blanks piece pieces rest hblanks hrest =>
    intro c hc
    cases blanks with
    | nil =>
      obtain ⟨hne, hpiece⟩ := hhead piece rfl
      obtain ⟨d, piece, rfl⟩ := List.exists_cons_of_ne_nil hne
      exact hpiece c hc
    | cons d blanks =>
      obtain rfl : d = c := Option.some.inj hc
      exact .inl (hblanks d List.mem_cons_self)

/-- The scanner cuts a sentence where its tokens were put together. -/
theorem fragments_of_written {ts : List Token} {pieces : List (List Char)} {cs : List Char}
    (hwritten : List.Forall₂ Written ts pieces) (hspaced : Spaced pieces cs) (hcs : Plain cs)
    (hchain : ts.IsChain Joins) : fragments cs = pieces := by
  induction hspaced generalizing ts with
  | @nil blanks hblanks => simpa using fragments_blanks hblanks []
  | @cons blanks piece pieces rest hblanks hrest ih =>
    cases hwritten with
    | @cons t _ ts _ hpiece hpieces =>
      have hplain := hcs.left.right
      have hends : (∃ s, t = .sign s) ∨ Boundary rest := by
        refine or_iff_not_imp_left.mpr fun hsign => hrest.boundary ?_
        intro piece' hhead
        cases hpieces with
        | nil => cases hhead
        | @cons t' _ ts _ hpiece' _ =>
          obtain rfl := Option.some.inj hhead
          have hin := (hrest.isInfix _ List.mem_cons_self)
          exact hpiece'.boundary (hcs.right.mono hin) ((hchain.rel_head? rfl).resolve_left hsign)
      have hlen := hpiece.fragmentLength hplain hends
      have hshape := hpiece.shape hplain
      rw [List.append_assoc, fragments_blanks hblanks, fragments_append hshape.ne_nil hshape.not_blank hlen,
        ih hpieces hcs.right hchain.tail]

-- ---------------------------------------------------------------------------
-- Texts and sentences
-- ---------------------------------------------------------------------------

/-- The text holds the tokens of the sentence, with blanks around and between them. -/
def Sentence.WrittenIn (s : Sentence) (cs : List Char) : Prop :=
  ∃ pieces, List.Forall₂ Written s.tokens pieces ∧ Spaced pieces cs

section
variable {text : String} {ts : List Token} {spec : RollSpec}

theorem tokenize_eq_ok :
    tokenize text = .ok ts ↔
      List.Forall₂ (fun cs t => readToken cs = .ok t) (fragments text.toList) ts := by
  constructor
  · intro h
    refine (mapM_ok h).imp fun cs t hread => ?_
    split at hread
    · rename_i token htoken
      rw [htoken, Except.ok.inj hread]
    · cases hread
  · intro h
    refine ok_mapM (h.imp fun cs t hread => ?_)
    rw [hread]

theorem forall₂_flip {R : List Char → Token → Prop} {S : Token → List Char → Prop}
    {pieces : List (List Char)} (h : ∀ cs ∈ pieces, ∀ t, R cs t ↔ S t cs) :
    List.Forall₂ R pieces ts ↔ List.Forall₂ S ts pieces := by
  induction pieces generalizing ts with
  | nil => cases ts <;> simp
  | cons cs pieces ih =>
    rw [List.forall_mem_cons] at h
    cases ts with
    | nil => simp
    | cons t ts => rw [List.forall₂_cons, List.forall₂_cons, h.1 t, ih h.2]

theorem tokenize_eq_ok_of_plain (h : Plain text.toList) :
    tokenize text = .ok ts ↔ List.Forall₂ Written ts (fragments text.toList) := by
  rw [tokenize_eq_ok]
  refine forall₂_flip fun cs hcs t => ?_
  exact readToken_eq_ok (h.mono ((spaced_fragments _).isInfix cs hcs))
    (shape_of_mem_fragments hcs).not_blank

theorem parse_eq_ok : parse text = .ok spec ↔ ∃ ts, tokenize text = .ok ts ∧ run {} ts = .ok spec :=
  bind_ok

/-- What goes on with no fragment of a text is read on from what has been read. -/
theorem parse_append {rest : String} (h : parse text = .ok spec) (hbreaks : Breaks rest.toList)
    (hrest : tokenize rest = .ok ts) (hsettled : Settled ts) :
    parse (text ++ rest) = run ⟨spec.bunches, none, spec.offset, none, true⟩ ts := by
  obtain ⟨ts', htokens, hrun⟩ := parse_eq_ok.mp h
  have hall : tokenize (text ++ rest) = .ok (ts' ++ ts) := by
    rw [tokenize_eq_ok] at htokens hrest ⊢
    rw [String.toList_append, fragments_append_breaks hbreaks]
    exact List.rel_append htokens hrest
  rw [parse, hall]
  exact run_append hrun hsettled

def trimText (s : String) : String := String.ofList (Text.trim s.toList)

theorem parse_trimText (text : String) : parse (trimText text) = parse text := by
  unfold parse tokenize trimText
  rw [String.toList_ofList, fragments_trim]

theorem ne_nil_of_parse (h : parse text = .ok spec) : text.toList ≠ [] := by
  intro hnil
  rw [String.toList_eq_nil_iff.mp hnil] at h
  cases h

/-- Nothing that is read begins with a question mark. -/
theorem ne_question_of_parse (h : parse text = .ok spec) (rest : List Char) : text.toList ≠ '?' :: rest := by
  intro hquestion
  obtain ⟨ts, htokens, -⟩ := parse_eq_ok.mp h
  have hlength : fragmentLength ('?' :: rest) = 1 :=
    fragmentLength_single (by decide) (Text.isDigit_eq_false (by decide))
  have hfragments : fragments (['?'] ++ rest) = ['?'] :: fragments rest :=
    fragments_append (List.cons_ne_nil '?' []) (List.forall_mem_singleton.mpr (by decide)) hlength
  rw [tokenize_eq_ok, hquestion, ← List.singleton_append, hfragments] at htokens
  cases htokens with
  | cons hread _ => cases hread

theorem parse_eq_ok_of_plain (h : Plain text.toList) :
    parse text = .ok spec ↔
      ∃ s : Sentence, s.KeepsOnce ∧ s.WrittenIn text.toList ∧ s.spec = spec := by
  simp only [parse_eq_ok, run_eq_ok]
  constructor
  · rintro ⟨_, htokens, s, hkeep, rfl, rfl⟩
    rw [tokenize_eq_ok_of_plain h] at htokens
    exact ⟨s, hkeep, ⟨_, htokens, spaced_fragments _⟩, rfl⟩
  · rintro ⟨s, hkeep, ⟨pieces, hwritten, hspaced⟩, rfl⟩
    have hpieces := fragments_of_written hwritten hspaced h s.chain
    refine ⟨s.tokens, (tokenize_eq_ok_of_plain h).mpr ?_, s, hkeep, rfl, rfl⟩
    rw [hpieces]
    exact hwritten

end

-- ---------------------------------------------------------------------------
-- Texts that are refused
-- ---------------------------------------------------------------------------

def IsMismatch : Fault → Prop
  | .value _ | .build _ | .grammar _ => True
  | .limit _ | .kind _ | .range _ => False

def Mismatches {β : Type} (x : Except Fault β) : Prop := ∀ f, x = .error f → IsMismatch f

section
variable {β γ : Type} {x : Except Fault β} {f : β → Except Fault γ}

theorem Mismatches.ok (b : β) : Mismatches (Except.ok b) := by
  rintro _ ⟨⟩

theorem Mismatches.bind (hx : Mismatches x) (hf : ∀ b, Mismatches (f b)) : Mismatches (x >>= f) := by
  cases x with
  | error e =>
    rintro _ ⟨⟩
    exact hx e rfl
  | ok b => exact hf b

theorem Mismatches.map {g : β → γ} (hx : Mismatches x) : Mismatches (x.map g) :=
  hx.bind fun b => .ok (g b)

theorem mismatches_misshapen (shape : TokenShape) (cs : List Char) :
    Mismatches (Except.error (misshapen shape cs) : Except Fault β) := by
  rintro _ ⟨⟩
  trivial

theorem mismatches_number (ds : List Char) : Mismatches (number ds) := by
  unfold number
  split
  · exact .ok _
  · rintro _ ⟨⟩
    trivial

theorem mismatches_effectNamed (cs : List Char) : Mismatches (effectNamed cs) := by
  unfold effectNamed Effect.ofValue
  split
  · exact .ok _
  · rintro _ ⟨⟩
    trivial

theorem mismatches_keepModeNamed (cs : List Char) : Mismatches (keepModeNamed cs) := by
  unfold keepModeNamed
  split
  · exact .ok _
  · rintro _ ⟨⟩
    trivial

theorem mismatches_readTerse (cs : List Char) : Mismatches (readTerse cs) := by
  unfold readTerse
  split
  · split
    · split
      · exact .ok _
      · exact mismatches_misshapen _ _
    · split
      · exact mismatches_misshapen _ _
      · split
        · exact (mismatches_number _).map
        · split
          · exact (mismatches_number _).map
          · exact (mismatches_number _).map
  · exact mismatches_misshapen _ _

theorem mismatches_readReroll (cs : List Char) : Mismatches (readReroll cs) := by
  unfold readReroll
  split
  · refine (mismatches_number _).bind fun value => ?_
    dsimp only
    split
    · refine (mismatches_effectNamed _).bind fun e => ?_
      split
      · exact (mismatches_number _).map.bind fun limit => .ok _
      · exact .ok _
    · split
      · exact (mismatches_number _).map.bind fun limit => .ok _
      · exact .ok _
  · exact mismatches_misshapen _ _

theorem mismatches_readMap (cs : List Char) : Mismatches (readMap cs) := by
  unfold readMap
  split
  · refine (mismatches_number _).bind fun value => ?_
    dsimp only
    split
    · exact ((mismatches_number _).bind fun n => .ok _).map.bind fun mapped => .ok _
    · exact .ok _
  · exact mismatches_misshapen _ _

theorem mismatches_readKeep (cs : List Char) : Mismatches (readKeep cs) := by
  unfold readKeep
  split
  · refine (mismatches_number _).bind fun count => ?_
    dsimp only
    split
    · exact (mismatches_keepModeNamed _).bind fun mode => .ok _
    · exact .ok _
  · exact mismatches_misshapen _ _

theorem mismatches_readVerbose (cs : List Char) : Mismatches (readVerbose cs) := by
  unfold readVerbose
  split
  · exact mismatches_misshapen _ _
  · split
    · split
      · exact mismatches_readReroll _
      · split
        · exact mismatches_readMap _
        · exact mismatches_readKeep _
    · exact mismatches_misshapen _ _

/-- A class of tokens refuses a text only in ways that let the next class have its turn. -/
theorem mismatches_classReaders : ∀ read ∈ classReaders, ∀ cs, Mismatches (read cs) := by
  simp only [classReaders, List.forall_mem_cons, List.not_mem_nil, false_imp_iff, implies_true, and_true]
  refine ⟨fun cs => ?_, fun cs => ?_, fun cs => (mismatches_readTerse cs).map,
    fun cs => (mismatches_readVerbose cs).map⟩
  · unfold readConstant
    split
    · exact (mismatches_number _).map
    · exact mismatches_misshapen _ _
  · unfold readDice
    split
    · exact (mismatches_number _).bind fun n => (mismatches_number _).bind fun s => .ok _
    · exact mismatches_misshapen _ _

end

/-- A plain text is read just where a sentence is written in it that keeps dice in one way at
most, as what the sentence describes. All other texts are refused as notation, with no other
fault on the way. -/
theorem parse_iff_sentence (text : String) (h : Plain text.toList) :
    (∀ spec, parse text = .ok spec ↔
      ∃ s : Sentence, s.KeepsOnce ∧ s.WrittenIn text.toList ∧ s.spec = spec) ∧
    ((¬ ∃ s : Sentence, s.KeepsOnce ∧ s.WrittenIn text.toList) → ∃ f, parse text = .error f) ∧
    ∀ read ∈ classReaders, ∀ cs f, read cs = .error f → IsMismatch f := by
  refine ⟨fun spec => parse_eq_ok_of_plain h, ?_, mismatches_classReaders⟩
  intro hnone
  cases hparse : parse text with
  | error f => exact ⟨f, rfl⟩
  | ok spec =>
    obtain ⟨s, hkeep, hwritten, -⟩ := (parse_eq_ok_of_plain h).mp hparse
    exact absurd ⟨s, hkeep, hwritten⟩ hnone

theorem parse_iff_sentence_mixed :
    Plain " -2D6 r:>=5,Add,3.m6.k1 + 4".toList ∧
      ∃ s : Sentence, s.KeepsOnce ∧ s.WrittenIn " -2D6 r:>=5,Add,3.m6.k1 + 4".toList ∧
        s.spec =
          { bunches := [{ ndice := 2, sides := 6, multiplier := -1,
                          rerolls := some [⟨5, .le, .add, some 3⟩], maps := some [⟨6, .le, 1, none⟩],
                          keepMode := some .best, keepNumber := some 1 }],
            offset := 4 } := by
  have hplain : Plain " -2D6 r:>=5,Add,3.m6.k1 + 4".toList := by
    refine ⟨List.all_iff_forall_prop.mp (by decide), fun ds hin _ => hin.length_le.trans ?_⟩
    decide
  refine ⟨hplain, ((parse_iff_sentence _ hplain).1 _).mp ?_⟩
  exact ok_of_toOption (by decide +kernel)

end TabletopDice.Notation
