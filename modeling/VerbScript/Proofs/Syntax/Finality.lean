import VerbScript.Proofs.Syntax.Locality

/-!
# VerbScript.Proofs.Syntax.Finality

An error in tokens stays, whatever comes behind them.

Only two errors can be taken back by more tokens: that the tokens end, and that the digits at their
very end spell no number. Any other error is final (`Tokens.Final`). Where one step of reading has
left nothing, the next one can only miss tokens, so that a final error never follows such a step, and
the steps before it read the same with more tokens behind (`Node.readsLocally`). A marker is the
exception: it is refused in the place of a value also when nothing is left, and it is read the same
whatever is behind it (`Node.parseAtom_marker`).

For the functions that call one another this is one induction on the bound (`Node.readsFinally`), and
`Program.ofTokens_final` is the same for whole programs. An error that is like one of the number at the
end, but that was met in front of it, is final too (`Program.ofTokens_error_append`).
-/

namespace VerbScript

namespace Tokens

/-- The digits at the end, all of them, stand behind `front` and spell no number, and the error is
about these. -/
def MalformedBehind (front ts : Tokens) (e : Located ParseError) : Prop :=
  ∃ first digits, ts = front ++ first :: digits ∧
    (∀ t ∈ front.getLast?, t.value.isDigit = false) ∧
    (∀ t ∈ first :: digits, t.value.isDigit = true) ∧
    e = ⟨.malformedNumber (String.ofList (Node.takeDigits (first :: digits)).1), first.position⟩

def EndsMalformed (ts : Tokens) (e : Located ParseError) : Prop :=
  ∃ front, MalformedBehind front ts e

theorem not_endsMalformed {ts : Tokens} (h : ∀ t ∈ ts.getLast?, t.value.isDigit = false)
    (e : Located ParseError) : ¬ ts.EndsMalformed e := by
  rintro ⟨front, first, digits, rfl, -, hdigits, -⟩
  have hlast := List.getLast?_eq_some_getLast (List.cons_ne_nil first digits)
  have hnot := h _ (by rw [List.getLast?_append, hlast]; rfl)
  rw [hdigits _ (List.getLast_mem _)] at hnot
  cases hnot

/-- No more tokens can take the error back. -/
structure Final (ts : Tokens) (e : Located ParseError) : Prop where
  cause : e.value ≠ .unexpectedEnd
  number : ¬ ts.EndsMalformed e

namespace Final

variable {front rest : Tokens} {t : Located Token} {e : Located ParseError}

theorem of_append (h : Final (front ++ rest) e) (hapart : DigitsApart front rest) : Final rest e := by
  refine ⟨h.cause, ?_⟩
  rintro ⟨front', first, digits, rfl, hfront, hdigits, he⟩
  refine h.number ⟨front ++ front', first, digits, (List.append_assoc ..).symm, ?_, hdigits, he⟩
  intro u hu
  rw [List.getLast?_append] at hu
  cases hlast : front'.getLast? with
  | some last =>
    rw [hlast] at hu
    exact hfront u (hlast.trans hu)
  | none =>
    -- the digits are all that is left, so that no digit is in front of them
    rw [hlast, Option.none_or] at hu
    obtain rfl := List.getLast?_eq_none_iff.1 hlast
    cases hdigit : u.value.isDigit with
    | false => rfl
    | true =>
      have hnot := hapart first rfl u hu hdigit
      rw [hdigits first List.mem_cons_self] at hnot
      cases hnot

theorem tail (h : Final (t :: rest) e) (ht : t.value.isDigit = false) : Final rest e :=
  @of_append [t] rest e h (.concat [] ht rest)

end Final

end Tokens

/-- A bound computation that fails does so at its first step or behind it. -/
theorem Parsed.bind_eq_error {α β : Type} {x : Parsed α} {f : α → Parsed β}
    {e : Located ParseError} (h : (x >>= f) = .error e) :
    x = .error e ∨ ∃ a, x = .ok a ∧ f a = .error e := by
  cases x with
  | error e' =>
    cases h
    exact .inl rfl
  | ok a => exact .inr ⟨a, rfl, h⟩

namespace Node

open Tokens (Final)

variable {e : Located ParseError} {ts : Tokens}

/-! ## Single steps of reading -/

theorem expectWord_final {word : StructuralWord} {fallback : Position}
    (h : expectWord word fallback ts = .error e) (hcause : e.value ≠ .unexpectedEnd) :
    ts ≠ [] ∧ ∀ more fallback', expectWord word fallback' (ts ++ more) = .error e := by
  cases ts with
  | nil =>
    cases h
    exact absurd rfl hcause
  | cons t ts =>
    refine ⟨List.cons_ne_nil t ts, ?_⟩
    intro more fallback'
    simp only [expectWord, List.cons_append] at h ⊢
    split at h
    · cases h
    · rename_i hword
      rw [if_neg hword, h]

theorem expectPunctuation_final {c : Char} {fallback : Position}
    (h : expectPunctuation c fallback ts = .error e) (hcause : e.value ≠ .unexpectedEnd)
    (more : Tokens) (fallback' : Position) :
    expectPunctuation c fallback' (ts ++ more) = .error e := by
  cases ts with
  | nil =>
    cases h
    exact absurd rfl hcause
  | cons t ts =>
    simp only [expectPunctuation, List.cons_append] at h ⊢
    split at h
    · cases h
    · rename_i hmissing
      rw [if_neg hmissing, h]

theorem parseVariable_final {start : Position} (h : parseVariable start ts = .error e)
    (hcause : e.value ≠ .unexpectedEnd) (more : Tokens) (start' : Position) :
    parseVariable start' (ts ++ more) = .error e := by
  cases ts with
  | nil =>
    cases h
    exact absurd rfl hcause
  | cons t ts =>
    simp only [parseVariable, List.cons_append] at h ⊢
    split at h
    · exact h
    · rcases Parsed.bind_eq_error h with hrename | ⟨rest, hrename, h⟩
      · rw [(expectWord_final hrename hcause).2 more start']
        rfl
      · cases h

/-- Digits that spell no number spell none with other tokens behind them, unless they are the last. -/
theorem parseNumber_final {t : Located Token} (h : parseNumber t.position (t :: ts) = .error e)
    (hfinal : Final (t :: ts) e) (more : Tokens) :
    parseNumber t.position (t :: ts ++ more) = .error e := by
  have hleft : (takeDigits (t :: ts)).2 ≠ [] := by
    intro hnil
    simp only [parseNumber] at h
    split at h
    · cases h
    · exact hfinal.number ⟨[], t, ts, rfl, by simp, isDigit_of_takeDigits hnil,
        (Except.error.inj h).symm⟩
  simp only [parseNumber, takeDigits_append fun hnil => absurd hnil hleft] at h ⊢
  split at h
  · cases h
  · exact h

theorem parseHeaderEnd_final {start : Position} {nodes : List Node}
    (h : parseHeaderEnd start nodes ts = .error e) (hcause : e.value ≠ .unexpectedEnd)
    (more : Tokens) :
    parseHeaderEnd start nodes (ts ++ more) = .error e := by
  cases ts with
  | nil =>
    cases h
    exact absurd rfl hcause
  | cons t ts =>
    simp only [parseHeaderEnd, List.cons_append] at h ⊢
    split at h
    · exact h
    · cases ts with
      | nil =>
        cases h
        exact absurd rfl hcause
      | cons ending ts =>
        simp only [List.cons_append] at h ⊢
        split at h
        · rcases Parsed.bind_eq_error h with hnames | ⟨names, hnames, h⟩
          · rw [hnames]
            rfl
          · cases h
        · cases h
        · exact h

theorem skipSeparator_final (h : Final ts e) : Final (skipSeparator ts) e := by
  cases ts with
  | nil => exact h
  | cons t ts =>
    simp only [skipSeparator]
    split
    · rename_i hseparator
      exact h.tail (by rcases hseparator with ht | ht <;> (rw [ht]; rfl))
    · exact h

/-- Where nothing is left, climbing can only run out of its bound. -/
theorem climb_ne_nil {bound : Nat} {left : Node} {floor : Nat} {bare : Bool} {fallback : Position}
    (h : climb bound left floor bare fallback ts = .error e) (hcause : e.value ≠ .unexpectedEnd) :
    ts ≠ [] := by
  rintro rfl
  cases bound with
  | zero =>
    cases h
    exact hcause rfl
  | succ bound => cases h

theorem parseArguments_ne_nil {bound : Nat} {start : Position}
    (h : parseArguments bound start ts = .error e) (hcause : e.value ≠ .unexpectedEnd) :
    ts ≠ [] := by
  rintro rfl
  cases bound <;> (cases h; exact hcause rfl)

/-! ## Markers -/

theorem postfixes_not_marker {node : Node} (h : node.isMarker = false) :
    (postfixes node ts).1.isMarker = false := by
  induction ts generalizing node with
  | nil => exact h
  | cons t ts ih =>
    simp only [postfixes]
    split
    · exact ih rfl
    · exact h

theorem climb_not_marker {bound : Nat} {left node : Node} {floor : Nat} {bare : Bool}
    {fallback : Position} {rest : Tokens} (hleft : left.isMarker = false)
    (h : climb bound left floor bare fallback ts = .ok (node, rest)) : node.isMarker = false := by
  induction bound generalizing left ts with
  | zero => cases h
  | succ bound ih =>
    cases ts with
    | nil =>
      cases h
      exact hleft
    | cons t ts =>
      simp only [climb] at h
      split at h
      · split at h
        · cases h
          exact hleft
        · obtain ⟨⟨operand, rest₁⟩, -, h⟩ := Parsed.bind_eq_ok h
          obtain ⟨_, -, h⟩ := Parsed.bind_eq_ok h
          obtain ⟨⟨right, rest₂⟩, -, h⟩ := Parsed.bind_eq_ok h
          exact ih rfl h
      · cases h
        exact hleft

/-- A marker is read the same whatever is behind it. -/
theorem parseAtom_marker {bound : Nat} {bare : Bool} {fallback : Position} {rest : Tokens}
    {node : Node} (h : parseAtom bound bare fallback ts = .ok (node, rest))
    (hmarker : node.isMarker = true) (more : Tokens) {bound' : Nat} (hle : bound ≤ bound')
    (fallback' : Position) :
    parseAtom bound' bare fallback' (ts ++ more) = .ok (node, rest ++ more) := by
  cases bound with
  | zero => cases h
  | succ bound =>
    obtain ⟨bound', rfl⟩ : ∃ b, bound' = b + 1 := ⟨bound' - 1, by omega⟩
    have hle : bound ≤ bound' := Nat.le_of_succ_le_succ hle
    cases ts with
    | nil => cases h
    | cons t ts =>
      simp only [parseAtom, List.cons_append] at h ⊢
      split at h
      · obtain ⟨⟨inner, rest₁⟩, hinner, h⟩ := Parsed.bind_eq_ok h
        obtain ⟨rest₂, hunzip, h⟩ := Parsed.bind_eq_ok h
        have hvalue := @postfixes_not_marker rest₂ inner (not_marker_of_parseValue hinner)
        rw [Except.ok.inj h, hmarker] at hvalue
        cases hvalue
      · obtain ⟨rest₁, hopening, h₁⟩ := Parsed.bind_eq_ok h
        obtain ⟨⟨nodes, rest₂⟩, hnodes, h₂⟩ := Parsed.bind_eq_ok h₁
        obtain ⟨front, rfl, -, hend⟩ := parseHeaderEnd_front h₂
        obtain ⟨u, rfl, hu⟩ := expectPunctuation_front hopening
        rw [List.cons_append, expectPunctuation_cons hu]
        simp only [bind, Except.bind, (readsLocally bound).arguments hnodes more hle t.position]
        rw [List.append_assoc, hend]
      · obtain ⟨front, rfl, -, hreads⟩ := parseVariable_front h
        rw [List.append_assoc, hreads]
      · simp only [parseNumber] at h
        split at h
        · cases h
          cases hmarker
        · cases h
      · cases h; rfl
      · cases h; rfl
      · cases h; rfl
      · split at h
        · cases h
        · split at h
          · cases h
            cases hmarker
          · cases h
      · cases h

/-- Behind a marker only `format` could be read. -/
theorem parseExpression_marker {bound : Nat} {bare : Bool} {fallback : Position} {rest : Tokens}
    {node : Node} (h : parseExpression bound bare fallback ts = .ok (node, rest))
    (hmarker : node.isMarker = true) (more : Tokens) {bound' : Nat} (hle : bound ≤ bound')
    (fallback' : Position) :
    ∃ rest', parseExpression bound' bare fallback' (ts ++ more) = .ok (node, rest') := by
  cases bound with
  | zero => cases h
  | succ bound =>
    obtain ⟨bound', rfl⟩ : ∃ b, bound' = b + 1 := ⟨bound' - 1, by omega⟩
    have hle : bound ≤ bound' := Nat.le_of_succ_le_succ hle
    simp only [parseExpression] at h ⊢
    obtain ⟨⟨first, rest₁⟩, hfirst, h⟩ := Parsed.bind_eq_ok h
    simp only at h
    split at h
    · rename_i hfirstMarker
      cases h
      refine ⟨skipFormat (rest₁ ++ more), ?_⟩
      rw [parseAtom_marker hfirst hmarker more hle fallback']
      exact if_pos hfirstMarker
    · rename_i hfirstMarker
      obtain ⟨⟨tree, rest₂⟩, htree, h⟩ := Parsed.bind_eq_ok h
      have hvalue := @postfixes_not_marker rest₂ tree
        (climb_not_marker (Bool.eq_false_iff.2 hfirstMarker) htree)
      rw [(Prod.mk.inj (Except.ok.inj h)).1, hmarker] at hvalue
      cases hvalue

/-! ## The functions that call one another -/

/-- A final error stays with any larger bound and with more tokens behind. -/
structure ReadsFinally (bound : Nat) : Prop where
  atom {bare : Bool} {fallback : Position} {ts : Tokens} {e : Located ParseError} {bound' : Nat}
    (h : parseAtom bound bare fallback ts = .error e) (hfinal : Final ts e) (more : Tokens)
    (hle : bound ≤ bound') (fallback' : Position) :
    parseAtom bound' bare fallback' (ts ++ more) = .error e
  climb {left : Node} {floor : Nat} {bare : Bool} {fallback : Position} {ts : Tokens}
    {e : Located ParseError} {bound' : Nat}
    (h : climb bound left floor bare fallback ts = .error e) (hfinal : Final ts e) (more : Tokens)
    (hle : bound ≤ bound') (fallback' : Position) :
    climb bound' left floor bare fallback' (ts ++ more) = .error e
  expression {bare : Bool} {fallback : Position} {ts : Tokens} {e : Located ParseError}
    {bound' : Nat} (h : parseExpression bound bare fallback ts = .error e) (hfinal : Final ts e)
    (more : Tokens) (hle : bound ≤ bound') (fallback' : Position) :
    parseExpression bound' bare fallback' (ts ++ more) = .error e
  value {bare : Bool} {fallback : Position} {ts : Tokens} {e : Located ParseError} {bound' : Nat}
    (h : parseValue bound bare fallback ts = .error e) (hfinal : Final ts e) (more : Tokens)
    (hle : bound ≤ bound') (fallback' : Position) :
    parseValue bound' bare fallback' (ts ++ more) = .error e
  arguments {start : Position} {ts : Tokens} {e : Located ParseError} {bound' : Nat}
    (h : parseArguments bound start ts = .error e) (hfinal : Final ts e) (more : Tokens)
    (hle : bound ≤ bound') (start' : Position) :
    parseArguments bound' start' (ts ++ more) = .error e

/-- What is left of tokens with a final error has a final error. -/
theorem Takes.final {α : Type} {agree : Tokens → Tokens → Tokens → Prop} {enough bound : Nat}
    {read : Nat → Position → Tokens → Parsed (α × Tokens)} {rest : Tokens} {result : α}
    (h : Takes agree enough read bound ts result rest) (hfinal : Final ts e) : Final rest e := by
  obtain ⟨front, rfl, hapart, -⟩ := h
  exact hfinal.of_append hapart

namespace ReadsFinally

variable {bound : Nat} (ih : ReadsFinally bound) {bare : Bool} {fallback : Position}
  {bound' : Nat} (hle : bound ≤ bound') (hfinal : Final ts e) (more : Tokens) (fallback' : Position)
include ih hle hfinal

theorem atom_succ (h : parseAtom (bound + 1) bare fallback ts = .error e) :
    parseAtom (bound' + 1) bare fallback' (ts ++ more) = .error e := by
  cases ts with
  | nil =>
    cases h
    exact absurd rfl hfinal.cause
  | cons t ts =>
    simp only [parseAtom, List.cons_append] at h ⊢
    split at h
    · rename_i ht
      have hfinal₁ : Final ts e := hfinal.tail (by rw [ht]; rfl)
      rcases Parsed.bind_eq_error h with hinner | ⟨⟨inner, rest₁⟩, hinner, h⟩
      · rw [ih.value hinner hfinal₁ more hle]
        rfl
      · rcases Parsed.bind_eq_error h with hunzip | ⟨rest₂, -, h⟩
        · obtain ⟨hleft, hstays⟩ := expectWord_final hunzip hfinal.cause
          rw [parseValue_append hleft more hle t.position hinner]
          simp only [bind, Except.bind, hstays more t.position]
        · cases h
    · rename_i ht
      rcases Parsed.bind_eq_error h with hopening | ⟨rest₁, hopening, h₁⟩
      · rw [expectPunctuation_final hopening hfinal.cause more t.position]
        rfl
      · obtain ⟨u, rfl, hu⟩ := expectPunctuation_front hopening
        have hfinal₁ : Final rest₁ e := (hfinal.tail (by rw [ht]; rfl)).tail (by rw [hu]; rfl)
        rw [List.cons_append, expectPunctuation_cons hu]
        rcases Parsed.bind_eq_error h₁ with hnodes | ⟨⟨nodes, rest₂⟩, hnodes, h₂⟩
        · simp only [bind, Except.bind, ih.arguments hnodes hfinal₁ more hle t.position]
        · simp only [bind, Except.bind, (readsLocally bound).arguments hnodes more hle t.position]
          exact parseHeaderEnd_final h₂ hfinal.cause more
    · exact parseVariable_final h hfinal.cause more t.position
    · exact parseNumber_final h hfinal more
    · cases h
    · cases h
    · cases h
    · split at h
      · rename_i hname
        rw [if_pos hname, h]
      · rename_i hname
        rw [if_neg hname]
        split at h
        · cases h
        · rename_i hbare
          rw [if_neg hbare, h]
    · exact h

theorem climb_succ {left : Node} {floor : Nat}
    (h : Node.climb (bound + 1) left floor bare fallback ts = .error e) :
    Node.climb (bound' + 1) left floor bare fallback' (ts ++ more) = .error e := by
  cases ts with
  | nil => cases h
  | cons t ts =>
    simp only [Node.climb, List.cons_append] at h ⊢
    split at h
    · rename_i op ht
      split at h
      · cases h
      · rename_i hfloor
        rw [if_neg hfloor]
        have hbehind : Final ts e := hfinal.tail (by rw [ht]; rfl)
        rcases Parsed.bind_eq_error h with hoperand | ⟨⟨operand, rest₁⟩, hoperand, h⟩
        · rw [ih.atom hoperand hbehind more hle t.position]
          rfl
        have hfinal₁ : Final rest₁ e := ((readsFront bound).atom hoperand).final hbehind
        have hplace : nextPosition t.position (ts ++ more) = nextPosition t.position ts := by
          cases ts with
          | nil => cases bound <;> cases hoperand
          | cons u ts => rfl
        rcases Parsed.bind_eq_error h with hvalue | ⟨_, hvalue, h⟩
        · have hmarker : operand.isMarker = true := by
            by_contra hmarker
            simp [asValue, hmarker] at hvalue
          rw [parseAtom_marker hoperand hmarker more hle t.position, hplace]
          simp only [bind, Except.bind, hvalue]
        · rcases Parsed.bind_eq_error h with hright | ⟨⟨right, rest₂⟩, hright, h⟩
          · have hleft₁ : rest₁ ≠ [] := climb_ne_nil hright hfinal.cause
            rw [parseAtom_append hleft₁ more hle t.position hoperand]
            simp only [bind, Except.bind, asValue_eq_ok hvalue,
              ih.climb hright hfinal₁ more hle fallback']
          · have hsuffix₂ := climb_suffix hright
            have hfinal₂ : Final rest₂ e := ((readsFront bound).climb hright).final hfinal₁
            have hleft₂ : rest₂ ≠ [] := climb_ne_nil h hfinal.cause
            have hleft₁ : rest₁ ≠ [] := by
              rintro rfl
              exact hleft₂ (List.suffix_nil.1 hsuffix₂)
            rw [parseAtom_append hleft₁ more hle t.position hoperand]
            simp only [bind, Except.bind, asValue_eq_ok hvalue,
              climb_append hleft₂ more hle fallback' hright]
            exact ih.climb h hfinal₂ more hle fallback'
    · cases h

theorem expression_succ (h : parseExpression (bound + 1) bare fallback ts = .error e) :
    parseExpression (bound' + 1) bare fallback' (ts ++ more) = .error e := by
  simp only [parseExpression] at h ⊢
  rcases Parsed.bind_eq_error h with hfirst | ⟨⟨first, rest₁⟩, hfirst, h⟩
  · rw [ih.atom hfirst hfinal more hle fallback']
    rfl
  simp only at h
  split at h
  · cases h
  · rename_i hmarker
    rcases Parsed.bind_eq_error h with htree | ⟨⟨tree, rest₂⟩, -, h⟩
    · have hfinal₁ : Final rest₁ e := ((readsFront bound).atom hfirst).final hfinal
      have hleft : rest₁ ≠ [] := climb_ne_nil htree hfinal.cause
      rw [parseAtom_append hleft more hle fallback' hfirst]
      simp only [bind, Except.bind, if_neg hmarker, ih.climb htree hfinal₁ more hle fallback']
    · cases h

theorem value_succ (h : parseValue (bound + 1) bare fallback ts = .error e) :
    parseValue (bound' + 1) bare fallback' (ts ++ more) = .error e := by
  simp only [parseValue] at h ⊢
  rcases Parsed.bind_eq_error h with htree | ⟨⟨tree, rest₁⟩, htree, h⟩
  · rw [ih.expression htree hfinal more hle fallback']
    rfl
  rcases Parsed.bind_eq_error h with hvalue | ⟨_, -, h⟩
  · have hmarker : tree.isMarker = true := by
      by_contra hmarker
      simp [asValue, hmarker] at hvalue
    have hplace : nextPosition fallback' (ts ++ more) = nextPosition fallback ts := by
      cases ts with
      | nil =>
        cases bound with
        | zero => cases htree
        | succ bound => cases bound <;> cases htree
      | cons u ts => rfl
    obtain ⟨rest', hstays⟩ := parseExpression_marker htree hmarker more hle fallback'
    rw [hstays, hplace]
    simp only [bind, Except.bind, hvalue]
  · cases h

omit bare in
theorem arguments_succ {start : Position} (start' : Position)
    (h : parseArguments (bound + 1) start ts = .error e) :
    parseArguments (bound' + 1) start' (ts ++ more) = .error e := by
  cases ts with
  | nil =>
    cases h
    exact absurd rfl hfinal.cause
  | cons t ts =>
    simp only [parseArguments, List.cons_append] at h ⊢
    split at h
    · cases h
    · rename_i hclosing
      rw [if_neg hclosing, ← List.cons_append]
      rcases Parsed.bind_eq_error h with hargument | ⟨⟨argument, rest₁⟩, hargument, h⟩
      · rw [ih.value hargument hfinal more hle start']
        rfl
      rcases Parsed.bind_eq_error h with harguments | ⟨⟨arguments, rest₂⟩, -, h⟩
      · have hfinal₁ : Final (skipSeparator rest₁) e :=
          skipSeparator_final (((readsFront bound).value hargument).final hfinal)
        cases rest₁ with
        | nil => exact absurd rfl (parseArguments_ne_nil harguments hfinal.cause)
        | cons u rest₁ =>
          rw [parseValue_append (List.cons_ne_nil u rest₁) more hle start' hargument]
          simp only [bind, Except.bind]
          rw [skipSeparator_append, ih.arguments harguments hfinal₁ more hle start']
      · cases h

end ReadsFinally

theorem readsFinally (bound : Nat) : ReadsFinally bound := by
  induction bound with
  | zero =>
    constructor
    all_goals
      intros
      rename_i h hfinal _ _ _
      cases h
      exact absurd rfl hfinal.cause
  | succ bound ih =>
    have larger : ∀ {bound'}, bound + 1 ≤ bound' → ∃ b, bound' = b + 1 ∧ bound ≤ b :=
      fun {bound'} hle => ⟨bound' - 1, by omega, by omega⟩
    constructor
    · intro _ _ _ _ _ h hfinal more hle fallback'
      obtain ⟨_, rfl, hle'⟩ := larger hle
      exact ih.atom_succ hle' hfinal more fallback' h
    · intro _ _ _ _ _ _ _ h hfinal more hle fallback'
      obtain ⟨_, rfl, hle'⟩ := larger hle
      exact ih.climb_succ hle' hfinal more fallback' h
    · intro _ _ _ _ _ h hfinal more hle fallback'
      obtain ⟨_, rfl, hle'⟩ := larger hle
      exact ih.expression_succ hle' hfinal more fallback' h
    · intro _ _ _ _ _ h hfinal more hle fallback'
      obtain ⟨_, rfl, hle'⟩ := larger hle
      exact ih.value_succ hle' hfinal more fallback' h
    · intro _ _ _ _ h hfinal more hle start'
      obtain ⟨_, rfl, hle'⟩ := larger hle
      exact ih.arguments_succ hle' hfinal more start' h

end Node

namespace Program

open Tokens (Final)

/-- Whatever comes behind tokens with a final error, it is the error of the whole. -/
theorem ofTokens_final {ts : Tokens} {e : Located ParseError} (h : ofTokens ts = .error e)
    (hfinal : Final ts e) (more : Tokens) : ofTokens (ts ++ more) = .error e := by
  induction hlength : ts.length using Nat.strongRecOn generalizing ts with
  | ind length ih =>
    cases ts with
    | nil => cases h
    | cons t ts =>
      have hbound := Node.depthBound_le_append (t :: ts) more
      rcases ofTokens_cons_eq_error h with hnode | ⟨node, rest, hnode, hleft, hrest⟩
      · exact ofTokens_cons_error
          ((Node.readsFinally _).expression hnode hfinal more hbound t.position)
      · have hshorter := (Node.parseExpression_consumes hnode).length_le
        have hfinal' : Final rest e := ((Node.readsFront _).expression hnode).final hfinal
        have hwhole : Node.expression false t.position (t :: (ts ++ more)) =
            .ok (node, rest ++ more) :=
          Node.parseExpression_append hleft more hbound t.position hnode
        rw [List.length_cons] at hlength
        rw [List.cons_append, ofTokens_cons hwhole, ih rest.length (by omega) hrest hfinal' rfl]
        rfl

/-- The first error is the number that the tokens end with: there is none in front of it. -/
def EndsMalformed (ts : Tokens) (e : Located ParseError) : Prop :=
  ∃ front, Tokens.MalformedBehind front ts e ∧ ofTokens front ≠ .error e

theorem ofTokens_error_append {ts : Tokens} {e : Located ParseError} (h : ofTokens ts = .error e)
    (hcause : e.value ≠ .unexpectedEnd) (hend : ¬ EndsMalformed ts e) (more : Tokens) :
    ofTokens (ts ++ more) = .error e := by
  by_cases hnumber : ts.EndsMalformed e
  · -- the same error is in front of the number already, and there it is final
    obtain ⟨front, hbehind⟩ := hnumber
    have hfront : ofTokens front = .error e := by
      by_contra hne
      exact hend ⟨front, hbehind, hne⟩
    obtain ⟨first, digits, rfl, hlast, -, -⟩ := hbehind
    rw [List.append_assoc]
    exact ofTokens_final hfront ⟨hcause, Tokens.not_endsMalformed hlast e⟩ (first :: digits ++ more)
  · exact ofTokens_final h ⟨hcause, hnumber⟩ more

end Program
end VerbScript
