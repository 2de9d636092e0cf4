import VerbScript.Program.Parse
import VerbScript.Proofs.Spacing.Text

/-!
# VerbScript.Proofs.Spacing.Parse

No place of a token decides what is read.

Places are handed on through all functions that read tokens, since every error names one. Taking them
out of the tokens first or out of the result afterwards comes to the same, function by function. For
the functions that call one another this is one induction on the bound (`Node.readsUnplaced`).
-/

namespace VerbScript

/-- If two steps can each be taken without places, so can both together. -/
theorem unplacedReading_bind {ε α β : Type} {x x' : Except (Located ε) α}
    {f f' : α → Except (Located ε) β} {erase : α → α} {erase' : β → β}
    (hx : unplacedReading erase x = x')
    (hf : ∀ a, unplacedReading erase' (f a) = f' (erase a)) :
    unplacedReading erase' (x >>= f) = x' >>= f' := by
  subst hx
  cases x with
  | ok a => exact hf a
  | error e => rfl

/-- Tokens by themselves, wherever they stand. -/
abbrev Tokens.unplaced (ts : Tokens) : Tokens := ts.map Located.unplaced

/-- What is read and the tokens that are left, without places. -/
def Parsed.unplaced {α : Type} (x : Parsed (α × Tokens)) : Parsed (α × Tokens) :=
  unplacedReading (Prod.map id Tokens.unplaced) x

namespace Node

theorem nextPosition_unplaced (ts : Tokens) : nextPosition {} ts.unplaced = {} := by
  cases ts <;> rfl

theorem expectWord_unplaced (word : StructuralWord) (fallback : Position) (ts : Tokens) :
    unplacedReading Tokens.unplaced (expectWord word fallback ts) =
      expectWord word {} ts.unplaced := by
  cases ts with
  | nil => rfl
  | cons t ts =>
    simp only [expectWord, List.map_cons]
    split
    · exact (if_pos ‹_›).symm
    · exact (if_neg ‹_›).symm

theorem expectPunctuation_unplaced (c : Char) (fallback : Position) (ts : Tokens) :
    unplacedReading Tokens.unplaced (expectPunctuation c fallback ts) =
      expectPunctuation c {} ts.unplaced := by
  cases ts with
  | nil => rfl
  | cons t ts =>
    simp only [expectPunctuation, List.map_cons]
    split
    · exact (if_pos ‹_›).symm
    · exact (if_neg ‹_›).symm

theorem parseVariable_unplaced (start : Position) (ts : Tokens) :
    Parsed.unplaced (parseVariable start ts) = parseVariable {} ts.unplaced := by
  cases ts with
  | nil => rfl
  | cons t ts =>
    obtain ⟨value, place⟩ := t
    simp only [parseVariable, List.map_cons, Located.unplaced]
    cases freeName? value with
    | none => rfl
    | some name => exact unplacedReading_bind (expectWord_unplaced .rename start ts) fun rest => rfl

theorem takeDigits_unplaced (ts : Tokens) :
    takeDigits ts.unplaced = ((takeDigits ts).1, (takeDigits ts).2.unplaced) := by
  induction ts with
  | nil => rfl
  | cons t ts ih =>
    obtain ⟨value, place⟩ := t
    cases value with
    | digit value => simp only [List.map_cons, takeDigits, Located.unplaced, ih]
    | _ => rfl

theorem parseNumber_unplaced (start : Position) (ts : Tokens) :
    Parsed.unplaced (parseNumber start ts) = parseNumber {} ts.unplaced := by
  simp only [parseNumber, takeDigits_unplaced]
  cases Number.ofText? (String.ofList (takeDigits ts).1) <;> rfl

theorem postfixes_unplaced (node : Node) (ts : Tokens) :
    postfixes node ts.unplaced = ((postfixes node ts).1, (postfixes node ts).2.unplaced) := by
  induction ts generalizing node with
  | nil => rfl
  | cons t ts ih =>
    obtain ⟨value, place⟩ := t
    cases value with
    | unary op => exact ih (.unary op node)
    | _ => rfl

theorem skipFormat_unplaced (ts : Tokens) : (skipFormat ts).unplaced = skipFormat ts.unplaced := by
  cases ts with
  | nil => rfl
  | cons t ts =>
    simp only [List.map_cons, skipFormat]
    split
    · exact (if_pos ‹_›).symm
    · exact (if_neg ‹_›).symm

theorem skipSeparator_unplaced (ts : Tokens) :
    (skipSeparator ts).unplaced = skipSeparator ts.unplaced := by
  cases ts with
  | nil => rfl
  | cons t ts =>
    simp only [List.map_cons, skipSeparator]
    split
    · exact (if_pos ‹_›).symm
    · exact (if_neg ‹_›).symm

theorem asValue_unplaced (node : Node) (place : Position) :
    unplacedReading id (asValue node place) = asValue node {} := by
  unfold asValue
  split <;> rfl

theorem parameters_unplaced (start : Position) (seen : List String) (nodes : List Node) :
    unplacedReading id (parameters start seen nodes) = parameters {} seen nodes := by
  induction nodes generalizing seen with
  | nil => rfl
  | cons node nodes ih =>
    cases node with
    | «variable» name =>
      simp only [parameters]
      split
      · rfl
      · exact ih _
    | _ => rfl

theorem parseHeaderEnd_unplaced (start : Position) (nodes : List Node) (ts : Tokens) :
    Parsed.unplaced (parseHeaderEnd start nodes ts) = parseHeaderEnd {} nodes ts.unplaced := by
  cases ts with
  | nil => rfl
  | cons t ts =>
    obtain ⟨value, place⟩ := t
    simp only [parseHeaderEnd, List.map_cons, Located.unplaced]
    cases freeName? value with
    | none => rfl
    | some name =>
      cases ts with
      | nil => rfl
      | cons ending ts =>
        obtain ⟨value, place⟩ := ending
        simp only [List.map_cons, Located.unplaced]
        split
        · exact unplacedReading_bind (parameters_unplaced start [] nodes) fun names => rfl
        · rfl
        · rfl

/-- The functions that call one another read the same without places. -/
structure ReadsUnplaced (bound : Nat) : Prop where
  atom (bare : Bool) (fallback : Position) (ts : Tokens) :
    Parsed.unplaced (parseAtom bound bare fallback ts) = parseAtom bound bare {} ts.unplaced
  climb (left : Node) (floor : Nat) (bare : Bool) (fallback : Position) (ts : Tokens) :
    Parsed.unplaced (climb bound left floor bare fallback ts) =
      climb bound left floor bare {} ts.unplaced
  expression (bare : Bool) (fallback : Position) (ts : Tokens) :
    Parsed.unplaced (parseExpression bound bare fallback ts) =
      parseExpression bound bare {} ts.unplaced
  value (bare : Bool) (fallback : Position) (ts : Tokens) :
    Parsed.unplaced (parseValue bound bare fallback ts) = parseValue bound bare {} ts.unplaced
  arguments (start : Position) (ts : Tokens) :
    Parsed.unplaced (parseArguments bound start ts) = parseArguments bound {} ts.unplaced

namespace ReadsUnplaced

variable {bound : Nat} {bare : Bool} {fallback : Position} {ts : Tokens}

theorem atom_succ (ih : ReadsUnplaced bound) :
    Parsed.unplaced (parseAtom (bound + 1) bare fallback ts) =
      parseAtom (bound + 1) bare {} ts.unplaced := by
  cases ts with
  | nil => rfl
  | cons t ts =>
    obtain ⟨value, place⟩ := t
    simp only [parseAtom, List.map_cons, Located.unplaced]
    split
    · refine unplacedReading_bind (ih.value false place ts) ?_
      rintro ⟨inner, rest⟩
      refine unplacedReading_bind (expectWord_unplaced .unzip place rest) fun rest => ?_
      rw [postfixes_unplaced]
      rfl
    · refine unplacedReading_bind (expectPunctuation_unplaced '(' place ts) fun rest => ?_
      refine unplacedReading_bind (ih.arguments place rest) ?_
      rintro ⟨nodes, rest⟩
      exact parseHeaderEnd_unplaced place nodes rest
    · exact parseVariable_unplaced place ts
    · exact parseNumber_unplaced place (_ :: ts)
    · rfl
    · rfl
    · rfl
    · split
      · rfl
      · split <;> rfl
    · rfl

theorem climb_succ (ih : ReadsUnplaced bound) {left : Node} {floor : Nat} :
    Parsed.unplaced (Node.climb (bound + 1) left floor bare fallback ts) =
      Node.climb (bound + 1) left floor bare {} ts.unplaced := by
  cases ts with
  | nil => rfl
  | cons t ts =>
    obtain ⟨value, place⟩ := t
    cases value with
    | binary op =>
      simp only [Node.climb, List.map_cons, Located.unplaced]
      split
      · rfl
      · refine unplacedReading_bind (ih.atom bare place ts) ?_
        rintro ⟨operand, rest⟩
        rw [nextPosition_unplaced]
        refine unplacedReading_bind (asValue_unplaced operand _) fun _ => ?_
        refine unplacedReading_bind (ih.climb operand op.precedence bare fallback rest) ?_
        rintro ⟨right, rest⟩
        exact ih.climb (.binary op left right) floor bare fallback rest
    | _ => rfl

theorem expression_succ (ih : ReadsUnplaced bound) :
    Parsed.unplaced (parseExpression (bound + 1) bare fallback ts) =
      parseExpression (bound + 1) bare {} ts.unplaced := by
  simp only [parseExpression]
  refine unplacedReading_bind (ih.atom bare fallback ts) ?_
  rintro ⟨atom, rest⟩
  simp only [Prod.map_apply, id_eq]
  split
  · rw [← skipFormat_unplaced]
    rfl
  · refine unplacedReading_bind (ih.climb atom 0 bare fallback rest) ?_
    rintro ⟨node, rest⟩
    simp only [Prod.map_apply, id_eq, postfixes_unplaced, ← skipFormat_unplaced]
    rfl

theorem value_succ (ih : ReadsUnplaced bound) :
    Parsed.unplaced (parseValue (bound + 1) bare fallback ts) =
      parseValue (bound + 1) bare {} ts.unplaced := by
  simp only [parseValue, nextPosition_unplaced]
  refine unplacedReading_bind (ih.expression bare fallback ts) ?_
  rintro ⟨node, rest⟩
  exact unplacedReading_bind (asValue_unplaced node _) fun _ => rfl

theorem arguments_succ (ih : ReadsUnplaced bound) {start : Position} :
    Parsed.unplaced (parseArguments (bound + 1) start ts) =
      parseArguments (bound + 1) {} ts.unplaced := by
  cases ts with
  | nil => rfl
  | cons t ts =>
    obtain ⟨value, place⟩ := t
    simp only [parseArguments, List.map_cons, Located.unplaced]
    split
    · rfl
    · refine unplacedReading_bind (ih.value true start (_ :: ts)) ?_
      rintro ⟨argument, rest⟩
      simp only [Prod.map_apply, ← skipSeparator_unplaced]
      exact unplacedReading_bind (ih.arguments start (skipSeparator rest)) fun _ => rfl

end ReadsUnplaced

theorem readsUnplaced (bound : Nat) : ReadsUnplaced bound := by
  induction bound with
  | zero =>
    exact ⟨fun _ _ _ => rfl, fun _ _ _ _ _ => rfl, fun _ _ _ => rfl, fun _ _ _ => rfl,
      fun _ _ => rfl⟩
  | succ bound ih =>
    exact ⟨fun _ _ _ => ih.atom_succ, fun _ _ _ _ _ => ih.climb_succ,
      fun _ _ _ => ih.expression_succ, fun _ _ _ => ih.value_succ, fun _ _ => ih.arguments_succ⟩

theorem expression_unplaced (bare : Bool) (fallback : Position) (ts : Tokens) :
    Parsed.unplaced (expression bare fallback ts) = expression bare {} ts.unplaced := by
  simp only [expression, depthBound, List.length_map]
  exact (readsUnplaced _).expression bare fallback ts

end Node

namespace Program

theorem parseInstructions_unplaced (count : Nat) (ts : Tokens) :
    unplacedReading (List.map Located.unplaced) (parseInstructions count ts) =
      parseInstructions count ts.unplaced := by
  induction count generalizing ts with
  | zero => cases ts <;> rfl
  | succ count ih =>
    cases ts with
    | nil => rfl
    | cons t ts =>
      simp only [parseInstructions, List.map_cons]
      refine unplacedReading_bind (Node.expression_unplaced false t.position (t :: ts)) ?_
      rintro ⟨node, rest⟩
      exact unplacedReading_bind (ih rest) fun instructions => rfl

/-- Tokens that differ in their places only spell programs that differ in their places only. -/
theorem ofTokens_unplaced (ts : Tokens) :
    unplacedReading (List.map Located.unplaced) (ofTokens ts) = ofTokens ts.unplaced := by
  rw [ofTokens, ofTokens, List.length_map]
  exact parseInstructions_unplaced _ ts

end Program
end VerbScript
