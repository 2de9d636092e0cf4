import VerbScript.Proofs.Syntax.Denotation
import VerbScript.Proofs.Syntax.Finality

/-!
# VerbScript.Proofs.Syntax.Completion

Tokens that end too early are the beginning of a program.

Wherever reading runs out of tokens there are some that finish what has begun: `fax` for a value, the
word that closes a group or a variable, the closing parenthesis and the end of a call. Each function
that was reading is completed in this way from the inside out, and what comes behind the added tokens
is left as it is (`Completable`). So a text that ends too early can be completed, which is
`Node.readsCompletably` for expressions; together with `Program.ofTokens_final` this says for every
error whether more tokens can take it back (`Program.error_final_or_completable`).
-/

namespace VerbScript

namespace Tokens

/-- Tokens that go neither on with a value in front of them nor end it. -/
structure EndExpression (rest : Tokens) : Prop where
  value : EndValue rest
  format : ∀ t ∈ rest.head?, t.value ≠ .structural .format

theorem endExpression_structural {t : Located Token} {word : StructuralWord}
    (h : t.value = .structural word) (hword : word ≠ .format) (rest : Tokens) :
    EndExpression (t :: rest) := by
  refine ⟨endValue_structural h rest, ?_⟩
  rintro u ⟨⟩
  rw [h]
  simpa using hword

theorem endExpression_closing (place : Position) (rest : Tokens) :
    EndExpression (⟨.punctuation ')', place⟩ :: rest) := by
  refine ⟨?_, ?_⟩ <;> (rintro u ⟨⟩; simp [Token.extendsValue, Token.extendsAtom])

theorem endExpression_nil : EndExpression [] := by
  refine ⟨?_, ?_⟩ <;> (rintro t ⟨⟩)

theorem Readable.append {ts more : Tokens} (h : Readable ts) (hmore : Readable more) :
    Readable (ts ++ more) := by
  intro t ht
  exact (List.mem_append.1 ht).elim (h t) (hmore t)

end Tokens

/-- Readable tokens behind `ts` finish what reading them began, with a valid result and whatever comes
behind that `ends` allows. What `read` is given first is its bound. -/
def Completable {α : Type} (valid : α → Prop) (ends : Tokens → Prop)
    (read : Nat → Position → Tokens → Parsed (α × Tokens)) (bound : Nat) (ts : Tokens) : Prop :=
  ∃ more result, Tokens.Readable more ∧ valid result ∧
    ∀ behind bound' fallback, ends behind → bound + 4 * more.length ≤ bound' →
      read bound' fallback (ts ++ (more ++ behind)) = .ok (result, behind)

namespace Node

open Tokens (EndAtom EndValue EndExpression)

/-! ## Single steps of reading -/

theorem eq_nil_of_expectWord {word : StructuralWord} {fallback place : Position} {ts : Tokens}
    (h : expectWord word fallback ts = .error ⟨.unexpectedEnd, place⟩) : ts = [] := by
  cases ts with
  | nil => rfl
  | cons t ts =>
    simp only [expectWord] at h
    split at h <;> cases h

theorem eq_nil_of_expectPunctuation {c : Char} {fallback place : Position} {ts : Tokens}
    (h : expectPunctuation c fallback ts = .error ⟨.unexpectedEnd, place⟩) : ts = [] := by
  cases ts with
  | nil => rfl
  | cons t ts =>
    simp only [expectPunctuation] at h
    split at h <;> cases h

theorem asValue_ne_end {node : Node} {place place' : Position} :
    asValue node place ≠ .error ⟨.unexpectedEnd, place'⟩ := by
  unfold asValue
  split <;> simp

theorem parseNumber_ne_end {start place : Position} {ts : Tokens} :
    parseNumber start ts ≠ .error ⟨.unexpectedEnd, place⟩ := by
  simp only [parseNumber]
  split <;> simp

theorem parameters_ne_end {start place : Position} {seen : List String} {nodes : List Node} :
    parameters start seen nodes ≠ .error ⟨.unexpectedEnd, place⟩ := by
  induction nodes generalizing seen with
  | nil => simp [parameters]
  | cons node nodes ih =>
    cases node with
    | «variable» name =>
      simp only [parameters]
      split
      · simp
      · exact ih
    | _ => simp [parameters]

/-- A name to finish a variable or a header with. -/
theorem freeName_x : Vocabulary.FreeName "x" := by
  exact ⟨by decide, by decide⟩

theorem parseVariable_completable {start place : Position} {ts : Tokens}
    (h : parseVariable start ts = .error ⟨.unexpectedEnd, place⟩) :
    ∃ more node, Tokens.Readable more ∧ node.isMarker = false ∧
      ∀ behind start', parseVariable start' (ts ++ (more ++ behind)) = .ok (node, behind) := by
  cases ts with
  | nil =>
    refine ⟨[⟨.name "x", {}⟩, ⟨.structural .rename, {}⟩], .variable "x", ?_, rfl, fun _ _ => rfl⟩
    simpa [Tokens.Readable, Token.Readable] using freeName_readable freeName_x
  | cons t ts =>
    simp only [parseVariable] at h
    split at h
    · cases h
    · rename_i name hname
      rcases Parsed.bind_eq_error h with hrename | ⟨rest, -, h⟩
      · obtain rfl := eq_nil_of_expectWord hrename
        refine ⟨[⟨.structural .rename, {}⟩], .variable name, ?_, rfl, ?_⟩
        · simp [Tokens.Readable, Token.Readable]
        · intro behind start'
          simp only [List.cons_append, List.nil_append, parseVariable, hname]
          rfl
      · cases h

/-- A header is finished as a call, which takes any arguments. -/
theorem parseHeaderEnd_completable {start place : Position} {nodes : List Node} {ts : Tokens}
    (h : parseHeaderEnd start nodes ts = .error ⟨.unexpectedEnd, place⟩) :
    ∃ more node, Tokens.Readable more ∧ node.isMarker = false ∧
      ∀ behind start', parseHeaderEnd start' nodes (ts ++ (more ++ behind)) = .ok (node, behind) := by
  cases ts with
  | nil =>
    refine ⟨[⟨.name "x", {}⟩, ⟨.structural .call, {}⟩], .call "x" nodes, ?_, rfl, fun _ _ => rfl⟩
    simpa [Tokens.Readable, Token.Readable] using freeName_readable freeName_x
  | cons t ts =>
    simp only [parseHeaderEnd] at h
    split at h
    · cases h
    · rename_i name hname
      cases ts with
      | nil =>
        refine ⟨[⟨.structural .call, {}⟩], .call name nodes, ?_, rfl, ?_⟩
        · simp [Tokens.Readable, Token.Readable]
        · intro behind start'
          simp only [List.cons_append, List.nil_append, parseHeaderEnd, hname]
      | cons ending ts =>
        simp only at h
        split at h
        · rcases Parsed.bind_eq_error h with hnames | ⟨names, -, h⟩
          · exact absurd hnames parameters_ne_end
          · cases h
        · cases h
        · cases h

/-- Where a value is due, taking one off the stack will do. -/
theorem completable_nil (bare : Bool) (bound : Nat) :
    Completable (fun node => node.isMarker = false) EndAtom (fun b => parseAtom b bare) bound [] := by
  refine ⟨[⟨.pop, {}⟩], .pop, by simp [Tokens.Readable, Token.Readable], rfl, ?_⟩
  intro behind bound' fallback _ hle
  obtain ⟨bound', rfl⟩ : ∃ b, bound' = b + 1 := ⟨bound' - 1, by simp at hle; omega⟩
  rfl

theorem parseArguments_closing {bound : Nat} (h : 0 < bound) (start place : Position)
    (rest : Tokens) :
    parseArguments bound start (⟨.punctuation ')', place⟩ :: rest) = .ok ([], rest) := by
  cases bound with
  | zero => cases h
  | succ bound => rfl

theorem parted_closing (place : Position) (ts rest : Tokens) :
    Tokens.Parted Token.endsExpression ts (⟨.punctuation ')', place⟩ :: rest) := by
  refine ⟨?_, ?_⟩
  · rintro t ⟨⟩
    rfl
  · rintro t ⟨⟩ u _ _
    rfl

/-- An argument is a value, with a separator behind it or without. -/
theorem parseArguments_argument {bound : Nat} {start : Position} {t : Located Token}
    {ts rest₁ rest : Tokens} {argument : Node} {arguments : List Node}
    (ht : t.value ≠ .punctuation ')')
    (hargument : parseValue bound true start (t :: ts) = .ok (argument, rest₁))
    (hrest : parseArguments bound start (skipSeparator rest₁) = .ok (arguments, rest)) :
    parseArguments (bound + 1) start (t :: ts) = .ok (argument :: arguments, rest) := by
  simp only [parseArguments, if_neg ht, hargument, hrest, bind, Except.bind]

theorem climb_ne_nil_of_pos {bound : Nat} {left : Node} {floor : Nat} {bare : Bool}
    {fallback : Position} {ts : Tokens} {e : Located ParseError}
    (h : climb bound left floor bare fallback ts = .error e) (hbound : 0 < bound) : ts ≠ [] := by
  rintro rfl
  cases bound with
  | zero => exact absurd hbound (Nat.lt_irrefl 0)
  | succ bound => cases h

/-- An operator above the floor takes an operand and what binds tighter behind it. -/
theorem climb_operator {bound : Nat} {left operand right : Node} {floor : Nat} {bare : Bool}
    {fallback : Position} {t : Located Token} {op : BinaryOperator} {ts rest₁ rest₂ : Tokens}
    (ht : t.value = .binary op) (hfloor : ¬ op.precedence ≤ floor)
    (hoperand : parseAtom bound bare t.position ts = .ok (operand, rest₁))
    (hvalue : operand.isMarker = false)
    (hright : climb bound operand op.precedence bare fallback rest₁ = .ok (right, rest₂)) :
    climb (bound + 1) left floor bare fallback (t :: ts) =
      climb bound (.binary op left right) floor bare fallback rest₂ := by
  simp only [climb, ht, if_neg hfloor, hoperand, bind, Except.bind, asValue_of_not_marker hvalue,
    hright]

/-- An atom that nothing goes on with is an expression. -/
theorem parseExpression_atom {bound : Nat} {bare : Bool} {fallback : Position} {ts rest : Tokens}
    {node : Node} (h : parseAtom (bound + 1) bare fallback ts = .ok (node, rest))
    (hnode : node.isMarker = false) (hrest : EndExpression rest) :
    parseExpression (bound + 2) bare fallback ts = .ok (node, rest) := by
  simp only [parseExpression, h, bind, Except.bind, hnode, Bool.false_eq_true, ↓reduceIte,
    climb_end hrest.value, postfixes_end hrest.value.endAtom, skipFormat_stop hrest.format]

/-! ## The functions that call one another -/

/-- The functions run out of their bound only where they run out of tokens, and then what they have
read of is completed by some tokens. -/
structure ReadsCompletably (bound : Nat) : Prop where
  atom {bare : Bool} {fallback place : Position} {ts : Tokens}
    (h : parseAtom bound bare fallback ts = .error ⟨.unexpectedEnd, place⟩)
    (hbound : 4 * ts.length ≤ bound) :
    Completable (fun node => node.isMarker = false) EndAtom (fun b => parseAtom b bare) bound ts
  climb {left : Node} {floor : Nat} {bare : Bool} {fallback place : Position} {ts : Tokens}
    (h : climb bound left floor bare fallback ts = .error ⟨.unexpectedEnd, place⟩)
    (hleft : left.isMarker = false) (hbound : 4 * ts.length + 1 ≤ bound) :
    Completable (fun node => node.isMarker = false) EndValue (fun b => climb b left floor bare)
      bound ts
  expression {bare : Bool} {fallback place : Position} {ts : Tokens}
    (h : parseExpression bound bare fallback ts = .error ⟨.unexpectedEnd, place⟩)
    (hbound : 4 * ts.length + 2 ≤ bound) :
    Completable (fun node => node.isMarker = false) EndExpression
      (fun b => parseExpression b bare) bound ts
  value {bare : Bool} {fallback place : Position} {ts : Tokens}
    (h : parseValue bound bare fallback ts = .error ⟨.unexpectedEnd, place⟩)
    (hbound : 4 * ts.length + 3 ≤ bound) :
    Completable (fun node => node.isMarker = false) EndExpression (fun b => parseValue b bare)
      bound ts
  arguments {start place : Position} {ts : Tokens}
    (h : parseArguments bound start ts = .error ⟨.unexpectedEnd, place⟩)
    (hbound : 4 * ts.length + 4 ≤ bound) :
    Completable (fun _ => True) (fun _ => True) parseArguments bound ts

namespace ReadsCompletably

variable {bound : Nat} (ih : ReadsCompletably bound) {bare : Bool} {fallback place : Position}
  {ts : Tokens}
include ih

/-- A group is completed inside and then closed. -/
theorem group {t : Located Token} (ht : t.value = .structural .zip)
    (h : (do
      let (inner, rest) ← parseValue bound false t.position ts
      let rest ← expectWord .unzip t.position rest
      .ok (postfixes inner rest) : Parsed (Node × Tokens)) = .error ⟨.unexpectedEnd, place⟩)
    (hbound : 4 * ts.length + 3 ≤ bound) :
    Completable (fun node => node.isMarker = false) EndAtom (fun b => parseAtom b bare) (bound + 1)
      (t :: ts) := by
  have hunzip : Tokens.Readable [⟨.structural .unzip, {}⟩] := by
    simp [Tokens.Readable, Token.Readable]
  rcases Parsed.bind_eq_error h with hinner | ⟨⟨inner, rest⟩, hinner, h⟩
  · obtain ⟨more, node, hreadable, hnode, hreads⟩ := ih.value hinner hbound
    refine ⟨more ++ [⟨.structural .unzip, {}⟩], node, hreadable.append hunzip, hnode, ?_⟩
    intro behind bound' fallback' hends hle
    simp only [List.length_append, List.length_singleton] at hle
    obtain ⟨bound', rfl⟩ : ∃ b, bound' = b + 1 := ⟨bound' - 1, by omega⟩
    have hvalue := hreads (⟨.structural .unzip, {}⟩ :: behind) bound' t.position
      (Tokens.endExpression_structural rfl (by decide) behind) (by omega)
    have hgroup := parseAtom_group ht rfl hvalue bare fallback'
    simpa [postfixes_end hends] using hgroup
  · rcases Parsed.bind_eq_error h with hmissing | ⟨rest', -, h⟩
    · obtain rfl := eq_nil_of_expectWord hmissing
      refine ⟨[⟨.structural .unzip, {}⟩], inner, hunzip, not_marker_of_parseValue hinner, ?_⟩
      intro behind bound' fallback' hends hle
      obtain ⟨bound', rfl⟩ : ∃ b, bound' = b + 1 := ⟨bound' - 1, by omega⟩
      have hparted : Tokens.Parted Token.endsExpression ts (⟨.structural .unzip, {}⟩ :: behind) :=
        parted_structural rfl (by decide) ts behind
      have hvalue := (readsLocally bound).value hinner (fun _ => hparted) (by omega : bound ≤ bound')
        t.position
      have hgroup := parseAtom_group ht rfl hvalue bare fallback'
      simpa [postfixes_end hends] using hgroup
    · cases h

/-- A header is completed up to its closing parenthesis and then ended as a call. -/
theorem header {t : Located Token} (ht : t.value = .structural .use)
    (h : (do
      let rest ← expectPunctuation '(' t.position ts
      let (arguments, rest) ← parseArguments bound t.position rest
      parseHeaderEnd t.position arguments rest : Parsed (Node × Tokens)) =
        .error ⟨.unexpectedEnd, place⟩)
    (hbound : 4 * ts.length ≤ bound) :
    Completable (fun node => node.isMarker = false) EndAtom (fun b => parseAtom b bare) (bound + 1)
      (t :: ts) := by
  rcases Parsed.bind_eq_error h with hopening | ⟨rest₁, hopening, hrest⟩
  · obtain rfl := eq_nil_of_expectPunctuation hopening
    refine ⟨[⟨.punctuation '(', {}⟩, ⟨.punctuation ')', {}⟩, ⟨.name "x", {}⟩,
      ⟨.structural .call, {}⟩], .call "x" [], ?_, rfl, ?_⟩
    · simpa [Tokens.Readable, Token.Readable] using freeName_readable freeName_x
    · intro behind bound' fallback' _ hle
      simp only [List.length_cons, List.length_nil] at hle
      obtain ⟨bound', rfl⟩ : ∃ b, bound' = b + 1 := ⟨bound' - 1, by omega⟩
      have hclosing := parseArguments_closing (by omega : 0 < bound') t.position {}
        (⟨.name "x", {}⟩ :: ⟨.structural .call, {}⟩ :: behind)
      exact parseAtom_header ht rfl hclosing bare fallback'
  obtain ⟨opening, rfl, hvalue⟩ := expectPunctuation_front hopening
  simp only [List.length_cons] at hbound
  rcases Parsed.bind_eq_error hrest with hnodes | ⟨⟨nodes, rest₂⟩, hnodes, hend⟩
  · obtain ⟨more, nodes, hreadable, -, hreads⟩ := ih.arguments hnodes (by omega)
    refine ⟨more ++ [⟨.name "x", {}⟩, ⟨.structural .call, {}⟩], .call "x" nodes,
      hreadable.append ?_, rfl, ?_⟩
    · simpa [Tokens.Readable, Token.Readable] using freeName_readable freeName_x
    · intro behind bound' fallback' _ hle
      simp only [List.length_append, List.length_cons, List.length_nil] at hle
      obtain ⟨bound', rfl⟩ : ∃ b, bound' = b + 1 := ⟨bound' - 1, by omega⟩
      have harguments := hreads (⟨.name "x", {}⟩ :: ⟨.structural .call, {}⟩ :: behind) bound'
        t.position trivial (by omega)
      have hheader := parseAtom_header ht hvalue harguments bare fallback'
      simp only [List.cons_append, List.append_assoc, List.nil_append] at hheader ⊢
      rw [hheader]
      rfl
  · obtain ⟨more, node, hreadable, hnode, hreads⟩ := parseHeaderEnd_completable hend
    refine ⟨more, node, hreadable, hnode, ?_⟩
    intro behind bound' fallback' _ hle
    obtain ⟨bound', rfl⟩ : ∃ b, bound' = b + 1 := ⟨bound' - 1, by omega⟩
    have harguments := (readsLocally bound).arguments hnodes (more ++ behind)
      (by omega : bound ≤ bound') t.position
    have hheader := parseAtom_header ht hvalue harguments bare fallback'
    rw [hreads] at hheader
    exact hheader

theorem atom_succ (h : parseAtom (bound + 1) bare fallback ts = .error ⟨.unexpectedEnd, place⟩)
    (hbound : 4 * ts.length ≤ bound + 1) :
    Completable (fun node => node.isMarker = false) EndAtom (fun b => parseAtom b bare) (bound + 1)
      ts := by
  cases ts with
  | nil => exact completable_nil bare (bound + 1)
  | cons t ts =>
    simp only [List.length_cons] at hbound
    simp only [parseAtom] at h
    split at h
    · rename_i ht
      exact ih.group ht h (by omega)
    · rename_i ht
      exact ih.header ht h (by omega)
    · rename_i ht
      obtain ⟨more, node, hreadable, hnode, hreads⟩ := parseVariable_completable h
      refine ⟨more, node, hreadable, hnode, ?_⟩
      intro behind bound' fallback' _ hle
      obtain ⟨bound', rfl⟩ : ∃ b, bound' = b + 1 := ⟨bound' - 1, by omega⟩
      simp only [List.cons_append, parseAtom, ht]
      exact hreads behind t.position
    · exact absurd h parseNumber_ne_end
    · cases h
    · cases h
    · cases h
    · split at h
      · cases h
      · split at h <;> cases h
    · cases h

theorem climb_succ {left : Node} {floor : Nat}
    (h : Node.climb (bound + 1) left floor bare fallback ts = .error ⟨.unexpectedEnd, place⟩)
    (hbound : 4 * ts.length + 1 ≤ bound + 1) :
    Completable (fun node => node.isMarker = false) EndValue (fun b => Node.climb b left floor bare)
      (bound + 1) ts := by
  cases ts with
  | nil => cases h
  | cons t ts =>
    simp only [List.length_cons] at hbound
    simp only [Node.climb] at h
    split at h
    · rename_i op ht
      split at h
      · cases h
      rename_i hfloor
      rcases Parsed.bind_eq_error h with hoperand | ⟨⟨operand, rest₁⟩, hoperand, h⟩
      · obtain ⟨more, operand, hreadable, hvalue, hreads⟩ := ih.atom hoperand (by omega)
        refine ⟨more, .binary op left operand, hreadable, rfl, ?_⟩
        intro behind bound' fallback' hends hle
        obtain ⟨bound', rfl⟩ : ∃ b, bound' = b + 2 := ⟨bound' - 2, by omega⟩
        have hatom := hreads behind (bound' + 1) t.position hends.endAtom (by omega)
        have hright := climb_end hends bound' operand op.precedence bare fallback'
        exact (climb_operator ht hfloor hatom hvalue hright).trans (climb_end hends _ _ _ _ _)
      dsimp only at h
      have hlength₁ : rest₁.length ≤ ts.length := (parseAtom_suffix hoperand).length_le
      rcases Parsed.bind_eq_error h with hvalue | ⟨_, hvalue, h⟩
      · exact absurd hvalue asValue_ne_end
      have hnode := not_marker_of_asValue hvalue
      rcases Parsed.bind_eq_error h with hright | ⟨⟨right, rest₂⟩, hright, h⟩
      · have hleft₁ : rest₁ ≠ [] := climb_ne_nil_of_pos hright (by omega)
        obtain ⟨more, right, hreadable, -, hreads⟩ := ih.climb hright hnode (by omega)
        refine ⟨more, .binary op left right, hreadable, rfl, ?_⟩
        intro behind bound' fallback' hends hle
        obtain ⟨bound', rfl⟩ : ∃ b, bound' = b + 2 := ⟨bound' - 2, by omega⟩
        have hatom := parseAtom_append hleft₁ (more ++ behind) (by omega : bound ≤ bound' + 1)
          t.position hoperand
        have hclimb := hreads behind (bound' + 1) fallback' hends (by omega)
        exact (climb_operator ht hfloor hatom hnode hclimb).trans (climb_end hends _ _ _ _ _)
      · dsimp only at h
        have hsuffix₂ := climb_suffix hright
        have hlength₂ : rest₂.length ≤ rest₁.length := hsuffix₂.length_le
        have hleft₂ : rest₂ ≠ [] := climb_ne_nil_of_pos h (by omega)
        have hleft₁ : rest₁ ≠ [] := by
          rintro rfl
          exact hleft₂ (List.suffix_nil.1 hsuffix₂)
        obtain ⟨more, node, hreadable, hvalue, hreads⟩ := ih.climb h rfl (by omega)
        refine ⟨more, node, hreadable, hvalue, ?_⟩
        intro behind bound' fallback' hends hle
        obtain ⟨bound', rfl⟩ : ∃ b, bound' = b + 1 := ⟨bound' - 1, by omega⟩
        have hle' : bound ≤ bound' := by omega
        have hatom := parseAtom_append hleft₁ (more ++ behind) hle' t.position hoperand
        have hclimb := climb_append hleft₂ (more ++ behind) hle' fallback' hright
        exact (climb_operator ht hfloor hatom hnode hclimb).trans
          (hreads behind bound' fallback' hends (by omega))
    · cases h

theorem expression_succ
    (h : parseExpression (bound + 1) bare fallback ts = .error ⟨.unexpectedEnd, place⟩)
    (hbound : 4 * ts.length + 2 ≤ bound + 1) :
    Completable (fun node => node.isMarker = false) EndExpression
      (fun b => parseExpression b bare) (bound + 1) ts := by
  simp only [parseExpression] at h
  rcases Parsed.bind_eq_error h with hfirst | ⟨⟨first, rest₁⟩, hfirst, h⟩
  · obtain ⟨more, node, hreadable, hnode, hreads⟩ := ih.atom hfirst (by omega)
    refine ⟨more, node, hreadable, hnode, ?_⟩
    intro behind bound' fallback' hends hle
    obtain ⟨bound', rfl⟩ : ∃ b, bound' = b + 2 := ⟨bound' - 2, by omega⟩
    have hatom := hreads behind (bound' + 1) fallback' hends.value.endAtom (by omega)
    exact parseExpression_atom hatom hnode hends
  simp only at h
  split at h
  · cases h
  rename_i hmarker
  have hnode : first.isMarker = false := Bool.eq_false_iff.2 hmarker
  rcases Parsed.bind_eq_error h with htree | ⟨⟨tree, rest₂⟩, -, h⟩
  · have hlength : rest₁.length ≤ ts.length := (parseAtom_suffix hfirst).length_le
    have hleft : rest₁ ≠ [] := climb_ne_nil_of_pos htree (by omega)
    obtain ⟨more, tree, hreadable, htree, hreads⟩ := ih.climb htree hnode (by omega)
    refine ⟨more, tree, hreadable, htree, ?_⟩
    intro behind bound' fallback' hends hle
    obtain ⟨bound', rfl⟩ : ∃ b, bound' = b + 1 := ⟨bound' - 1, by omega⟩
    have hatom := parseAtom_append hleft (more ++ behind) (by omega : bound ≤ bound') fallback'
      hfirst
    have hclimb := hreads behind bound' fallback' hends.value (by omega)
    simp only [parseExpression, hatom, bind, Except.bind, if_neg hmarker, hclimb,
      postfixes_end hends.value.endAtom, skipFormat_stop hends.format]
  · cases h

theorem value_succ (h : parseValue (bound + 1) bare fallback ts = .error ⟨.unexpectedEnd, place⟩)
    (hbound : 4 * ts.length + 3 ≤ bound + 1) :
    Completable (fun node => node.isMarker = false) EndExpression (fun b => parseValue b bare)
      (bound + 1) ts := by
  simp only [parseValue] at h
  rcases Parsed.bind_eq_error h with htree | ⟨⟨tree, rest₁⟩, -, h⟩
  · obtain ⟨more, node, hreadable, hnode, hreads⟩ := ih.expression htree (by omega)
    refine ⟨more, node, hreadable, hnode, ?_⟩
    intro behind bound' fallback' hends hle
    obtain ⟨bound', rfl⟩ : ∃ b, bound' = b + 1 := ⟨bound' - 1, by omega⟩
    have hexpression := hreads behind bound' fallback' hends (by omega)
    simp only [parseValue, hexpression, bind, Except.bind, asValue_of_not_marker hnode]
  rcases Parsed.bind_eq_error h with hvalue | ⟨_, -, h⟩
  · exact absurd hvalue asValue_ne_end
  · cases h

omit bare in
theorem arguments_succ {start : Position}
    (h : parseArguments (bound + 1) start ts = .error ⟨.unexpectedEnd, place⟩)
    (hbound : 4 * ts.length + 4 ≤ bound + 1) :
    Completable (fun _ => True) (fun _ => True) parseArguments (bound + 1) ts := by
  have hreadable : Tokens.Readable [⟨.punctuation ')', {}⟩] := by
    simp [Tokens.Readable, Token.Readable]
  cases ts with
  | nil =>
    refine ⟨[⟨.punctuation ')', {}⟩], [], hreadable, trivial, ?_⟩
    intro behind bound' start' _ hle
    exact parseArguments_closing (by omega) start' {} behind
  | cons t ts =>
    simp only [List.length_cons] at hbound
    simp only [parseArguments] at h
    split at h
    · cases h
    rename_i hclosing
    rcases Parsed.bind_eq_error h with hargument | ⟨⟨argument, rest₁⟩, hargument, h⟩
    · obtain ⟨more, argument, hmore, -, hreads⟩ :=
        ih.value hargument (by rw [List.length_cons]; omega)
      refine ⟨more ++ [⟨.punctuation ')', {}⟩], [argument], hmore.append hreadable, trivial, ?_⟩
      intro behind bound' start' _ hle
      simp only [List.length_append, List.length_singleton] at hle
      obtain ⟨bound', rfl⟩ : ∃ b, bound' = b + 1 := ⟨bound' - 1, by omega⟩
      have hvalue := hreads (⟨.punctuation ')', {}⟩ :: behind) bound' start'
        (Tokens.endExpression_closing {} behind) (by omega)
      have hrest := parseArguments_closing (by omega : 0 < bound') start' {} behind
      have hwhole := parseArguments_argument hclosing hvalue hrest
      simpa using hwhole
    · dsimp only at h
      rcases Parsed.bind_eq_error h with harguments | ⟨⟨arguments, rest₂⟩, -, h⟩
      · cases rest₁ with
        | nil =>
          refine ⟨[⟨.punctuation ')', {}⟩], [argument], hreadable, trivial, ?_⟩
          intro behind bound' start' _ hle
          obtain ⟨bound', rfl⟩ : ∃ b, bound' = b + 1 := ⟨bound' - 1, by omega⟩
          have hvalue := (readsLocally bound).value hargument
            (fun _ => parted_closing {} (t :: ts) behind) (by omega : bound ≤ bound') start'
          have hrest := parseArguments_closing (by omega : 0 < bound') start' {} behind
          exact parseArguments_argument hclosing hvalue hrest
        | cons u rest₁ =>
          have hlength : (u :: rest₁).length ≤ ts.length := (parseValue_consumes hargument).length_le
          have hskip := (skipSeparator_suffix (u :: rest₁)).length_le
          obtain ⟨more, arguments, hmore, -, hreads⟩ := ih.arguments harguments (by omega)
          refine ⟨more, argument :: arguments, hmore, trivial, ?_⟩
          intro behind bound' start' _ hle
          obtain ⟨bound', rfl⟩ : ∃ b, bound' = b + 1 := ⟨bound' - 1, by omega⟩
          have hvalue := parseValue_append (List.cons_ne_nil u rest₁) (more ++ behind)
            (by omega : bound ≤ bound') start' hargument
          have hrest := hreads behind bound' start' trivial (by omega)
          rw [← skipSeparator_append] at hrest
          exact parseArguments_argument hclosing hvalue hrest
      · cases h

end ReadsCompletably

theorem readsCompletably (bound : Nat) : ReadsCompletably bound := by
  induction bound with
  | zero =>
    constructor
    · intro bare _ _ ts _ hbound
      have hnil : ts = [] := List.eq_nil_of_length_eq_zero (by omega)
      subst hnil
      exact completable_nil bare 0
    all_goals
      intros
      omega
  | succ bound ih =>
    exact ⟨ih.atom_succ, fun h _ => ih.climb_succ h, ih.expression_succ, ih.value_succ,
      ih.arguments_succ⟩

end Node

namespace Program

/-- Tokens that end too early are the beginning of a program: the instruction that they end in is
completed. -/
theorem ofTokens_completable {ts : Tokens} {place : Position}
    (h : ofTokens ts = .error ⟨.unexpectedEnd, place⟩) :
    ∃ more program, Tokens.Readable more ∧ ofTokens (ts ++ more) = .ok program := by
  induction hlength : ts.length using Nat.strongRecOn generalizing ts with
  | ind length ih =>
    cases ts with
    | nil => cases h
    | cons t ts =>
      rcases ofTokens_cons_eq_error h with hnode | ⟨node, rest, hnode, hleft, hrest⟩
      · obtain ⟨more, node, hreadable, -, hreads⟩ := (Node.readsCompletably _).expression hnode
          (by simp only [Node.depthBound]; omega)
        refine ⟨more, [⟨node, t.position⟩], hreadable, ?_⟩
        have hwhole : Node.expression false t.position (t :: (ts ++ (more ++ []))) = .ok (node, []) :=
          hreads [] _ t.position Tokens.endExpression_nil
            (by simp only [Node.depthBound, List.length_cons, List.length_append]; omega)
        rw [List.append_nil] at hwhole
        exact ofTokens_cons hwhole
      · have hshorter := (Node.parseExpression_consumes hnode).length_le
        rw [List.length_cons] at hlength
        obtain ⟨more, program, hreadable, hprogram⟩ := ih rest.length (by omega) hrest rfl
        refine ⟨more, ⟨node, t.position⟩ :: program, hreadable, ?_⟩
        have hwhole : Node.expression false t.position (t :: (ts ++ more)) =
            .ok (node, rest ++ more) :=
          Node.parseExpression_append hleft more (Node.depthBound_le_append (t :: ts) more) t.position
            hnode
        rw [List.cons_append, ofTokens_cons hwhole, hprogram]
        rfl

/-- What more tokens can do about an error: the end of the tokens can be put off so that a program is
read, and any error but that one and the number at the very end stays whatever they are. -/
theorem error_final_or_completable {ts : Tokens} {e : Located ParseError}
    (h : ofTokens ts = .error e) :
    (e.value ≠ .unexpectedEnd → ¬ EndsMalformed ts e → ∀ more, ofTokens (ts ++ more) = .error e) ∧
      (e.value = .unexpectedEnd →
        ∃ more program, Tokens.Readable more ∧ ofTokens (ts ++ more) = .ok program) := by
  refine ⟨fun hcause hend more => ofTokens_error_append h hcause hend more, fun hend => ?_⟩
  obtain ⟨value, place⟩ := e
  obtain rfl : value = .unexpectedEnd := hend
  exact ofTokens_completable h

/-- A number that cannot go on is final with a word behind it, and an argument list is completed. -/
theorem error_final_or_completable_numberAndHeader :
    let words (ts : List Token) : Tokens := ts.map (⟨·, {}⟩)
    let number := words [.structural .zip, .digit 1, .digit 10, .digit 10, .pop]
    let header := words [.structural .use, .punctuation '(', .name "a"]
    let e : Located ParseError := ⟨.malformedNumber "1..", {}⟩
    ofTokens number = .error e ∧ ¬ EndsMalformed number e ∧
      (∀ more, ofTokens (number ++ more) = .error e) ∧
      ofTokens header = .error ⟨.unexpectedEnd, {}⟩ ∧
      ∃ more program, Tokens.Readable more ∧ ofTokens (header ++ more) = .ok program := by
  intro words number header e
  have hnumber : ofTokens number = .error e := by rfl
  have hend : ¬ EndsMalformed number e := by
    rintro ⟨front, hbehind, -⟩
    refine Tokens.not_endsMalformed ?_ e ⟨front, hbehind⟩
    rintro t ⟨⟩
    rfl
  have hheader : ofTokens header = .error ⟨.unexpectedEnd, {}⟩ := by rfl
  exact ⟨hnumber, hend, (error_final_or_completable hnumber).1 (by simp [e]) hend, hheader,
    (error_final_or_completable hheader).2 rfl⟩

end Program
end VerbScript
