import VerbScript.Proofs.Syntax.Reading
import VerbScript.Proofs.Syntax.WellFormed

/-!
# VerbScript.Proofs.Syntax.Locality

What is read from tokens is read from them wherever they stand.

What a function takes is the front of its tokens. It looks one token ahead: digits go on with a number,
unary operators with a group or an expression, binary operators with an operand, and `format` ends an
expression. So the front is read the same before any tokens that begin like those that were left, or
that do not go on with it (`Tokens.Agree`), in particular before none. A larger bound changes nothing,
nor does one that is enough for the front. For the functions that call one another this is one
induction on the bound (`Node.readsFront`). Tokens appended to those that were left change nothing then
(`Node.readsLocally`).

A program is read in the same way, one instruction after the other (`Program.ofTokens_cons`).
-/

namespace VerbScript

namespace Token

def isDigit : Token → Bool
  | .digit _ => true
  | _ => false

def isUnary : Token → Bool
  | .unary _ => true
  | _ => false

def isOperator : Token → Bool
  | .unary _ | .binary _ => true
  | _ => false

/-- Tokens that belong to an expression in front of them. -/
def endsExpression : Token → Bool
  | .structural .format => true
  | t => t.isOperator

theorem isOperator_of_isUnary {t : Token} (h : t.isUnary = true) : t.isOperator = true := by
  cases t with
  | unary op => rfl
  | _ => cases h

theorem endsExpression_of_isOperator {t : Token} (h : t.isOperator = true) :
    t.endsExpression = true := by
  cases t with
  | unary op => rfl
  | binary op => rfl
  | _ => cases h

end Token

namespace Tokens

/-- There are not digits on both sides of the point between the tokens. -/
def DigitsApart (front rest : Tokens) : Prop :=
  ∀ t ∈ rest.head?, ∀ u ∈ front.getLast?, u.value.isDigit = true → t.value.isDigit = false

namespace DigitsApart

variable {front back rest : Tokens} {t : Located Token}

theorem nil (rest : Tokens) : DigitsApart [] rest := by
  rintro t - u ⟨⟩

theorem concat (front : Tokens) (ht : t.value.isDigit = false) (rest : Tokens) :
    DigitsApart (front ++ [t]) rest := by
  intro _ _ u hu hdigit
  rw [List.getLast?_concat] at hu
  cases hu
  rw [ht] at hdigit
  cases hdigit

theorem prepend (front : Tokens) (hne : back ≠ []) (h : DigitsApart back rest) :
    DigitsApart (front ++ back) rest := by
  intro v hv u hu
  rw [List.getLast?_append, List.getLast?_eq_some_getLast hne] at hu
  exact h v hv u ((List.getLast?_eq_some_getLast hne).trans hu)

theorem append (h : DigitsApart front (back ++ rest)) (hback : DigitsApart back rest) :
    DigitsApart (front ++ back) rest := by
  by_cases hne : back = []
  · subst hne
    rwa [List.append_nil]
  · exact hback.prepend front hne

theorem cons (ht : t.value.isDigit = false) (h : DigitsApart front rest) :
    DigitsApart (t :: front) rest :=
  (concat [] ht (front ++ rest)).append h

end DigitsApart

/-- The first token of `more` does not go on with what ends with `ts`: it is none of those that
`joins` names, and there are not digits on both sides. -/
structure Parted (joins : Token → Bool) (ts more : Tokens) : Prop where
  joins : ∀ t ∈ more.head?, joins t.value = false
  digits : DigitsApart ts more

namespace Parted

variable {joins joins' : Token → Bool} {ts rest more : Tokens}

theorem of_suffix (h : Parted joins ts more) (hrest : rest <:+ ts) : Parted joins rest more := by
  obtain ⟨front, rfl⟩ := hrest
  refine ⟨h.joins, fun t ht u hu => h.digits t ht u ?_⟩
  rw [List.getLast?_append, hu]
  rfl

theorem mono (h : Parted joins ts more) (hle : ∀ t, joins' t = true → joins t = true) :
    Parted joins' ts more := by
  refine ⟨fun t ht => ?_, h.digits⟩
  have hnot := h.joins t ht
  cases hjoins : joins' t.value with
  | false => rfl
  | true => rw [hle _ hjoins] at hnot; cases hnot

end Parted

/-- Behind `front`, `more` is as good as `rest`: it begins with the same token, or with one that does
not go on with `front`. -/
def Agree (joins : Token → Bool) (front rest more : Tokens) : Prop :=
  more.head? = rest.head? ∨ Parted joins front more

namespace Agree

variable {joins joins' : Token → Bool} {front back rest more : Tokens}

theorem head {P : Located Token → Prop} (h : Agree joins front rest more)
    (hrest : ∀ t ∈ rest.head?, P t) (hjoins : ∀ t, joins t.value = false → P t) :
    ∀ t ∈ more.head?, P t := by
  intro t ht
  rcases h with h | h
  · exact hrest t (h ▸ ht)
  · exact hjoins t (h.joins t ht)

/-- What was taken behind `front` begins the same, and if it is nothing, `front` is at the end. -/
theorem of_append (h : Agree joins (front ++ back) rest more)
    (hle : ∀ t, joins' t = true → joins t = true) :
    Agree joins' front (back ++ rest) (back ++ more) := by
  cases back with
  | nil =>
    rw [List.append_nil] at h
    exact h.imp_right fun hparted => hparted.mono hle
  | cons t back => exact .inl rfl

theorem of_suffix (h : Agree joins front rest more) (hback : back <:+ front) :
    Agree joins back rest more :=
  h.imp_right fun hparted => hparted.of_suffix hback

theorem of_rest (h : rest = [] → Parted joins (front ++ rest) more) :
    Agree joins front rest (rest ++ more) := by
  cases rest with
  | nil =>
    have hparted := h rfl
    rw [List.append_nil] at hparted
    exact .inr hparted
  | cons t rest => exact .inl rfl

theorem nil : Agree joins front rest [] := by
  refine .inr ⟨?_, ?_⟩ <;> (rintro t ⟨⟩)

end Agree

end Tokens

namespace Node

open Tokens (Parted Agree DigitsApart)

/-! ## Single steps of reading -/

theorem expectWord_front {word : StructuralWord} {fallback : Position} {ts rest : Tokens}
    (h : expectWord word fallback ts = .ok rest) :
    ∃ t, ts = t :: rest ∧ t.value = .structural word ∧
      ∀ more fallback', expectWord word fallback' (t :: more) = .ok more := by
  cases ts with
  | nil => cases h
  | cons t ts =>
    simp only [expectWord] at h
    split at h
    · rename_i hword
      cases h
      exact ⟨t, rfl, hword, fun more fallback' => if_pos hword⟩
    · cases h

theorem expectPunctuation_front {c : Char} {fallback : Position} {ts rest : Tokens}
    (h : expectPunctuation c fallback ts = .ok rest) :
    ∃ t, ts = t :: rest ∧ t.value = .punctuation c := by
  cases ts with
  | nil => cases h
  | cons t ts =>
    simp only [expectPunctuation] at h
    split at h
    · rename_i hvalue
      cases h
      exact ⟨t, rfl, hvalue⟩
    · cases h

theorem expectPunctuation_cons {c : Char} {t : Located Token} (h : t.value = .punctuation c)
    (fallback : Position) (rest : Tokens) : expectPunctuation c fallback (t :: rest) = .ok rest :=
  if_pos h

theorem parseVariable_front {start : Position} {ts rest : Tokens} {node : Node}
    (h : parseVariable start ts = .ok (node, rest)) :
    ∃ front, ts = front ++ rest ∧ DigitsApart front rest ∧
      ∀ more start', parseVariable start' (front ++ more) = .ok (node, more) := by
  cases ts with
  | nil => cases h
  | cons t ts =>
    simp only [parseVariable] at h
    split at h
    · cases h
    · rename_i name hname
      obtain ⟨rest', hrename, h⟩ := Parsed.bind_eq_ok h
      cases h
      obtain ⟨u, rfl, hu, hreads⟩ := expectWord_front hrename
      refine ⟨[t, u], rfl, .concat [t] (by rw [hu]; rfl) rest, fun more start' => ?_⟩
      simp only [List.cons_append, List.nil_append, parseVariable, hname, hreads more start']
      rfl

theorem takeDigits_stop {ts : Tokens} (h : ∀ t ∈ ts.head?, t.value.isDigit = false) :
    takeDigits ts = ([], ts) := by
  cases ts with
  | nil => rfl
  | cons t ts =>
    have ht := h t rfl
    simp only [takeDigits]
    split
    · rename_i value hvalue
      rw [hvalue] at ht
      cases ht
    · rfl

/-- All digits at the front are taken. -/
theorem takeDigits_front (ts : Tokens) :
    ∃ front, ts = front ++ (takeDigits ts).2 ∧ (∀ t ∈ front, t.value.isDigit = true) ∧
      (∀ t ∈ (takeDigits ts).2.head?, t.value.isDigit = false) ∧
      ∀ more : Tokens, (∀ t ∈ more.head?, t.value.isDigit = false) →
        takeDigits (front ++ more) = ((takeDigits ts).1, more) := by
  induction ts with
  | nil => exact ⟨[], rfl, by simp, by rintro t ⟨⟩, fun more hmore => takeDigits_stop hmore⟩
  | cons t ts ih =>
    cases ht : t.value.isDigit with
    | true =>
      obtain ⟨value, hvalue⟩ : ∃ value, t.value = .digit value := by
        cases hcase : t.value <;> simp [hcase, Token.isDigit] at ht ⊢
      obtain ⟨front, hts, hdigits, hrest, hreads⟩ := ih
      have htake : takeDigits (t :: ts) =
          (digitChar value :: (takeDigits ts).1, (takeDigits ts).2) := by
        simp only [takeDigits, hvalue]
      refine ⟨t :: front, ?_, ?_, ?_, ?_⟩
      · rw [htake, List.cons_append, ← hts]
      · exact List.forall_mem_cons.2 ⟨ht, hdigits⟩
      · rw [htake]
        exact hrest
      · intro more hmore
        simp only [List.cons_append, takeDigits, hvalue, hreads more hmore]
    | false =>
      have hstop := @takeDigits_stop (t :: ts) (by rintro u ⟨⟩; exact ht)
      rw [hstop]
      exact ⟨[], rfl, by simp, by rintro u ⟨⟩; exact ht, fun more hmore => takeDigits_stop hmore⟩

/-- Nothing is left of digits only. -/
theorem isDigit_of_takeDigits {ts : Tokens} (h : (takeDigits ts).2 = []) :
    ∀ t ∈ ts, t.value.isDigit = true := by
  obtain ⟨front, hts, hdigits, -, -⟩ := takeDigits_front ts
  rw [h, List.append_nil] at hts
  exact hts ▸ hdigits

theorem takeDigits_append {ts more : Tokens}
    (hmore : (takeDigits ts).2 = [] → ∀ t ∈ more.head?, t.value.isDigit = false) :
    takeDigits (ts ++ more) = ((takeDigits ts).1, (takeDigits ts).2 ++ more) := by
  obtain ⟨front, hts, -, hrest, hreads⟩ := takeDigits_front ts
  have hread := hreads ((takeDigits ts).2 ++ more) ?_
  · rw [← List.append_assoc, ← hts] at hread
    exact hread
  · intro t ht
    cases hleft : (takeDigits ts).2 with
    | nil =>
      rw [hleft] at ht
      exact hmore hleft t ht
    | cons u rest =>
      rw [hleft] at ht hrest
      exact hrest t ht

theorem parseNumber_front {start : Position} {t : Located Token} {ts rest : Tokens} {node : Node}
    (ht : t.value.isDigit = true) (h : parseNumber start (t :: ts) = .ok (node, rest)) :
    ∃ front, ts = front ++ rest ∧ DigitsApart (t :: front) rest ∧
      ∀ more start', Agree Token.isUnary (t :: front) rest more →
        parseNumber start' (t :: front ++ more) = .ok (node, more) := by
  obtain ⟨front, hts, hdigits, hrest, hreads⟩ := takeDigits_front (t :: ts)
  simp only [parseNumber] at h
  split at h
  · rename_i value hvalue
    cases h
    cases front with
    | nil =>
      have hnot := hrest t (by rw [← List.nil_append (takeDigits _).2, ← hts]; rfl)
      rw [ht] at hnot
      cases hnot
    | cons u front =>
      rw [List.cons_append] at hts
      obtain ⟨rfl, hrest'⟩ := List.cons.inj hts
      refine ⟨front, hrest', fun u hu _ _ _ => hrest u hu, fun more start' hagree => ?_⟩
      have hmore : ∀ u ∈ more.head?, u.value.isDigit = false := by
        intro u hu
        rcases hagree with hhead | hparted
        · exact hrest u (hhead ▸ hu)
        · obtain ⟨last, hlast⟩ : ∃ last, (t :: front).getLast? = some last := ⟨_, List.getLast?_cons⟩
          exact hparted.digits u hu last hlast (hdigits last (List.mem_of_getLast? hlast))
      simp only [parseNumber, hreads more hmore, hvalue]
  · cases h

theorem postfixes_stop {node : Node} {ts : Tokens} (h : ∀ t ∈ ts.head?, t.value.isUnary = false) :
    postfixes node ts = (node, ts) := by
  cases ts with
  | nil => rfl
  | cons t ts =>
    have ht := h t rfl
    simp only [postfixes]
    split
    · rename_i op hop
      rw [hop] at ht
      cases ht
    · rfl

/-- All unary operators at the front are taken. -/
theorem postfixes_front (node : Node) (ts : Tokens) :
    ∃ front, ts = front ++ (postfixes node ts).2 ∧ DigitsApart front (postfixes node ts).2 ∧
      (∀ t ∈ (postfixes node ts).2.head?, t.value.isUnary = false) ∧
      ∀ more : Tokens, (∀ t ∈ more.head?, t.value.isUnary = false) →
        postfixes node (front ++ more) = ((postfixes node ts).1, more) := by
  induction ts generalizing node with
  | nil => exact ⟨[], rfl, .nil _, by rintro t ⟨⟩, fun more hmore => postfixes_stop hmore⟩
  | cons t ts ih =>
    cases ht : t.value.isUnary with
    | true =>
      obtain ⟨op, hop⟩ : ∃ op, t.value = .unary op := by
        cases hcase : t.value <;> simp [hcase, Token.isUnary] at ht ⊢
      obtain ⟨front, hts, hapart, hrest, hreads⟩ := ih (.unary op node)
      have hpost : postfixes node (t :: ts) = postfixes (.unary op node) ts := by
        simp only [postfixes, hop]
      refine ⟨t :: front, ?_, ?_, ?_, ?_⟩
      · rw [hpost, List.cons_append, ← hts]
      · rw [hpost]
        exact hapart.cons (by rw [hop]; rfl)
      · rw [hpost]
        exact hrest
      · intro more hmore
        simp only [List.cons_append, postfixes, hop]
        exact hreads more hmore
    | false =>
      have hstop := @postfixes_stop node (t :: ts) (by rintro u ⟨⟩; exact ht)
      rw [hstop]
      exact ⟨[], rfl, .nil _, by rintro u ⟨⟩; exact ht, fun more hmore => postfixes_stop hmore⟩

/-- Climbing ends before a token that is no operator above the floor. -/
theorem climb_stop {bound : Nat} {left : Node} {floor : Nat} {bare : Bool} {fallback : Position}
    {ts : Tokens} (h : ∀ t ∈ ts.head?, ∀ op, t.value = .binary op → op.precedence ≤ floor) :
    climb (bound + 1) left floor bare fallback ts = .ok (left, ts) := by
  cases ts with
  | nil => rfl
  | cons t ts =>
    simp only [climb]
    split
    · rename_i op hop
      exact if_pos (h t rfl op hop)
    · rfl

theorem skipFormat_stop {ts : Tokens} (h : ∀ t ∈ ts.head?, t.value ≠ .structural .format) :
    skipFormat ts = ts := by
  cases ts with
  | nil => rfl
  | cons t ts => exact if_neg (h t rfl)

/-- A `format` at the front is taken. -/
theorem skipFormat_front (ts : Tokens) :
    ∃ front, ts = front ++ skipFormat ts ∧ DigitsApart front (skipFormat ts) ∧ ∀ before more,
      Agree Token.endsExpression (before ++ front) (skipFormat ts) more →
        skipFormat (front ++ more) = more := by
  by_cases h : ∀ t ∈ ts.head?, t.value ≠ .structural .format
  · rw [skipFormat_stop h]
    refine ⟨[], rfl, .nil _, fun before more hagree => skipFormat_stop ?_⟩
    refine hagree.head h fun t ht hformat => ?_
    rw [hformat] at ht
    cases ht
  · cases ts with
    | nil => exact absurd (by rintro t ⟨⟩) h
    | cons t ts =>
      have ht : t.value = .structural .format := by
        by_contra hne
        exact h (by rintro u ⟨⟩; exact hne)
      have htake : ∀ more, skipFormat (t :: more) = more := fun more => if_pos ht
      rw [htake]
      exact ⟨[t], rfl, .concat [] (by rw [ht]; rfl) ts, fun before more _ => htake more⟩

/-- What is left behind a separator is left whatever follows its first token. -/
theorem skipSeparator_front {ts rest : Tokens} {t : Located Token}
    (h : skipSeparator ts = t :: rest) :
    ∃ front, ts = front ++ t :: rest ∧ ∀ more, skipSeparator (front ++ t :: more) = t :: more := by
  cases ts with
  | nil => cases h
  | cons u ts =>
    simp only [skipSeparator] at h
    split at h
    · rename_i hseparator
      cases h
      exact ⟨[u], rfl, fun more => if_pos hseparator⟩
    · rename_i hother
      cases h
      exact ⟨[], rfl, fun more => if_neg hother⟩

theorem skipSeparator_append {t : Located Token} (ts more : Tokens) :
    skipSeparator (t :: ts ++ more) = skipSeparator (t :: ts) ++ more := by
  simp only [List.cons_append, skipSeparator]
  split <;> rfl

theorem asValue_of_not_marker {node : Node} (h : node.isMarker = false) (place : Position) :
    asValue node place = .ok () := by
  simp [asValue, h]

theorem asValue_eq_ok {node : Node} {place : Position} {u : Unit} (h : asValue node place = .ok u)
    (place' : Position) : asValue node place' = .ok () :=
  asValue_of_not_marker (not_marker_of_asValue h) place'

theorem not_marker_of_parseValue {bound : Nat} {bare : Bool} {fallback : Position}
    {ts rest : Tokens} {node : Node} (h : parseValue bound bare fallback ts = .ok (node, rest)) :
    node.isMarker = false := by
  cases bound with
  | zero => cases h
  | succ bound =>
    simp only [parseValue] at h
    obtain ⟨⟨tree, rest'⟩, -, h⟩ := Parsed.bind_eq_ok h
    obtain ⟨_, hvalue, h⟩ := Parsed.bind_eq_ok h
    cases h
    exact not_marker_of_asValue hvalue

theorem parameters_start {start : Position} {seen names : List String} {nodes : List Node}
    (h : parameters start seen nodes = .ok names) (start' : Position) :
    parameters start' seen nodes = .ok names := by
  induction nodes generalizing seen with
  | nil => exact h
  | cons node nodes ih =>
    cases node with
    | «variable» name =>
      simp only [parameters] at h ⊢
      split at h
      · cases h
      · rename_i hnew
        rw [if_neg hnew]
        exact ih h
    | _ => cases h

theorem parseHeaderEnd_front {start : Position} {nodes : List Node} {ts rest : Tokens} {node : Node}
    (h : parseHeaderEnd start nodes ts = .ok (node, rest)) :
    ∃ front, ts = front ++ rest ∧ DigitsApart front rest ∧
      ∀ more start', parseHeaderEnd start' nodes (front ++ more) = .ok (node, more) := by
  cases ts with
  | nil => cases h
  | cons t ts =>
    simp only [parseHeaderEnd] at h
    split at h
    · cases h
    · rename_i name hname
      cases ts with
      | nil => cases h
      | cons ending ts =>
        simp only at h
        split at h
        · rename_i hending
          obtain ⟨names, hnames, h⟩ := Parsed.bind_eq_ok h
          cases h
          refine ⟨[t, ending], rfl, .concat [t] (by rw [hending]; rfl) _, fun more start' => ?_⟩
          simp only [List.cons_append, List.nil_append, parseHeaderEnd, hname, hending,
            parameters_start hnames start']
          rfl
        · rename_i hending
          cases h
          refine ⟨[t, ending], rfl, .concat [t] (by rw [hending]; rfl) _, fun more start' => ?_⟩
          simp only [List.cons_append, List.nil_append, parseHeaderEnd, hname, hending]
        · cases h

theorem parted_structural {t : Located Token} {word : StructuralWord}
    (h : t.value = .structural word) (hword : word ≠ .format) (ts rest : Tokens) :
    Tokens.Parted Token.endsExpression ts (t :: rest) where
  joins u hu := by
    cases hu
    rw [h]
    cases word with
    | format => exact absurd rfl hword
    | _ => rfl
  digits u hu _ _ _ := by
    cases hu
    rw [h]
    rfl

/-- An expression takes its first token. -/
theorem parseExpression_consumes {bound : Nat} {bare : Bool} {fallback : Position}
    {t : Located Token} {ts rest : Tokens} {node : Node}
    (h : parseExpression bound bare fallback (t :: ts) = .ok (node, rest)) : rest <:+ ts := by
  cases bound with
  | zero => cases h
  | succ bound =>
    simp only [parseExpression] at h
    obtain ⟨⟨first, rest₁⟩, hfirst, h⟩ := Parsed.bind_eq_ok h
    have hsuffix₁ := parseAtom_consumes hfirst
    simp only at h
    split at h
    · cases h
      exact (skipFormat_suffix rest₁).trans hsuffix₁
    · obtain ⟨⟨tree, rest₂⟩, htree, h⟩ := Parsed.bind_eq_ok h
      have hsuffix₂ := climb_suffix htree
      cases h
      have hsuffix₃ := (skipFormat_suffix _).trans (postfixes_suffix rest₂ tree)
      exact hsuffix₃.trans (hsuffix₂.trans hsuffix₁)

theorem parseValue_consumes {bound : Nat} {bare : Bool} {fallback : Position} {t : Located Token}
    {ts rest : Tokens} {node : Node}
    (h : parseValue bound bare fallback (t :: ts) = .ok (node, rest)) : rest <:+ ts := by
  cases bound with
  | zero => cases h
  | succ bound =>
    simp only [parseValue] at h
    obtain ⟨⟨tree, rest₁⟩, htree, h⟩ := Parsed.bind_eq_ok h
    obtain ⟨_, -, h⟩ := Parsed.bind_eq_ok h
    cases h
    exact parseExpression_consumes htree

/-! ## The functions that call one another -/

/-- Reading takes the front of the tokens, and the front is read the same wherever `agree` holds of it,
of what was left and of what comes behind it, with any larger bound or one that is enough for it. -/
def Takes {α : Type} (agree : Tokens → Tokens → Tokens → Prop) (enough : Nat)
    (read : Nat → Position → Tokens → Parsed (α × Tokens)) (bound : Nat) (ts : Tokens) (result : α)
    (rest : Tokens) : Prop :=
  ∃ front, ts = front ++ rest ∧ DigitsApart front rest ∧
    ∀ more bound' fallback', agree front rest more →
      bound ≤ bound' ∨ 4 * front.length + enough ≤ bound' →
        read bound' fallback' (front ++ more) = .ok (result, more)

/-- The functions take the front of their tokens. -/
structure ReadsFront (bound : Nat) : Prop where
  atom {bare : Bool} {fallback : Position} {ts rest : Tokens} {node : Node}
    (h : parseAtom bound bare fallback ts = .ok (node, rest)) :
    Takes (Agree Token.isUnary) 0 (fun b => parseAtom b bare) bound ts node rest
  climb {left : Node} {floor : Nat} {bare : Bool} {fallback : Position} {ts rest : Tokens}
    {node : Node} (h : climb bound left floor bare fallback ts = .ok (node, rest)) :
    Takes (Agree Token.isOperator) 1 (fun b => climb b left floor bare) bound ts node rest
  expression {bare : Bool} {fallback : Position} {ts rest : Tokens} {node : Node}
    (h : parseExpression bound bare fallback ts = .ok (node, rest)) :
    Takes (Agree Token.endsExpression) 2 (fun b => parseExpression b bare) bound ts node rest
  value {bare : Bool} {fallback : Position} {ts rest : Tokens} {node : Node}
    (h : parseValue bound bare fallback ts = .ok (node, rest)) :
    Takes (Agree Token.endsExpression) 3 (fun b => parseValue b bare) bound ts node rest
  arguments {start : Position} {ts rest : Tokens} {nodes : List Node}
    (h : parseArguments bound start ts = .ok (nodes, rest)) :
    Takes (fun _ _ _ => True) 4 parseArguments bound ts nodes rest

/-- Nothing is read of no tokens. -/
theorem parseValue_nil_ne {bound : Nat} {bare : Bool} {fallback : Position} {result : Node × Tokens} :
    parseValue bound bare fallback [] ≠ .ok result := by
  rcases bound with _ | _ | _ | bound <;> rintro ⟨⟩

theorem parseArguments_nil_ne {bound : Nat} {start : Position} {result : List Node × Tokens} :
    parseArguments bound start [] ≠ .ok result := by
  cases bound <;> rintro ⟨⟩

namespace ReadsFront

variable {bound : Nat} (ih : ReadsFront bound) {bare : Bool} {fallback : Position}
  {ts rest : Tokens} {node : Node}
include ih

theorem group {t : Located Token} (ht : t.value = .structural .zip)
    (h : (do
      let (inner, rest) ← parseValue bound false t.position ts
      let rest ← expectWord .unzip t.position rest
      .ok (postfixes inner rest) : Parsed (Node × Tokens)) = .ok (node, rest)) :
    Takes (Agree Token.isUnary) 0 (fun b => parseAtom b bare) (bound + 1) (t :: ts) node rest := by
  obtain ⟨⟨inner, rest₁⟩, hinner, h₁⟩ := Parsed.bind_eq_ok h
  obtain ⟨rest₂, hunzip, h₂⟩ := Parsed.bind_eq_ok h₁
  obtain ⟨front, rfl, -, hvalue⟩ := ih.value hinner
  obtain ⟨u, rfl, hu, hclosing⟩ := expectWord_front hunzip
  obtain ⟨back, hback, hapart, hrest, hpost⟩ := postfixes_front inner rest₂
  rw [Except.ok.inj h₂] at hback hapart hrest hpost
  subst hback
  refine ⟨t :: front ++ [u] ++ back, by simp, ?_, ?_⟩
  · exact (DigitsApart.concat (t :: front) (by rw [hu]; rfl) _).append hapart
  intro more bound' fallback' hagree hle
  simp only [List.length_cons, List.length_append, List.length_nil] at hle
  obtain ⟨bound', rfl⟩ : ∃ b, bound' = b + 1 := ⟨bound' - 1, by omega⟩
  have hmore : ∀ v ∈ more.head?, v.value.isUnary = false := hagree.head hrest fun _ h => h
  have hinner := hvalue (u :: (back ++ more)) bound' t.position (.inl rfl) (by omega)
  simp only [List.cons_append, List.append_assoc, List.nil_append, parseAtom, ht, hinner, bind,
    Except.bind, hclosing, hpost more hmore]

theorem header {t : Located Token} (ht : t.value = .structural .use)
    (h : (do
      let rest ← expectPunctuation '(' t.position ts
      let (arguments, rest) ← parseArguments bound t.position rest
      parseHeaderEnd t.position arguments rest : Parsed (Node × Tokens)) = .ok (node, rest)) :
    Takes (Agree Token.isUnary) 0 (fun b => parseAtom b bare) (bound + 1) (t :: ts) node rest := by
  obtain ⟨rest₁, hopening, h₁⟩ := Parsed.bind_eq_ok h
  obtain ⟨⟨nodes, rest₂⟩, hnodes, h₂⟩ := Parsed.bind_eq_ok h₁
  obtain ⟨u, rfl, hu⟩ := expectPunctuation_front hopening
  obtain ⟨front, rfl, hapart, harguments⟩ := ih.arguments hnodes
  obtain ⟨back, rfl, hapart', hend⟩ := parseHeaderEnd_front h₂
  refine ⟨t :: u :: (front ++ back), by simp, ?_, ?_⟩
  · exact ((hapart.append hapart').cons (by rw [hu]; rfl)).cons (by rw [ht]; rfl)
  intro more bound' fallback' _ hle
  simp only [List.length_cons, List.length_append] at hle
  obtain ⟨bound', rfl⟩ : ∃ b, bound' = b + 1 := ⟨bound' - 1, by omega⟩
  have hopening := expectPunctuation_cons hu t.position (front ++ (back ++ more))
  have hnodes := harguments (back ++ more) bound' t.position trivial (by omega)
  simp only [List.cons_append, List.append_assoc, parseAtom, ht, hopening, bind, Except.bind, hnodes,
    hend more t.position]

theorem atom_succ (h : parseAtom (bound + 1) bare fallback ts = .ok (node, rest)) :
    Takes (Agree Token.isUnary) 0 (fun b => parseAtom b bare) (bound + 1) ts node rest := by
  cases ts with
  | nil => cases h
  | cons t ts =>
    -- a token that is an atom by itself
    have hsingle {node' : Node} (ht : t.value.isDigit = false) (hreads : ∀ b fallback' more,
        parseAtom (b + 1) bare fallback' (t :: more) = .ok (node', more))
        (h : (.ok (node', ts) : Parsed (Node × Tokens)) = .ok (node, rest)) :
        Takes (Agree Token.isUnary) 0 (fun b => parseAtom b bare) (bound + 1) (t :: ts) node rest := by
      cases h
      refine ⟨[t], rfl, .concat [] ht _, fun more bound' fallback' _ hle => ?_⟩
      obtain ⟨bound', rfl⟩ : ∃ b, bound' = b + 1 := ⟨bound' - 1, by simp at hle; omega⟩
      exact hreads bound' fallback' more
    simp only [parseAtom] at h
    split at h
    · rename_i ht
      exact ih.group ht h
    · rename_i ht
      exact ih.header ht h
    · rename_i ht
      obtain ⟨front, rfl, hapart, hreads⟩ := parseVariable_front h
      refine ⟨t :: front, rfl, hapart.cons (by rw [ht]; rfl), fun more bound' fallback' _ hle => ?_⟩
      obtain ⟨bound', rfl⟩ : ∃ b, bound' = b + 1 := ⟨bound' - 1, by simp at hle; omega⟩
      simp only [List.cons_append, parseAtom, ht]
      exact hreads more t.position
    · rename_i value ht
      obtain ⟨front, rfl, hapart, hreads⟩ := parseNumber_front (by rw [ht]; rfl) h
      refine ⟨t :: front, rfl, hapart, fun more bound' fallback' hagree hle => ?_⟩
      obtain ⟨bound', rfl⟩ : ∃ b, bound' = b + 1 := ⟨bound' - 1, by simp at hle; omega⟩
      simp only [List.cons_append, parseAtom, ht]
      exact hreads more t.position hagree
    · rename_i k ht
      exact hsingle (by rw [ht]; rfl) (fun b fallback' more => by simp only [parseAtom, ht]) h
    · rename_i ht
      exact hsingle (by rw [ht]; rfl) (fun b fallback' more => by simp only [parseAtom, ht]) h
    · rename_i ht
      exact hsingle (by rw [ht]; rfl) (fun b fallback' more => by simp only [parseAtom, ht]) h
    · rename_i text ht
      split at h
      · cases h
      · rename_i hname
        split at h
        · rename_i hbare
          exact hsingle (by rw [ht]; rfl) (fun b fallback' more => by
            simp only [parseAtom, ht, if_neg hname, if_pos hbare]) h
        · cases h
    · cases h

theorem climb_succ {left : Node} {floor : Nat}
    (h : Node.climb (bound + 1) left floor bare fallback ts = .ok (node, rest)) :
    Takes (Agree Token.isOperator) 1 (fun b => Node.climb b left floor bare) (bound + 1) ts node
      rest := by
  by_cases hstop : ∀ t ∈ ts.head?, ∀ op, t.value = .binary op → op.precedence ≤ floor
  · rw [climb_stop hstop] at h
    cases h
    refine ⟨[], rfl, .nil _, fun more bound' fallback' hagree hle => ?_⟩
    obtain ⟨bound', rfl⟩ : ∃ b, bound' = b + 1 := ⟨bound' - 1, by omega⟩
    refine climb_stop (hagree.head hstop fun t ht op hop => ?_)
    rw [hop] at ht
    cases ht
  · cases ts with
    | nil => exact absurd (by rintro t ⟨⟩) hstop
    | cons t ts =>
      obtain ⟨op, ht, hfloor⟩ : ∃ op, t.value = .binary op ∧ ¬ op.precedence ≤ floor := by
        simpa using hstop
      simp only [Node.climb, ht, if_neg hfloor] at h
      obtain ⟨⟨operand, rest₁⟩, hoperand, h₁⟩ := Parsed.bind_eq_ok h
      obtain ⟨_, hvalue, h₂⟩ := Parsed.bind_eq_ok h₁
      obtain ⟨⟨right, rest₂⟩, hright, h₃⟩ := Parsed.bind_eq_ok h₂
      obtain ⟨front₁, rfl, hapart₁, hatom⟩ := ih.atom hoperand
      obtain ⟨front₂, rfl, hapart₂, htighter⟩ := ih.climb hright
      obtain ⟨front₃, rfl, hapart₃, hlooser⟩ := ih.climb h₃
      rw [← List.append_assoc] at hapart₁
      refine ⟨t :: (front₁ ++ (front₂ ++ front₃)), by simp, ?_, ?_⟩
      · exact (hapart₁.append (hapart₂.append hapart₃)).cons (by rw [ht]; rfl)
      intro more bound' fallback' hagree hle
      simp only [List.length_cons, List.length_append] at hle
      obtain ⟨bound', rfl⟩ : ∃ b, bound' = b + 1 := ⟨bound' - 1, by omega⟩
      have htail := hagree.of_suffix (List.suffix_cons t (front₁ ++ (front₂ ++ front₃)))
      have hlast := htail.of_suffix (List.suffix_append front₁ (front₂ ++ front₃))
      have hoperand := hatom (front₂ ++ front₃ ++ more) bound' t.position
        (List.append_assoc front₂ front₃ rest ▸ htail.of_append fun _ => Token.isOperator_of_isUnary)
        (by omega)
      have hright := htighter (front₃ ++ more) bound' fallback' (hlast.of_append fun _ h => h)
        (by omega)
      have hclimb := hlooser more bound' fallback'
        (hlast.of_suffix (List.suffix_append front₂ front₃)) (by omega)
      simp only [List.append_assoc] at hoperand
      simp only [List.cons_append, List.append_assoc, Node.climb, ht, if_neg hfloor, hoperand, bind,
        Except.bind, asValue_eq_ok hvalue, hright, hclimb]

theorem expression_succ (h : parseExpression (bound + 1) bare fallback ts = .ok (node, rest)) :
    Takes (Agree Token.endsExpression) 2 (fun b => parseExpression b bare) (bound + 1) ts node
      rest := by
  simp only [parseExpression] at h
  obtain ⟨⟨first, rest₁⟩, hfirst, h₁⟩ := Parsed.bind_eq_ok h
  obtain ⟨front₁, rfl, hapart₁, hatom⟩ := ih.atom hfirst
  have hunary : ∀ t : Token, t.isUnary = true → t.endsExpression = true := fun _ ht =>
    Token.endsExpression_of_isOperator (Token.isOperator_of_isUnary ht)
  simp only at h₁
  split at h₁
  · rename_i hmarker
    cases h₁
    obtain ⟨front₂, hfront₂, hapart₂, hformat⟩ := skipFormat_front rest₁
    refine ⟨front₁ ++ front₂, by rw [List.append_assoc, ← hfront₂], ?_, ?_⟩
    · exact DigitsApart.append (hfront₂ ▸ hapart₁) hapart₂
    intro more bound' fallback' hagree hle
    rw [List.length_append] at hle
    obtain ⟨bound', rfl⟩ : ∃ b, bound' = b + 1 := ⟨bound' - 1, by omega⟩
    have hfirst := hatom (front₂ ++ more) bound' fallback'
      (by rw [hfront₂]; exact hagree.of_append hunary) (by omega)
    simp only [List.append_assoc, parseExpression, hfirst, bind, Except.bind, if_pos hmarker,
      hformat front₁ more hagree]
  · rename_i hmarker
    obtain ⟨⟨tree, rest₂⟩, htree, h₂⟩ := Parsed.bind_eq_ok h₁
    obtain ⟨front₂, rfl, hapart₂, hclimb⟩ := ih.climb htree
    obtain ⟨front₃, hfront₃, hapart₃, hrest₃, hpost⟩ := postfixes_front tree rest₂
    obtain ⟨front₄, hfront₄, hapart₄, hformat⟩ := skipFormat_front (postfixes tree rest₂).2
    obtain ⟨hnode, hrest⟩ := Prod.mk.inj (Except.ok.inj h₂)
    rw [hrest] at hfront₄ hapart₄ hformat
    rw [hfront₄] at hfront₃ hapart₃ hrest₃
    subst hfront₃
    rw [← List.append_assoc] at hapart₂
    rw [← List.append_assoc, ← List.append_assoc, List.append_assoc front₂] at hapart₁
    refine ⟨front₁ ++ (front₂ ++ (front₃ ++ front₄)), by simp, ?_, ?_⟩
    · exact hapart₁.append (hapart₂.append (hapart₃.append hapart₄))
    intro more bound' fallback' hagree hle
    simp only [List.length_append] at hle
    obtain ⟨bound', rfl⟩ : ∃ b, bound' = b + 1 := ⟨bound' - 1, by omega⟩
    have hagree₂ := hagree.of_suffix (List.suffix_append front₁ _)
    have hagree₃ := hagree₂.of_suffix (List.suffix_append front₂ _)
    have hfirst := hatom (front₂ ++ (front₃ ++ front₄) ++ more) bound' fallback'
      (by simpa using hagree.of_append hunary) (by omega)
    have htree := hclimb (front₃ ++ front₄ ++ more) bound' fallback'
      (by simpa using hagree₂.of_append fun _ => Token.endsExpression_of_isOperator) (by omega)
    have hunaries := hpost (front₄ ++ more)
      ((hagree₃.of_append hunary).head hrest₃ fun _ ht => ht)
    simp only [List.append_assoc] at hfirst htree
    simp only [List.append_assoc, parseExpression, hfirst, bind, Except.bind, if_neg hmarker, htree,
      hunaries, hnode, hformat front₃ more hagree₃]

theorem value_succ (h : parseValue (bound + 1) bare fallback ts = .ok (node, rest)) :
    Takes (Agree Token.endsExpression) 3 (fun b => parseValue b bare) (bound + 1) ts node rest := by
  simp only [parseValue] at h
  obtain ⟨⟨tree, rest₁⟩, htree, h₁⟩ := Parsed.bind_eq_ok h
  obtain ⟨_, hvalue, h₂⟩ := Parsed.bind_eq_ok h₁
  cases h₂
  obtain ⟨front, rfl, hapart, hexpression⟩ := ih.expression htree
  refine ⟨front, rfl, hapart, fun more bound' fallback' hagree hle => ?_⟩
  obtain ⟨bound', rfl⟩ : ∃ b, bound' = b + 1 := ⟨bound' - 1, by omega⟩
  have hexpression := hexpression more bound' fallback' hagree (by omega)
  simp only [parseValue, hexpression, bind, Except.bind, asValue_eq_ok hvalue]

omit bare in
theorem arguments_succ {start : Position} {nodes : List Node}
    (h : parseArguments (bound + 1) start ts = .ok (nodes, rest)) :
    Takes (fun _ _ _ => True) 4 parseArguments (bound + 1) ts nodes rest := by
  cases ts with
  | nil => cases h
  | cons t ts =>
    simp only [parseArguments] at h
    split at h
    · rename_i ht
      cases h
      refine ⟨[t], rfl, .concat [] (by rw [ht]; rfl) _, fun more bound' start' _ hle => ?_⟩
      obtain ⟨bound', rfl⟩ : ∃ b, bound' = b + 1 := ⟨bound' - 1, by omega⟩
      exact if_pos ht
    · rename_i ht
      obtain ⟨⟨argument, rest₁⟩, hargument, h₁⟩ := Parsed.bind_eq_ok h
      obtain ⟨⟨arguments, rest₂⟩, harguments, h₂⟩ := Parsed.bind_eq_ok h₁
      cases h₂
      obtain ⟨front₁, hts, -, hvalue⟩ := ih.value hargument
      obtain ⟨front₂, hskip, hapart, hmore⟩ := ih.arguments harguments
      obtain ⟨u, front₂, rfl⟩ : ∃ u front, front₂ = u :: front := by
        refine List.exists_cons_of_ne_nil ?_
        rintro rfl
        exact parseArguments_nil_ne (hmore [] bound start trivial (.inl (Nat.le_refl _)))
      obtain ⟨v, front₁, rfl⟩ : ∃ v front, front₁ = v :: front := by
        refine List.exists_cons_of_ne_nil ?_
        rintro rfl
        exact parseValue_nil_ne (hvalue [] bound start .nil (.inl (Nat.le_refl _)))
      obtain ⟨between, rfl, hseparator⟩ := skipSeparator_front hskip
      rw [List.cons_append] at hts
      obtain ⟨rfl, rfl⟩ := List.cons.inj hts
      refine ⟨t :: (front₁ ++ (between ++ u :: front₂)), by simp, ?_, ?_⟩
      · simpa using hapart.prepend (t :: (front₁ ++ between)) (List.cons_ne_nil u front₂)
      intro more bound' start' _ hle
      simp only [List.length_cons, List.length_append] at hle hvalue hmore
      obtain ⟨bound', rfl⟩ : ∃ b, bound' = b + 1 := ⟨bound' - 1, by omega⟩
      have hargument := hvalue (between ++ u :: (front₂ ++ more)) bound' start'
        (.inl (by cases between <;> rfl)) (by omega)
      have harguments := hmore more bound' start' trivial (by omega)
      simp only [List.cons_append] at hargument harguments
      simp only [List.cons_append, List.append_assoc, parseArguments, if_neg ht, hargument, bind,
        Except.bind, hseparator, harguments]

end ReadsFront

theorem readsFront (bound : Nat) : ReadsFront bound := by
  induction bound with
  | zero =>
    constructor
    all_goals
      intros
      rename_i h
      cases h
  | succ bound ih =>
    exact ⟨ih.atom_succ, ih.climb_succ, ih.expression_succ, ih.value_succ, ih.arguments_succ⟩

theorem Takes.append {α : Type} {joins : Token → Bool} {enough bound bound' : Nat}
    {read : Nat → Position → Tokens → Parsed (α × Tokens)} {ts rest more : Tokens} {result : α}
    (h : Takes (Agree joins) enough read bound ts result rest)
    (hmore : rest = [] → Parted joins ts more) (hle : bound ≤ bound') (fallback : Position) :
    read bound' fallback (ts ++ more) = .ok (result, rest ++ more) := by
  obtain ⟨front, rfl, -, hreads⟩ := h
  rw [List.append_assoc]
  exact hreads (rest ++ more) bound' fallback (.of_rest hmore) (.inl hle)

/-- What the functions read from tokens, they read with any larger bound from these tokens with more
behind them, unless the first of these goes on with what was read. -/
structure ReadsLocally (bound : Nat) : Prop where
  atom {bare : Bool} {fallback : Position} {ts rest more : Tokens} {node : Node} {bound' : Nat}
    (h : parseAtom bound bare fallback ts = .ok (node, rest))
    (hmore : rest = [] → Parted Token.isUnary ts more) (hle : bound ≤ bound')
    (fallback' : Position) :
    parseAtom bound' bare fallback' (ts ++ more) = .ok (node, rest ++ more)
  climb {left : Node} {floor : Nat} {bare : Bool} {fallback : Position} {ts rest more : Tokens}
    {node : Node} {bound' : Nat} (h : climb bound left floor bare fallback ts = .ok (node, rest))
    (hmore : rest = [] → Parted Token.isOperator ts more) (hle : bound ≤ bound')
    (fallback' : Position) :
    climb bound' left floor bare fallback' (ts ++ more) = .ok (node, rest ++ more)
  expression {bare : Bool} {fallback : Position} {ts rest more : Tokens} {node : Node}
    {bound' : Nat} (h : parseExpression bound bare fallback ts = .ok (node, rest))
    (hmore : rest = [] → Parted Token.endsExpression ts more) (hle : bound ≤ bound')
    (fallback' : Position) :
    parseExpression bound' bare fallback' (ts ++ more) = .ok (node, rest ++ more)
  value {bare : Bool} {fallback : Position} {ts rest more : Tokens} {node : Node} {bound' : Nat}
    (h : parseValue bound bare fallback ts = .ok (node, rest))
    (hmore : rest = [] → Parted Token.endsExpression ts more) (hle : bound ≤ bound')
    (fallback' : Position) :
    parseValue bound' bare fallback' (ts ++ more) = .ok (node, rest ++ more)
  arguments {start : Position} {ts rest : Tokens} {nodes : List Node} {bound' : Nat}
    (h : parseArguments bound start ts = .ok (nodes, rest)) (more : Tokens) (hle : bound ≤ bound')
    (start' : Position) :
    parseArguments bound' start' (ts ++ more) = .ok (nodes, rest ++ more)

theorem readsLocally (bound : Nat) : ReadsLocally bound where
  atom h hmore hle fallback' := ((readsFront bound).atom h).append hmore hle fallback'
  climb h hmore hle fallback' := ((readsFront bound).climb h).append hmore hle fallback'
  expression h hmore hle fallback' := ((readsFront bound).expression h).append hmore hle fallback'
  value h hmore hle fallback' := ((readsFront bound).value h).append hmore hle fallback'
  arguments h more hle start' := by
    obtain ⟨front, rfl, -, hreads⟩ := (readsFront bound).arguments h
    rw [List.append_assoc]
    exact hreads _ _ start' trivial (.inl hle)

/-! Where something was left, nothing that comes behind goes on with what was read. -/

section

variable {bound bound' : Nat} {bare : Bool} {fallback : Position} {ts rest : Tokens} {node : Node}
  (hleft : rest ≠ []) (more : Tokens) (hle : bound ≤ bound') (fallback' : Position)
include hleft hle

theorem parseAtom_append (h : parseAtom bound bare fallback ts = .ok (node, rest)) :
    parseAtom bound' bare fallback' (ts ++ more) = .ok (node, rest ++ more) :=
  (readsLocally bound).atom h (fun hnil => absurd hnil hleft) hle fallback'

theorem climb_append {left : Node} {floor : Nat}
    (h : climb bound left floor bare fallback ts = .ok (node, rest)) :
    climb bound' left floor bare fallback' (ts ++ more) = .ok (node, rest ++ more) :=
  (readsLocally bound).climb h (fun hnil => absurd hnil hleft) hle fallback'

theorem parseExpression_append (h : parseExpression bound bare fallback ts = .ok (node, rest)) :
    parseExpression bound' bare fallback' (ts ++ more) = .ok (node, rest ++ more) :=
  (readsLocally bound).expression h (fun hnil => absurd hnil hleft) hle fallback'

theorem parseValue_append (h : parseValue bound bare fallback ts = .ok (node, rest)) :
    parseValue bound' bare fallback' (ts ++ more) = .ok (node, rest ++ more) :=
  (readsLocally bound).value h (fun hnil => absurd hnil hleft) hle fallback'

end

theorem depthBound_le_append (ts more : Tokens) : depthBound ts ≤ depthBound (ts ++ more) := by
  simp only [depthBound, List.length_append]
  omega

end Node

/-! ## Instructions one after another -/

namespace Program

variable {ts : Tokens} {p : Program}

/-- Any count that is enough for the tokens gives the same. -/
theorem parseInstructions_count {count count' : Nat} (h : ts.length ≤ count)
    (h' : ts.length ≤ count') : parseInstructions count ts = parseInstructions count' ts := by
  induction count generalizing ts count' with
  | zero =>
    obtain rfl := List.eq_nil_of_length_eq_zero (Nat.le_zero.1 h)
    cases count' <;> rfl
  | succ count ih =>
    cases ts with
    | nil => cases count' <;> rfl
    | cons t ts =>
      simp only [List.length_cons] at h h'
      obtain ⟨count', rfl⟩ : ∃ c, count' = c + 1 := ⟨count' - 1, by omega⟩
      simp only [parseInstructions]
      cases hnode : Node.expression false t.position (t :: ts) with
      | error e => rfl
      | ok result =>
        have hlength := (Node.parseExpression_consumes hnode).length_le
        simp only [bind, Except.bind, @ih result.2 count' (by omega) (by omega)]

/-- The first instruction is read, and then those of what it left. -/
theorem ofTokens_cons {t : Located Token} {rest : Tokens} {node : Node}
    (h : Node.expression false t.position (t :: ts) = .ok (node, rest)) :
    ofTokens (t :: ts) = (ofTokens rest).map (⟨node, t.position⟩ :: ·) := by
  have hlength := (Node.parseExpression_consumes h).length_le
  simp only [ofTokens, List.length_cons, parseInstructions, h, bind, Except.bind,
    parseInstructions_count hlength (Nat.le_refl rest.length)]
  cases parseInstructions rest.length rest <;> rfl

theorem ofTokens_cons_error {t : Located Token} {e : Located ParseError}
    (h : Node.expression false t.position (t :: ts) = .error e) : ofTokens (t :: ts) = .error e := by
  simp only [ofTokens, List.length_cons, parseInstructions, h, bind, Except.bind]

theorem ofTokens_cons_eq_ok {t : Located Token} (h : ofTokens (t :: ts) = .ok p) :
    ∃ node rest q, Node.expression false t.position (t :: ts) = .ok (node, rest) ∧
      ofTokens rest = .ok q ∧ p = ⟨node, t.position⟩ :: q := by
  cases hnode : Node.expression false t.position (t :: ts) with
  | error e =>
    rw [ofTokens_cons_error hnode] at h
    cases h
  | ok result =>
    obtain ⟨node, rest⟩ := result
    rw [ofTokens_cons hnode] at h
    cases hrest : ofTokens rest with
    | error e =>
      rw [hrest] at h
      cases h
    | ok q =>
      rw [hrest] at h
      exact ⟨node, rest, q, rfl, hrest, (Except.ok.inj h).symm⟩

/-- An error is in the first instruction, or in what it left, which is something then. -/
theorem ofTokens_cons_eq_error {t : Located Token} {e : Located ParseError}
    (h : ofTokens (t :: ts) = .error e) :
    Node.expression false t.position (t :: ts) = .error e ∨
      ∃ node rest, Node.expression false t.position (t :: ts) = .ok (node, rest) ∧ rest ≠ [] ∧
        ofTokens rest = .error e := by
  cases hnode : Node.expression false t.position (t :: ts) with
  | error e' =>
    rw [ofTokens_cons_error hnode] at h
    cases h
    exact .inl rfl
  | ok result =>
    obtain ⟨node, rest⟩ := result
    rw [ofTokens_cons hnode] at h
    cases hrest : ofTokens rest with
    | error e' =>
      rw [hrest] at h
      cases h
      refine .inr ⟨node, rest, rfl, ?_, hrest⟩
      rintro rfl
      cases hrest
    | ok q =>
      rw [hrest] at h
      cases h

end Program
end VerbScript
