import VerbScript.Proofs.Number.ReadBack
import VerbScript.Proofs.Syntax.Denotation

/-!
# VerbScript.Proofs.Listing.Values

A value is known from its text, whatever stands behind it.

The word at the beginning of a text and the character behind that word tell what the text shows
(`Shape.ofText`): that is what keeps names, numbers, keywords, operators and calls apart. The rest is
an induction on the value (`Node.IsValue.legible`). It needs that no name could be taken for a number
or for an operator.
-/

namespace VerbScript

/-! ## Runs of characters -/

namespace Text

/-- The text does not begin with a character of the class. -/
def Ends (p : Char → Bool) (text : List Char) : Prop := ∀ c ∈ text.head?, p c = false

variable {p : Char → Bool} {run run' rest rest' : List Char}

theorem takeWhile_run (hrun : ∀ c ∈ run, p c = true) (hrest : Ends p rest) :
    (run ++ rest).takeWhile p = run := by
  rw [List.takeWhile_append_of_pos hrun]
  cases rest with
  | nil => exact List.append_nil _
  | cons c rest => rw [List.takeWhile_cons_of_neg (by simp [hrest c rfl]), List.append_nil]

theorem dropWhile_run (hrun : ∀ c ∈ run, p c = true) (hrest : Ends p rest) :
    (run ++ rest).dropWhile p = rest := by
  rw [List.dropWhile_append_of_pos hrun]
  cases rest with
  | nil => rfl
  | cons c rest => rw [List.dropWhile_cons_of_neg (by simp [hrest c rfl])]

/-- A run of characters is known from a text that it begins. -/
theorem run_append_injective (hrun : ∀ c ∈ run, p c = true) (hrun' : ∀ c ∈ run', p c = true)
    (hrest : Ends p rest) (hrest' : Ends p rest') (h : run ++ rest = run' ++ rest') :
    run = run' ∧ rest = rest' :=
  ⟨by rw [← takeWhile_run hrun hrest, h, takeWhile_run hrun' hrest'],
    by rw [← dropWhile_run hrun hrest, h, dropWhile_run hrun' hrest']⟩

theorem ends_cons {c : Char} (hc : p c = false) (rest : List Char) : Ends p (c :: rest) := by
  rintro _ ⟨⟩
  exact hc

end Text

/-! ## Names -/

/-- A name that a listing shows as it shows a number or an operator. -/
def Vocabulary.Confusable (name : String) : Prop :=
  name.toList.all Char.isDigit = true ∨ name = "inf" ∨ name = "return"

/-- A free name is in none of the tables that matter to a listing. -/
theorem Vocabulary.tables_of_isName {name : String} (h : isName name = true) :
    Keyword.ofWord? name = none ∧ name ≠ labelWord ∧ name ≠ popWord ∧ unary? name = none := by
  have hcanonical : canonical name = name := by
    rcases Meaning.canonical_eq_or_keyword name with hcanonical | ⟨k, hk⟩
    · exact hcanonical
    · cases hk.symm.trans (Meaning.ofWord_of_isName h)
  simp only [isName, hcanonical] at h
  simp_all

namespace Node

mutual

/-- The names of variables and functions in a node. -/
def names : Node → List String
  | .variable name => [name]
  | .binary _ left right => left.names ++ right.names
  | .unary _ operand => operand.names
  | .define name parameters => name :: parameters
  | .call name arguments => name :: namesOf arguments
  | .number _ | .keyword _ | .label | .pop => []

/-- The names in the arguments of a call. -/
def namesOf : List Node → List String
  | [] => []
  | node :: rest => node.names ++ namesOf rest

end

/-- No name in the node could be taken for something else. -/
def Clear (node : Node) : Prop := ∀ name ∈ node.names, ¬ Vocabulary.Confusable name

theorem mem_namesOf {name : String} {arguments : List Node} :
    name ∈ namesOf arguments ↔ ∃ argument ∈ arguments, name ∈ argument.names := by
  induction arguments with
  | nil => simp [namesOf]
  | cons argument arguments ih => simp [namesOf, ih]

/-! ## The texts of nodes -/

/-- The characters of the text of a node. -/
def chars (node : Node) : List Char := node.text.toList

/-- The characters of the arguments of a call. -/
def argumentChars : List Node → List Char
  | [] => []
  | first :: rest => first.chars ++ rest.flatMap fun argument => ',' :: ' ' :: argument.chars

theorem chars_binary (op : BinaryOperator) (left right : Node) :
    (binary op left right).chars =
      '(' :: (left.chars ++ ' ' :: (op.symbol.toList ++ ' ' :: (right.chars ++ [')']))) := by
  simp [chars, text, toString]

theorem chars_unary (op : UnaryOperator) (operand : Node) :
    (unary op operand).chars = op.symbol.toList ++ '(' :: (operand.chars ++ [')']) := by
  simp [chars, text, toString]

theorem intercalate_texts (arguments : List Node) :
    [',', ' '].intercalate ((texts arguments).map String.toList) = argumentChars arguments := by
  cases arguments with
  | nil => rfl
  | cons first rest =>
    rw [texts, List.map_cons, argumentChars]
    induction rest generalizing first with
    | nil => simp [texts, chars]
    | cons second rest ih =>
      rw [texts, List.map_cons, List.intercalate_cons_cons, ih, List.flatMap_cons]
      simp [chars]

theorem chars_call (name : String) (arguments : List Node) :
    (call name arguments).chars = name.toList ++ '(' :: (argumentChars arguments ++ [')']) := by
  simp [chars, text, ← intercalate_texts]

theorem texts_variables (names : List String) : texts (names.map .variable) = names := by
  induction names with
  | nil => rfl
  | cons name names ih => rw [List.map_cons, texts, ih, text]

/-- The header of a definition is shown as a call with the parameters as its arguments. -/
theorem chars_define (name : String) (parameters : List String) :
    (define name parameters).chars =
      "define ".toList ++ (call name (parameters.map .variable)).chars := by
  simp [chars, text, texts_variables]

end Node

/-! ## Shapes -/

/-- What a text shows: the constructors of nodes, and which keyword or operator it is. -/
inductive Shape where
  | keyword (k : Keyword)
  | label
  | define
  | number
  | variable
  | binary
  | unary (op : UnaryOperator)
  | call
  | pop
  deriving DecidableEq, Repr

def Node.shape : Node → Shape
  | .number _ => .number
  | .variable _ => .variable
  | .binary _ _ _ => .binary
  | .unary op _ => .unary op
  | .keyword k => .keyword k
  | .label => .label
  | .define _ _ => .define
  | .call _ _ => .call
  | .pop => .pop

namespace Shape

/-- The characters of names, numbers, keywords and unary operators. -/
def isMark (c : Char) : Bool := c.isAlphanum || ['.', '-', '!'].contains c

/-- Whether a word can be the text of a number. -/
def isNumeral (word : String) : Bool :=
  word = "inf" || word.toList.all fun c => c.isDigit || c = '.'

/-- What a word shows that stands in front of no parenthesis. -/
def ofWord (word : String) : Shape :=
  if isNumeral word then .number
  else match Keyword.ofWord? word with
  | some k => .keyword k
  | none =>
  if word = Vocabulary.labelWord then .label
  else if word = Vocabulary.popWord then .pop
  else .variable

def unarySymbols : List UnaryOperator := [.negate, .not, .paste, .giveBack]

/-- What a parenthesis shows that stands behind a word. -/
def ofHead (word : String) : Shape :=
  if word = "" then .binary
  else match unarySymbols.find? (·.symbol = word) with
  | some op => .unary op
  | none => .call

/-- What a value shows at the beginning of a text. -/
def ofText (text : List Char) : Shape :=
  let word := String.ofList (text.takeWhile isMark)
  if (text.dropWhile isMark).head? = some '(' then ofHead word else ofWord word

/-- The text goes on with what ends a value. -/
def Stops (rest : List Char) : Prop := ∀ c ∈ rest.head?, isMark c = false ∧ c ≠ '('

/-- How a text begins that shows something: with a word that is all of it, or with a parenthesis
behind a word. -/
inductive Begins (shape : Shape) : List Char → Prop
  | word {word : List Char} (hne : word ≠ []) (hword : ∀ c ∈ word, isMark c = true)
      (h : ofWord (String.ofList word) = shape) : Begins shape word
  | head {word : List Char} (hword : ∀ c ∈ word, isMark c = true)
      (h : ofHead (String.ofList word) = shape) (rest : List Char) :
      Begins shape (word ++ '(' :: rest)

variable {shape : Shape} {text rest : List Char}

theorem Stops.ends (h : Stops rest) : Text.Ends isMark rest := fun c hc => (h c hc).1

theorem stops_cons {c : Char} (hmark : isMark c = false) (hopening : c ≠ '(') (rest : List Char) :
    Stops (c :: rest) := by
  rintro _ ⟨⟩
  exact ⟨hmark, hopening⟩

theorem stops_blank (rest : List Char) : Stops (' ' :: rest) := stops_cons rfl (by decide) rest

theorem stops_comma (rest : List Char) : Stops (',' :: rest) := stops_cons rfl (by decide) rest

theorem stops_closing (rest : List Char) : Stops (')' :: rest) := stops_cons rfl (by decide) rest

theorem ends_opening (rest : List Char) : Text.Ends isMark ('(' :: rest) := Text.ends_cons rfl rest

theorem Begins.ofText_eq (h : Begins shape text) (hrest : Stops rest) :
    ofText (text ++ rest) = shape := by
  cases h with
  | word hne hword h =>
    have hhead : ¬ rest.head? = some '(' := fun hhead => (hrest '(' hhead).2 rfl
    rw [ofText, Text.takeWhile_run hword hrest.ends, Text.dropWhile_run hword hrest.ends,
      if_neg hhead, h]
  | head hword h behind =>
    have hends := ends_opening (behind ++ rest)
    rw [List.append_assoc, List.cons_append, ofText, Text.takeWhile_run hword hends,
      Text.dropWhile_run hword hends, List.head?_cons, if_pos rfl, h]

/-- Nothing that is shown begins with a closing parenthesis. -/
theorem Begins.head?_ne (h : Begins shape text) : ∃ c front, text = c :: front ∧ c ≠ ')' := by
  have hmark : ∀ c, isMark c = true → c ≠ ')' := by
    rintro _ hc rfl
    exact absurd hc (by decide)
  cases h with
  | word hne hword =>
    obtain ⟨c, front, rfl⟩ := List.exists_cons_of_ne_nil hne
    exact ⟨c, front, rfl, hmark c (hword c List.mem_cons_self)⟩
  | @head word hword _ rest =>
    cases word with
    | nil => exact ⟨'(', rest, rfl, by decide⟩
    | cons c front => exact ⟨c, _, rfl, hmark c (hword c List.mem_cons_self)⟩

/-- A name is shown by itself as a variable, and before a parenthesis as a call. -/
theorem ofWord_free {name : String} (h : Vocabulary.FreeName name)
    (hclear : ¬ Vocabulary.Confusable name) : ofWord name = .variable := by
  obtain ⟨hkeyword, hlabel, hpop, -⟩ := Vocabulary.tables_of_isName h.2
  have hnumber : ¬ isNumeral name = true := by
    rw [isNumeral, Bool.or_eq_true, decide_eq_true_iff]
    rintro (hinf | hall)
    · exact hclear (.inr (.inl hinf))
    · refine hclear (.inl (List.all_eq_true.2 fun c hc => ?_))
      have hletter : c.isAlphanum = true := h.1.2 c hc
      have hpoint : c ≠ '.' := by
        rintro rfl
        exact absurd hletter (by decide)
      simpa [hpoint] using List.all_eq_true.1 hall c hc
  simp only [ofWord, if_neg hnumber, hkeyword, if_neg hlabel, if_neg hpop]

theorem ofHead_free {name : String} (h : Vocabulary.FreeName name)
    (hclear : ¬ Vocabulary.Confusable name) : ofHead name = .call := by
  obtain ⟨-, -, -, hunary⟩ := Vocabulary.tables_of_isName h.2
  have hletter : ∀ c ∈ name.toList, c.isAlphanum = true := h.1.2
  have hne : name ≠ "" := by
    rintro rfl
    exact h.1.1 rfl
  have hsymbol : ∀ op : UnaryOperator, op.symbol ≠ name := by
    rintro (_ | _ | _ | _) rfl
    · exact absurd (hletter '-' (by decide)) (by decide)
    · exact absurd (hletter '!' (by decide)) (by decide)
    · exact absurd hunary (by decide)
    · exact hclear (.inr (.inr rfl))
  simp [ofHead, hne, hsymbol, unarySymbols]

end Shape

theorem BinaryOperator.symbol_injective : Function.Injective symbol := by
  intro op op' h
  cases op <;> cases op' <;> simp_all [symbol]

/-- What is read from a numeral is shown as infinity or in digits with at most a point. -/
theorem Number.IsLiteral.text {value : Number} (h : value.IsLiteral) :
    value.exact ≠ .nan ∧
      (value.text = "inf" ∨ ∀ c ∈ value.text.toList, c.isDigit = true ∨ c = '.') := by
  obtain ⟨text, hnumeral, hread⟩ := h
  rw [ofText?_eq_decimal hnumeral.chars] at hread
  obtain ⟨d, -, rfl⟩ := Option.map_eq_some_iff.1 hread
  rcases exact_ofMagnitude d.nearestBits_le with hexact | ⟨units, hexact⟩
  · refine ⟨by rw [hexact]; exact fun h => Exact.noConfusion h, .inl ?_⟩
    rw [Number.text, hexact]
    rfl
  · refine ⟨by rw [hexact]; exact fun h => Exact.noConfusion h, .inr ?_⟩
    rw [Number.text, hexact]
    simpa [signText] using Decimal.positional_chars (Decimal.shortest units)

namespace Node

open Shape
open Vocabulary (FreeName)

theorem mark_of_letters {name : String} (h : FreeName name) :
    ∀ c ∈ name.toList, isMark c = true := by
  intro c hc
  have hletter : c.isAlphanum = true := h.1.2 c hc
  simp [isMark, hletter]

theorem mark_of_literal {value : Number} (h : value.IsLiteral) :
    ∀ c ∈ value.text.toList, isMark c = true := by
  intro c hc
  rcases h.text.2 with hinf | hdigits
  · rw [hinf] at hc
    exact List.all_eq_true.1 (rfl : "inf".toList.all isMark = true) c hc
  · rcases hdigits c hc with hdigit | rfl
    · simp [isMark, Char.isAlphanum, hdigit]
    · decide

theorem mark_of_symbol (op : UnaryOperator) : ∀ c ∈ op.symbol.toList, isMark c = true := by
  cases op <;> exact List.all_eq_true.1 rfl

theorem not_blank_of_symbol (op : BinaryOperator) :
    ∀ c ∈ op.symbol.toList, decide (c ≠ ' ') = true := by
  cases op <;> exact List.all_eq_true.1 rfl

theorem Clear.variable {name : String} (h : (Node.variable name).Clear) :
    ¬ Vocabulary.Confusable name :=
  h name List.mem_cons_self

theorem Clear.call {name : String} {arguments : List Node} (h : (Node.call name arguments).Clear) :
    ¬ Vocabulary.Confusable name ∧ ∀ argument ∈ arguments, argument.Clear := by
  refine ⟨h name List.mem_cons_self, fun argument hargument other hother => h other ?_⟩
  exact List.mem_cons_of_mem _ (mem_namesOf.2 ⟨argument, hargument, hother⟩)

theorem Clear.binary {op : BinaryOperator} {left right : Node}
    (h : (Node.binary op left right).Clear) : left.Clear ∧ right.Clear :=
  ⟨fun name hname => h name (List.mem_append_left _ hname),
    fun name hname => h name (List.mem_append_right _ hname)⟩

theorem IsValue.begins {node : Node} (h : IsValue node) (hclear : node.Clear) :
    Begins node.shape node.chars := by
  cases h with
  | @number value h =>
    have hne : value.text.toList ≠ [] := by
      -- The text is read as the number, and the empty text is read as none.
      intro hnil
      have hread := Number.ofText?_text h.text.1
      rw [String.toList_eq_nil_iff.1 hnil] at hread
      cases hread
    refine .word hne (mark_of_literal h) ?_
    have hnumber : isNumeral value.text = true := by
      rw [isNumeral, Bool.or_eq_true, decide_eq_true_iff]
      refine h.text.2.imp_right fun hdigits => List.all_eq_true.2 fun c hc => ?_
      simpa using hdigits c hc
    rw [chars, text, String.ofList_toList, ofWord, if_pos hnumber]
    rfl
  | @«variable» name h =>
    refine .word h.1.1 (mark_of_letters h) ?_
    rw [chars, text, String.ofList_toList]
    exact ofWord_free h hclear.variable
  | binary op =>
    rw [chars_binary]
    exact @Begins.head _ [] (by simp) rfl _
  | unary op =>
    rw [chars_unary]
    refine .head (mark_of_symbol op) ?_ _
    rw [String.ofList_toList]
    cases op <;> rfl
  | @call name arguments h =>
    rw [chars_call]
    refine .head (mark_of_letters h) ?_ _
    rw [String.ofList_toList]
    exact ofHead_free h hclear.call.1
  | pop => exact .word (by decide) (List.all_eq_true.1 rfl) rfl

/-! ## Values -/

/-- The node is known from any text that begins with it. -/
def Legible (node : Node) : Prop :=
  ∀ {other : Node} {rest rest' : List Char}, IsValue other → other.Clear → Stops rest →
    Stops rest' → node.chars ++ rest = other.chars ++ rest' → node = other ∧ rest = rest'

variable {left right operand other : Node} {arguments others : List Node} {rest rest' : List Char}

theorem IsValue.shape_eq {node : Node} (h : IsValue node) (hclear : node.Clear)
    (hother : IsValue other) (hclear' : other.Clear) (hrest : Stops rest) (hrest' : Stops rest')
    (htext : node.chars ++ rest = other.chars ++ rest') : node.shape = other.shape := by
  rw [← (h.begins hclear).ofText_eq hrest, htext, (hother.begins hclear').ofText_eq hrest']

theorem legible_number {value : Number} (h : value.IsLiteral) : Legible (.number value) := by
  intro other rest rest' hother hclear' hrest hrest' htext
  have hshape :=
    (IsValue.number h).shape_eq (by simp [Clear, names]) hother hclear' hrest hrest' htext
  cases hother with
  | @number value' h' =>
    obtain ⟨htexts, hrests⟩ := Text.run_append_injective (mark_of_literal h) (mark_of_literal h')
      hrest.ends hrest'.ends htext
    have hread := Number.ofText?_text h.text.1
    rw [String.toList_inj.1 htexts, Number.ofText?_text h'.text.1] at hread
    exact ⟨by rw [Option.some.inj hread], hrests⟩
  | «variable» | binary | unary | call | pop => cases hshape

theorem legible_variable {name : String} (h : FreeName name) (hclear : (Node.variable name).Clear) :
    Legible (.variable name) := by
  intro other rest rest' hother hclear' hrest hrest' htext
  have hshape := (IsValue.variable h).shape_eq hclear hother hclear' hrest hrest' htext
  cases hother with
  | «variable» h' =>
    obtain ⟨hnames, hrests⟩ := Text.run_append_injective (mark_of_letters h) (mark_of_letters h')
      hrest.ends hrest'.ends htext
    exact ⟨by rw [String.toList_inj.1 hnames], hrests⟩
  | number | binary | unary | call | pop => cases hshape

theorem legible_pop : Legible .pop := by
  intro other rest rest' hother hclear' hrest hrest' htext
  have hshape := IsValue.pop.shape_eq (by simp [Clear, names]) hother hclear' hrest hrest' htext
  cases hother with
  | pop => exact ⟨rfl, List.append_cancel_left htext⟩
  | number | «variable» | binary | unary | call => cases hshape

theorem legible_unary {op : UnaryOperator} (h : IsValue (.unary op operand))
    (hclear : (Node.unary op operand).Clear) (hoperand : Legible operand) :
    Legible (.unary op operand) := by
  intro other rest rest' hother hclear' hrest hrest' htext
  have hshape := h.shape_eq hclear hother hclear' hrest hrest' htext
  cases hother with
  | unary op' h' =>
    cases hshape
    rw [chars_unary, chars_unary, List.append_assoc, List.append_assoc] at htext
    have hoperands := List.append_cancel_left htext
    simp only [List.cons_append, List.append_assoc, List.nil_append, List.cons.injEq,
      true_and] at hoperands
    obtain ⟨rfl, hrests⟩ := hoperand h' hclear' (stops_closing _) (stops_closing _) hoperands
    exact ⟨rfl, (List.cons.inj hrests).2⟩
  | number | «variable» | binary | call | pop => cases hshape

theorem legible_binary {op : BinaryOperator} (h : IsValue (.binary op left right))
    (hclear : (Node.binary op left right).Clear) (hleft : Legible left) (hright : Legible right) :
    Legible (.binary op left right) := by
  intro other rest rest' hother hclear' hrest hrest' htext
  have hshape := h.shape_eq hclear hother hclear' hrest hrest' htext
  cases hother with
  | binary op' hleft' hright' =>
    simp only [chars_binary, List.cons_append, List.append_assoc, List.nil_append, List.cons.injEq,
      true_and] at htext
    obtain ⟨rfl, htail⟩ := hleft hleft' hclear'.binary.1 (stops_blank _) (stops_blank _) htext
    -- Blanks stand around the operator, and there is none in its symbol.
    obtain ⟨hsymbol, hbehind⟩ := Text.run_append_injective (p := (· ≠ ' '))
      (not_blank_of_symbol op) (not_blank_of_symbol op') (Text.ends_cons rfl _)
      (Text.ends_cons rfl _) (List.cons.inj htail).2
    obtain ⟨rfl, hrests⟩ := hright hright' hclear'.binary.2 (stops_closing _) (stops_closing _)
      (List.cons.inj hbehind).2
    rw [BinaryOperator.symbol_injective (String.toList_inj.1 hsymbol)]
    exact ⟨rfl, (List.cons.inj hrests).2⟩
  | number | «variable» | unary | call | pop => cases hshape

theorem stops_arguments (arguments : List Node) (rest : List Char) :
    Stops ((arguments.flatMap fun argument => ',' :: ' ' :: argument.chars) ++ ')' :: rest) := by
  cases arguments with
  | nil => exact stops_closing rest
  | cons argument arguments => exact stops_comma _

/-- The arguments behind the first one. -/
theorem legible_moreArguments (h : ∀ argument ∈ arguments, Legible argument)
    (hothers : ∀ argument ∈ others, IsValue argument ∧ argument.Clear)
    (htext : (arguments.flatMap fun argument => ',' :: ' ' :: argument.chars) ++ ')' :: rest =
      (others.flatMap fun argument => ',' :: ' ' :: argument.chars) ++ ')' :: rest') :
    arguments = others ∧ rest = rest' := by
  induction arguments generalizing others with
  | nil =>
    cases others with
    | nil => exact ⟨rfl, (List.cons.inj htext).2⟩
    | cons other others => simp at htext
  | cons argument arguments ih =>
    cases others with
    | nil => simp at htext
    | cons other others =>
      rw [List.forall_mem_cons] at h hothers
      simp only [List.flatMap_cons, List.cons_append, List.append_assoc, List.cons.injEq,
        true_and] at htext
      obtain ⟨rfl, hmore⟩ := h.1 hothers.1.1 hothers.1.2 (stops_arguments _ _) (stops_arguments _ _)
        htext
      obtain ⟨rfl, hrests⟩ := ih h.2 hothers.2 hmore
      exact ⟨rfl, hrests⟩

theorem closing_ne_argument (h : IsValue other) (hclear : other.Clear) (rest' : List Char) :
    ')' :: rest ≠ other.chars ++ rest' := by
  obtain ⟨c, front, hchars, hc⟩ := (h.begins hclear).head?_ne
  rw [hchars]
  intro htext
  exact hc (List.cons.inj htext).1.symm

theorem legible_arguments (h : ∀ argument ∈ arguments, Legible argument)
    (hvalues : ∀ argument ∈ arguments, IsValue argument ∧ argument.Clear)
    (hothers : ∀ argument ∈ others, IsValue argument ∧ argument.Clear)
    (htext : argumentChars arguments ++ ')' :: rest = argumentChars others ++ ')' :: rest') :
    arguments = others ∧ rest = rest' := by
  cases arguments with
  | nil =>
    cases others with
    | nil => exact ⟨rfl, (List.cons.inj htext).2⟩
    | cons other others =>
      rw [argumentChars, argumentChars, List.append_assoc] at htext
      obtain ⟨hvalue, hclear⟩ := hothers other List.mem_cons_self
      exact absurd htext (closing_ne_argument hvalue hclear _)
  | cons argument arguments =>
    cases others with
    | nil =>
      rw [argumentChars, argumentChars, List.append_assoc] at htext
      obtain ⟨hvalue, hclear⟩ := hvalues argument List.mem_cons_self
      exact absurd htext.symm (closing_ne_argument hvalue hclear _)
    | cons other others =>
      rw [List.forall_mem_cons] at h hothers
      rw [argumentChars, argumentChars, List.append_assoc, List.append_assoc] at htext
      obtain ⟨rfl, hmore⟩ := h.1 hothers.1.1 hothers.1.2 (stops_arguments _ _) (stops_arguments _ _)
        htext
      obtain ⟨rfl, hrests⟩ := legible_moreArguments h.2 hothers.2 hmore
      exact ⟨rfl, hrests⟩

theorem legible_call {name : String} (h : IsValue (.call name arguments))
    (hclear : (Node.call name arguments).Clear)
    (harguments : ∀ argument ∈ arguments, Legible argument) : Legible (.call name arguments) := by
  intro other rest rest' hother hclear' hrest hrest' htext
  have hshape := h.shape_eq hclear hother hclear' hrest hrest' htext
  cases h with
  | call hname hvalues =>
    cases hother with
    | call hname' hvalues' =>
      simp only [chars_call, List.append_assoc, List.cons_append, List.nil_append] at htext
      obtain ⟨hnames, hbehind⟩ := Text.run_append_injective (mark_of_letters hname)
        (mark_of_letters hname') (ends_opening _) (ends_opening _) htext
      obtain ⟨rfl, hrests⟩ := legible_arguments harguments
        (fun a ha => ⟨hvalues a ha, hclear.call.2 a ha⟩)
        (fun a ha => ⟨hvalues' a ha, hclear'.call.2 a ha⟩) (List.cons.inj hbehind).2
      exact ⟨by rw [String.toList_inj.1 hnames], hrests⟩
    | number | «variable» | unary | binary | pop => cases hshape

/-- A value without confusable names is known from any text that begins with it. -/
theorem IsValue.legible {node : Node} (h : IsValue node) (hclear : node.Clear) : Legible node := by
  induction h with
  | number h => exact legible_number h
  | «variable» h => exact legible_variable h hclear
  | binary op hleft hright ihleft ihright =>
    exact legible_binary (.binary op hleft hright) hclear (ihleft hclear.binary.1)
      (ihright hclear.binary.2)
  | unary op h ih => exact legible_unary (.unary op h) hclear (ih hclear)
  | call h harguments ih =>
    exact legible_call (.call h harguments) hclear fun argument hargument =>
      ih argument hargument (hclear.call.2 argument hargument)
  | pop => exact legible_pop

end Node
end VerbScript
