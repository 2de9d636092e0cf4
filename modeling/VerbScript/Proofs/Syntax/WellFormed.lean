import Mathlib.Data.List.TakeWhile
import VerbScript.Program.Parse
import VerbScript.Proofs.Syntax.Spelling

/-!
# VerbScript.Proofs.Syntax.WellFormed

The nodes that tokens can spell. A value is built from numbers written in digits, free names and
operators; a marker is a keyword, a label, or a definition with distinct parameters. What is read
from readable tokens is always one of these (`Program.ofTokens_wellFormed`).
-/

namespace VerbScript

/-- A word that is free to name a variable or a function. -/
def Vocabulary.FreeName (text : String) : Prop :=
  Piece.IsWord text.toList ∧ isName text = true

namespace Number

/-- Texts of decimal digits with at most one point among them. -/
structure IsNumeral (text : List Char) : Prop where
  chars : ∀ c ∈ text, c.isDigit = true ∨ c = '.'
  digit : ∃ c ∈ text, c.isDigit = true
  point : text.count '.' ≤ 1

/-- The numbers that are read from numerals. -/
def IsLiteral (value : Number) : Prop :=
  ∃ text, IsNumeral text ∧ ofText? (String.ofList text) = some value

end Number

namespace Node

open Vocabulary (FreeName)

/-- Trees of values only. -/
inductive IsValue : Node → Prop
  | number {value : Number} (h : value.IsLiteral) : IsValue (.number value)
  | variable {name : String} (h : FreeName name) : IsValue (.variable name)
  | binary {left right : Node} (op : BinaryOperator) (hleft : IsValue left)
      (hright : IsValue right) : IsValue (.binary op left right)
  | unary {operand : Node} (op : UnaryOperator) (h : IsValue operand) : IsValue (.unary op operand)
  | call {name : String} {arguments : List Node} (h : FreeName name)
      (harguments : ∀ argument ∈ arguments, IsValue argument) : IsValue (.call name arguments)
  | pop : IsValue .pop

/-- What can be an instruction. -/
inductive WellFormed : Node → Prop
  | keyword (k : Keyword) : WellFormed (.keyword k)
  | label : WellFormed .label
  | define {name : String} {parameters : List String} (h : FreeName name)
      (hparameters : ∀ parameter ∈ parameters, FreeName parameter)
      (hdistinct : parameters.Nodup) : WellFormed (.define name parameters)
  | value {node : Node} (h : IsValue node) : WellFormed node

theorem IsValue.not_marker {node : Node} (h : IsValue node) : node.isMarker = false := by
  cases h <;> rfl

theorem WellFormed.isValue {node : Node} (h : WellFormed node) (hmarker : node.isMarker = false) :
    IsValue node := by
  cases h with
  | value h => exact h
  | keyword | label | define => cases hmarker

end Node

/-! ## Numerals -/

namespace Decimal

/-- Digits and points do not make an exponent. -/
theorem eq_nil_of_exponent? {text : List Char} {e : Int}
    (hchars : ∀ c ∈ text, c.isDigit = true ∨ c = '.') (h : exponent? text = some e) :
    text = [] := by
  cases text with
  | nil => rfl
  | cons c text =>
    have hc := hchars c List.mem_cons_self
    simp only [exponent?] at h
    split at h
    · rename_i hmark
      rcases hmark with rfl | rfl <;> simp at hc
    · cases h

theorem splitFraction_digits (text : List Char) :
    ∀ c ∈ (splitFraction text).1, c.isDigit = true := by
  intro c hc
  unfold splitFraction at hc
  split at hc
  · exact List.mem_takeWhile_imp hc
  · cases hc

/-- Nothing is lost: there is no point and no fraction, or a point before them. -/
theorem splitFraction_cases (text : List Char) :
    splitFraction text = ([], text) ∨
      text = '.' :: (splitFraction text).1 ++ (splitFraction text).2 := by
  unfold splitFraction
  split
  · right
    rw [List.cons_append, List.takeWhile_append_dropWhile]
  · exact .inl rfl

theorem count_point_of_digits {text : List Char} (h : ∀ c ∈ text, c.isDigit = true) :
    text.count '.' = 0 := by
  refine List.count_eq_zero.2 fun hmem => ?_
  exact absurd (h '.' hmem) (by decide)

theorem isNumeral_of_ofText? {text : List Char} {d : Decimal}
    (hchars : ∀ c ∈ text, c.isDigit = true ∨ c = '.') (h : ofText? text = some d) :
    Number.IsNumeral text := by
  have htext := @List.takeWhile_append_dropWhile _ Char.isDigit text
  simp only [ofText?] at h
  generalize htake : text.takeWhile Char.isDigit = whole at h htext
  generalize text.dropWhile Char.isDigit = tail at h htext
  have hdigits : ∀ c ∈ whole, c.isDigit = true := by
    intro c hc
    rw [← htake] at hc
    exact List.mem_takeWhile_imp hc
  subst htext
  split at h
  · cases h
  rename_i hsome
  obtain ⟨e, he, -⟩ := Option.map_eq_some_iff.1 h
  have hdigit : ∃ c ∈ whole ++ (splitFraction tail).1, c.isDigit = true := by
    obtain ⟨c, hc⟩ := List.exists_mem_of_ne_nil _ hsome
    refine ⟨c, hc, ?_⟩
    rcases List.mem_append.1 hc with hc | hc
    · exact hdigits c hc
    · exact splitFraction_digits tail c hc
  have hwhole := count_point_of_digits hdigits
  have hfraction := count_point_of_digits (splitFraction_digits tail)
  rcases splitFraction_cases tail with hsplit | hsplit
  · rw [hsplit] at he hdigit
    have htail : tail = [] :=
      eq_nil_of_exponent? (fun c hc => hchars c (List.mem_append_right _ hc)) he
    subst htail
    exact ⟨hchars, hdigit, by simp [hwhole]⟩
  · generalize (splitFraction tail).1 = fraction at *
    generalize (splitFraction tail).2 = rest at *
    subst hsplit
    have hrest : rest = [] := eq_nil_of_exponent? (fun c hc => hchars c (by simp [hc])) he
    subst hrest
    refine ⟨hchars, ?_, by simp [hwhole, hfraction]⟩
    obtain ⟨c, hc, hdigit⟩ := hdigit
    refine ⟨c, ?_, hdigit⟩
    rcases List.mem_append.1 hc with hc | hc <;> simp [hc]

end Decimal

namespace Number

theorem toNat_of_isDigit {c : Char} (h : c.isDigit = true) : 48 ≤ c.toNat ∧ c.toNat ≤ 57 := by
  simpa [Char.isDigit, UInt32.le_iff_toNat_le] using h

theorem toLower_of_numeral {c : Char} (h : c.isDigit = true ∨ c = '.') : c.toLower = c := by
  -- There is no capital letter among the characters of numerals.
  refine dif_neg ?_
  rcases h with h | rfl
  · rintro ⟨hcapital, -⟩
    have hdigit := toNat_of_isDigit h
    have hcapital : 65 ≤ c.toNat := UInt32.le_iff_toNat_le.1 hcapital
    omega
  · decide

/-- Texts of digits and points are read as decimals. -/
theorem ofUnsignedText?_eq_decimal {text : List Char} (negative : Bool)
    (hchars : ∀ c ∈ text, c.isDigit = true ∨ c = '.') :
    ofUnsignedText? negative text =
      (Decimal.ofText? text).map fun d => ofMagnitude negative d.nearestBits := by
  have hlower : text.map Char.toLower = text := by
    rw [List.map_congr_left fun c hc => toLower_of_numeral (hchars c hc), List.map_id']
  have hletter : 'i' ∉ text ∧ 'n' ∉ text := by
    constructor <;> intro h <;> exact absurd (hchars _ h) (by decide)
  have hinf : ¬ (text = "inf".toList ∨ text = "infinity".toList) := by
    rintro (rfl | rfl) <;> exact hletter.1 (by decide)
  have hnan : text ≠ "nan".toList := by
    rintro rfl
    exact hletter.2 (by decide)
  simp only [ofUnsignedText?, hlower, if_neg hinf, if_neg hnan]

theorem ofText?_eq_decimal {text : List Char} (hchars : ∀ c ∈ text, c.isDigit = true ∨ c = '.') :
    ofText? (String.ofList text) =
      (Decimal.ofText? text).map fun d => ofMagnitude false d.nearestBits := by
  rw [← ofUnsignedText?_eq_decimal false hchars, ofText?, String.toList_ofList]
  split
  · exact absurd (hchars '+' List.mem_cons_self) (by decide)
  · exact absurd (hchars '-' List.mem_cons_self) (by decide)
  · rfl

end Number

/-! ## What is read is well formed -/

/-- Tokens that texts can spell. -/
def Tokens.Readable (ts : Tokens) : Prop := ∀ t ∈ ts, t.value.Readable

theorem Tokens.Readable.tail {t : Located Token} {ts : Tokens} (h : Tokens.Readable (t :: ts)) :
    Tokens.Readable ts :=
  fun u hu => h u (List.mem_cons_of_mem _ hu)

/-- A bound computation that yields a result had one at its first step. -/
theorem Parsed.bind_eq_ok {α β : Type} {x : Parsed α} {f : α → Parsed β} {b : β}
    (h : (x >>= f) = .ok b) : ∃ a, x = .ok a ∧ f a = .ok b := by
  cases x with
  | error e => cases h
  | ok a => exact ⟨a, rfl, h⟩

namespace Node

open Vocabulary (FreeName)

theorem skipFormat_readable {ts : Tokens} (h : Tokens.Readable ts) :
    Tokens.Readable (skipFormat ts) := by
  cases ts with
  | nil => exact h
  | cons t ts =>
    simp only [skipFormat]
    split
    · exact h.tail
    · exact h

theorem skipSeparator_readable {ts : Tokens} (h : Tokens.Readable ts) :
    Tokens.Readable (skipSeparator ts) := by
  cases ts with
  | nil => exact h
  | cons t ts =>
    simp only [skipSeparator]
    split
    · exact h.tail
    · exact h

theorem expectWord_readable {word : StructuralWord} {fallback : Position} {ts rest : Tokens}
    (h : expectWord word fallback ts = .ok rest) (hts : Tokens.Readable ts) :
    Tokens.Readable rest := by
  cases ts with
  | nil => cases h
  | cons t ts =>
    simp only [expectWord] at h
    split at h
    · cases h
      exact hts.tail
    · cases h

theorem expectPunctuation_readable {c : Char} {fallback : Position} {ts rest : Tokens}
    (h : expectPunctuation c fallback ts = .ok rest) (hts : Tokens.Readable ts) :
    Tokens.Readable rest := by
  cases ts with
  | nil => cases h
  | cons t ts =>
    simp only [expectPunctuation] at h
    split at h
    · cases h
      exact hts.tail
    · cases h

theorem freeName_of_freeName? {t : Token} {name : String} (ht : t.Readable)
    (h : freeName? t = some name) : FreeName name := by
  unfold freeName? at h
  split at h
  · split at h
    · rename_i hfree
      cases h
      exact ⟨ht.1, hfree⟩
    · cases h
  · cases h

theorem digitChar_numeral {value : Nat} (h : value ≤ Vocabulary.decimalPoint) :
    (digitChar value).isDigit = true ∨ digitChar value = '.' := by
  have hall : ∀ value ≤ 10, (digitChar value).isDigit = true ∨ digitChar value = '.' := by decide
  exact hall value h

theorem takeDigits_numeral {ts : Tokens} (hts : Tokens.Readable ts) :
    (∀ c ∈ (takeDigits ts).1, c.isDigit = true ∨ c = '.') ∧ Tokens.Readable (takeDigits ts).2 := by
  induction ts with
  | nil => exact ⟨by simp [takeDigits], hts⟩
  | cons t ts ih =>
    obtain ⟨hchars, hrest⟩ := ih hts.tail
    simp only [takeDigits]
    split
    · rename_i value ht
      have hvalue : t.value.Readable := hts t List.mem_cons_self
      rw [ht] at hvalue
      refine ⟨?_, hrest⟩
      intro c hc
      rcases List.mem_cons.1 hc with rfl | hc
      · exact digitChar_numeral hvalue
      · exact hchars c hc
    · exact ⟨by simp, hts⟩

theorem parseNumber_isValue {start : Position} {ts rest : Tokens} {node : Node}
    (h : parseNumber start ts = .ok (node, rest)) (hts : Tokens.Readable ts) :
    IsValue node ∧ Tokens.Readable rest := by
  obtain ⟨hchars, hrest⟩ := takeDigits_numeral hts
  simp only [parseNumber] at h
  split at h
  · rename_i value hvalue
    cases h
    have hdecimal := Number.ofText?_eq_decimal hchars
    rw [hvalue] at hdecimal
    obtain ⟨d, hd, -⟩ := Option.map_eq_some_iff.1 hdecimal.symm
    exact ⟨.number ⟨_, Decimal.isNumeral_of_ofText? hchars hd, hvalue⟩, hrest⟩
  · cases h

theorem parseVariable_isValue {start : Position} {ts rest : Tokens} {node : Node}
    (h : parseVariable start ts = .ok (node, rest)) (hts : Tokens.Readable ts) :
    IsValue node ∧ Tokens.Readable rest := by
  cases ts with
  | nil => cases h
  | cons t ts =>
    simp only [parseVariable] at h
    split at h
    · cases h
    · rename_i name hname
      obtain ⟨rest', hrename, h⟩ := Parsed.bind_eq_ok h
      cases h
      exact ⟨.variable (freeName_of_freeName? (hts t List.mem_cons_self) hname),
        expectWord_readable hrename hts.tail⟩

theorem postfixes_isValue {node : Node} {ts : Tokens} (hnode : IsValue node)
    (hts : Tokens.Readable ts) :
    IsValue (postfixes node ts).1 ∧ Tokens.Readable (postfixes node ts).2 := by
  induction ts generalizing node with
  | nil => exact ⟨hnode, hts⟩
  | cons t ts ih =>
    simp only [postfixes]
    split
    · rename_i op ht
      exact ih (.unary op hnode) hts.tail
    · exact ⟨hnode, hts⟩

theorem not_marker_of_asValue {node : Node} {place : Position} {u : Unit}
    (h : asValue node place = .ok u) : node.isMarker = false := by
  unfold asValue at h
  split at h
  · cases h
  · rename_i hmarker
    simpa using hmarker

theorem parameters_distinct {start : Position} {seen names : List String} {arguments : List Node}
    (h : parameters start seen arguments = .ok names)
    (harguments : ∀ argument ∈ arguments, IsValue argument)
    (hfree : ∀ name ∈ seen, FreeName name) (hdistinct : seen.Nodup) :
    (∀ name ∈ names, FreeName name) ∧ names.Nodup := by
  induction arguments generalizing seen with
  | nil =>
    cases h
    exact ⟨hfree, hdistinct⟩
  | cons argument arguments ih =>
    cases harguments argument List.mem_cons_self with
    | «variable» hname =>
      rename_i name
      simp only [parameters] at h
      split at h
      · cases h
      · rename_i hnew
        refine ih h (fun node hnode => harguments node (List.mem_cons_of_mem _ hnode)) ?_ ?_
        · intro other hother
          rcases List.mem_append.1 hother with hother | hother
          · exact hfree other hother
          · exact List.mem_singleton.1 hother ▸ hname
        · exact List.nodup_append.2 ⟨hdistinct, by simp, by grind⟩
    | number | binary | unary | call | pop => cases h

theorem parseHeaderEnd_wellFormed {start : Position} {arguments : List Node} {ts rest : Tokens}
    {node : Node} (h : parseHeaderEnd start arguments ts = .ok (node, rest))
    (harguments : ∀ argument ∈ arguments, IsValue argument) (hts : Tokens.Readable ts) :
    WellFormed node ∧ Tokens.Readable rest := by
  cases ts with
  | nil => cases h
  | cons t ts =>
    simp only [parseHeaderEnd] at h
    split at h
    · cases h
    rename_i name hname
    have hfree := freeName_of_freeName? (hts t List.mem_cons_self) hname
    cases ts with
    | nil => cases h
    | cons ending ts =>
      simp only at h
      split at h
      · obtain ⟨names, hnames, h⟩ := Parsed.bind_eq_ok h
        cases h
        obtain ⟨hparameters, hdistinct⟩ :=
          parameters_distinct hnames harguments (by simp) List.nodup_nil
        exact ⟨.define hfree hparameters hdistinct, hts.tail.tail⟩
      · cases h
        exact ⟨.value (.call hfree harguments), hts.tail.tail⟩
      · cases h

/-- What the functions that call one another read from readable tokens: values where a value is due,
and else what can be an instruction. -/
structure ReadsWellFormed (bound : Nat) : Prop where
  atom {bare : Bool} {fallback : Position} {ts rest : Tokens} {node : Node}
    (h : parseAtom bound bare fallback ts = .ok (node, rest)) (hts : Tokens.Readable ts) :
    WellFormed node ∧ Tokens.Readable rest
  climb {left : Node} {floor : Nat} {bare : Bool} {fallback : Position} {ts rest : Tokens}
    {node : Node} (h : climb bound left floor bare fallback ts = .ok (node, rest))
    (hleft : IsValue left) (hts : Tokens.Readable ts) : IsValue node ∧ Tokens.Readable rest
  expression {bare : Bool} {fallback : Position} {ts rest : Tokens} {node : Node}
    (h : parseExpression bound bare fallback ts = .ok (node, rest)) (hts : Tokens.Readable ts) :
    WellFormed node ∧ Tokens.Readable rest
  value {bare : Bool} {fallback : Position} {ts rest : Tokens} {node : Node}
    (h : parseValue bound bare fallback ts = .ok (node, rest)) (hts : Tokens.Readable ts) :
    IsValue node ∧ Tokens.Readable rest
  arguments {start : Position} {ts rest : Tokens} {nodes : List Node}
    (h : parseArguments bound start ts = .ok (nodes, rest)) (hts : Tokens.Readable ts) :
    (∀ node ∈ nodes, IsValue node) ∧ Tokens.Readable rest

namespace ReadsWellFormed

variable {bound : Nat} {bare : Bool} {fallback : Position} {ts rest : Tokens} {node : Node}

theorem atom_succ (ih : ReadsWellFormed bound)
    (h : parseAtom (bound + 1) bare fallback ts = .ok (node, rest)) (hts : Tokens.Readable ts) :
    WellFormed node ∧ Tokens.Readable rest := by
  cases ts with
  | nil => cases h
  | cons t ts =>
    simp only [parseAtom] at h
    split at h
    · obtain ⟨⟨inner, rest₁⟩, hinner, h⟩ := Parsed.bind_eq_ok h
      obtain ⟨rest₂, hunzip, h⟩ := Parsed.bind_eq_ok h
      obtain ⟨hvalue, hrest₁⟩ := ih.value hinner hts.tail
      have hpost := postfixes_isValue hvalue (expectWord_readable hunzip hrest₁)
      rw [Except.ok.inj h] at hpost
      exact ⟨.value hpost.1, hpost.2⟩
    · obtain ⟨rest₁, hopening, h⟩ := Parsed.bind_eq_ok h
      obtain ⟨⟨nodes, rest₂⟩, hnodes, h⟩ := Parsed.bind_eq_ok h
      obtain ⟨harguments, hrest₂⟩ :=
        ih.arguments hnodes (expectPunctuation_readable hopening hts.tail)
      exact parseHeaderEnd_wellFormed h harguments hrest₂
    · obtain ⟨hvalue, hrest⟩ := parseVariable_isValue h hts.tail
      exact ⟨.value hvalue, hrest⟩
    · obtain ⟨hvalue, hrest⟩ := parseNumber_isValue h hts
      exact ⟨.value hvalue, hrest⟩
    · cases h
      exact ⟨.keyword _, hts.tail⟩
    · cases h
      exact ⟨.label, hts.tail⟩
    · cases h
      exact ⟨.value .pop, hts.tail⟩
    · rename_i text ht
      have hreadable := hts t List.mem_cons_self
      rw [ht] at hreadable
      split at h
      · cases h
      rename_i hname
      split at h
      · cases h
        exact ⟨.value (.variable ⟨hreadable.1, by simpa using hname⟩), hts.tail⟩
      · cases h
    · cases h

theorem climb_succ (ih : ReadsWellFormed bound) {left : Node} {floor : Nat}
    (h : Node.climb (bound + 1) left floor bare fallback ts = .ok (node, rest))
    (hleft : IsValue left) (hts : Tokens.Readable ts) : IsValue node ∧ Tokens.Readable rest := by
  cases ts with
  | nil =>
    cases h
    exact ⟨hleft, hts⟩
  | cons t ts =>
    simp only [Node.climb] at h
    split at h
    · rename_i op ht
      split at h
      · cases h
        exact ⟨hleft, hts⟩
      · obtain ⟨⟨operand, rest₁⟩, hoperand, h⟩ := Parsed.bind_eq_ok h
        obtain ⟨_, hmarker, h⟩ := Parsed.bind_eq_ok h
        obtain ⟨⟨right, rest₂⟩, hright, h⟩ := Parsed.bind_eq_ok h
        obtain ⟨hoperand, hrest₁⟩ := ih.atom hoperand hts.tail
        obtain ⟨hright, hrest₂⟩ :=
          ih.climb hright (hoperand.isValue (not_marker_of_asValue hmarker)) hrest₁
        exact ih.climb h (.binary op hleft hright) hrest₂
    · cases h
      exact ⟨hleft, hts⟩

theorem expression_succ (ih : ReadsWellFormed bound)
    (h : parseExpression (bound + 1) bare fallback ts = .ok (node, rest))
    (hts : Tokens.Readable ts) : WellFormed node ∧ Tokens.Readable rest := by
  simp only [parseExpression] at h
  obtain ⟨⟨first, rest₁⟩, hfirst, h⟩ := Parsed.bind_eq_ok h
  obtain ⟨hfirst, hrest₁⟩ := ih.atom hfirst hts
  simp only at h
  split at h
  · cases h
    exact ⟨hfirst, skipFormat_readable hrest₁⟩
  · rename_i hmarker
    obtain ⟨⟨tree, rest₂⟩, htree, h⟩ := Parsed.bind_eq_ok h
    obtain ⟨htree, hrest₂⟩ := ih.climb htree (hfirst.isValue (by simpa using hmarker)) hrest₁
    obtain ⟨hvalue, hrest₃⟩ := postfixes_isValue htree hrest₂
    cases h
    exact ⟨.value hvalue, skipFormat_readable hrest₃⟩

theorem value_succ (ih : ReadsWellFormed bound)
    (h : parseValue (bound + 1) bare fallback ts = .ok (node, rest)) (hts : Tokens.Readable ts) :
    IsValue node ∧ Tokens.Readable rest := by
  simp only [parseValue] at h
  obtain ⟨⟨tree, rest₁⟩, htree, h⟩ := Parsed.bind_eq_ok h
  obtain ⟨_, hmarker, h⟩ := Parsed.bind_eq_ok h
  obtain ⟨htree, hrest₁⟩ := ih.expression htree hts
  cases h
  exact ⟨htree.isValue (not_marker_of_asValue hmarker), hrest₁⟩

theorem arguments_succ (ih : ReadsWellFormed bound) {start : Position} {nodes : List Node}
    (h : parseArguments (bound + 1) start ts = .ok (nodes, rest)) (hts : Tokens.Readable ts) :
    (∀ node ∈ nodes, IsValue node) ∧ Tokens.Readable rest := by
  cases ts with
  | nil => cases h
  | cons t ts =>
    simp only [parseArguments] at h
    split at h
    · cases h
      exact ⟨by simp, hts.tail⟩
    · obtain ⟨⟨argument, rest₁⟩, hargument, h⟩ := Parsed.bind_eq_ok h
      obtain ⟨⟨arguments, rest₂⟩, harguments, h⟩ := Parsed.bind_eq_ok h
      obtain ⟨hargument, hrest₁⟩ := ih.value hargument hts
      obtain ⟨harguments, hrest₂⟩ := ih.arguments harguments (skipSeparator_readable hrest₁)
      cases h
      refine ⟨?_, hrest₂⟩
      intro node hnode
      rcases List.mem_cons.1 hnode with rfl | hnode
      · exact hargument
      · exact harguments node hnode

end ReadsWellFormed

theorem readsWellFormed (bound : Nat) : ReadsWellFormed bound := by
  induction bound with
  | zero =>
    constructor <;> intros
    all_goals simp_all [parseAtom, climb, parseExpression, parseValue, parseArguments]
  | succ bound ih =>
    exact ⟨ih.atom_succ, ih.climb_succ, ih.expression_succ, ih.value_succ, ih.arguments_succ⟩

end Node

namespace Program

theorem parseInstructions_wellFormed {count : Nat} {ts : Tokens} {program : Program}
    (h : parseInstructions count ts = .ok program) (hts : Tokens.Readable ts) :
    ∀ instruction ∈ program, instruction.value.WellFormed := by
  induction count generalizing ts program with
  | zero =>
    cases ts with
    | nil =>
      cases h
      simp
    | cons t ts => cases h
  | succ count ih =>
    cases ts with
    | nil =>
      cases h
      simp
    | cons t ts =>
      simp only [parseInstructions] at h
      obtain ⟨⟨node, rest⟩, hnode, h⟩ := Parsed.bind_eq_ok h
      obtain ⟨instructions, hinstructions, h⟩ := Parsed.bind_eq_ok h
      cases h
      obtain ⟨hnode, hrest⟩ := (Node.readsWellFormed _).expression hnode hts
      intro instruction hinstruction
      rcases List.mem_cons.1 hinstruction with rfl | hinstruction
      · exact hnode
      · exact ih hinstructions hrest instruction hinstruction

theorem ofTokens_wellFormed {ts : Tokens} {program : Program} (h : ofTokens ts = .ok program)
    (hts : Tokens.Readable ts) : ∀ instruction ∈ program, instruction.value.WellFormed :=
  parseInstructions_wellFormed h hts

end Program
end VerbScript
