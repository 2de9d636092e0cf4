import VerbScript.Proofs.Syntax.Locality
import VerbScript.Script

/-!
# VerbScript.Proofs.Syntax.Denotation

Every well-formed list of nodes is a program of some text.

A value is spelled by an atom: an operator stands with its operands in a group, an argument ends with
a separator, and an instruction with `format`. Nothing that may follow can then join it, so neither
the longest run of digits nor the precedence of operators matters. Together with the soundness of
reading this gives `Script.exists_parse_iff_wellFormed`.
-/

namespace VerbScript

/-- Tokens that go on with an atom in front of them. -/
def Token.extendsAtom : Token → Bool
  | .digit _ | .unary _ => true
  | _ => false

/-- Tokens that go on with a value in front of them. -/
def Token.extendsValue : Token → Bool
  | .binary _ => true
  | t => t.extendsAtom

namespace Tokens

def EndAtom (rest : Tokens) : Prop := ∀ t ∈ rest.head?, t.value.extendsAtom = false

def EndValue (rest : Tokens) : Prop := ∀ t ∈ rest.head?, t.value.extendsValue = false

theorem EndValue.endAtom {rest : Tokens} (h : EndValue rest) : EndAtom rest := by
  intro t ht
  have := h t ht
  unfold Token.extendsValue at this
  split at this
  · cases this
  · exact this

theorem endValue_structural {t : Located Token} {word : StructuralWord}
    (h : t.value = .structural word) (rest : Tokens) : EndValue (t :: rest) := by
  simp [EndValue, h, Token.extendsValue, Token.extendsAtom]

theorem endAtom_binary {t : Located Token} {op : BinaryOperator} (h : t.value = .binary op)
    (rest : Tokens) : EndAtom (t :: rest) := by
  simp [EndAtom, h, Token.extendsAtom]

end Tokens

/-- A free name is in none of the tables. -/
theorem Meaning.ofWord_of_isName {word : String} (h : Vocabulary.isName word = true) :
    ofWord word = .token (.name word) := by
  have hname : ofWord word = .token (.name (Vocabulary.canonical word)) := by
    unfold Vocabulary.isName at h
    unfold ofWord ofCanonical
    simp_all
  rcases canonical_eq_or_keyword word with hcanonical | ⟨k, hk⟩
  · rw [hname, hcanonical]
  · cases hk.symm.trans hname

namespace Node

open Vocabulary (FreeName)

/-! ## Single steps of reading -/

theorem not_isDigit_of_endAtom {rest : Tokens} (h : Tokens.EndAtom rest) :
    ∀ t ∈ rest.head?, t.value.isDigit = false := by
  intro t ht
  have hends := h t ht
  cases hvalue : t.value with
  | digit value => rw [hvalue] at hends; cases hends
  | _ => rfl

theorem postfixes_end {rest : Tokens} (h : Tokens.EndAtom rest) (node : Node) :
    postfixes node rest = (node, rest) := by
  refine postfixes_stop fun t ht => ?_
  have hends := h t ht
  cases hvalue : t.value with
  | unary op => rw [hvalue] at hends; cases hends
  | _ => rfl

theorem climb_end {rest : Tokens} (h : Tokens.EndValue rest) (bound : Nat) (left : Node)
    (floor : Nat) (bare : Bool) (fallback : Position) :
    climb (bound + 1) left floor bare fallback rest = .ok (left, rest) := by
  refine climb_stop fun t ht op hop => ?_
  have hends := h t ht
  rw [hop] at hends
  cases hends

theorem skipFormat_of_ne {t : Located Token} (h : t.value ≠ .structural .format) (rest : Tokens) :
    skipFormat (t :: rest) = t :: rest :=
  if_neg h

theorem asValue_of_isValue {node : Node} (h : IsValue node) (place : Position) :
    asValue node place = .ok () :=
  asValue_of_not_marker h.not_marker place

/-- A value that an atom begins and operators go on with. -/
theorem parseValue_of_climb {bound : Nat} {bare : Bool} {fallback : Position}
    {ts rest₁ rest : Tokens} {first node : Node}
    (hatom : parseAtom bound bare fallback ts = .ok (first, rest₁)) (hfirst : IsValue first)
    (hclimb : climb bound first 0 bare fallback rest₁ = .ok (node, rest)) (hnode : IsValue node)
    (hrest : Tokens.EndAtom rest) :
    parseValue (bound + 2) bare fallback ts = .ok (node, skipFormat rest) := by
  simp only [parseValue, parseExpression, hatom, hclimb, bind, Except.bind, hfirst.not_marker,
    Bool.false_eq_true, ↓reduceIte, postfixes_end hrest, asValue_of_isValue hnode]

theorem parseAtom_group {bound : Nat} {zip unzip : Located Token} {ts rest : Tokens} {node : Node}
    (hzip : zip.value = .structural .zip) (hunzip : unzip.value = .structural .unzip)
    (h : parseValue bound false zip.position ts = .ok (node, unzip :: rest)) (bare : Bool)
    (fallback : Position) :
    parseAtom (bound + 1) bare fallback (zip :: ts) = .ok (postfixes node rest) := by
  simp only [parseAtom, hzip, h, bind, Except.bind, expectWord, hunzip, ↓reduceIte]

theorem parseAtom_header {bound : Nat} {use opening : Located Token} {ts rest : Tokens}
    {arguments : List Node} (huse : use.value = .structural .use)
    (hopening : opening.value = .punctuation '(')
    (h : parseArguments bound use.position ts = .ok (arguments, rest)) (bare : Bool)
    (fallback : Position) :
    parseAtom (bound + 1) bare fallback (use :: opening :: ts) =
      parseHeaderEnd use.position arguments rest := by
  simp only [parseAtom, huse, h, bind, Except.bind, expectPunctuation, hopening, ↓reduceIte]

/-! ## Values -/

/-- Readable tokens that are read as the atom `node` wherever they stand. -/
def SpellsAtom (tokens : List Token) (node : Node) : Prop :=
  (∀ t ∈ tokens, t.Readable) ∧
  ∀ (ts rest : Tokens) (bound : Nat) (bare : Bool) (fallback : Position),
    ts.map Located.value = tokens → Tokens.EndAtom rest → 4 * tokens.length ≤ bound →
      parseAtom bound bare fallback (ts ++ rest) = .ok (node, rest)

theorem freeName_readable {name : String} (h : FreeName name) : (Token.name name).Readable :=
  ⟨h.1, Meaning.ofWord_of_isName h.2⟩

theorem freeName?_of_freeName {name : String} (h : FreeName name) :
    freeName? (.name name) = some name := by
  simp [freeName?, h.2]

theorem spellsAtom_single {t : Token} {node : Node} (ht : t.Readable)
    (h : ∀ bound bare fallback place rest,
      parseAtom (bound + 1) bare fallback (⟨t, place⟩ :: rest) = .ok (node, rest)) :
    SpellsAtom [t] node := by
  refine ⟨by simpa using ht, ?_⟩
  intro ts rest bound bare fallback hts hrest hbound
  obtain ⟨⟨_, place⟩, rfl, rfl⟩ := List.map_eq_singleton_iff.1 hts
  obtain ⟨bound, rfl⟩ : ∃ b, bound = b + 1 := ⟨bound - 1, by simp at hbound; omega⟩
  exact h bound bare fallback place rest

theorem spellsAtom_variable {name : String} (h : FreeName name) :
    SpellsAtom [.structural .name, .name name, .structural .rename] (.variable name) := by
  refine ⟨by simpa [Token.Readable] using freeName_readable h, ?_⟩
  intro ts rest bound bare fallback hts hrest hbound
  simp only [List.map_eq_cons_iff, List.map_eq_nil_iff] at hts
  obtain ⟨t, _, rfl, ht, u, _, rfl, hu, v, _, rfl, hv, rfl⟩ := hts
  obtain ⟨bound, rfl⟩ : ∃ b, bound = b + 1 := ⟨bound - 1, by simp at hbound; omega⟩
  simp only [List.cons_append, List.nil_append, parseAtom, ht, parseVariable, hu,
    freeName?_of_freeName h, expectWord, hv, ↓reduceIte, bind, Except.bind]

/-- The digit word for a character of a numeral. -/
def digitToken (c : Char) : Token :=
  .digit (if c = '.' then Vocabulary.decimalPoint else c.toNat - '0'.toNat)

theorem digitToken_readable {c : Char} (h : c.isDigit = true ∨ c = '.') :
    (digitToken c).Readable := by
  simp only [digitToken, Token.Readable, Vocabulary.decimalPoint]
  split
  · exact Nat.le_refl _
  · rename_i hpoint
    have := Number.toNat_of_isDigit (h.resolve_right hpoint)
    have hzero : '0'.toNat = 48 := rfl
    omega

theorem digitChar_digitToken {c : Char} (h : c.isDigit = true ∨ c = '.') {value : Nat}
    (hvalue : digitToken c = .digit value) : digitChar value = c := by
  simp only [digitToken, Token.digit.injEq] at hvalue
  subst hvalue
  split
  · rename_i hpoint
    simp [digitChar, hpoint]
  · rename_i hpoint
    have := Number.toNat_of_isDigit (h.resolve_right hpoint)
    have hzero : '0'.toNat = 48 := rfl
    have hdigit : c.toNat - '0'.toNat ≠ Vocabulary.decimalPoint := by
      unfold Vocabulary.decimalPoint
      omega
    rw [digitChar, if_neg hdigit, Nat.add_sub_cancel' (by omega), Char.ofNat_toNat]

theorem takeDigits_digitTokens {text : List Char} (h : ∀ c ∈ text, c.isDigit = true ∨ c = '.')
    {ts rest : Tokens} (hts : ts.map Located.value = text.map digitToken)
    (hrest : Tokens.EndAtom rest) : takeDigits (ts ++ rest) = (text, rest) := by
  induction text generalizing ts with
  | nil =>
    cases List.map_eq_nil_iff.1 hts
    exact takeDigits_stop (not_isDigit_of_endAtom hrest)
  | cons c text ih =>
    obtain ⟨t, ts, rfl, ht, hts⟩ := List.map_eq_cons_iff.1 hts
    have htail := ih (fun d hd => h d (List.mem_cons_of_mem _ hd)) hts
    have hc := digitChar_digitToken (h c List.mem_cons_self) rfl
    rw [digitToken] at ht
    simp only [List.cons_append, takeDigits, ht, htail, hc]

theorem spellsAtom_number {value : Number} {text : List Char} (htext : Number.IsNumeral text)
    (h : Number.ofText? (String.ofList text) = some value) :
    SpellsAtom (text.map digitToken) (.number value) := by
  refine ⟨List.forall_mem_map.2 fun c hc => digitToken_readable (htext.chars c hc), ?_⟩
  intro ts rest bound bare fallback hts hrest hbound
  have hdigits := takeDigits_digitTokens htext.chars hts hrest
  obtain ⟨d, hd, -⟩ := htext.digit
  obtain ⟨c, text, rfl⟩ := List.exists_cons_of_ne_nil (List.ne_nil_of_mem hd)
  obtain ⟨t, ts, rfl, ht, -⟩ := List.map_eq_cons_iff.1 hts
  obtain ⟨bound, rfl⟩ : ∃ b, bound = b + 1 := ⟨bound - 1, by simp at hbound; omega⟩
  rw [List.cons_append] at hdigits
  simp only [List.cons_append, parseAtom, ht, digitToken, parseNumber, hdigits, h]

/-- An atom before a structural word is a value by itself. -/
theorem SpellsAtom.parseValue {tokens : List Token} {node : Node} (h : SpellsAtom tokens node)
    (hnode : IsValue node) {ts rest : Tokens} {t : Located Token} {word : StructuralWord}
    (hts : ts.map Located.value = tokens) (ht : t.value = .structural word) (hword : word ≠ .format)
    {bound : Nat} (hbound : 4 * tokens.length ≤ bound) (bare : Bool) (fallback : Position) :
    Node.parseValue (bound + 3) bare fallback (ts ++ t :: rest) = .ok (node, t :: rest) := by
  have hend : Tokens.EndValue (t :: rest) := Tokens.endValue_structural ht rest
  have hatom := h.2 ts (t :: rest) (bound + 1) bare fallback hts hend.endAtom (by omega)
  have hclimb := climb_end hend bound node 0 bare fallback
  have hvalue := parseValue_of_climb hatom hnode hclimb hnode hend.endAtom
  rwa [skipFormat_of_ne (by simpa [ht] using hword)] at hvalue

/-- A group of a single atom, with an operator behind it. -/
theorem SpellsAtom.unary {tokens : List Token} {node : Node} (h : SpellsAtom tokens node)
    (hnode : IsValue node) (op : UnaryOperator) :
    SpellsAtom (.structural .zip :: tokens ++ [.structural .unzip, .unary op]) (.unary op node) := by
  have hreadable := h.1
  refine ⟨by grind [Token.Readable], ?_⟩
  intro ts rest bound bare fallback hts hrest hbound
  simp only [List.cons_append, List.map_eq_cons_iff, List.map_eq_append_iff,
    List.map_eq_nil_iff] at hts
  obtain ⟨zip, _, rfl, hzip, inner, _, rfl, hinner, unzip, _, rfl, hunzip, last, _, rfl, hlast,
    rfl⟩ := hts
  simp only [List.length_cons, List.length_append, List.length_nil] at hbound
  obtain ⟨bound, rfl⟩ : ∃ b, bound = b + 4 := ⟨bound - 4, by omega⟩
  have hvalue := @SpellsAtom.parseValue _ _ h hnode inner (last :: rest) unzip _ hinner hunzip
    (by decide) bound (by omega) false zip.position
  have hgroup := parseAtom_group hzip hunzip hvalue bare fallback
  simpa [postfixes, hlast, postfixes_end hrest] using hgroup

/-- A group of two atoms, with an operator between them. -/
theorem SpellsAtom.binary {leftTokens rightTokens : List Token} {left right : Node}
    (hleft : SpellsAtom leftTokens left) (hright : SpellsAtom rightTokens right)
    (hl : IsValue left) (hr : IsValue right) (op : BinaryOperator) :
    SpellsAtom (.structural .zip :: leftTokens ++ .binary op :: rightTokens ++ [.structural .unzip])
      (.binary op left right) := by
  obtain ⟨hleftReadable, hleftReads⟩ := hleft
  obtain ⟨hrightReadable, hrightReads⟩ := hright
  refine ⟨by grind [Token.Readable], ?_⟩
  intro ts rest bound bare fallback hts hrest hbound
  simp only [List.cons_append, List.append_assoc, List.map_eq_cons_iff, List.map_eq_append_iff,
    List.map_eq_nil_iff] at hts
  obtain ⟨zip, _, rfl, hzip, tl, _, rfl, htl, t, _, rfl, ht, tr, _, rfl, htr, unzip, _, rfl,
    hunzip, rfl⟩ := hts
  simp only [List.length_cons, List.length_append, List.length_nil] at hbound
  obtain ⟨bound, rfl⟩ : ∃ b, bound = b + 5 := ⟨bound - 5, by omega⟩
  have hend : Tokens.EndValue (unzip :: rest) := Tokens.endValue_structural hunzip _
  have hatom := hleftReads tl (t :: tr ++ unzip :: rest) (bound + 2) false zip.position htl
    (Tokens.endAtom_binary ht _) (by omega)
  have hoperand := hrightReads tr (unzip :: rest) (bound + 1) false t.position htr hend.endAtom
    (by omega)
  have hfloor : ¬ op.precedence ≤ 0 := by cases op <;> decide
  have hclimb : climb (bound + 2) left 0 false zip.position (t :: tr ++ unzip :: rest) =
      .ok (.binary op left right, unzip :: rest) := by
    rw [List.cons_append, climb]
    simp only [ht, if_neg hfloor, hoperand, asValue_of_isValue hr, climb_end hend, bind, Except.bind]
  have hvalue := parseValue_of_climb hatom hl hclimb (.binary op hl hr) hend.endAtom
  rw [skipFormat_of_ne (by simp [hunzip])] at hvalue
  have hgroup := parseAtom_group hzip hunzip hvalue bare fallback
  simpa [postfixes_end hrest] using hgroup

/-! ## Function headers -/

/-- Readable tokens that are read as arguments and the closing parenthesis behind them. -/
def SpellsArguments (tokens : List Token) (nodes : List Node) : Prop :=
  (∀ t ∈ tokens, t.Readable) ∧
  ∀ (ts rest : Tokens) (bound : Nat) (start : Position),
    ts.map Located.value = tokens → 4 * tokens.length ≤ bound →
      parseArguments bound start (ts ++ rest) = .ok (nodes, rest)

theorem spellsArguments_nil : SpellsArguments [.punctuation ')'] [] := by
  refine ⟨by simp [Token.Readable], ?_⟩
  intro ts rest bound start hts hbound
  obtain ⟨t, rfl, ht⟩ := List.map_eq_singleton_iff.1 hts
  obtain ⟨bound, rfl⟩ : ∃ b, bound = b + 1 := ⟨bound - 1, by simp at hbound; omega⟩
  simp only [List.singleton_append, parseArguments, ht, ↓reduceIte]

/-- An atom starts with a token, and not with one that ends the arguments. -/
theorem SpellsAtom.head {tokens : List Token} {node : Node} (h : SpellsAtom tokens node) :
    ∃ t rest, tokens = t :: rest ∧ t ≠ .punctuation ')' := by
  have hreads := h.2 (tokens.map fun t => ⟨t, {}⟩) [] (4 * tokens.length + 1) false {}
    (by simp [Function.comp_def]) (by simp [Tokens.EndAtom]) (by omega)
  cases tokens with
  | nil => cases hreads
  | cons t rest =>
    refine ⟨t, rest, rfl, ?_⟩
    rintro rfl
    cases hreads

theorem SpellsArguments.cons {tokens more : List Token} {node : Node} {nodes : List Node}
    (h : SpellsAtom tokens node) (hnode : IsValue node) (hmore : SpellsArguments more nodes) :
    SpellsArguments (tokens ++ .structural .bring :: more) (node :: nodes) := by
  obtain ⟨first, _, hhead, hfirst⟩ := h.head
  have hreadable := h.1
  obtain ⟨hmoreReadable, hmoreReads⟩ := hmore
  refine ⟨by grind [Token.Readable], ?_⟩
  intro ts rest bound start hts hbound
  simp only [List.map_eq_cons_iff, List.map_eq_append_iff] at hts
  obtain ⟨inner, _, rfl, hinner, bring, others, rfl, hbring, hothers⟩ := hts
  simp only [List.length_cons, List.length_append] at hbound
  obtain ⟨bound, rfl⟩ : ∃ b, bound = b + 4 := ⟨bound - 4, by omega⟩
  have hvalue := @SpellsAtom.parseValue _ _ h hnode inner (others ++ rest) bring _ hinner hbring
    (by decide) bound (by omega) true start
  have hrest := hmoreReads others rest (bound + 3) start hothers (by omega)
  obtain ⟨t, inner, rfl⟩ : ∃ t rest, inner = t :: rest := by
    rw [hhead] at hinner
    obtain ⟨t, rest, rfl, -⟩ := List.map_eq_cons_iff.1 hinner
    exact ⟨t, rest, rfl⟩
  have ht : t.value ≠ .punctuation ')' := by
    rw [hhead] at hinner
    cases hinner
    exact hfirst
  simp only [List.append_assoc, List.cons_append] at hvalue ⊢
  rw [parseArguments, if_neg ht, hvalue]
  simp only [bind, Except.bind, skipSeparator, hbring, true_or, ↓reduceIte, hrest]

/-- A function header, given what its last two tokens make of the arguments. -/
theorem spellsAtom_header {name : String} {tokens : List Token} {arguments : List Node}
    {ending : StructuralWord} {node : Node} (hname : FreeName name)
    (h : SpellsArguments tokens arguments)
    (hend : ∀ start place place' rest, parseHeaderEnd start arguments
      (⟨.name name, place⟩ :: ⟨.structural ending, place'⟩ :: rest) = .ok (node, rest)) :
    SpellsAtom (.structural .use :: .punctuation '(' :: tokens ++ [.name name, .structural ending])
      node := by
  obtain ⟨hreadable, hreads⟩ := h
  have hnameReadable := freeName_readable hname
  refine ⟨by grind [Token.Readable], ?_⟩
  intro ts rest bound bare fallback hts hrest hbound
  simp only [List.cons_append, List.map_eq_cons_iff, List.map_eq_append_iff,
    List.map_eq_nil_iff] at hts
  obtain ⟨use, _, rfl, huse, opening, _, rfl, hopening, inner, _, rfl, hinner, ⟨_, place⟩, _, rfl,
    rfl, ⟨_, place'⟩, _, rfl, rfl, rfl⟩ := hts
  simp only [List.length_cons, List.length_append, List.length_nil] at hbound
  obtain ⟨bound, rfl⟩ : ∃ b, bound = b + 1 := ⟨bound - 1, by omega⟩
  have harguments := hreads inner (⟨.name name, place⟩ :: ⟨.structural ending, place'⟩ :: rest) bound
    use.position hinner (by omega)
  have hheader := parseAtom_header huse hopening harguments bare fallback
  rw [hend] at hheader
  simpa using hheader

theorem spellsAtom_call {name : String} {tokens : List Token} {arguments : List Node}
    (hname : FreeName name) (h : SpellsArguments tokens arguments) :
    SpellsAtom (.structural .use :: .punctuation '(' :: tokens ++ [.name name, .structural .call])
      (.call name arguments) := by
  refine spellsAtom_header hname h ?_
  intro start place place' rest
  simp [parseHeaderEnd, freeName?_of_freeName hname]

theorem parameters_variables (start : Position) {seen names : List String}
    (h : (seen ++ names).Nodup) :
    parameters start seen (names.map .variable) = .ok (seen ++ names) := by
  induction names generalizing seen with
  | nil => simp [parameters]
  | cons name names ih =>
    have hnew : name ∉ seen := by
      intro hmem
      exact (List.nodup_append.1 h).2.2 name hmem name List.mem_cons_self rfl
    rw [List.append_cons] at h
    rw [List.map_cons, parameters, if_neg hnew, ih h, ← List.append_cons]

theorem spellsAtom_define {name : String} {tokens : List Token} {names : List String}
    (hname : FreeName name) (hnames : names.Nodup)
    (h : SpellsArguments tokens (names.map .variable)) :
    SpellsAtom (.structural .use :: .punctuation '(' :: tokens ++ [.name name, .structural .code])
      (.define name names) := by
  refine spellsAtom_header hname h ?_
  intro start place place' rest
  have hparameters := @parameters_variables start [] names hnames
  simp [parseHeaderEnd, freeName?_of_freeName hname, hparameters, bind, Except.bind]

theorem exists_spellsArguments {nodes : List Node}
    (h : ∀ node ∈ nodes, IsValue node ∧ ∃ tokens, SpellsAtom tokens node) :
    ∃ tokens, SpellsArguments tokens nodes := by
  induction nodes with
  | nil => exact ⟨_, spellsArguments_nil⟩
  | cons node nodes ih =>
    obtain ⟨hnode, tokens, htokens⟩ := h node List.mem_cons_self
    obtain ⟨more, hmore⟩ := ih fun node hnode => h node (List.mem_cons_of_mem _ hnode)
    exact ⟨_, .cons htokens hnode hmore⟩

theorem IsValue.exists_spelling {node : Node} (h : IsValue node) :
    ∃ tokens, SpellsAtom tokens node := by
  induction h with
  | number h =>
    obtain ⟨text, htext, hvalue⟩ := h
    exact ⟨_, spellsAtom_number htext hvalue⟩
  | «variable» h => exact ⟨_, spellsAtom_variable h⟩
  | binary op hl hr ihl ihr =>
    obtain ⟨leftTokens, hleft⟩ := ihl
    obtain ⟨rightTokens, hright⟩ := ihr
    exact ⟨_, hleft.binary hright hl hr op⟩
  | unary op h ih =>
    obtain ⟨tokens, htokens⟩ := ih
    exact ⟨_, htokens.unary h op⟩
  | call hname harguments ih =>
    obtain ⟨tokens, htokens⟩ :=
      exists_spellsArguments fun node hnode => ⟨harguments node hnode, ih node hnode⟩
    exact ⟨_, spellsAtom_call hname htokens⟩
  | pop => exact ⟨[.pop], spellsAtom_single trivial fun _ _ _ _ _ => rfl⟩

theorem WellFormed.exists_spelling {node : Node} (h : WellFormed node) :
    ∃ tokens, SpellsAtom tokens node := by
  cases h with
  | keyword k => exact ⟨[.keyword k], spellsAtom_single trivial fun _ _ _ _ _ => rfl⟩
  | label => exact ⟨[.label], spellsAtom_single trivial fun _ _ _ _ _ => rfl⟩
  | define hname hparameters hdistinct =>
    rename_i name names
    have hvariables : ∀ node ∈ names.map Node.variable,
        IsValue node ∧ ∃ tokens, SpellsAtom tokens node := by
      refine List.forall_mem_map.2 fun parameter hparameter => ?_
      have hfree := hparameters parameter hparameter
      exact ⟨.variable hfree, _, spellsAtom_variable hfree⟩
    obtain ⟨tokens, htokens⟩ := exists_spellsArguments hvariables
    exact ⟨_, spellsAtom_define hname hdistinct htokens⟩
  | value h => exact h.exists_spelling

/-! ## Programs -/

theorem SpellsAtom.expression {tokens : List Token} {node : Node} (h : SpellsAtom tokens node)
    {ts rest : Tokens} (hts : ts.map Located.value = tokens ++ [.structural .format])
    (fallback : Position) : Node.expression false fallback (ts ++ rest) = .ok (node, rest) := by
  obtain ⟨inner, _, rfl, rfl, hlast⟩ := List.map_eq_append_iff.1 hts
  obtain ⟨format, rfl, hformat⟩ := List.map_eq_singleton_iff.1 hlast
  have hend : Tokens.EndValue (format :: rest) := Tokens.endValue_structural hformat _
  have hskip : skipFormat (format :: rest) = rest := if_pos hformat
  rw [List.append_assoc, List.singleton_append, Node.expression]
  obtain ⟨bound, hbound⟩ : ∃ b, depthBound (inner ++ format :: rest) = b + 2 := ⟨_, rfl⟩
  rw [hbound]
  simp only [depthBound, List.length_append, List.length_cons] at hbound
  have hatom := h.2 inner (format :: rest) (bound + 1) false fallback rfl hend.endAtom
    (by simp only [List.length_map]; omega)
  simp only [parseExpression, hatom, bind, Except.bind, climb_end hend, postfixes_end hend.endAtom,
    hskip]
  split <;> rfl

end Node

namespace Program

/-- Readable tokens that are read as the nodes, whatever their places are. -/
theorem exists_spelling {nodes : List Node} (h : ∀ node ∈ nodes, node.WellFormed) :
    ∃ tokens : List Token, (∀ t ∈ tokens, t.Readable) ∧
      ∀ ts : Tokens, ts.map Located.value = tokens → ∀ count, ts.length ≤ count →
        ∃ program, parseInstructions count ts = .ok program ∧
          program.map Located.value = nodes := by
  induction nodes with
  | nil =>
    refine ⟨[], by simp, ?_⟩
    intro ts hts count hcount
    cases List.map_eq_nil_iff.1 hts
    exact ⟨[], by cases count <;> rfl, rfl⟩
  | cons node nodes ih =>
    obtain ⟨first, hfirst⟩ := (h node List.mem_cons_self).exists_spelling
    obtain ⟨more, hmore, hreads⟩ := ih fun node hnode => h node (List.mem_cons_of_mem _ hnode)
    refine ⟨first ++ .structural .format :: more, ?_, ?_⟩
    · have := hfirst.1
      grind [Token.Readable]
    · intro ts hts count hcount
      rw [List.append_cons] at hts
      obtain ⟨front, back, rfl, hfront, hback⟩ := List.map_eq_append_iff.1 hts
      obtain ⟨t, front, rfl⟩ : ∃ t rest, front = t :: rest := by
        refine List.exists_cons_of_ne_nil ?_
        rintro rfl
        simp at hfront
      simp only [List.cons_append, List.length_cons, List.length_append] at hcount
      obtain ⟨count, rfl⟩ : ∃ c, count = c + 1 := ⟨count - 1, by omega⟩
      have hnode := @Node.SpellsAtom.expression _ _ hfirst _ back hfront t.position
      obtain ⟨program, hprogram, hvalues⟩ := hreads back hback count (by omega)
      refine ⟨⟨node, t.position⟩ :: program, ?_, by rw [List.map_cons, hvalues]⟩
      rw [List.cons_append] at hnode ⊢
      simp only [parseInstructions, hnode, hprogram, bind, Except.bind]

end Program

namespace Script

theorem parse_eq_ok_iff {source : String} {program : Program} :
    parse source = .ok program ↔
      ∃ ts, Token.ofSource source = .ok ts ∧ Program.ofTokens ts = .ok program := by
  unfold parse
  cases Token.ofSource source with
  | error e => simp
  | ok ts => cases h : Program.ofTokens ts <;> simp [h]

/-- The programs of source texts are exactly the lists of well-formed nodes. -/
theorem exists_parse_iff_wellFormed (nodes : List Node) :
    (∃ source program, parse source = .ok program ∧ program.map Located.value = nodes) ↔
      ∀ node ∈ nodes, node.WellFormed := by
  constructor
  · rintro ⟨source, program, h, rfl⟩
    obtain ⟨ts, hts, hprogram⟩ := parse_eq_ok_iff.1 h
    exact List.forall_mem_map.2
      (Program.ofTokens_wellFormed hprogram (Token.ofSource_readable hts))
  · intro h
    obtain ⟨tokens, hreadable, hreads⟩ := Program.exists_spelling h
    obtain ⟨source, ts, hts, hvalues⟩ := (Token.exists_ofSource_iff tokens).2 hreadable
    obtain ⟨program, hprogram, hnodes⟩ := hreads ts hvalues ts.length (Nat.le_refl _)
    exact ⟨source, program, parse_eq_ok_iff.2 ⟨ts, hts, hprogram⟩, hnodes⟩

end Script
end VerbScript
