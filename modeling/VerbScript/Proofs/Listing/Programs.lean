import VerbScript.Proofs.Listing.Values
import VerbScript.Script

/-!
# VerbScript.Proofs.Listing.Programs

The listing of a program determines the program, if no name could be taken for something else.

An instruction is known from what its line ends with (`Node.WellFormed.legible`), its place from the
columns before that (`Program.line_legible`), and a program line by line
(`Script.listing_injective`).
-/

namespace VerbScript

/-! ## Instructions -/

namespace Shape

/-- The word in front of the header of a definition. No value has a blank behind its first word. -/
def defineMark : List Char := "define ".toList

/-- What an instruction shows at the beginning of a text. -/
def ofInstruction (text : List Char) : Shape :=
  if defineMark <+: text then .define else ofText text

theorem stops_newline (rest : List Char) : Stops ('\n' :: rest) := stops_cons rfl (by decide) rest

theorem Begins.not_define {shape : Shape} {text : List Char} (h : Begins shape text)
    (rest : List Char) : ¬ defineMark <+: text ++ '\n' :: rest := by
  rintro ⟨behind, htext⟩
  have hdefine : ∀ c ∈ "define".toList, isMark c = true := List.all_eq_true.1 rfl
  have hmark : defineMark ++ behind = "define".toList ++ ' ' :: behind := rfl
  rw [hmark] at htext
  cases h with
  | word _ hword =>
    obtain ⟨-, hrest⟩ := Text.run_append_injective hdefine hword (stops_blank _).ends
      (stops_newline _).ends htext
    exact absurd (List.cons.inj hrest).1 (by decide)
  | head hword =>
    rw [List.append_assoc] at htext
    obtain ⟨-, hrest⟩ := Text.run_append_injective hdefine hword (stops_blank _).ends
      (ends_opening _) htext
    exact absurd (List.cons.inj hrest).1 (by decide)

theorem Begins.ofInstruction_eq {shape : Shape} {text : List Char} (h : Begins shape text)
    (rest : List Char) : ofInstruction (text ++ '\n' :: rest) = shape := by
  rw [ofInstruction, if_neg (h.not_define rest), h.ofText_eq (stops_newline rest)]

end Shape

namespace Node

open Shape

variable {node other : Node} {rest rest' : List Char}

theorem WellFormed.ofInstruction_eq (h : WellFormed node) (hclear : node.Clear)
    (rest : List Char) : ofInstruction (node.chars ++ '\n' :: rest) = node.shape := by
  cases h with
  | keyword k =>
    have hbegins : Begins (.keyword k) k.word.toList := by
      cases k <;> exact .word (by decide) (List.all_eq_true.1 rfl) rfl
    exact hbegins.ofInstruction_eq rest
  | label =>
    have hbegins : Begins .label Vocabulary.labelWord.toList :=
      .word (by decide) (List.all_eq_true.1 rfl) rfl
    exact hbegins.ofInstruction_eq rest
  | @define name parameters =>
    have hdefine : defineMark <+: (Node.define name parameters).chars ++ '\n' :: rest := by
      rw [chars_define, List.append_assoc]
      exact List.prefix_append _ _
    exact if_pos hdefine
  | value h => exact (h.begins hclear).ofInstruction_eq rest

theorem isMarker_eq_of_shape_eq (h : node.shape = other.shape) : node.isMarker = other.isMarker := by
  cases node <;> cases other <;> cases h <;> rfl

/-- The header of a definition is a call of parameters. -/
theorem isValue_header {name : String} {parameters : List String}
    (h : WellFormed (.define name parameters)) :
    IsValue (.call name (parameters.map .variable)) := by
  cases h with
  | define hname hparameters =>
    refine .call hname fun argument hargument => ?_
    obtain ⟨parameter, hparameter, rfl⟩ := List.mem_map.1 hargument
    exact .variable (hparameters parameter hparameter)
  | value h => cases h

theorem namesOf_variables (parameters : List String) :
    namesOf (parameters.map .variable) = parameters := by
  induction parameters with
  | nil => rfl
  | cons parameter parameters ih =>
    rw [List.map_cons, namesOf, ih]
    rfl

theorem clear_header {name : String} {parameters : List String}
    (h : (Node.define name parameters).Clear) :
    (Node.call name (parameters.map .variable)).Clear := by
  rw [Clear, names, namesOf_variables]
  exact h

/-- An instruction without confusable names is known from any text that begins with it and a line
feed. -/
theorem WellFormed.legible (h : WellFormed node) (hclear : node.Clear) (hother : WellFormed other)
    (hclear' : other.Clear) (htext : node.chars ++ '\n' :: rest = other.chars ++ '\n' :: rest') :
    node = other ∧ rest = rest' := by
  have hshape : node.shape = other.shape := by
    rw [← h.ofInstruction_eq hclear rest, htext, hother.ofInstruction_eq hclear']
  by_cases hmarker : node.isMarker = true
  · -- A keyword and a label are known from their shape alone, and a header is read as a call.
    cases h with
    | keyword | label =>
      cases other <;> cases hshape
      exact ⟨rfl, (List.cons.inj (List.append_cancel_left htext)).2⟩
    | define hname hparameters hdistinct =>
      have h := WellFormed.define hname hparameters hdistinct
      cases other <;> cases hshape
      rw [chars_define, chars_define, List.append_assoc, List.append_assoc] at htext
      obtain ⟨hheader, hrests⟩ := (isValue_header h).legible (clear_header hclear)
        (isValue_header hother) (clear_header hclear') (stops_newline _) (stops_newline _)
        (List.append_cancel_left htext)
      injection hheader with hname hparameters
      have hvariable : Function.Injective Node.variable := fun _ _ h => by cases h; rfl
      exact ⟨by rw [hname, hvariable.list_map hparameters], (List.cons.inj hrests).2⟩
    | value h => rw [h.not_marker] at hmarker; cases hmarker
  · have hmarker : node.isMarker = false := Bool.eq_false_of_not_eq_true hmarker
    have hmarker' := isMarker_eq_of_shape_eq hshape ▸ hmarker
    obtain ⟨rfl, hrests⟩ := (h.isValue hmarker).legible hclear (hother.isValue hmarker') hclear'
      (stops_newline _) (stops_newline _) htext
    exact ⟨rfl, (List.cons.inj hrests).2⟩

end Node

/-! ## Lines -/

namespace Program

theorem toList_toString (n : Nat) : (toString n).toList = Nat.toDigits 10 n := Nat.toList_repr

/-- A number is known from its digits. -/
theorem toDigits_injective : Function.Injective (Nat.toDigits 10) := by
  intro n n' h
  rw [← Decimal.ofDigits_toDigits n, h, Decimal.ofDigits_toDigits]

theorem digit_ne {c d : Char} (hc : c.isDigit = true) (hd : d.isDigit = false) : c ≠ d := by
  rintro rfl
  rw [hc] at hd
  cases hd

/-- A number at the right end of a column is known if a colon follows. -/
theorem padLeft_legible {width n n' : Nat} {rest rest' : List Char}
    (htext : (padLeft width (toString n)).toList ++ ':' :: rest =
      (padLeft width (toString n')).toList ++ ':' :: rest') : n = n' ∧ rest = rest' := by
  have hcolumn : ∀ m : Nat, ∀ c ∈ (padLeft width (toString m)).toList, decide (c ≠ ':') = true := by
    intro m c hc
    rw [padLeft, String.toList_append, String.toList_ofList, toList_toString, List.mem_append] at hc
    refine decide_eq_true ?_
    rcases hc with hc | hc
    · rw [List.eq_of_mem_replicate hc]
      decide
    · exact digit_ne (Decimal.isDigit_of_mem_toDigits c hc) rfl
  have hblanks : ∀ k, ∀ c ∈ List.replicate k ' ', decide (c = ' ') = true := fun k c hc =>
    decide_eq_true (List.eq_of_mem_replicate hc)
  have hdigits : ∀ m, Text.Ends (fun c => decide (c = ' ')) (Nat.toDigits 10 m) := fun m c hc =>
    decide_eq_false (digit_ne (Decimal.isDigit_of_mem_toDigits c (List.mem_of_mem_head? hc)) rfl)
  obtain ⟨hcolumns, hrest⟩ := Text.run_append_injective (hcolumn n) (hcolumn n')
    (Text.ends_cons rfl _) (Text.ends_cons rfl _) htext
  simp only [padLeft, String.toList_append, String.toList_ofList, toList_toString] at hcolumns
  obtain ⟨-, hnumbers⟩ := Text.run_append_injective (hblanks _) (hblanks _) (hdigits n) (hdigits n')
    hcolumns
  exact ⟨toDigits_injective hnumbers, (List.cons.inj hrest).2⟩

/-- A number at the left end of a column is known if a blank follows. -/
theorem padRight_legible {width n n' : Nat} {rest rest' : List Char}
    (htext : (padRight width (toString n)).toList ++ ' ' :: rest =
      (padRight width (toString n')).toList ++ ' ' :: rest') : n = n' ∧ rest = rest' := by
  have hblanks : ∀ k behind, Text.Ends Char.isDigit (List.replicate k ' ' ++ ' ' :: behind) := by
    intro k behind
    cases k with
    | zero => exact Text.ends_cons rfl _
    | succ k => exact Text.ends_cons rfl _
  simp only [padRight, String.toList_append, String.toList_ofList, toList_toString,
    List.append_assoc] at htext
  obtain ⟨hnumbers, hcolumns⟩ := Text.run_append_injective Decimal.isDigit_of_mem_toDigits
    Decimal.isDigit_of_mem_toDigits (hblanks _ _) (hblanks _ _) htext
  obtain rfl := toDigits_injective hnumbers
  exact ⟨rfl, (List.cons.inj (List.append_cancel_left hcolumns)).2⟩

/-- No name in the program could be taken for something else. -/
def Clear (p : Program) : Prop := ∀ instruction ∈ p, instruction.value.Clear

theorem toList_line (i : Nat) (instruction : Located Node) :
    (line i instruction).toList =
      (padLeft 4 (toString i)).toList ++ ' ' :: ' ' ::
        ((padLeft 4 (toString instruction.position.line)).toList ++ ':' ::
          ((padRight 3 (toString instruction.position.column)).toList ++ ' ' ::
            (instruction.value.chars ++ ['\n']))) := by
  simp [line, Node.chars]

/-- A line is known from any text that begins with it. -/
theorem line_legible {i : Nat} {a b : Located Node} {rest rest' : List Char}
    (ha : a.value.WellFormed) (hb : b.value.WellFormed) (hclear : a.value.Clear)
    (hclear' : b.value.Clear) (htext : (line i a).toList ++ rest = (line i b).toList ++ rest') :
    a = b ∧ rest = rest' := by
  rw [toList_line, toList_line, List.append_assoc, List.append_assoc] at htext
  have hplace := List.append_cancel_left htext
  simp only [List.cons_append, List.append_assoc, List.nil_append, List.cons.injEq,
    true_and] at hplace
  obtain ⟨hline, hcolumns⟩ := padLeft_legible hplace
  obtain ⟨hcolumn, hnodes⟩ := padRight_legible hcolumns
  obtain ⟨hnode, hrests⟩ := ha.legible hclear hb hclear' hnodes
  obtain ⟨_, _, _⟩ := a
  obtain ⟨_, _, _⟩ := b
  simp only at hline hcolumn hnode
  rw [hline, hcolumn, hnode]
  exact ⟨rfl, hrests⟩

/-- Lines that are known one by one are known together. -/
theorem join_mapIdx_injective {α : Type} {f : Nat → α → String} {l l' : List α}
    (hne : ∀ i a, f i a ≠ "")
    (h : ∀ i, ∀ a ∈ l, ∀ b ∈ l', ∀ rest rest', (f i a).toList ++ rest = (f i b).toList ++ rest' →
      a = b ∧ rest = rest')
    (htext : String.join (l.mapIdx f) = String.join (l'.mapIdx f)) : l = l' := by
  induction l generalizing f l' with
  | nil =>
    cases l' with
    | nil => rfl
    | cons b l' =>
      rw [List.mapIdx_cons, String.join_cons] at htext
      exact absurd (String.append_eq_empty_iff.1 htext.symm).1 (hne 0 b)
  | cons a l ih =>
    cases l' with
    | nil =>
      rw [List.mapIdx_cons, String.join_cons] at htext
      exact absurd (String.append_eq_empty_iff.1 htext).1 (hne 0 a)
    | cons b l' =>
      rw [List.mapIdx_cons, List.mapIdx_cons, String.join_cons, String.join_cons,
        ← String.toList_inj, String.toList_append, String.toList_append] at htext
      obtain ⟨rfl, hrest⟩ := h 0 a List.mem_cons_self b List.mem_cons_self _ _ htext
      have hbehind : l = l' := by
        refine ih (fun i => hne (i + 1)) (fun i c hc d hd => ?_) (String.toList_inj.1 hrest)
        exact h (i + 1) c (List.mem_cons_of_mem _ hc) d (List.mem_cons_of_mem _ hd)
      rw [hbehind]

theorem line_ne_empty (i : Nat) (instruction : Located Node) : line i instruction ≠ "" := by
  intro hempty
  have hchars := toList_line i instruction
  rw [hempty] at hchars
  simp at hchars

end Program

namespace Script

theorem wellFormed_of_parse {source : String} {p : Program} (h : parse source = .ok p) :
    ∀ instruction ∈ p, instruction.value.WellFormed := by
  obtain ⟨ts, hts, hprogram⟩ := parse_eq_ok_iff.1 h
  exact Program.ofTokens_wellFormed hprogram (Token.ofSource_readable hts)

/-- The listing determines the program: nodes and places. Names could be in the way only if they
consist of digits, or are `inf` or `return`. -/
theorem listing_injective {source source' : String} {p p' : Program}
    (hp : parse source = .ok p) (hp' : parse source' = .ok p') (hclear : p.Clear)
    (hclear' : p'.Clear) (h : p.listing = p'.listing) : p = p' := by
  refine Program.join_mapIdx_injective Program.line_ne_empty ?_ h
  intro i a ha b hb rest rest' hlines
  exact Program.line_legible (wellFormed_of_parse hp a ha) (wellFormed_of_parse hp' b hb)
    (hclear a ha) (hclear' b hb) hlines

/-- A program that two texts spell, one of them with a word that means nothing. -/
def givesBackLocal : Program := [⟨.unary .giveBack (.variable "a"), ⟨1, 1⟩⟩]

theorem parse_givesBackLocal : parse "name a rename unlock" = .ok givesBackLocal := by
  cbv

theorem parse_givesBackLocal_filler : parse "name a rename unlock it" = .ok givesBackLocal := by
  cbv

theorem listing_injective_givesBackLocal : ∃ p p',
    parse "name a rename unlock" = .ok p ∧ parse "name a rename unlock it" = .ok p' ∧ p.Clear ∧
      p'.Clear ∧ p.listing = p'.listing ∧ p = p' := by
  have hclear : givesBackLocal.Clear := by
    simp [givesBackLocal, Program.Clear, Node.Clear, Node.names, Vocabulary.Confusable]
  refine ⟨_, _, parse_givesBackLocal, parse_givesBackLocal_filler, hclear, hclear, rfl, ?_⟩
  exact listing_injective parse_givesBackLocal parse_givesBackLocal_filler hclear hclear rfl

/-- A variable may have a name that a listing shows as it shows a number. -/
example : (parse "name 1 rename").toOption.map Program.listing =
    (parse "click").toOption.map Program.listing := by
  decide +kernel

end Script
end VerbScript
