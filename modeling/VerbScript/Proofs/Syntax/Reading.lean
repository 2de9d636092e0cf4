import VerbScript.Program.Parse

/-!
# VerbScript.Proofs.Syntax.Reading

Reading keeps to its tokens.

What a function that reads tokens gives back is the end of the tokens it was given, and an error is at
one of these tokens, or at the place that the caller handed on for the case that they run out
(`Parsed.Within`). For the functions that call one another this is one induction on the bound
(`Node.readsWithin`). A program therefore stands, instruction by instruction, at places of its
tokens, and so does every error of reading it (`Program.ofTokens_within`).
-/

namespace VerbScript

namespace Tokens

/-- The place is that of one of the tokens. -/
def HasPlace (ts : Tokens) (place : Position) : Prop := ∃ t ∈ ts, place = t.position

theorem HasPlace.head (t : Located Token) (ts : Tokens) : HasPlace (t :: ts) t.position :=
  ⟨t, List.mem_cons_self, rfl⟩

theorem HasPlace.of_suffix {ts rest : Tokens} {place : Position} (h : HasPlace rest place)
    (hrest : rest <:+ ts) : HasPlace ts place := by
  obtain ⟨t, ht, rfl⟩ := h
  exact ⟨t, hrest.subset ht, rfl⟩

end Tokens

/-- Reading leaves the end of the tokens, and an error is at one of them or at `fallback`. `left` is
what a result leaves. -/
def Parsed.Within {α : Type} (fallback : Position) (ts : Tokens) (left : α → Tokens) :
    Parsed α → Prop
  | .ok result => left result <:+ ts
  | .error e => e.position = fallback ∨ ts.HasPlace e.position

namespace Parsed.Within

variable {α β : Type} {fallback : Position} {ts rest : Tokens} {left : α → Tokens}
  {left' : β → Tokens} {x : Parsed α} {t : Located Token}

theorem of_suffix (h : x.Within fallback rest left) (hrest : rest <:+ ts) :
    x.Within fallback ts left := by
  cases x with
  | ok result => exact h.trans hrest
  | error e => exact h.imp_right fun hplace => hplace.of_suffix hrest

/-- What goes on after a token may hand on its place. -/
theorem of_tail (h : x.Within t.position ts left) : x.Within fallback (t :: ts) left := by
  cases x with
  | ok result => exact h.trans (List.suffix_cons t ts)
  | error e =>
    refine .inr ?_
    rcases h with h | h
    · exact h ▸ .head t ts
    · exact h.of_suffix (List.suffix_cons t ts)

theorem bind {f : α → Parsed β} (h : x.Within fallback ts left)
    (hf : ∀ result, left result <:+ ts → (f result).Within fallback ts left') :
    (x >>= f).Within fallback ts left' := by
  cases x with
  | ok result => exact hf result h
  | error e => exact h

end Parsed.Within

namespace Node

open Parsed (Within)

variable (fallback : Position) (ts : Tokens)

theorem expectWord_within (word : StructuralWord) :
    (expectWord word fallback ts).Within fallback ts id := by
  cases ts with
  | nil => exact .inl rfl
  | cons t ts =>
    simp only [expectWord]
    split
    · exact List.suffix_cons t ts
    · exact .inr (.head t ts)

theorem expectPunctuation_within (c : Char) :
    (expectPunctuation c fallback ts).Within fallback ts id := by
  cases ts with
  | nil => exact .inl rfl
  | cons t ts =>
    simp only [expectPunctuation]
    split
    · exact List.suffix_cons t ts
    · exact .inr (.head t ts)

theorem parseVariable_within : (parseVariable fallback ts).Within fallback ts Prod.snd := by
  cases ts with
  | nil => exact .inl rfl
  | cons t ts =>
    simp only [parseVariable]
    split
    · exact .inr (.head t ts)
    · have hword := (expectWord_within fallback ts .rename).of_suffix (List.suffix_cons t ts)
      exact hword.bind fun rest hrest => hrest

theorem takeDigits_suffix : (takeDigits ts).2 <:+ ts := by
  induction ts with
  | nil => exact List.suffix_refl _
  | cons t ts ih =>
    simp only [takeDigits]
    split
    · exact ih.trans (List.suffix_cons t ts)
    · exact List.suffix_refl _

theorem postfixes_suffix (node : Node) : (postfixes node ts).2 <:+ ts := by
  induction ts generalizing node with
  | nil => exact List.suffix_refl _
  | cons t ts ih =>
    simp only [postfixes]
    split
    · exact (ih _).trans (List.suffix_cons t ts)
    · exact List.suffix_refl _

theorem skipFormat_suffix : skipFormat ts <:+ ts := by
  cases ts with
  | nil => exact List.suffix_refl _
  | cons t ts =>
    simp only [skipFormat]
    split
    · exact List.suffix_cons t ts
    · exact List.suffix_refl _

theorem skipSeparator_suffix : skipSeparator ts <:+ ts := by
  cases ts with
  | nil => exact List.suffix_refl _
  | cons t ts =>
    simp only [skipSeparator]
    split
    · exact List.suffix_cons t ts
    · exact List.suffix_refl _

/-- The place that a marker is refused at is that of the next token, if there is one. -/
theorem asValue_within (node : Node) :
    (asValue node (nextPosition fallback ts)).Within fallback ts fun _ => [] := by
  unfold asValue
  split
  · cases ts with
    | nil => exact .inl rfl
    | cons t ts => exact .inr (.head t ts)
  · exact List.nil_suffix

theorem parameters_within (seen : List String) (nodes : List Node) :
    (parameters fallback seen nodes).Within fallback ts fun _ => [] := by
  induction nodes generalizing seen with
  | nil => exact List.nil_suffix
  | cons node nodes ih =>
    cases node with
    | «variable» name =>
      simp only [parameters]
      split
      · exact .inl rfl
      · exact ih _
    | _ => exact .inl rfl

theorem parseHeaderEnd_within (nodes : List Node) :
    (parseHeaderEnd fallback nodes ts).Within fallback ts Prod.snd := by
  cases ts with
  | nil => exact .inl rfl
  | cons t ts =>
    simp only [parseHeaderEnd]
    split
    · exact .inl rfl
    · cases ts with
      | nil => exact .inl rfl
      | cons ending ts =>
        have hrest : ts <:+ t :: ending :: ts := ⟨[t, ending], rfl⟩
        simp only
        split
        · exact (parameters_within fallback _ [] nodes).bind fun names _ => hrest
        · exact hrest
        · exact .inl rfl

/-- The functions that call one another keep to their tokens. -/
structure ReadsWithin (bound : Nat) : Prop where
  atom (bare : Bool) (fallback : Position) (ts : Tokens) :
    (parseAtom bound bare fallback ts).Within fallback ts Prod.snd
  climb (left : Node) (floor : Nat) (bare : Bool) (fallback : Position) (ts : Tokens) :
    (climb bound left floor bare fallback ts).Within fallback ts Prod.snd
  expression (bare : Bool) (fallback : Position) (ts : Tokens) :
    (parseExpression bound bare fallback ts).Within fallback ts Prod.snd
  value (bare : Bool) (fallback : Position) (ts : Tokens) :
    (parseValue bound bare fallback ts).Within fallback ts Prod.snd
  arguments (start : Position) (ts : Tokens) :
    (parseArguments bound start ts).Within start ts Prod.snd

namespace ReadsWithin

variable {bound : Nat} (ih : ReadsWithin bound) (bare : Bool)
include ih

/-- An atom takes its first token, and an error in it is at that token or behind it. -/
theorem atom_cons (t : Located Token) :
    (parseAtom (bound + 1) bare fallback (t :: ts)).Within t.position ts Prod.snd := by
  simp only [parseAtom]
  split
  · refine (ih.value false t.position ts).bind ?_
    rintro ⟨inner, rest⟩ hrest
    refine ((expectWord_within t.position rest .unzip).of_suffix hrest).bind fun rest' hrest' => ?_
    exact (postfixes_suffix rest' inner).trans hrest'
  · refine (expectPunctuation_within t.position ts '(').bind fun rest hrest => ?_
    refine ((ih.arguments t.position rest).of_suffix hrest).bind ?_
    rintro ⟨nodes, rest'⟩ hrest'
    exact (parseHeaderEnd_within t.position rest' nodes).of_suffix hrest'
  · exact parseVariable_within t.position ts
  · rename_i value hvalue
    simp only [parseNumber, takeDigits, hvalue]
    split
    · exact takeDigits_suffix ts
    · exact .inl rfl
  · exact List.suffix_refl ts
  · exact List.suffix_refl ts
  · exact List.suffix_refl ts
  · split
    · exact .inl rfl
    · split
      · exact List.suffix_refl ts
      · exact .inl rfl
  · exact .inl rfl

theorem atom_succ : (parseAtom (bound + 1) bare fallback ts).Within fallback ts Prod.snd := by
  cases ts with
  | nil => exact .inl rfl
  | cons t ts => exact (ih.atom_cons fallback ts bare t).of_tail

theorem climb_succ (left : Node) (floor : Nat) :
    (Node.climb (bound + 1) left floor bare fallback ts).Within fallback ts Prod.snd := by
  cases ts with
  | nil => exact List.suffix_refl _
  | cons t ts =>
    simp only [Node.climb]
    split
    · rename_i op _
      split
      · exact List.suffix_refl _
      · refine (ih.atom bare t.position ts).of_tail.bind ?_
        rintro ⟨operand, rest⟩ hrest
        refine (asValue_within t.position ts operand).of_tail.bind fun _ _ => ?_
        refine ((ih.climb operand op.precedence bare fallback rest).of_suffix hrest).bind ?_
        rintro ⟨right, rest'⟩ hrest'
        exact (ih.climb (.binary op left right) floor bare fallback rest').of_suffix hrest'
    · exact List.suffix_refl _

theorem expression_succ :
    (parseExpression (bound + 1) bare fallback ts).Within fallback ts Prod.snd := by
  simp only [parseExpression]
  refine (ih.atom bare fallback ts).bind ?_
  rintro ⟨atom, rest⟩ hrest
  simp only
  split
  · exact (skipFormat_suffix rest).trans hrest
  · refine ((ih.climb atom 0 bare fallback rest).of_suffix hrest).bind ?_
    rintro ⟨node, rest'⟩ hrest'
    exact ((skipFormat_suffix _).trans (postfixes_suffix rest' node)).trans hrest'

theorem value_succ : (parseValue (bound + 1) bare fallback ts).Within fallback ts Prod.snd := by
  simp only [parseValue]
  refine (ih.expression bare fallback ts).bind ?_
  rintro ⟨node, rest⟩ hrest
  exact (asValue_within fallback ts node).bind fun _ _ => hrest

omit bare in
theorem arguments_succ : (parseArguments (bound + 1) fallback ts).Within fallback ts Prod.snd := by
  cases ts with
  | nil => exact .inl rfl
  | cons t ts =>
    simp only [parseArguments]
    split
    · exact List.suffix_cons t ts
    · refine (ih.value true fallback (t :: ts)).bind ?_
      rintro ⟨argument, rest⟩ hrest
      refine ((ih.arguments fallback (skipSeparator rest)).of_suffix
        ((skipSeparator_suffix rest).trans hrest)).bind ?_
      rintro ⟨arguments, rest'⟩ hrest'
      exact hrest'

end ReadsWithin

theorem readsWithin (bound : Nat) : ReadsWithin bound := by
  induction bound with
  | zero =>
    exact ⟨fun _ _ _ => .inl rfl, fun _ _ _ _ _ => .inl rfl, fun _ _ _ => .inl rfl,
      fun _ _ _ => .inl rfl, fun _ _ => .inl rfl⟩
  | succ bound ih =>
    exact ⟨fun bare fallback ts => ih.atom_succ fallback ts bare,
      fun left floor bare fallback ts => ih.climb_succ fallback ts bare left floor,
      fun bare fallback ts => ih.expression_succ fallback ts bare,
      fun bare fallback ts => ih.value_succ fallback ts bare,
      fun start ts => ih.arguments_succ start ts⟩

/-! What reading leaves is the end of the tokens. -/

section

variable {bound : Nat} {bare : Bool} {fallback : Position} {ts rest : Tokens} {node : Node}

theorem parseAtom_suffix (h : parseAtom bound bare fallback ts = .ok (node, rest)) :
    rest <:+ ts := by
  have hwithin := (readsWithin bound).atom bare fallback ts
  rwa [h] at hwithin

theorem climb_suffix {left : Node} {floor : Nat}
    (h : climb bound left floor bare fallback ts = .ok (node, rest)) : rest <:+ ts := by
  have hwithin := (readsWithin bound).climb left floor bare fallback ts
  rwa [h] at hwithin

theorem parseExpression_suffix (h : parseExpression bound bare fallback ts = .ok (node, rest)) :
    rest <:+ ts := by
  have hwithin := (readsWithin bound).expression bare fallback ts
  rwa [h] at hwithin

theorem parseAtom_consumes {t : Located Token}
    (h : parseAtom bound bare fallback (t :: ts) = .ok (node, rest)) : rest <:+ ts := by
  cases bound with
  | zero => cases h
  | succ bound =>
    have hwithin := (readsWithin bound).atom_cons fallback ts bare t
    rwa [h] at hwithin

end

end Node

namespace Program

/-- Every instruction of the program that is read is at one of the tokens, and so is an error. -/
def Within (ts : Tokens) : Parsed Program → Prop
  | .ok p => ∀ instruction ∈ p, ts.HasPlace instruction.position
  | .error e => ts.HasPlace e.position

theorem parseInstructions_within (count : Nat) (ts : Tokens) :
    Within ts (parseInstructions count ts) := by
  induction count generalizing ts with
  | zero =>
    cases ts with
    | nil => simp [parseInstructions, Within]
    | cons t ts => exact .head t ts
  | succ count ih =>
    cases ts with
    | nil => simp [parseInstructions, Within]
    | cons t ts =>
      have hnode := (Node.readsWithin (Node.depthBound (t :: ts))).expression false t.position (t :: ts)
      simp only [parseInstructions, Node.expression]
      cases hresult : Node.parseExpression (Node.depthBound (t :: ts)) false t.position (t :: ts) with
      | error e =>
        rw [hresult] at hnode
        exact hnode.elim (fun h => h ▸ .head t ts) id
      | ok result =>
        rw [hresult] at hnode
        have hrest := ih result.2
        simp only [bind, Except.bind]
        cases hmore : parseInstructions count result.2 with
        | error e =>
          rw [hmore] at hrest
          exact hrest.of_suffix hnode
        | ok instructions =>
          rw [hmore] at hrest
          intro instruction hinstruction
          rcases List.mem_cons.1 hinstruction with rfl | hinstruction
          · exact .head t ts
          · exact (hrest instruction hinstruction).of_suffix hnode

theorem ofTokens_within (ts : Tokens) : Within ts (ofTokens ts) :=
  parseInstructions_within ts.length ts

end Program
end VerbScript
