import VerbScript.Proofs.Syntax.Completion

/-!
# VerbScript.Proofs.Syntax.Groups

A group around an expression changes nothing, except that its names are refused.

In an argument list a bare name is a variable. Wherever bare names are not accepted, reading does the
same or stops at one of them (`Parsed.OrBareName`): the flag reaches the operands of an expression but
neither its groups nor its argument lists. What a group begins is read without bare names, also in an
argument list. So an expression in a group is the same node, or the error at a bare name that stood in
the expression (`Node.valueExpression_group`), which is not what an argument list promises
(`Node.group_refuses_bareName`).
-/

namespace VerbScript

/-- `strict` is what `lenient` is, or it stops at a bare name among the tokens. -/
def Parsed.OrBareName {α : Type} (ts : Tokens) (lenient strict : Parsed α) : Prop :=
  strict = lenient ∨ ∃ t ∈ ts, ∃ word, t.value = .name word ∧
    strict = .error ⟨.bareName word, t.position⟩

namespace Parsed.OrBareName

variable {α β : Type} {ts rest : Tokens} {lenient strict : Parsed α}

theorem of_suffix (h : OrBareName rest lenient strict) (hrest : rest <:+ ts) :
    OrBareName ts lenient strict := by
  rcases h with h | ⟨t, ht, h⟩
  · exact .inl h
  · exact .inr ⟨t, hrest.subset ht, h⟩

theorem bind {f g : α → Parsed β} (h : OrBareName ts lenient strict)
    (hf : ∀ a, lenient = .ok a → OrBareName ts (f a) (g a)) :
    OrBareName ts (lenient >>= f) (strict >>= g) := by
  rcases h with rfl | ⟨t, ht, word, hword, rfl⟩
  · cases hstrict : strict with
    | error e => exact .inl rfl
    | ok a => exact hf a hstrict
  · exact .inr ⟨t, ht, word, hword, rfl⟩

end Parsed.OrBareName

namespace Node

open Parsed (OrBareName)

/-! ## Reading without bare names -/

theorem parseAtom_orBareName (bound : Nat) (fallback : Position) (ts : Tokens) :
    OrBareName ts (parseAtom bound true fallback ts) (parseAtom bound false fallback ts) := by
  cases bound with
  | zero => exact .inl rfl
  | succ bound =>
    cases ts with
    | nil => exact .inl rfl
    | cons t ts =>
      simp only [parseAtom]
      split
      case h_8 word hword =>
        split
        · exact .inl rfl
        · exact .inr ⟨t, List.mem_cons_self, word, hword, rfl⟩
      all_goals exact .inl rfl

theorem climb_orBareName (bound : Nat) (left : Node) (floor : Nat) (fallback : Position)
    (ts : Tokens) :
    OrBareName ts (climb bound left floor true fallback ts)
      (climb bound left floor false fallback ts) := by
  induction bound generalizing left floor ts with
  | zero => exact .inl rfl
  | succ bound ih =>
    cases ts with
    | nil => exact .inl rfl
    | cons t ts =>
      simp only [climb]
      split
      · rename_i op _
        split
        · exact .inl rfl
        · have hatom := (parseAtom_orBareName bound t.position ts).of_suffix (List.suffix_cons t ts)
          refine hatom.bind ?_
          rintro ⟨operand, rest₁⟩ hoperand
          have hsuffix₁ := (parseAtom_suffix hoperand).trans (List.suffix_cons t ts)
          refine OrBareName.bind (.inl rfl) fun _ _ => ?_
          refine ((ih operand op.precedence rest₁).of_suffix hsuffix₁).bind ?_
          rintro ⟨right, rest₂⟩ hright
          exact (ih _ floor rest₂).of_suffix ((climb_suffix hright).trans hsuffix₁)
      · exact .inl rfl

theorem parseExpression_orBareName (bound : Nat) (fallback : Position) (ts : Tokens) :
    OrBareName ts (parseExpression bound true fallback ts)
      (parseExpression bound false fallback ts) := by
  cases bound with
  | zero => exact .inl rfl
  | succ bound =>
    simp only [parseExpression]
    refine (parseAtom_orBareName bound fallback ts).bind ?_
    rintro ⟨first, rest⟩ hfirst
    dsimp only
    split
    · exact .inl rfl
    · have hclimb := (climb_orBareName bound first 0 fallback rest).of_suffix (parseAtom_suffix hfirst)
      exact hclimb.bind fun _ _ => .inl rfl

theorem parseValue_orBareName (bound : Nat) (fallback : Position) (ts : Tokens) :
    OrBareName ts (parseValue bound true fallback ts) (parseValue bound false fallback ts) := by
  cases bound with
  | zero => exact .inl rfl
  | succ bound =>
    simp only [parseValue]
    exact (parseExpression_orBareName bound fallback ts).bind fun _ _ => .inl rfl

/-! ## Groups -/

theorem depthBound_group (opening closing : Located Token) (ts : Tokens) :
    depthBound (opening :: (ts ++ [closing])) = depthBound ts + 8 := by
  simp only [depthBound, List.length_cons, List.length_append, List.length_nil]
  omega

section

variable {opening closing : Located Token} (hopening : opening.value = .structural .zip)
  (hclosing : closing.value = .structural .unzip) {fallback : Position} {ts : Tokens} {node : Node}
include hopening hclosing

/-- A value that is read without bare names is read in a group. -/
theorem valueExpression_group_ok (h : valueExpression false fallback ts = .ok (node, []))
    (bare : Bool) (fallback' : Position) :
    valueExpression bare fallback' (opening :: (ts ++ [closing])) = .ok (node, []) := by
  have hnode := not_marker_of_parseValue h
  have hinner := (readsLocally _).value h
    (fun _ => parted_structural hclosing (by decide) ts []) (Nat.le_add_right _ 5) opening.position
  have hgroup := parseAtom_group hopening hclosing hinner bare fallback'
  have hexpression := parseExpression_atom hgroup hnode Tokens.endExpression_nil
  simp only [valueExpression, depthBound_group, parseValue, hexpression, bind, Except.bind,
    asValue_of_not_marker hnode]

omit hclosing in
/-- A bare name that a value cannot be read with is refused in a group. -/
theorem valueExpression_group_error {word : String} {place : Position}
    (h : valueExpression false fallback ts = .error ⟨.bareName word, place⟩) (bare : Bool)
    (fallback' : Position) :
    valueExpression bare fallback' (opening :: (ts ++ [closing])) =
      .error ⟨.bareName word, place⟩ := by
  have hfinal : Tokens.Final ts ⟨.bareName word, place⟩ := by
    refine ⟨by simp, ?_⟩
    rintro ⟨_, _, _, -, -, -, he⟩
    cases he
  have hinner := (readsFinally _).value h hfinal [closing] (Nat.le_add_right _ 5) opening.position
  have hgroup : parseAtom (depthBound ts + 6) bare fallback' (opening :: (ts ++ [closing])) =
      .error ⟨.bareName word, place⟩ := by
    simp only [parseAtom, hopening, hinner, bind, Except.bind]
  have hexpression : parseExpression (depthBound ts + 7) bare fallback'
      (opening :: (ts ++ [closing])) = .error ⟨.bareName word, place⟩ := by
    simp only [parseExpression, hgroup, bind, Except.bind]
  simp only [valueExpression, depthBound_group, parseValue, hexpression, bind, Except.bind]

end

/-- A group around a value is the same value if that has no bare names outside of the groups and
argument lists in it, and otherwise an error at one of these names. -/
theorem valueExpression_group {bare : Bool} {fallback : Position} {ts : Tokens} {node : Node}
    (h : valueExpression bare fallback ts = .ok (node, [])) {opening closing : Located Token}
    (hopening : opening.value = .structural .zip) (hclosing : closing.value = .structural .unzip) :
    (valueExpression false fallback ts = .ok (node, []) ∧
      ∀ bare' fallback',
        valueExpression bare' fallback' (opening :: (ts ++ [closing])) = .ok (node, [])) ∨
    (bare = true ∧ ∃ t ∈ ts, ∃ word, t.value = .name word ∧
      valueExpression false fallback ts = .error ⟨.bareName word, t.position⟩ ∧
      ∀ bare' fallback', valueExpression bare' fallback' (opening :: (ts ++ [closing])) =
        .error ⟨.bareName word, t.position⟩) := by
  cases bare with
  | false => exact .inl ⟨h, valueExpression_group_ok hopening hclosing h⟩
  | true =>
    rcases parseValue_orBareName (depthBound ts) fallback ts with hsame | ⟨t, ht, word, hword, herror⟩
    · have hstrict : valueExpression false fallback ts = .ok (node, []) := hsame.trans h
      exact .inl ⟨hstrict, valueExpression_group_ok hopening hclosing hstrict⟩
    · exact .inr ⟨rfl, t, ht, word, hword, herror,
        valueExpression_group_error hopening herror⟩

/-- A name in an argument list, and a call of which it is an argument. -/
theorem valueExpression_group_nameAndCall :
    let zip : Located Token := ⟨.structural .zip, ⟨1, 5⟩⟩
    let unzip : Located Token := ⟨.structural .unzip, ⟨1, 9⟩⟩
    let name : Tokens := [⟨.name "x", ⟨1, 7⟩⟩]
    let call : Tokens := [⟨.structural .use, {}⟩, ⟨.punctuation '(', {}⟩, ⟨.name "x", {}⟩,
      ⟨.punctuation ')', {}⟩, ⟨.name "f", {}⟩, ⟨.structural .call, {}⟩]
    valueExpression true {} name = .ok (.variable "x", []) ∧
      valueExpression true {} (zip :: (name ++ [unzip])) = .error ⟨.bareName "x", ⟨1, 7⟩⟩ ∧
      valueExpression true {} call = .ok (.call "f" [.variable "x"], []) ∧
      valueExpression true {} (zip :: (call ++ [unzip])) = .ok (.call "f" [.variable "x"], []) := by
  intro zip unzip name call
  have hname : valueExpression true {} name = .ok (.variable "x", []) := by rfl
  have hcall : valueExpression true {} call = .ok (.call "f" [.variable "x"], []) := by rfl
  have hstrict : valueExpression false {} name = .error ⟨.bareName "x", ⟨1, 7⟩⟩ := by rfl
  refine ⟨hname, ?_, hcall, ?_⟩
  · rcases @valueExpression_group _ _ _ _ hname zip unzip rfl rfl with
      ⟨hok, -⟩ | ⟨-, t, -, word, -, herror, hgroup⟩
    · rw [hstrict] at hok
      cases hok
    · rw [hgroup true {}, ← herror, hstrict]
  · have hok : valueExpression false {} call = .ok (.call "f" [.variable "x"], []) := by rfl
    rcases @valueExpression_group _ _ _ _ hcall zip unzip rfl rfl with
      ⟨-, hgroup⟩ | ⟨-, t, -, word, -, herror, -⟩
    · exact hgroup true {}
    · rw [hok] at herror
      cases herror

/-- In an argument list, where a bare name is a variable, it is none in a group. -/
theorem group_refuses_bareName :
    ¬ ∀ (bare : Bool) (fallback : Position) (opening closing : Located Token) (ts : Tokens)
      (node : Node), opening.value = .structural .zip → closing.value = .structural .unzip →
        valueExpression bare fallback ts = .ok (node, []) →
        valueExpression bare fallback (opening :: (ts ++ [closing])) = .ok (node, []) := by
  intro h
  have hgroup := h true {} ⟨.structural .zip, {}⟩ ⟨.structural .unzip, {}⟩ [⟨.name "x", {}⟩]
    (.variable "x") rfl rfl rfl
  cases hgroup

end Node
end VerbScript
