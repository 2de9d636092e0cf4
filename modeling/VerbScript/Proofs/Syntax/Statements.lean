import VerbScript.Proofs.Syntax.Locality

/-!
# VerbScript.Proofs.Syntax.Statements

A program is read statement by statement.

Nothing but the tokens themselves says where an instruction ends. Each instruction is what its own
tokens spell, at the place of the first of them (`Program.ReadFrom`), and what stands behind a program
is read as if it stood alone, unless its first token goes on with the last instruction
(`Tokens.Parted`). Both are `Node.readsFront` along the instructions: the front that an expression
takes is read the same with nothing behind it, and with other tokens behind.

* `Program.readFrom_of_ofTokens`: the tokens fall into those of the single instructions.
* `Program.ofTokens_append`: instructions in front of others, or of an error.
-/

namespace VerbScript

open Tokens (Parted)

namespace Node

/-- An expression is read from the tokens that it takes, with nothing behind them. -/
theorem expression_alone {bare : Bool} {fallback : Position} {ts rest : Tokens} {node : Node}
    (h : expression bare fallback ts = .ok (node, rest)) :
    ∃ front, ts = front ++ rest ∧
      ∀ fallback', expression bare fallback' front = .ok (node, []) := by
  obtain ⟨front, hts, -, hreads⟩ := (readsFront _).expression h
  refine ⟨front, hts, fun fallback' => ?_⟩
  have halone := hreads [] (depthBound front) fallback' .nil
    (.inr (by simp only [depthBound]; omega))
  rwa [List.append_nil] at halone

end Node

namespace Program

variable {ts more : Tokens} {p : Program}

/-- The tokens are those of the instructions, one after another. Each instruction is what its own
tokens spell, and its place is that of the first of these. -/
inductive ReadFrom : Tokens → Program → Prop where
  | nil : ReadFrom [] []
  | cons {t : Located Token} {own rest : Tokens} {node : Node} {p : Program}
      (hown : ofTokens (t :: own) = .ok [⟨node, t.position⟩]) (hrest : ReadFrom rest p) :
      ReadFrom (t :: own ++ rest) (⟨node, t.position⟩ :: p)

/-- A program falls into its instructions, and its tokens into theirs. -/
theorem readFrom_of_ofTokens (h : ofTokens ts = .ok p) : ReadFrom ts p := by
  induction p generalizing ts with
  | nil =>
    cases ts with
    | nil => exact .nil
    | cons t ts =>
      obtain ⟨_, _, _, -, -, hp⟩ := ofTokens_cons_eq_ok h
      cases hp
  | cons instruction p ih =>
    cases ts with
    | nil => cases h
    | cons t ts =>
      obtain ⟨node, rest, q, hnode, hrest, hp⟩ := ofTokens_cons_eq_ok h
      cases hp
      obtain ⟨front, hts, halone⟩ := Node.expression_alone hnode
      -- the expression has taken the first token at least
      obtain ⟨own, rfl⟩ : ∃ own, front = t :: own := by
        cases front with
        | nil =>
          have hlength := (Node.parseExpression_consumes hnode).length_le
          rw [List.nil_append] at hts
          rw [← hts, List.length_cons] at hlength
          omega
        | cons u own => exact ⟨own, by rw [(List.cons.inj hts).1]⟩
      rw [hts]
      exact .cons (ofTokens_cons (halone t.position)) (ih hrest)

/-- What stands behind a program is read as if it stood alone. -/
theorem ofTokens_append (h : ofTokens ts = .ok p) (hparted : Parted Token.endsExpression ts more) :
    ofTokens (ts ++ more) = (ofTokens more).map (p ++ ·) := by
  induction p generalizing ts with
  | nil =>
    cases ts with
    | nil => cases hmore : ofTokens more <;> simp [hmore, Except.map]
    | cons t ts =>
      obtain ⟨_, _, _, -, -, hp⟩ := ofTokens_cons_eq_ok h
      cases hp
  | cons instruction p ih =>
    cases ts with
    | nil => cases h
    | cons t ts =>
      obtain ⟨node, rest, q, hnode, hrest, hp⟩ := ofTokens_cons_eq_ok h
      cases hp
      have hsuffix := Node.parseExpression_suffix hnode
      have hwhole : Node.expression false t.position (t :: (ts ++ more)) = .ok (node, rest ++ more) :=
        (Node.readsLocally _).expression hnode (fun _ => hparted)
          (Node.depthBound_le_append (t :: ts) more) t.position
      rw [List.cons_append, ofTokens_cons hwhole, ih hrest (hparted.of_suffix hsuffix)]
      cases ofTokens more <;> rfl

/-- Reading takes a program apart where its instructions end: what stands behind it makes the rest of
the program, or the error, and each instruction has its own tokens and the place of the first. -/
theorem ofTokens_compositional (h : ofTokens ts = .ok p)
    (hparted : Parted Token.endsExpression ts more) :
    ofTokens (ts ++ more) = (ofTokens more).map (p ++ ·) ∧ ReadFrom ts p :=
  ⟨ofTokens_append h hparted, readFrom_of_ofTokens h⟩

/-- A sum and a marker, in front of a value and of an error. -/
theorem ofTokens_compositional_sum :
    let front : Tokens := [⟨.pop, ⟨1, 1⟩⟩, ⟨.binary .add, ⟨1, 5⟩⟩, ⟨.pop, ⟨2, 3⟩⟩, ⟨.label, ⟨3, 1⟩⟩]
    let program : Program := [⟨.binary .add .pop .pop, ⟨1, 1⟩⟩, ⟨.label, ⟨3, 1⟩⟩]
    let value : Tokens := [⟨.pop, ⟨4, 1⟩⟩, ⟨.unary .not, ⟨4, 5⟩⟩]
    let unclosed : Tokens := [⟨.pop, ⟨4, 1⟩⟩, ⟨.structural .zip, ⟨4, 6⟩⟩]
    ofTokens front = .ok program ∧
      Parted Token.endsExpression front value ∧ Parted Token.endsExpression front unclosed ∧
      ofTokens (front ++ value) = .ok (program ++ [⟨.unary .not .pop, ⟨4, 1⟩⟩]) ∧
      ofTokens (front ++ unclosed) = .error ⟨.unexpectedEnd, ⟨4, 6⟩⟩ ∧ ReadFrom front program := by
  intro front program value unclosed
  have hfront : ofTokens front = .ok program := by rfl
  have hvalue : Parted Token.endsExpression front value := by
    refine ⟨?_, ?_⟩
    · rintro t ⟨⟩
      rfl
    · rintro t ⟨⟩ u ⟨⟩ ⟨⟩
  have hunclosed : Parted Token.endsExpression front unclosed := by
    refine ⟨?_, ?_⟩
    · rintro t ⟨⟩
      rfl
    · rintro t ⟨⟩ u ⟨⟩ ⟨⟩
  obtain ⟨hwhole, hread⟩ := ofTokens_compositional hfront hvalue
  obtain ⟨herror, -⟩ := ofTokens_compositional hfront hunclosed
  exact ⟨hfront, hvalue, hunclosed, hwhole, herror, hread⟩

end Program
end VerbScript
