import VerbScript.Proofs.Block.Simulation

/-!
# VerbScript.Proofs.Block.Evaluation

Expressions and calls: the machine evaluates them as the structured program does, given that it
does so with less fuel. A call goes through the body of the function as a path of steps that ends
with the frame gone (`simulates_body`).
-/

namespace VerbScript

variable {W I : Type}

open Outcome

/-- What evaluation and execution keep to, with fuel `n`. A function body is executed in a call. -/
structure Simulated (W I : Type) [Writer W] [LineSource I] (setup : Setup) (n : Nat) : Prop where
  eval : ∀ e place addresses i (m : Machine W I) procedures,
    Stands setup.program addresses i m procedures →
    Simulates setup.program addresses i n
      (Block.eval setup.depthLimit n e place (m.store procedures))
      fun fuel => Machine.eval setup fuel e.node place m
  evalAll : ∀ es place addresses i (m : Machine W I) procedures,
    Stands setup.program addresses i m procedures →
    Simulates setup.program addresses i n
      (Block.evalAll setup.depthLimit n es place (m.store procedures))
      fun fuel => Machine.evalArguments setup fuel (Expression.nodes es) place m
  call : ∀ name es place addresses i (m : Machine W I) procedures,
    Stands setup.program addresses i m procedures →
    Simulates setup.program addresses i n
      (Block.call setup.depthLimit n name es place (m.store procedures))
      fun fuel => Machine.call setup fuel name (Expression.nodes es) place m
  exec : ∀ b around addresses i stop (m : Machine W I) procedures, b.Placed setup.program around i →
    stop = i + b.code.length → (around = .function → addresses ≠ []) →
    Stands setup.program addresses i m procedures →
    Realizes setup around addresses stop n m
      (Block.exec setup.depthLimit n around.inside b (m.store procedures))

theorem Stands.active {setup : Setup} {addresses : List Nat} {i : Nat} {m : Machine W I}
    {procedures : Table Procedure} (h : Stands setup.program addresses i m procedures)
    {x : Located Node} (hi : setup.program[i]? = some x) : Active setup addresses.length m where
  live := h.live
  inside := by
    rw [h.pointer]
    exact (List.getElem?_eq_some_iff.1 hi).1
  depth := Nat.le_of_eq h.length.symm

theorem Stands.giveBack {p : Program} {address i : Nat} {rest : List Nat} {m : Machine W I}
    {procedures : Table Procedure} (h : Stands p (address :: rest) i m procedures)
    (value : Number) (place : Position) :
    ∃ m', m.giveBack value place = .done value m' ∧
      GaveBack p (address :: rest) value m' (m.store procedures) := by
  obtain ⟨frame, frames, hframes, hframe, hrest⟩ := List.map_eq_cons_iff.1 h.addresses
  refine ⟨{ m with state := { m.state with
    frames := frames, pointer := frame.returnAddress, lastReturn := value } }, ?_, ?_⟩
  · simp only [Machine.giveBack, hframes]
  · refine ⟨address, rest, procedures, rfl, ?_, ⟨⟨h.live, h.knows⟩, hframe, hrest⟩, rfl⟩
    simp only [Store.exit, Machine.store, hframes, List.map_cons, List.tail_cons]

theorem Stands.enter {p : Program} {addresses : List Nat} {i : Nat} {m : Machine W I}
    {procedures : Table Procedure} (h : Stands p addresses i m procedures) (name : String)
    (entry : FunctionEntry) (values : List Number) :
    Stands p (i :: addresses) (entry.start + 1) (m.enter name entry values) procedures := by
  refine ⟨⟨h.live, h.knows⟩, rfl, ?_⟩
  simp only [Machine.enter, State.pushFrame, State.jump, List.map_cons, h.addresses, h.pointer]

variable [Writer W] [LineSource I]

/-! ## Evaluation -/

theorem simulates_eval {setup : Setup} {n : Nat} (ih : Simulated W I setup n) (e : Expression)
    (place : Position) {addresses : List Nat} {i : Nat} {m : Machine W I}
    {procedures : Table Procedure} (h : Stands setup.program addresses i m procedures) :
    Simulates setup.program addresses i (n + 1)
      (Block.eval setup.depthLimit (n + 1) e place (m.store procedures))
      fun fuel => Machine.eval setup fuel e.node place m := by
  refine .of_succ ?_
  cases e with
  | number value =>
    simp only [Block.eval, Expression.node, Machine.eval]
    exact .of_matches (.done h)
  | «variable» name =>
    simp only [Block.eval, Expression.node, Machine.eval, store_lookup]
    cases m.state.lookup name with
    | some value => exact .of_matches (.done h)
    | none => exact .of_matches (.fault h.toAgrees)
  | binary op left right =>
    simp only [Block.eval, Expression.node, Machine.eval]
    refine (ih.eval left place _ _ _ _ h).andThen (Machine.eval_stable setup _ place m)
      fun a m procedures h => ?_
    refine (ih.eval right place _ _ _ _ h).andThen (Machine.eval_stable setup _ place m)
      fun b m procedures h => ?_
    cases op.result? a b with
    | some value => exact .of_matches (.done h)
    | none => exact .of_matches (.fault h.toAgrees)
  | unary op operand =>
    simp only [Block.eval, Expression.node, Machine.eval]
    refine (ih.eval operand place _ _ _ _ h).andThen (Machine.eval_stable setup _ place m)
      fun value m procedures h => ?_
    cases op with
    | negate => exact .of_matches (.done h)
    | not => exact .of_matches (.done h)
    | paste => exact .of_matches (.done (h.push value))
  | call name es =>
    simp only [Block.eval, Expression.node, Machine.eval]
    exact ih.call name es place _ _ _ _ h
  | pop =>
    simp only [Block.eval, Expression.node, Machine.eval]
    exact .of_matches (.pop h place)

theorem simulates_evalAll {setup : Setup} {n : Nat} (ih : Simulated W I setup n)
    (es : List Expression) (place : Position) {addresses : List Nat} {i : Nat} {m : Machine W I}
    {procedures : Table Procedure} (h : Stands setup.program addresses i m procedures) :
    Simulates setup.program addresses i (n + 1)
      (Block.evalAll setup.depthLimit (n + 1) es place (m.store procedures))
      fun fuel => Machine.evalArguments setup fuel (Expression.nodes es) place m := by
  refine .of_succ ?_
  cases es with
  | nil =>
    simp only [Block.evalAll, Expression.nodes, Machine.evalArguments]
    exact .of_matches (.done h)
  | cons e rest =>
    simp only [Block.evalAll, Expression.nodes, Machine.evalArguments]
    refine (ih.eval e place _ _ _ _ h).andThen (Machine.eval_stable setup _ place m)
      fun value m procedures h => ?_
    refine (ih.evalAll rest place _ _ _ _ h).andThen
      (Machine.evalArguments_stable setup _ place m) fun values m procedures h => ?_
    exact .of_matches (.done h)

/-! ## Calls -/

/-- A keyword that does not evaluate anything, executed at the index of the machine. -/
theorem Stands.step_keyword {setup : Setup} {addresses : List Nat} {i : Nat} {m : Machine W I}
    {procedures : Table Procedure} (h : Stands setup.program addresses i m procedures)
    {k : Keyword} {place : Position} (hi : setup.program[i]? = some ⟨.keyword k, place⟩)
    (hk : k ≠ .change) (fuel : Nat) :
    Machine.step setup (fuel + 1) m = (m.jump (i + 1)).keyword setup.program k i place := by
  have hpointer := h.pointer
  subst hpointer
  exact Machine.step_keyword hi hk fuel

theorem Stands.goes {setup : Setup} {addresses : List Nat} {i : Nat} {m m' : Machine W I}
    {procedures : Table Procedure} (h : Stands setup.program addresses i m procedures)
    {x : Located Node} (hi : setup.program[i]? = some x)
    (hstep : ∀ fuel, Machine.step setup (fuel + 1) m = .done () m') :
    Goes setup addresses.length m m' := by
  refine ⟨h.active hi, .of_succ ?_⟩
  simp only [hstep]
  exact .const _

theorem Stands.goes_keyword {setup : Setup} {addresses : List Nat} {i : Nat} {m m' : Machine W I}
    {procedures : Table Procedure} (h : Stands setup.program addresses i m procedures)
    {k : Keyword} {place : Position} (hi : setup.program[i]? = some ⟨.keyword k, place⟩)
    (hk : k ≠ .change)
    (hdone : (m.jump (i + 1)).keyword setup.program k i place = .done () m') :
    Goes setup addresses.length m m' := by
  refine h.goes hi fun fuel => ?_
  rw [h.step_keyword hi hk, hdone]

/-- The instructions of a body up to its return, and what the caller makes of it. -/
theorem simulates_body {setup : Setup} {addresses : List Nat} {i stop n definition : Nat}
    {m : Machine W I} {e : Ending Signal W I} {finish : Position}
    (h : Realizes setup .function (i :: addresses) stop n m e)
    (hstop : setup.program[stop]? = some ⟨.keyword .break, finish⟩)
    (hfunction : setup.program.enclosing? stop false = some (.function definition))
    (name : String) (place : Position) :
    Simulates setup.program addresses i n
      (e.andThen fun signal s => .done signal.value s.exit)
      fun fuel => (Machine.runUntil setup fuel addresses.length name place m).andThen
        fun _ m => .done m.state.lastReturn m := by
  have hD := drives_runUntil (W := W) (I := I) setup addresses.length name place
  cases h with
  | @done signal m' s hpath hlands =>
    -- However the body ended, the frame is gone after at most one more step.
    obtain ⟨m₁, hpath₁, address, rest, procedures, hcons, hexit, hm, hvalue⟩ :
        ∃ m₁, Path setup (addresses.length + 1) m m₁ ∧
          GaveBack setup.program (i :: addresses) signal.value m₁ s := by
      cases hlands with
      | next hm =>
        obtain ⟨m₁, hgive, hgave⟩ := (hm.jump (stop + 1)).giveBack 0 finish
        refine ⟨m₁, hpath.tail (hm.goes_keyword hstop (by simp) ?_), hgave⟩
        simp only [Machine.keyword, Machine.closeBlock, hfunction, hgive]
        rfl
      | leftLoop haround => cases haround
      | leftFunction _ hm => exact ⟨m', hpath, hm⟩
      | returned hm => exact ⟨m', hpath, hm⟩
    cases hcons
    have hreturned : Settles
        (fun fuel => Machine.runUntil setup fuel addresses.length name place m₁) (.done () m₁) := by
      refine .of_succ ?_
      simp only [Machine.runUntil, if_pos (Nat.le_of_eq hm.length)]
      exact .const _
    refine .ends ((hD.settles_path hpath₁ hreturned).andThen (.const _)) ?_
    rw [Ending.andThen, hexit, hvalue]
    exact .done hm
  | fault hpath hactive hstep hagrees =>
    exact .ends (hD.settles_path hpath (hD.settles_fault hactive hstep)).andThen_fault
      (.fault hagrees)
  | cutOff hcut =>
    refine .cutOff ?_
    rw [hcut _ hD]
    rfl

theorem Expression.length_nodes (es : List Expression) :
    (Expression.nodes es).length = es.length := by
  induction es with
  | nil => rfl
  | cons e rest ih => simp [Expression.nodes, ih]

theorem simulates_call {setup : Setup} {n : Nat} (ih : Simulated W I setup n) (name : String)
    (es : List Expression) (place : Position) {addresses : List Nat} {i : Nat} {m : Machine W I}
    {procedures : Table Procedure} (h : Stands setup.program addresses i m procedures) :
    Simulates setup.program addresses i (n + 1)
      (Block.call setup.depthLimit (n + 1) name es place (m.store procedures))
      fun fuel => Machine.call setup fuel name (Expression.nodes es) place m := by
  refine .of_succ ?_
  simp only [Block.call, store_procedures, store_frames_length]
  generalize hf : procedures.get? name = f, hentry : m.state.functions.get? name = entry
  have hknows := h.knows name
  rw [hf, hentry] at hknows
  cases hknows with
  | none =>
    simp only [Machine.call, hentry]
    exact .of_matches (.fault h.toAgrees)
  | @some entry f hentered =>
    have hlength : f.parameters.length = entry.parameters.length := by rw [hentered.parameters]
    have hnodes := Expression.length_nodes es
    dsimp only
    by_cases hcount : entry.parameters.length = (Expression.nodes es).length
    · rw [if_neg (by omega)]
      by_cases hroom : m.state.frames.length < setup.depthLimit
      · rw [if_neg (by omega)]
        simp only [Machine.call_admitted ⟨hentry, hcount, hroom⟩, h.length]
        refine (ih.evalAll es place _ _ _ _ h).andThen
          (Machine.evalArguments_stable setup _ place m) fun values m procedures h => ?_
        obtain ⟨finish, hfinish⟩ := hentered.finish
        rw [store_enter m procedures hentered.parameters]
        exact simulates_body (ih.exec f.body .function _ _ _ _ _ hentered.placed rfl (by simp)
          (h.enter name entry values)) hfinish hentered.enclosing name place
      · rw [if_pos (by omega)]
        simp only [Machine.call_refused hentry hcount (Nat.le_of_not_lt hroom)]
        exact .of_matches (.fault h.toAgrees)
    · rw [if_pos (by omega)]
      simp only [Machine.call, hentry, ne_eq, hcount, not_false_eq_true, ↓reduceIte]
      rw [hnodes, hlength]
      exact .of_matches (.fault h.toAgrees)

end VerbScript
