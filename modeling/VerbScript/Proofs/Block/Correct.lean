import VerbScript.Proofs.Block.Evaluation

/-!
# VerbScript.Proofs.Block.Correct

The flat code of a structured program does what the program means.

* One lemma for each kind of statement: the steps that the machine makes for it, with the jumps that
  it finds by scanning for markers, lead where the statement leads.
* `simulated` puts them together, by induction on the fuel of the structured program.
* `Block.run_agrees`: a whole run of the code and of the program have the same outcome.
-/

namespace VerbScript

variable {W I : Type}

open Outcome

/-! ## Statements -/

theorem Outcome.andThen_done (o : Outcome Unit W I) : (o.andThen fun _ m => .done () m) = o := by
  cases o <;> rfl

section

variable {setup : Setup} {n : Nat} {around : Around} {addresses : List Nat} {i stop : Nat}
  {m : Machine W I} {procedures : Table Procedure}

theorem Simulates.withLastValue {α : Type} {e : Number → Ending α W I}
    {o : Nat → Number → Outcome α W I} (h : Stands setup.program addresses i m procedures)
    (k : Keyword) (place : Position) {j : Nat}
    (hvalue : ∀ value, Simulates setup.program addresses j n (e value) fun fuel => o fuel value) :
    Simulates setup.program addresses j n ((m.store procedures).withLastValue k place e)
      fun fuel => m.withLastValue k place (o fuel) := by
  simp only [Store.withLastValue, Machine.withLastValue, store_lastValue]
  cases m.state.lastValue with
  | none => exact .of_matches (.fault h.toAgrees)
  | some value => exact hvalue value

variable [Writer W] [LineSource I]

/-- An expression as an instruction. -/
theorem realizes_value (ih : Simulated W I setup n) {e : Expression} {place : Position}
    {next : Number → Store W I → Ending Signal W I}
    (hi : setup.program[i]? = some ⟨e.node, place⟩)
    (hm : Stands setup.program addresses i m procedures)
    (hnext : ∀ value m procedures, Stands setup.program addresses (i + 1) m procedures →
      Realizes setup around addresses stop n (m.setLastValue value)
        (next value (m.store procedures))) :
    Realizes setup around addresses stop (n + 1) m
      ((Block.eval setup.depthLimit n e place (m.store procedures)).andThen next) := by
  refine .step (g := fun value m => m.setLastValue value) (hm.active hi) (fun fuel => ?_)
    (ih.eval e place _ _ (m.jump (i + 1)) procedures (hm.jump (i + 1))) hnext
  have hpointer := hm.pointer
  subst hpointer
  exact Machine.step_value hi e.isMarker_node fuel

/-- A keyword as an instruction, with what it does to the store. -/
theorem realizes_keyword {k : Keyword} {place : Position} {j : Nat} {e : Ending Unit W I}
    {next : Store W I → Ending Signal W I} (hi : setup.program[i]? = some ⟨.keyword k, place⟩)
    (hk : k ≠ .change) (hm : Stands setup.program addresses i m procedures)
    (he : Matches setup.program addresses j e ((m.jump (i + 1)).keyword setup.program k i place))
    (hnext : ∀ m procedures, Stands setup.program addresses j m procedures →
      Realizes setup around addresses stop n m (next (m.store procedures))) :
    Realizes setup around addresses stop (n + 1) m (e.andThen fun _ s => next s) := by
  refine .step (g := fun _ m => m) (hm.active hi) (fun fuel => ?_) (.of_matches he)
    fun _ m procedures hm => hnext m procedures hm
  rw [hm.step_keyword hi hk, Outcome.andThen_done]

theorem goes_break {finish : Position} {check : Nat}
    (hi : setup.program[i]? = some ⟨.keyword .break, finish⟩)
    (henclosing : setup.program.enclosing? i false = some (.conditional check))
    (hm : Stands setup.program addresses i m procedures) :
    Goes setup addresses.length m (m.jump (i + 1)) := by
  refine hm.goes_keyword hi (by simp) ?_
  simp only [Machine.keyword, Machine.closeBlock, henclosing]

theorem goes_fix {split : Position} {j : Nat}
    (hi : setup.program[i]? = some ⟨.keyword .fix, split⟩)
    (hclosing : setup.program.closing? (i + 1) false = some j)
    (hm : Stands setup.program addresses i m procedures) :
    Goes setup addresses.length m (m.jump (j + 1)) := by
  refine hm.goes_keyword hi (by simp) ?_
  simp only [Machine.keyword, Machine.skipBlock, hclosing]
  rfl

/-- An instruction that is a fault. -/
theorem realizes_fault {x : Located Node} {cause : Located Fault} {j : Nat}
    (hi : setup.program[i]? = some x) (hm : Stands setup.program addresses i m procedures)
    (hstep : ∀ fuel, Machine.step setup (fuel + 1) m = .fault cause (m.jump j)) :
    Realizes setup around addresses stop n m (.fault cause (m.store procedures)) := by
  rw [← store_jump m procedures j]
  refine .fault .refl (hm.active hi) (.of_succ ?_) (hm.jump j).toAgrees
  simp only [hstep]
  exact .const _

/-- `check` of a conditional: the machine goes on in the block or at the end that the scan found. -/
theorem realizes_check {check : Position} {j : Nat} {next : Number → Ending Signal W I}
    (hi : setup.program[i]? = some ⟨.keyword .check, check⟩)
    (hguard : setup.program.loopGuard? i = none)
    (hclosing : setup.program.closing? (i + 1) true = some j)
    (hm : Stands setup.program addresses i m procedures)
    (hnext : ∀ value, Realizes setup around addresses stop n
      (m.jump (if value.isTrue then i + 1 else j + 1)) (next value)) :
    Realizes setup around addresses stop (n + 1) m
      ((m.store procedures).withLastValue .check check next) := by
  have hstep := hm.step_keyword hi (by simp)
  simp only [Machine.keyword, Machine.check, Machine.withLastValue, hguard, Machine.skipBlock,
    Option.isNone_none, hclosing] at hstep
  have hlast : (m.jump (i + 1)).state.lastValue = m.state.lastValue := rfl
  rw [hlast] at hstep
  simp only [Store.withLastValue, store_lastValue]
  cases hv : m.state.lastValue with
  | none =>
    simp only [hv] at hstep
    exact realizes_fault hi hm hstep
  | some value =>
    simp only [hv] at hstep
    refine .of_goes (hm.goes hi fun fuel => ?_) (hnext value)
    rw [hstep]
    split <;> rfl

theorem realizes_when (ih : Simulated W I setup n) {check finish : Position} {yes rest : Block}
    (hb : (Block.when check yes finish rest).Placed setup.program around i)
    (hstop : stop = i + (Block.when check yes finish rest).code.length)
    (hframe : around = .function → addresses ≠ [])
    (hm : Stands setup.program addresses i m procedures) :
    Realizes setup around addresses stop (n + 1) m (Block.exec setup.depthLimit (n + 1)
      around.inside (.when check yes finish rest) (m.store procedures)) := by
  obtain ⟨hi, hclosing, hfinish, henclosing, hyes, hrest, hlength⟩ := hb.when_decode rfl
  have hrun := fun m procedures =>
    ih.exec rest around addresses _ stop m procedures hrest (hstop.trans hlength) hframe
  rw [Block.exec]
  refine realizes_check hi hb.fresh.first hclosing hm fun value => ?_
  by_cases hv : value.isTrue
  · simp only [hv, ↓reduceIte]
    refine .andThen (ih.exec yes around _ _ _ _ _ hyes rfl hframe (hm.jump (i + 1)))
      fun m procedures hm => ?_
    exact .of_path (.single (goes_break hfinish henclosing hm)) (hrun _ _ (hm.jump _))
  · simp only [hv, Bool.false_eq_true, ↓reduceIte]
    exact hrun _ _ (hm.jump _)

theorem realizes_either (ih : Simulated W I setup n) {check split finish : Position}
    {yes no rest : Block}
    (hb : (Block.either check yes split no finish rest).Placed setup.program around i)
    (hstop : stop = i + (Block.either check yes split no finish rest).code.length)
    (hframe : around = .function → addresses ≠ [])
    (hm : Stands setup.program addresses i m procedures) :
    Realizes setup around addresses stop (n + 1) m (Block.exec setup.depthLimit (n + 1)
      around.inside (.either check yes split no finish rest) (m.store procedures)) := by
  obtain ⟨hi, hclosing, hsplit, hskip, hfinish, henclosing, hyes, hno, hrest, hlength⟩ :=
    hb.either_decode rfl rfl
  have hrun := fun m procedures =>
    ih.exec rest around addresses _ stop m procedures hrest (hstop.trans hlength) hframe
  rw [Block.exec]
  refine realizes_check hi hb.fresh.first hclosing hm fun value => ?_
  by_cases hv : value.isTrue
  · simp only [hv, ↓reduceIte]
    refine .andThen (ih.exec yes around _ _ _ _ _ hyes rfl hframe (hm.jump (i + 1)))
      fun m procedures hm => ?_
    exact .of_path (.single (goes_fix hsplit hskip hm)) (hrun _ _ (hm.jump _))
  · simp only [hv, Bool.false_eq_true, ↓reduceIte]
    refine .andThen (ih.exec no around _ _ _ _ _ hno rfl hframe (hm.jump _))
      fun m procedures hm => ?_
    exact .of_path (.single (goes_break hfinish henclosing hm)) (hrun _ _ (hm.jump _))

/-- `check` of a loop: the machine goes on in the body or after it. -/
theorem goes_loopCheck {check : Position} {guard j : Nat} {untilTrue : Bool} {value : Number}
    (hi : setup.program[i]? = some ⟨.keyword .check, check⟩)
    (hguard : setup.program.loopGuard? i = some (guard, untilTrue))
    (hclosing : setup.program.closing? (i + 1) false = some j)
    (hvalue : m.state.lastValue = some value)
    (hm : Stands setup.program addresses i m procedures) :
    Goes setup addresses.length m
      (m.jump (if value.isTrue = untilTrue then j + 1 else i + 1)) := by
  refine hm.goes_keyword hi (by simp) ?_
  have hlast : (m.jump (i + 1)).state.lastValue = some value := hvalue
  simp only [Machine.keyword, Machine.check, Machine.withLastValue, hlast, hguard,
    Machine.skipBlock, Option.isNone_some, hclosing]
  cases untilTrue <;> cases value.isTrue <;> rfl

theorem goes_lock {start : Position} {untilTrue : Bool} {condition : Node}
    (hi : setup.program[i]? = some ⟨.keyword (loopKeyword untilTrue), start⟩)
    (hcondition : setup.program.node? (i + 1) = some condition)
    (hmarker : condition.isMarker = false)
    (hcheck : setup.program.node? (i + 2) = some (.keyword .check))
    (hm : Stands setup.program addresses i m procedures) :
    Goes setup addresses.length m (m.jump (i + 1)) := by
  refine hm.goes_keyword hi (by cases untilTrue <;> simp [loopKeyword]) ?_
  cases untilTrue <;>
    simp [loopKeyword, Machine.keyword, Machine.startLoop, hcondition, hcheck, hmarker]

theorem goes_loopBreak {finish : Position} {guard check : Nat} {untilTrue : Bool}
    (hi : setup.program[i]? = some ⟨.keyword .break, finish⟩)
    (henclosing : setup.program.enclosing? i false = some (.loop guard check untilTrue))
    (hm : Stands setup.program addresses i m procedures) :
    Goes setup addresses.length m (m.jump guard) := by
  refine hm.goes_keyword hi (by simp) ?_
  simp only [Machine.keyword, Machine.closeBlock, henclosing]
  rfl

theorem realizes_loop (ih : Simulated W I setup n) {start check finish : Position} {untilTrue : Bool}
    {condition : Located Expression} {body rest : Block}
    (hb : (Block.loop start untilTrue condition check body finish rest).Placed
      setup.program around i)
    (hstop : stop = i + (Block.loop start untilTrue condition check body finish rest).code.length)
    (hframe : around = .function → addresses ≠ [])
    (hm : Stands setup.program addresses i m procedures) :
    Realizes setup around addresses stop (n + 1) m (Block.exec setup.depthLimit (n + 1)
      around.inside (.loop start untilTrue condition check body finish rest)
      (m.store procedures)) := by
  obtain ⟨hi, hcondition, hcheck, hguard, hclosing, hfinish, henclosing, hbody, hrest, hlength⟩ :=
    hb.loop_decode rfl
  have hrun := fun m procedures =>
    ih.exec rest around addresses _ stop m procedures hrest (hstop.trans hlength) hframe
  have hnode : setup.program.node? (i + 1) = some condition.value.node := by
    rw [Program.node?, hcondition]; rfl
  have hnode' : setup.program.node? (i + 2) = some (.keyword .check) := by
    rw [Program.node?, hcheck]; rfl
  have hlock := goes_lock hi hnode condition.value.isMarker_node hnode' hm
  -- The loop keyword, the condition and `check` are a step each, before the body or the rest.
  rw [Block.exec]
  refine .of_path (.single hlock) ?_
  refine realizes_value ih hcondition (hm.jump (i + 1)) fun value m procedures hm => ?_
  have hm := hm.setLastValue value
  refine .of_path (.single (goes_loopCheck hcheck hguard hclosing rfl hm)) ?_
  by_cases hv : value.isTrue = untilTrue
  · simp only [hv, ↓reduceIte]
    exact hrun _ _ (hm.jump _)
  · simp only [hv, ↓reduceIte]
    have hloop := ih.exec body (.loop (i + 3 + body.code.length)) addresses _ _ _ _ hbody rfl
      (by simp) (hm.jump (i + 3))
    refine .loop hloop (fun m procedures hm => ?_) hrun
    refine .of_path (.single (goes_loopBreak hfinish henclosing hm)) ?_
    exact ih.exec _ around addresses i stop _ _ hb hstop hframe (hm.jump i)

theorem realizes_giveBack (ih : Simulated W I setup n) {place : Position} {e : Expression}
    (hi : setup.program[i]? = some ⟨.unary .giveBack e.node, place⟩)
    (hm : Stands setup.program addresses i m procedures) :
    Realizes setup around addresses stop (n + 1) m
      ((Block.eval setup.depthLimit n e place (m.store procedures)).andThen fun value s =>
        if s.frames.isEmpty then .fault ⟨.returnOutsideFunction, place⟩ s
        else .done (.returned value) (s.setLastValue value)) := by
  -- The outermost operator takes one more unit of fuel than its operand.
  have hstep : ∀ fuel, Machine.step setup (fuel + 1 + 1) m
      = (Machine.eval setup fuel e.node place (m.jump (i + 1))).andThen fun value m =>
        (m.giveBack value place).andThen fun value m => .done () (m.setLastValue value) := by
    intro fuel
    have hpointer := hm.pointer
    subst hpointer
    rw [Machine.step_value hi rfl, Machine.eval]
    cases Machine.eval setup fuel e.node place (m.jump (m.state.pointer + 1)) <;> rfl
  have hsettles : ∀ {o}, Settles (fun fuel => Machine.step setup (fuel + 1 + 1) m) o →
      Settles (fun fuel => Machine.step setup fuel m) o := fun ho => .of_succ (.of_succ ho)
  simp only [hstep] at hsettles
  have hstore : m.store procedures = (m.jump (i + 1)).store procedures := rfl
  have heval := ih.eval e place _ _ _ _ (hm.jump (i + 1))
  rw [hstore]
  generalize Block.eval setup.depthLimit n e place ((m.jump (i + 1)).store procedures) = ending
    at heval
  cases heval with
  | cutOff hcut =>
    dsimp only at hcut
    refine .cutOff fun D hD => (hD.stable m).cutOff_of_le (Nat.le_add_right (n + 1) 2) ?_
    exact hD.cutOff_step (hm.active hi) (by rw [hstep, hcut]; rfl)
  | ends hset hmatch =>
    cases hmatch with
    | fault hm' => exact .fault .refl (hm.active hi) (hsettles hset.andThen_fault) hm'
    | @done value m' procedures' hm' =>
      rw [Ending.andThen, hm'.frames_isEmpty]
      cases addresses with
      | nil =>
        have hgive : m'.giveBack value place = .fault ⟨.returnOutsideFunction, place⟩ m' := by
          simp only [Machine.giveBack, List.map_eq_nil_iff.1 hm'.addresses]
        refine .fault .refl (hm.active hi) (hsettles (hset.andThen ?_)) hm'.toAgrees
        rw [hgive]
        exact .const _
      | cons address rest =>
        obtain ⟨m₁, hgive, hgave⟩ := hm'.giveBack value place
        refine .done (.single ⟨hm.active hi, hsettles (hset.andThen ?_)⟩)
          (.returned (hgave.setLastValue value))
        rw [hgive]
        exact .const _

theorem realizes_leave {place : Position} {rest : Block}
    (hi : setup.program[i]? = some ⟨.keyword .leave, place⟩)
    (hholds : around.Holds setup.program i) (hframe : around = .function → addresses ≠ [])
    (hm : Stands setup.program addresses i m procedures) :
    Realizes setup around addresses stop (n + 1) m
      (Block.exec setup.depthLimit (n + 1) around.inside (.leave place rest)
        (m.store procedures)) := by
  have hstep := hm.step_keyword hi (by simp)
  simp only [Machine.keyword, Machine.leave] at hstep
  simp only [Block.exec]
  cases around with
  | outside =>
    have hnone : setup.program.enclosing? i true = none := hholds
    simp only [hnone] at hstep
    exact realizes_fault hi hm hstep
  | loop exit =>
    obtain ⟨guard, check, untilLoop, henclosing, hclosing⟩ := hholds
    simp only [henclosing, Machine.skipBlock, hclosing] at hstep
    rw [← store_jump m procedures (exit + 1)]
    exact .done (.single (hm.goes hi hstep)) (.leftLoop rfl (hm.jump (exit + 1)))
  | function =>
    obtain ⟨definition, henclosing⟩ := hholds
    obtain ⟨address, addresses, rfl⟩ := List.exists_cons_of_ne_nil (hframe rfl)
    obtain ⟨m', hgive, hgave⟩ := (hm.jump (i + 1)).giveBack 0 place
    simp only [henclosing, hgive] at hstep
    exact .done (.single (hm.goes hi hstep)) (.leftFunction rfl hgave)

theorem realizes_define (ih : Simulated W I setup n) {place finish : Position} {name : String}
    {parameters : List String} {body rest : Block}
    (hb : (Block.define place name parameters body finish rest).Placed setup.program around i)
    (hstop : stop = i + (Block.define place name parameters body finish rest).code.length)
    (hframe : around = .function → addresses ≠ [])
    (hm : Stands setup.program addresses i m procedures) :
    Realizes setup around addresses stop (n + 1) m (Block.exec setup.depthLimit (n + 1)
      around.inside (.define place name parameters body finish rest) (m.store procedures)) := by
  obtain ⟨hi, hclosing, hfinish, henclosing, hbody, hrest, hlength⟩ := hb.define_decode rfl
  have hentered : Entered setup.program ⟨i, i + 1 + body.code.length, parameters⟩
      ⟨parameters, body⟩ := ⟨rfl, hbody, ⟨finish, hfinish⟩, henclosing⟩
  have hgo : Goes setup addresses.length m { m with state := { m.state with
      functions := m.state.functions.insert name ⟨i, i + 1 + body.code.length, parameters⟩
      pointer := i + 1 + body.code.length + 1 } } := by
    refine hm.goes hi fun fuel => ?_
    have hpointer := hm.pointer
    subst hpointer
    rw [Machine.step_define hi]
    simp only [Machine.define, hclosing]
    rfl
  rw [Block.exec]
  refine .of_goes hgo ?_
  exact ih.exec rest around addresses _ stop _ (procedures.insert name ⟨parameters, body⟩) hrest
    (hstop.trans hlength) hframe ⟨⟨hm.live, hm.knows.insert hentered name⟩, rfl, hm.addresses⟩

theorem realizes_change (ih : Simulated W I setup n) {place : Position} {e : Located Expression}
    {next : Store W I → Ending Signal W I}
    (hi : setup.program[i]? = some ⟨.keyword .change, place⟩)
    (he : setup.program[i + 1]? = some ⟨e.value.node, e.position⟩)
    (hm : Stands setup.program addresses i m procedures)
    (hnext : ∀ m procedures, Stands setup.program addresses (i + 2) m procedures →
      Realizes setup around addresses stop n m (next (m.store procedures))) :
    Realizes setup around addresses stop (n + 1) m
      (((m.store procedures).withLastValue .change place fun value =>
        (Block.eval setup.depthLimit n e.value place (m.store procedures)).andThen
          fun i s => s.overwrite i value place).andThen fun _ s => next s) := by
  refine .step (g := fun _ m => m) (f := fun fuel => (m.jump (i + 1)).withLastValue .change
      place fun value => (Machine.eval setup fuel e.value.node place (m.jump (i + 2))).andThen
        fun i m => m.overwrite i value place) (hm.active hi) (fun fuel => ?_) ?_
    fun _ m procedures hm => hnext m procedures hm
  · have hpointer := hm.pointer
    subst hpointer
    simp only [Machine.step, hi, Machine.withOperand, Program.node?, he, Option.map_some,
      e.value.isMarker_node, Outcome.andThen_done]
    rfl
  · refine .withLastValue (hm.jump (i + 1)) _ place fun value => ?_
    exact (ih.eval e.value place _ _ (m.jump (i + 2)) procedures (hm.jump (i + 2))).andThen
      (Machine.eval_stable setup _ place _) fun v m procedures hm =>
        .of_matches (.overwrite hm v value place)

theorem realizes_exec (ih : Simulated W I setup n) (b : Block)
    (hb : b.Placed setup.program around i) (hstop : stop = i + b.code.length)
    (hframe : around = .function → addresses ≠ [])
    (hm : Stands setup.program addresses i m procedures) :
    Realizes setup around addresses stop (n + 1) m
      (Block.exec setup.depthLimit (n + 1) around.inside b (m.store procedures)) := by
  have hcode := hb.at_code
  cases b with
  | nil =>
    subst hstop
    rw [Block.exec]
    exact .done .refl (.next hm)
  | evaluate place e rest =>
    rw [Block.exec]
    have hrest := hb.next rfl e.role_node e.startsLoop_node
    refine realizes_value ih hcode.head hm fun value m procedures hm => ?_
    refine ih.exec rest around _ _ _ _ _ hrest ?_ hframe (hm.setLastValue value)
    rw [hstop, Block.code, List.length_cons]
    omega
  | giveBack place e rest =>
    rw [Block.exec]
    exact realizes_giveBack ih hcode.head hm
  | action place a rest =>
    rw [Block.exec]
    have hrest := hb.next rfl a.role_keyword a.startsLoop_keyword
    refine realizes_keyword hcode.head (by cases a <;> simp [Action.keyword]) hm
      (.act (hm.jump (i + 1)) a i place) fun m procedures hm => ?_
    refine ih.exec rest around _ _ _ _ _ hrest ?_ hframe hm
    rw [hstop, Block.code, List.length_cons]
    omega
  | assign place origin name rest =>
    rw [Block.exec]
    have hrest := hb.next_two rfl origin.role_keyword origin.startsLoop_keyword rfl rfl
    refine realizes_keyword hcode.head (by cases origin <;> simp [Origin.keyword]) hm
      (.receive (hm.jump (i + 1)) origin hcode.tail.node? place) fun m procedures hm => ?_
    refine ih.exec rest around _ _ _ _ _ hrest ?_ hframe hm
    rw [hstop, Block.code, List.length_cons, List.length_cons]
    omega
  | change place e rest =>
    rw [Block.exec]
    have hrest := hb.next_two rfl rfl rfl e.value.role_node e.value.startsLoop_node
    refine realizes_change ih hcode.head hcode.tail.head hm fun m procedures hm => ?_
    refine ih.exec rest around _ _ _ _ _ hrest ?_ hframe hm
    rw [hstop, Block.code, List.length_cons, List.length_cons]
    omega
  | when check yes finish rest => exact realizes_when ih hb hstop hframe hm
  | either check yes split no finish rest => exact realizes_either ih hb hstop hframe hm
  | loop start untilTrue condition check body finish rest =>
    exact realizes_loop ih hb hstop hframe hm
  | define place name parameters body finish rest => exact realizes_define ih hb hstop hframe hm
  | leave place rest => exact realizes_leave hcode.head hb.holds hframe hm

end

/-! ## Whole runs -/

theorem placed_start (b : Block) : b.Placed b.code .outside 0 where
  at_code := ⟨[], by simp⟩
  fresh := ⟨rfl, rfl⟩
  holds := rfl

theorem stands_start (p : Program) (input : I) (sink : W) :
    Stands p [] 0 { input := input, sink := sink } {} :=
  ⟨⟨rfl, fun _ => .none⟩, rfl, rfl⟩

/-- A block and a program, run with any fuel, have the same outcome. -/
structure SameOutcome (p : Program) (block : Nat → Ending Unit W I) (flat : Nat → Outcome Unit W I) :
    Prop where
  /-- Either both end or neither does. -/
  ends : (∃ fuel, block fuel ≠ .cutOff) ↔ ∃ fuel, flat fuel ≠ .cutOff
  /-- Whatever fuel they end with, they end with the same fault or with none, and in the same
  store. -/
  alike : ∀ fuel fuel', block fuel ≠ .cutOff → flat fuel' ≠ .cutOff →
    Matches p [] p.length (block fuel) (flat fuel')

theorem Matches.ne_cutOff {p : Program} {addresses : List Nat} {i : Nat} {α : Type}
    {e : Ending α W I} {o : Outcome α W I} (h : Matches p addresses i e o) :
    e ≠ .cutOff ∧ o ≠ .cutOff := by
  cases h <;> simp

theorem SameOutcome.of_simulates {p : Program} {block : Nat → Ending Unit W I}
    {flat : Nat → Outcome Unit W I} (hflat : Stable flat)
    (h : ∀ n, Simulates p [] p.length n (block n) flat) : SameOutcome p block flat := by
  have hends : ∀ n, block n ≠ .cutOff → ∃ o, Settles flat o ∧ Matches p [] p.length (block n) o := by
    intro n hn
    cases hblock : block n with
    | cutOff => exact absurd hblock hn
    | _ =>
      have hn := h n
      rw [hblock] at hn
      cases hn with
      | ends hset hmatch => exact ⟨_, hset, hmatch⟩
  refine ⟨⟨?_, ?_⟩, fun n n' hn hn' => ?_⟩
  · rintro ⟨n, hn⟩
    obtain ⟨o, hset, hmatch⟩ := hends n hn
    obtain ⟨n', hn'⟩ := hset.exists
    exact ⟨n', hn' ▸ hmatch.ne_cutOff.2⟩
  · rintro ⟨n, hn⟩
    refine ⟨n, fun hblock => hn ?_⟩
    have hcut := h n
    rw [hblock] at hcut
    cases hcut with
    | ends _ hmatch => exact absurd rfl hmatch.ne_cutOff.1
    | cutOff hcut => exact hcut
  · obtain ⟨o, hset, hmatch⟩ := hends n hn
    rcases hset.cutOff_or_eq hflat n' with hcut | heq
    · exact absurd hcut hn'
    · exact heq ▸ hmatch

variable [Writer W] [LineSource I]

theorem simulated (setup : Setup) (n : Nat) : Simulated W I setup n := by
  induction n with
  | zero =>
    refine ⟨fun e place addresses i m procedures _ => ?_,
      fun es place addresses i m procedures _ => ?_,
      fun name es place addresses i m procedures _ => ?_,
      fun b around addresses i stop m procedures _ _ _ _ => ?_⟩
    · rw [Block.eval]
      exact .cutOff (by rw [Machine.eval])
    · rw [Block.evalAll]
      exact .cutOff (by rw [Machine.evalArguments])
    · rw [Block.call]
      exact .cutOff (by rw [Machine.call])
    · rw [Block.exec]
      exact .cutOff fun D hD => hD.zero m
  | succ n ih =>
    exact ⟨fun e place _ _ _ _ h => simulates_eval ih e place h,
      fun es place _ _ _ _ h => simulates_evalAll ih es place h,
      fun name es place _ _ _ _ h => simulates_call ih name es place h,
      fun b _ _ _ _ _ _ hb hstop hframe hm => realizes_exec ih b hb hstop hframe hm⟩

theorem simulates_run (b : Block) (limit n : Nat) (input : I) (sink : W) :
    Simulates b.code [] b.code.length n
      (Block.run limit n b { input := input, sink := sink })
      fun fuel => Machine.run ⟨b.code, limit⟩ fuel { input := input, sink := sink } := by
  have hD := drives_run (W := W) (I := I) ⟨b.code, limit⟩
  have h := (simulated ⟨b.code, limit⟩ n).exec b .outside [] 0 b.code.length _ _ (placed_start b)
    (Nat.zero_add _).symm (by simp) (stands_start b.code input sink)
  have hstart : (Machine.store { input := input, sink := sink } {} : Store W I)
      = { input := input, sink := sink } := rfl
  rw [hstart] at h
  dsimp only [Around.inside] at h
  rw [Block.run]
  generalize Block.exec limit n false b { input := input, sink := sink } = e at h ⊢
  cases h with
  | @done _ m _ hpath hlands =>
    cases hlands with
    | next hm =>
      have hfinished : m.isFinished ⟨b.code, limit⟩ = true := by
        simp [Machine.isFinished, hm.pointer]
      refine .ends (hD.settles_path hpath (.of_succ ?_)) (.flush hm _)
      simp only [Machine.run, hfinished, ↓reduceIte, hm.pointer]
      exact .const _
    | leftLoop haround => cases haround
    | leftFunction haround => cases haround
    | returned hgave =>
      obtain ⟨address, rest, procedures, haddresses, -⟩ := hgave
      cases haddresses
  | fault hpath hactive hstep hagrees =>
    exact .ends (hD.settles_path hpath (hD.settles_fault hactive hstep)) (.fault hagrees)
  | cutOff hcut => exact .cutOff (hcut _ hD)

/-- The flat code of a structured program does what the program means. -/
theorem Block.run_agrees (b : Block) (limit : Nat) (input : I) (sink : W) :
    SameOutcome b.code (fun fuel => b.run limit fuel { input := input, sink := sink })
      fun fuel => Machine.run ⟨b.code, limit⟩ fuel { input := input, sink := sink } :=
  .of_simulates (Machine.run_stable _ _) fun n => simulates_run b limit n input sink

end VerbScript
