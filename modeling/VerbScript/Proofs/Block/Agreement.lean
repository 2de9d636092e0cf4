import VerbScript.Proofs.Block.Layout
import VerbScript.Proofs.Effect

/-!
# VerbScript.Proofs.Block.Agreement

A machine seen as the store of a structured program.

* `Machine.store` forgets the pointer, the return addresses and where the functions are.
* `Stands p addresses i m procedures`: the machine is at index `i`, its calls return to `addresses`,
  and its functions are where the code of `procedures` is.
* `Matches`: an action on the store and one on the machine end alike. Every action that evaluates
  no expression has its lemma here.
-/

namespace VerbScript

variable {W I : Type}

/-- What a structured program sees of a machine. -/
def Machine.store (m : Machine W I) (procedures : Table Procedure) : Store W I where
  lastValue := m.state.lastValue
  globals := m.state.globals
  frames := m.state.frames.map fun frame => ⟨frame.function, frame.scope⟩
  stack := m.state.stack
  procedures := procedures
  input := m.input
  sink := m.sink

section

variable (m : Machine W I) (procedures : Table Procedure)

theorem store_lastValue : (m.store procedures).lastValue = m.state.lastValue := rfl

theorem store_stack : (m.store procedures).stack = m.state.stack := rfl

theorem store_input : (m.store procedures).input = m.input := rfl

theorem store_procedures : (m.store procedures).procedures = procedures := rfl

theorem store_frames_length : (m.store procedures).frames.length = m.state.frames.length :=
  List.length_map _

theorem store_jump (target : Nat) : (m.jump target).store procedures = m.store procedures := rfl

theorem store_enter {entry : FunctionEntry} {parameters : List String}
    (h : entry.parameters = parameters) (name : String) (values : List Number) :
    (m.store procedures).enter name (Table.ofPairs (parameters.zip values))
      = (m.enter name entry values).store procedures := by
  subst h
  rfl

theorem store_lookup (name : String) :
    (m.store procedures).lookup name = m.state.lookup name := by
  simp only [Store.lookup, State.lookup, Machine.store]
  cases m.state.frames <;> rfl

theorem store_assign (name : String) (value : Number) :
    (m.store procedures).assign name value = (m.assign name value).store procedures := by
  simp only [Store.assign, Machine.assign, State.assign, Machine.store]
  cases m.state.frames with
  | nil => rfl
  | cons frame rest =>
    simp only [List.map_cons]
    split <;> rfl

end

/-- The function that was entered into the table is the procedure. -/
structure Entered (p : Program) (entry : FunctionEntry) (f : Procedure) : Prop where
  parameters : entry.parameters = f.parameters
  placed : f.body.Placed p .function (entry.start + 1)
  finish : ∃ place, p[entry.start + 1 + f.body.code.length]? = some ⟨.keyword .break, place⟩
  enclosing : p.enclosing? (entry.start + 1 + f.body.code.length) false
    = some (.function entry.start)

def Knows (p : Program) (functions : Table FunctionEntry) (procedures : Table Procedure) : Prop :=
  ∀ name, Option.Rel (Entered p) (functions.get? name) (procedures.get? name)

theorem Knows.insert {p : Program} {functions : Table FunctionEntry}
    {procedures : Table Procedure} (h : Knows p functions procedures) {entry : FunctionEntry}
    {f : Procedure} (hf : Entered p entry f) (name : String) :
    Knows p (functions.insert name entry) (procedures.insert name f) := by
  intro other
  rw [Table.get?_insert, Table.get?_insert]
  split
  · exact .some hf
  · exact h other

structure Agrees (p : Program) (m : Machine W I) (procedures : Table Procedure) : Prop where
  live : m.state.halted = false
  knows : Knows p m.state.functions procedures

structure Stands (p : Program) (addresses : List Nat) (i : Nat) (m : Machine W I)
    (procedures : Table Procedure) : Prop extends Agrees p m procedures where
  pointer : m.state.pointer = i
  addresses : m.state.frames.map Frame.returnAddress = addresses

/-- An action on the store and one on the machine end alike, the machine at index `i`. -/
inductive Matches (p : Program) (addresses : List Nat) (i : Nat) {α : Type} :
    Ending α W I → Outcome α W I → Prop where
  | done {value : α} {m : Machine W I} {procedures : Table Procedure} :
      Stands p addresses i m procedures →
      Matches p addresses i (.done value (m.store procedures)) (.done value m)
  | fault {cause : Located Fault} {m : Machine W I} {procedures : Table Procedure} :
      Agrees p m procedures →
      Matches p addresses i (.fault cause (m.store procedures)) (.fault cause m)

section

variable {p : Program} {addresses : List Nat} {i : Nat} {m : Machine W I}
  {procedures : Table Procedure} {α β : Type}

theorem Matches.andThen {j : Nat} {e : Ending α W I} {o : Outcome α W I}
    {next : α → Store W I → Ending β W I}
    {next' : α → Machine W I → Outcome β W I} (h : Matches p addresses i e o)
    (hnext : ∀ value m procedures, Stands p addresses i m procedures →
      Matches p addresses j (next value (m.store procedures)) (next' value m)) :
    Matches p addresses j (e.andThen next) (o.andThen next') := by
  cases h with
  | done h => exact hnext _ _ _ h
  | fault h => exact .fault h

namespace Stands

theorem length (h : Stands p addresses i m procedures) :
    m.state.frames.length = addresses.length := by
  rw [← h.addresses, List.length_map]

theorem frames_isEmpty (h : Stands p addresses i m procedures) :
    (m.store procedures).frames.isEmpty = addresses.isEmpty := by
  rw [← h.addresses]
  simp [Machine.store]

theorem jump (h : Stands p addresses i m procedures) (j : Nat) :
    Stands p addresses j (m.jump j) procedures :=
  ⟨⟨h.live, h.knows⟩, rfl, h.addresses⟩

theorem setLastValue (h : Stands p addresses i m procedures) (value : Number) :
    Stands p addresses i (m.setLastValue value) procedures :=
  ⟨⟨h.live, h.knows⟩, h.pointer, h.addresses⟩

theorem push (h : Stands p addresses i m procedures) (value : Number) :
    Stands p addresses i (m.push value) procedures :=
  ⟨⟨h.live, h.knows⟩, h.pointer, h.addresses⟩

theorem assign (h : Stands p addresses i m procedures) (name : String) (value : Number) :
    Stands p addresses i (m.assign name value) procedures := by
  have haddresses := h.addresses
  unfold Machine.assign State.assign
  split
  · exact ⟨⟨h.live, h.knows⟩, h.pointer, h.addresses⟩
  · rename_i frame rest hframes
    rw [hframes] at haddresses
    split
    · exact ⟨⟨h.live, h.knows⟩, h.pointer, haddresses⟩
    · exact ⟨⟨h.live, h.knows⟩, h.pointer, h.addresses⟩

end Stands

namespace Matches

theorem withLastValue {e : Number → Ending α W I} {o : Number → Outcome α W I}
    (h : Stands p addresses i m procedures) (k : Keyword) (place : Position) {j : Nat}
    (hvalue : ∀ value, Matches p addresses j (e value) (o value)) :
    Matches p addresses j ((m.store procedures).withLastValue k place e)
      (m.withLastValue k place o) := by
  simp only [Store.withLastValue, Machine.withLastValue, store_lastValue]
  cases m.state.lastValue with
  | none => exact .fault h.toAgrees
  | some value => exact hvalue value

theorem pop (h : Stands p addresses i m procedures) (place : Position) :
    Matches p addresses i ((m.store procedures).pop place) (m.pop place) := by
  simp only [Store.pop, Machine.pop, store_stack]
  cases m.state.stack with
  | nil => exact .fault h.toAgrees
  | cons top rest =>
    exact done (m := { m with state := { m.state with stack := rest } })
      ⟨⟨h.live, h.knows⟩, h.pointer, h.addresses⟩

theorem overwrite (h : Stands p addresses i m procedures) (index value : Number)
    (place : Position) :
    Matches p addresses i ((m.store procedures).overwrite index value place)
      (m.overwrite index value place) := by
  simp only [Store.overwrite, Machine.overwrite, store_stack]
  cases index.index? with
  | none => exact .fault h.toAgrees
  | some k =>
    by_cases hk : k < m.state.stack.length
    · simp only [hk, ↓reduceIte]
      exact done (m := { m with state := { m.state with stack := m.state.stack.set k value } })
        ⟨⟨h.live, h.knows⟩, h.pointer, h.addresses⟩
    · simp only [hk, ↓reduceIte]
      exact .fault h.toAgrees

theorem onSink (h : Stands p addresses i m procedures) (request : Option ChannelFault × W)
    (place : Position) :
    Matches p addresses i ((m.store procedures).onSink request place) (m.onSink request place) := by
  have hrequest : Stands p addresses i { m with sink := request.2 } procedures :=
    ⟨⟨h.live, h.knows⟩, h.pointer, h.addresses⟩
  obtain ⟨_ | _, sink⟩ := request
  · exact done (m := { m with sink := sink }) hrequest
  · exact fault (m := { m with sink := sink }) hrequest.toAgrees

variable [Writer W] [LineSource I]

omit [LineSource I] in
theorem write (h : Stands p addresses i m procedures) (text : String) (place : Position) :
    Matches p addresses i ((m.store procedures).write text place) (m.write text place) :=
  onSink h _ place

omit [LineSource I] in
theorem flush (h : Stands p addresses i m procedures) (place : Position) :
    Matches p addresses i ((m.store procedures).flush place) (m.flush place) :=
  onSink h _ place

theorem readLine (h : Stands p addresses i m procedures) (place : Position) :
    Matches p addresses i ((m.store procedures).readLine place) (m.readLine place) := by
  refine (flush h place).andThen fun _ m procedures h => ?_
  have hread : ∀ rest : I, Stands p addresses i { m with input := rest } procedures :=
    fun _ => ⟨⟨h.live, h.knows⟩, h.pointer, h.addresses⟩
  simp only [store_input]
  rcases LineSource.nextLine m.input with ⟨_ | _ | line, rest⟩
  · exact fault (m := { m with input := rest }) (hread rest).toAgrees
  · exact fault (m := { m with input := rest }) (hread rest).toAgrees
  · exact done (m := { m with input := rest }) (hread rest)

/-- The keywords that act on the last value and the value stack alone. -/
theorem act (h : Stands p addresses i m procedures) (a : Action) (index : Nat)
    (place : Position) :
    Matches p addresses i ((m.store procedures).act a place)
      (m.keyword p a.keyword index place) := by
  cases a with
  | print =>
    refine withLastValue h _ place fun value => ?_
    cases value.character? with
    | none => exact .fault h.toAgrees
    | some c => exact write h _ place
  | send => exact withLastValue h _ place fun value => write h _ place
  | scroll => exact write h _ place
  | save =>
    refine withLastValue h _ place fun value => ?_
    exact done (m := m.push value) (h.push value)
  | load => exact (pop h place).andThen fun _ _ _ h => .done h

/-- The keywords that give the variable after them a value. -/
theorem receive (h : Stands p addresses i m procedures) (origin : Origin) {name : String}
    {index : Nat} (hname : p.node? (index + 1) = some (.variable name)) (place : Position) :
    Matches p addresses (index + 2) ((m.store procedures).receive origin name place)
      (m.keyword p origin.keyword index place) := by
  have hassign : ∀ {m : Machine W I} {procedures : Table Procedure} (value : Number),
      Stands p addresses (index + 2) m procedures → Matches p addresses (index + 2)
        (.done () ((m.store procedures).assign name value)) (.done () (m.assign name value)) := by
    intro m procedures value h
    rw [store_assign]
    exact .done (h.assign name value)
  cases origin with
  | last =>
    simp only [Store.receive, Store.obtain?, Store.withLastValue, Origin.keyword, Machine.keyword,
      Machine.withLastValue, Machine.withVariable, hname, store_lastValue]
    cases m.state.lastValue with
    | none => exact .fault h.toAgrees
    | some value => exact hassign value (h.jump (index + 2))
  | line =>
    simp only [Store.receive, Store.obtain?, Origin.keyword, Machine.keyword, Machine.withVariable,
      hname, Ending.andThen_assoc]
    refine (readLine (h.jump (index + 2)) place).andThen fun line m procedures h => ?_
    cases Number.ofText? (Text.trim line) with
    | none => exact .fault h.toAgrees
    | some value => exact hassign value h
  | character =>
    simp only [Store.receive, Store.obtain?, Origin.keyword, Machine.keyword, Machine.withVariable,
      hname, Ending.andThen_assoc]
    refine (readLine (h.jump (index + 2)) place).andThen fun line m procedures h => ?_
    cases line.toList with
    | nil => exact hassign Machine.emptyLineCode h
    | cons c rest => exact hassign (.ofChar c) h

end Matches

end

end VerbScript
