import VerbScript.Proofs.Preservation

/-!
# VerbScript.Proofs.Reachable

What holds of every machine that steps, runs and evaluations lead to, the machines that a fault
leaves included.

* `Sound p m`: the pointer and all return addresses are in the program or just past it, and every
  entry of the function table is a definition of the program with its closing `break`.
* `closed_ready`: soundness is kept by everything that instructions are made of. The arguments of a
  call may define functions, so it is carried along that the callee keeps an entry.
* `reachable_sound`: every reachable machine is sound.
-/

namespace VerbScript

variable {W I : Type}

/-- The entry says where the program defines the function, and where its body ends. -/
structure Program.Defines (p : Program) (name : String) (entry : FunctionEntry) : Prop where
  definition : p.node? entry.start = some (.define name entry.parameters)
  closing : p.closing? (entry.start + 1) false = some entry.finish
  start_lt : entry.start < entry.finish
  finish_lt : entry.finish < p.length

namespace Machine

/-- What holds of every reachable machine. -/
structure Sound (p : Program) (m : Machine W I) : Prop where
  pointer : m.state.pointer ≤ p.length
  returns : ∀ frame ∈ m.state.frames, frame.returnAddress ≤ p.length
  callees : ∀ frame ∈ m.state.frames, m.state.functions.contains frame.function = true
  functions : ∀ name entry, m.state.functions.get? name = some entry → p.Defines name entry

/-- The machine is sound, and the functions of the list have entries. -/
structure Ready (p : Program) (known : List String) (m : Machine W I) : Prop extends Sound p m where
  known : ∀ name ∈ known, m.state.functions.contains name = true

variable {p : Program} {known : List String} {m : Machine W I}

/-- What is asked of the frames does not depend on the local variables. -/
theorem Ready.of_frames (h : Ready p known m) {m' : Machine W I}
    (hp : m'.state.pointer ≤ p.length) (hfun : m'.state.functions = m.state.functions)
    (hframes : ∀ frame ∈ m'.state.frames, ∃ old ∈ m.state.frames,
      frame.returnAddress = old.returnAddress ∧ frame.function = old.function) :
    Ready p known m' := by
  refine ⟨⟨hp, ?_, ?_, ?_⟩, ?_⟩
  · intro frame hmem
    obtain ⟨old, hold, hr, -⟩ := hframes frame hmem
    rw [hr]
    exact h.returns old hold
  · intro frame hmem
    obtain ⟨old, hold, -, hf⟩ := hframes frame hmem
    rw [hfun, hf]
    exact h.callees old hold
  · rw [hfun]; exact h.functions
  · rw [hfun]; exact h.known

theorem Ready.of_eq (h : Ready p known m) {m' : Machine W I} (hp : m'.state.pointer ≤ p.length)
    (hfun : m'.state.functions = m.state.functions) (hframes : m'.state.frames = m.state.frames) :
    Ready p known m' :=
  h.of_frames hp hfun fun frame hmem => ⟨frame, hframes ▸ hmem, rfl, rfl⟩

theorem Ready.assign (h : Ready p known m) (name : String) (value : Number) :
    Ready p known (m.assign name value) := by
  simp only [Machine.assign, State.assign]
  split
  · exact h.of_eq h.pointer rfl rfl
  · rename_i frame rest hf
    split
    · refine h.of_frames h.pointer rfl fun changed hmem => ?_
      rcases List.mem_cons.1 hmem with rfl | hmem
      · exact ⟨frame, by rw [hf]; exact List.mem_cons_self, rfl, rfl⟩
      · exact ⟨changed, by rw [hf]; exact List.mem_cons_of_mem _ hmem, rfl, rfl⟩
    · exact h.of_eq h.pointer rfl rfl

theorem Ready.giveBack (h : Ready p known m) {frame : Frame} {rest : List Frame} (value : Number)
    (hf : m.state.frames = frame :: rest) :
    Ready p known { m with state := { m.state with
      frames := rest, pointer := frame.returnAddress, lastReturn := value } } := by
  have hframe : frame ∈ m.state.frames := by rw [hf]; exact List.mem_cons_self
  refine h.of_frames (h.returns frame hframe) rfl fun other hmem => ?_
  exact ⟨other, by rw [hf]; exact List.mem_cons_of_mem _ hmem, rfl, rfl⟩

theorem contains_insert {t : Table FunctionEntry} {other : String} (h : t.contains other = true)
    (name : String) (entry : FunctionEntry) : (t.insert name entry).contains other = true := by
  simp only [Table.contains, Table.get?_insert] at h ⊢
  split
  · rfl
  · exact h

theorem Ready.define (h : Ready p known m) {name : String} {parameters : List String}
    {index finish : Nat} (hnode : p.node? index = some (.define name parameters))
    (hclose : p.closing? (index + 1) false = some finish) :
    Ready p known { m with state := { m.state with
      functions := m.state.functions.insert name ⟨index, finish, parameters⟩
      pointer := finish + 1 } } := by
  obtain ⟨hle, hlt⟩ := Program.closing?_bounds hclose
  refine ⟨⟨hlt, h.returns, ?_, ?_⟩, ?_⟩
  · intro frame hmem
    exact contains_insert (h.callees frame hmem) _ _
  · intro other entry hget
    simp only [Table.get?_insert] at hget
    split at hget
    · rename_i heq
      cases hget
      rw [heq]
      exact ⟨hnode, hclose, hle, hlt⟩
    · exact h.functions other entry hget
  · intro other hmem
    exact contains_insert (h.known other hmem) _ _

theorem Ready.cons (h : Ready p known m) {name : String} {entry : FunctionEntry}
    (hentry : m.state.functions.get? name = some entry) : Ready p (name :: known) m := by
  refine ⟨h.toSound, fun other hmem => ?_⟩
  rcases List.mem_cons.1 hmem with rfl | hmem
  · rw [Table.contains, hentry]; rfl
  · exact h.known other hmem

theorem Ready.enter {name : String} (h : Ready p (name :: known) m) {entry : FunctionEntry}
    (hdef : p.Defines name entry) (values : List Number) :
    Ready p known (m.enter name entry values) := by
  have hstart : entry.start + 1 ≤ p.length :=
    Nat.le_of_lt (Nat.lt_of_le_of_lt hdef.start_lt hdef.finish_lt)
  refine ⟨⟨hstart, ?_, ?_, h.functions⟩, ?_⟩
  · intro frame hmem
    rcases List.mem_cons.1 hmem with rfl | hmem
    · exact h.pointer
    · exact h.returns frame hmem
  · intro frame hmem
    rcases List.mem_cons.1 hmem with rfl | hmem
    · exact h.known name List.mem_cons_self
    · exact h.callees frame hmem
  · intro other hmem
    exact h.known other (List.mem_cons_of_mem _ hmem)

theorem ready_initial (p : Program) (input : I) (sink : W) :
    Ready p [] (⟨.initial, input, sink⟩ : Machine W I) := by
  refine ⟨⟨Nat.zero_le _, ?_, ?_, ?_⟩, ?_⟩
  · intro frame hmem; cases hmem
  · intro frame hmem; cases hmem
  · intro name entry hget; cases hget
  · intro name hmem; cases hmem

variable [Writer W] [LineSource I]

theorem closed_ready (p : Program) :
    Closed p fun m m' : Machine W I => ∀ known, Ready p known m → Ready p known m' where
  refl _ _ h := h
  trans h h' known hm := h' known (h known hm)
  jump ht _ h := h.of_eq ht rfl rfl
  stack _ _ _ h := h.of_eq h.pointer rfl rfl
  lastValue _ _ _ h := h.of_eq h.pointer rfl rfl
  written _ _ _ h := h.of_eq h.pointer rfl rfl
  flushed _ _ h := h.of_eq h.pointer rfl rfl
  read _ _ h := h.of_eq h.pointer rfl rfl
  assign _ name value _ h := h.assign name value
  halt _ _ h := h.of_eq (Nat.le_refl _) rfl rfl
  giveBack value hf _ h := h.giveBack value hf
  define hnode hclose _ h := h.define hnode hclose
  enter values hargs hentry _ h :=
    (hargs _ (h.cons hentry)).enter (h.functions _ _ hentry) values

/-- The machines that steps, runs and evaluations of any expressions lead to, in any order, from a
machine that has not run. A fault leaves a machine as well, and what comes after goes on from it. -/
inductive Reachable (setup : Setup) : Machine W I → Prop where
  | initial (input : I) (sink : W) : Reachable setup ⟨.initial, input, sink⟩
  | step {m m' : Machine W I} {fuel : Nat} : Reachable setup m →
      Machine.step setup fuel m = .done () m' → Reachable setup m'
  | stepFault {m m' : Machine W I} {fuel : Nat} {cause : Located Fault} : Reachable setup m →
      Machine.step setup fuel m = .fault cause m' → Reachable setup m'
  | run {m m' : Machine W I} {fuel : Nat} : Reachable setup m →
      Machine.run setup fuel m = .done () m' → Reachable setup m'
  | runFault {m m' : Machine W I} {fuel : Nat} {cause : Located Fault} : Reachable setup m →
      Machine.run setup fuel m = .fault cause m' → Reachable setup m'
  | eval {m m' : Machine W I} {fuel : Nat} {node : Node} {place : Position} {value : Number} :
      Reachable setup m → Machine.eval setup fuel node place m = .done value m' →
      Reachable setup m'
  | evalFault {m m' : Machine W I} {fuel : Nat} {node : Node} {place : Position}
      {cause : Located Fault} : Reachable setup m →
      Machine.eval setup fuel node place m = .fault cause m' → Reachable setup m'

theorem Reachable.ready {setup : Setup} (h : Reachable setup m) : Ready setup.program [] m := by
  have hclosed := closed_ready (W := W) (I := I) setup.program
  induction h with
  | initial input sink => exact ready_initial setup.program input sink
  | @step m _ fuel _ hs ih =>
    have hleaves := (hclosed.preserves fuel).step m
    rw [hs] at hleaves
    exact hleaves _ ih
  | @stepFault m _ fuel _ _ hs ih =>
    have hleaves := (hclosed.preserves fuel).step m
    rw [hs] at hleaves
    exact hleaves _ ih
  | @run m _ fuel _ hr ih =>
    have hleaves := hclosed.run fuel m
    rw [hr] at hleaves
    exact hleaves _ ih
  | @runFault m _ fuel _ _ hr ih =>
    have hleaves := hclosed.run fuel m
    rw [hr] at hleaves
    exact hleaves _ ih
  | @eval m _ fuel node place _ _ he ih =>
    have hleaves := (hclosed.preserves fuel).eval node place m
    rw [he] at hleaves
    exact hleaves _ ih
  | @evalFault m _ fuel node place _ _ he ih =>
    have hleaves := (hclosed.preserves fuel).eval node place m
    rw [he] at hleaves
    exact hleaves _ ih

/-- In every reachable machine the pointer and the return addresses are in the program or just past
it, every call in progress is of a function of the table, and every entry of the table is a
definition that stands in the program with its closing `break` after it. -/
theorem reachable_sound {setup : Setup} (h : Reachable setup m) : m.Sound setup.program :=
  h.ready.toSound

end Machine

/-- A writer of which it is laid down how each of the coming requests ends. -/
structure Outages where
  coming : List (Option ChannelFault)
  written : String := ""
  deriving DecidableEq, Repr

namespace Outages

/-- A text that fails is not written. -/
def write (w : Outages) (text : String) : Option ChannelFault × Outages :=
  match w.coming with
  | some fault :: rest => (some fault, { w with coming := rest })
  | rest => (none, ⟨rest.tail, w.written ++ text⟩)

def flush (w : Outages) : Option ChannelFault × Outages :=
  (w.coming.headD none, { w with coming := w.coming.tail })

instance : Writer Outages := ⟨write, flush⟩

end Outages

namespace Machine

/-- A function that writes two line feeds. -/
def scrollingTwice : Program := .ofNodes
  [.define "f" [], .keyword .scroll, .keyword .scroll, .keyword .break, .call "f" []]

/-- The first text fails amid a call, which is left in progress. A second run goes on from there, and
the writer works again. -/
theorem sound_amid_faulted_call :
    ∃ m m' : Machine Outages, Reachable ⟨scrollingTwice, 1⟩ m ∧ m.state.frames = [⟨"f", 5, {}⟩] ∧
      m.state.functions.get? "f" = some ⟨0, 3, []⟩ ∧ m.Sound scrollingTwice ∧
      run ⟨scrollingTwice, 1⟩ 9 m = .done () m' ∧ m'.sink.written = "\n" ∧
      m'.Sound scrollingTwice := by
  have h := @Reachable.runFault Outages Input _ _ ⟨scrollingTwice, 1⟩ _ _ 9 _
    (.initial [] ⟨[some ⟨"outage"⟩], ""⟩) rfl
  have h' := @Reachable.run _ _ _ _ _ _ _ 9 h rfl
  exact ⟨_, _, h, rfl, rfl, reachable_sound h, rfl, rfl, reachable_sound h'⟩

end Machine
end VerbScript
