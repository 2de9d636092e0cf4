import Mathlib.Data.List.Induction
import VerbScript.Machine.Outcome

/-!
# VerbScript.Proofs.Locals

What a call assigns to its own variables is gone when the call is.

A name is local to a call if the call begins with a value for it, or if there is no global variable
of this name (`State.isLocal`). Assignments do not change which names are local: a local name is
never written to the globals, and any other name never to the scope of the call. So the scope and the
globals after any assignments are known name by name (`State.Split`), which one assignment preserves
(`State.Split.assign`) and any list of them establishes (`State.assignAll_split`).
`Machine.giveBack_assignAll` says what is left of them when the call has ended.
-/

namespace VerbScript

variable {W I : Type}

namespace State

/-- Carries out assignments one after another. -/
def assignAll (s : State) (writes : List (String × Number)) : State :=
  writes.foldl (fun s write => s.assign write.1 write.2) s

/-- The value that the last assignment to a name gives to it. -/
def lastWrite? (writes : List (String × Number)) (name : String) : Option Number :=
  writes.reverse.lookup name

theorem assignAll_concat (s : State) (writes : List (String × Number)) (write : String × Number) :
    s.assignAll (writes ++ [write]) = (s.assignAll writes).assign write.1 write.2 :=
  List.foldl_append ..

theorem lastWrite?_concat (writes : List (String × Number)) (write : String × Number)
    (name : String) :
    lastWrite? (writes ++ [write]) name =
      if name = write.1 then some write.2 else lastWrite? writes name := by
  obtain ⟨key, value⟩ := write
  by_cases h : name = key
  · simp [lastWrite?, h]
  · simp [lastWrite?, List.lookup_cons, beq_eq_false_iff_ne.2 h, h]

/-- Whether a name belongs to a call that begins with this frame. -/
def isLocal (s : State) (frame : Frame) (name : String) : Bool :=
  frame.scope.contains name || !s.globals.contains name

/-- The state in a call that `s` has begun with the frame, with other variables in scope. -/
def during (s : State) (frame : Frame) (scope globals : Table Number) : State :=
  { s with frames := { frame with scope := scope } :: s.frames, globals := globals }

/-- The values after assignments in a call: local names have theirs in the scope only, and the others
in the globals only. -/
structure Split (s : State) (frame : Frame) (writes : List (String × Number))
    (scope globals : Table Number) : Prop where
  scope_local : ∀ name, s.isLocal frame name = true →
    scope.get? name = (lastWrite? writes name).or (frame.scope.get? name)
  globals_local : ∀ name, s.isLocal frame name = true → globals.get? name = s.globals.get? name
  scope_global : ∀ name, s.isLocal frame name = false → scope.get? name = none
  globals_global : ∀ name, s.isLocal frame name = false →
    globals.get? name = (lastWrite? writes name).or (s.globals.get? name)

section

variable {s : State} {frame : Frame} {writes : List (String × Number)} {scope globals : Table Number}

/-- A name without a value in the scope is local only if it is no global name. -/
theorem Split.isLocal_eq (h : Split s frame writes scope globals) (name : String) :
    (scope.contains name || !globals.contains name) = s.isLocal frame name := by
  cases hlocal : s.isLocal frame name with
  | true =>
    rw [Table.contains, Table.contains, h.scope_local name hlocal, h.globals_local name hlocal]
    rw [isLocal, Table.contains, Table.contains, Bool.or_eq_true] at hlocal
    cases lastWrite? writes name with
    | some value => rfl
    | none => simpa using hlocal
  | false =>
    rw [Table.contains, Table.contains, h.scope_global name hlocal, h.globals_global name hlocal]
    obtain ⟨-, hglobal⟩ := Bool.or_eq_false_iff.1 hlocal
    rw [Table.contains, Bool.not_eq_false'] at hglobal
    cases lastWrite? writes name with
    | some value => rfl
    | none => simpa using hglobal

/-- An assignment goes where its name belongs. -/
theorem Split.assign (h : Split s frame writes scope globals) (write : String × Number) :
    ∃ scope' globals', (s.during frame scope globals).assign write.1 write.2 =
        s.during frame scope' globals' ∧
      Split s frame (writes ++ [write]) scope' globals' := by
  obtain ⟨key, value⟩ := write
  simp only [State.assign, during, h.isLocal_eq key]
  cases hkey : s.isLocal frame key with
  | true =>
    have hother : ∀ name, s.isLocal frame name = false → name ≠ key := by
      rintro _ hname rfl
      exact Bool.false_ne_true (hname.symm.trans hkey)
    refine ⟨scope.insert key value, globals, rfl, ⟨?_, h.globals_local, ?_, ?_⟩⟩
    · intro name hlocal
      rw [Table.get?_insert, lastWrite?_concat, h.scope_local name hlocal]
      split <;> rfl
    · intro name hglobal
      rw [Table.get?_insert, if_neg (hother name hglobal), h.scope_global name hglobal]
    · intro name hglobal
      rw [lastWrite?_concat, if_neg (hother name hglobal), h.globals_global name hglobal]
  | false =>
    have hother : ∀ name, s.isLocal frame name = true → name ≠ key := by
      rintro _ hname rfl
      exact Bool.false_ne_true (hkey.symm.trans hname)
    refine ⟨scope, globals.insert key value, rfl, ⟨?_, ?_, h.scope_global, ?_⟩⟩
    · intro name hlocal
      rw [lastWrite?_concat, if_neg (hother name hlocal), h.scope_local name hlocal]
    · intro name hlocal
      rw [Table.get?_insert, if_neg (hother name hlocal), h.globals_local name hlocal]
    · intro name hglobal
      rw [Table.get?_insert, lastWrite?_concat, h.globals_global name hglobal]
      split <;> rfl

theorem split_nil (s : State) (frame : Frame) : Split s frame [] frame.scope s.globals where
  scope_local _ _ := rfl
  globals_local _ _ := rfl
  scope_global name h := by simpa [Table.contains] using (Bool.or_eq_false_iff.1 h).1
  globals_global _ _ := rfl

/-- All assignments of a call leave its names apart from the global ones. -/
theorem assignAll_split (s : State) (frame : Frame) (writes : List (String × Number)) :
    ∃ scope globals, (s.pushFrame frame).assignAll writes = s.during frame scope globals ∧
      Split s frame writes scope globals := by
  induction writes using List.reverseRecOn with
  | nil => exact ⟨frame.scope, s.globals, rfl, split_nil s frame⟩
  | append_singleton writes write ih =>
    obtain ⟨scope, globals, hstate, hsplit⟩ := ih
    obtain ⟨scope', globals', hassign, hsplit'⟩ := hsplit.assign write
    exact ⟨scope', globals', by rw [assignAll_concat, hstate, hassign], hsplit'⟩

theorem Split.lookup (h : Split s frame writes scope globals) (name : String) :
    (s.during frame scope globals).lookup name =
      (lastWrite? writes name).or ((frame.scope.get? name).or (s.globals.get? name)) := by
  have hlookup : (s.during frame scope globals).lookup name =
      (scope.get? name).or (globals.get? name) := by
    simp only [State.lookup, during]
    cases scope.get? name <;> rfl
  rw [hlookup]
  cases hlocal : s.isLocal frame name with
  | true => rw [h.scope_local name hlocal, h.globals_local name hlocal, Option.or_assoc]
  | false =>
    have hscope : frame.scope.get? name = none := (split_nil s frame).scope_global name hlocal
    rw [h.scope_global name hlocal, h.globals_global name hlocal, hscope, Option.none_or,
      Option.none_or]

theorem Split.contains_globals (h : Split s frame writes scope globals) (name : String) :
    globals.contains name = s.globals.contains name := by
  cases hlocal : s.isLocal frame name with
  | true => rw [Table.contains, Table.contains, h.globals_local name hlocal]
  | false =>
    obtain ⟨-, hglobal⟩ := Bool.or_eq_false_iff.1 hlocal
    rw [Bool.not_eq_false'] at hglobal
    rw [hglobal, Table.contains, h.globals_global name hlocal]
    cases lastWrite? writes name with
    | some value => rfl
    | none => exact hglobal

/-- A global variable that the call does not hide has the value last assigned to it. -/
theorem Split.globals_get? (h : Split s frame writes scope globals) (name : String) :
    globals.get? name = (s.globals.get? name).map fun before =>
      if frame.scope.contains name then before else (lastWrite? writes name).getD before := by
  cases hlocal : s.isLocal frame name with
  | true =>
    rw [h.globals_local name hlocal]
    cases hbefore : s.globals.get? name with
    | none => rfl
    | some before =>
      have hscope : frame.scope.contains name = true := by
        simpa [isLocal, Table.contains, hbefore] using hlocal
      rw [Option.map_some, if_pos hscope]
  | false =>
    obtain ⟨hscope, hglobal⟩ := Bool.or_eq_false_iff.1 hlocal
    rw [Table.contains, Bool.not_eq_false'] at hglobal
    obtain ⟨before, hbefore⟩ := Option.isSome_iff_exists.1 hglobal
    rw [h.globals_global name hlocal, hbefore, Option.map_some, hscope]
    cases lastWrite? writes name <;> rfl

end

end State

open State (lastWrite?)

namespace Machine

/-- When a call ends, all that is left of its assignments are the values last assigned to global
variables that it did not hide: every other global variable has the value from before the call, and
the frames below and the names of the globals are those from before it. During the call a variable
has the value last assigned to it, else the one that the call began with, else that of the global
variable. -/
theorem giveBack_assignAll (m : Machine W I) (frame : Frame) (writes : List (String × Number))
    (value : Number) (place : Position) :
    (∃ globals,
      { m with state := (m.state.pushFrame frame).assignAll writes }.giveBack value place =
        .done value { m with state := { m.state with
          globals := globals, pointer := frame.returnAddress, lastReturn := value } } ∧
      ∀ name, globals.contains name = m.state.globals.contains name ∧
        globals.get? name = (m.state.globals.get? name).map fun before =>
          if frame.scope.contains name then before
          else (lastWrite? writes name).getD before) ∧
    ∀ count name, ((m.state.pushFrame frame).assignAll (writes.take count)).lookup name =
      (lastWrite? (writes.take count) name).or
        ((frame.scope.get? name).or (m.state.globals.get? name)) := by
  constructor
  · obtain ⟨scope, globals, hstate, hsplit⟩ := m.state.assignAll_split frame writes
    refine ⟨globals, ?_, fun name => ⟨hsplit.contains_globals name, hsplit.globals_get? name⟩⟩
    rw [hstate]
    rfl
  · intro count name
    obtain ⟨scope, globals, hstate, hsplit⟩ := m.state.assignAll_split frame (writes.take count)
    rw [hstate, hsplit.lookup]

/-- In a call that begins with a value for `p`, a global variable as well, assignments to `p` and to
the new name `n` are gone in the end, and the global `g` keeps the second value it is given. -/
example :
    let m : Machine := { state := { globals := ⟨[("p", 1), ("g", 2)]⟩ } }
    let frame : Frame := ⟨"f", 0, ⟨[("p", 3)]⟩⟩
    let s := (m.state.pushFrame frame).assignAll [("p", 4), ("g", 5), ("n", 6), ("g", 7)]
    s.lookup "p" = some 4 ∧ s.lookup "n" = some 6 ∧
      { m with state := s }.giveBack 0 {} =
        .done 0 { m with state := { globals := ⟨[("p", 1), ("g", 7)]⟩ } } :=
  ⟨rfl, rfl, rfl⟩

end Machine
end VerbScript
