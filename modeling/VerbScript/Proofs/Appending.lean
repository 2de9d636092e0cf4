import VerbScript.Proofs.HostStack
import VerbScript.Proofs.Lockstep
import VerbScript.Proofs.Reachable

/-!
# VerbScript.Proofs.Appending

Code that is appended to a program does not change what the program does.

The program's end is looked at in many ways: blocks and labels are searched up to it, an operand may
be missing there, a body may run past it, and a program that ends itself jumps to it. Where a program
ends normally all of them have an answer in the program itself, and the longer program has the same
one. Only after the end of the program the pointers differ (`Machine.Alike`), and nothing asks about
them any more.

* `lockstep_append`: a program and the program with code appended to it keep pace.
* `run_append`: the run of the longer program comes by the state in which the shorter one ended, or
  ends itself in the same way.
-/

namespace VerbScript

variable {W I : Type}

/-! ## What the longer program answers -/

namespace Program

variable {p : Program} (q : Program)

theorem node?_extend {i : Nat} (h : i < p.length) : (p ++ q).node? i = p.node? i := by
  rw [node?, node?, List.getElem?_append_left h]

theorem closingOffset?_extend {acceptElse : Bool} {depth offset : Nat} {l : List (Located Node)}
    (h : closingOffset? acceptElse depth l = some offset) :
    closingOffset? acceptElse depth (l ++ q) = some offset := by
  induction l generalizing depth offset with
  | nil => cases h
  | cons instruction rest ih =>
    have later : ∀ depth, (closingOffset? acceptElse depth rest).map (· + 1) = some offset →
        (closingOffset? acceptElse depth (rest ++ q)).map (· + 1) = some offset := by
      intro depth h
      obtain ⟨n, hn, rfl⟩ := Option.map_eq_some_iff.1 h
      rw [ih hn]
      rfl
    simp only [List.cons_append, closingOffset?] at h ⊢
    split
    · rename_i hrole
      simp only [hrole] at h
      exact later _ h
    · rename_i hrole
      simp only [hrole] at h
      cases depth with
      | zero => exact h
      | succ depth => exact later _ h
    · rename_i hrole
      simp only [hrole] at h
      split
      · rename_i hhere
        rwa [if_pos hhere] at h
      · rename_i hhere
        rw [if_neg hhere] at h
        exact later _ h
    · rename_i hrole
      simp only [hrole] at h
      exact later _ h

theorem closing?_extend {start target : Nat} {acceptElse : Bool}
    (h : p.closing? start acceptElse = some target) :
    (p ++ q).closing? start acceptElse = some target := by
  unfold closing? at h ⊢
  obtain ⟨offset, hoffset, rfl⟩ := Option.map_eq_some_iff.1 h
  have hstart : start ≤ p.length := by
    by_contra hlate
    rw [List.drop_eq_nil_of_le (by omega)] at hoffset
    cases hoffset
  rw [List.drop_append_of_le_length hstart, closingOffset?_extend q hoffset]
  rfl

theorem labelOffset?_extend {skipped offset : Nat} {l : List (Located Node)}
    (h : labelOffset? skipped l = some offset) : labelOffset? skipped (l ++ q) = some offset := by
  induction l generalizing skipped offset with
  | nil => cases h
  | cons instruction rest ih =>
    have later : ∀ skipped, (labelOffset? skipped rest).map (· + 1) = some offset →
        (labelOffset? skipped (rest ++ q)).map (· + 1) = some offset := by
      intro skipped h
      obtain ⟨n, hn, rfl⟩ := Option.map_eq_some_iff.1 h
      rw [ih hn]
      rfl
    simp only [List.cons_append, labelOffset?] at h ⊢
    split
    · rename_i hlabel
      rw [if_pos hlabel] at h
      cases skipped with
      | zero => exact h
      | succ skipped => exact later _ h
    · rename_i hlabel
      rw [if_neg hlabel] at h
      exact later _ h

theorem label?_extend {n target : Nat} (h : p.label? n = some target) :
    (p ++ q).label? n = some target := by
  cases n with
  | zero => cases h
  | succ n => exact labelOffset?_extend q h

theorem loopGuard?_extend {check : Nat} (h : check < p.length) :
    (p ++ q).loopGuard? check = p.loopGuard? check := by
  unfold loopGuard?
  split
  · rw [node?_extend q (by omega)]
  · rfl

theorem enclosingBefore?_extend (skipConditionals : Bool) (depth : Nat)
    (before : List (Located Node)) (h : before.length ≤ p.length) :
    enclosingBefore? (p ++ q) skipConditionals depth before
      = enclosingBefore? p skipConditionals depth before := by
  induction before generalizing depth with
  | nil => rfl
  | cons instruction before ih =>
    have hlt : before.length < p.length := h
    have hopened : (p ++ q).opened before.length instruction.value
        = p.opened before.length instruction.value := by
      simp only [opened, loopGuard?_extend q hlt]
    simp only [enclosingBefore?, hopened, fun depth => ih depth (Nat.le_of_lt hlt)]

theorem enclosing?_extend {i : Nat} (skipConditionals : Bool) (h : i < p.length) :
    (p ++ q).enclosing? i skipConditionals = p.enclosing? i skipConditionals := by
  unfold enclosing?
  rw [List.take_append_of_le_length (Nat.le_of_lt h)]
  exact enclosingBefore?_extend q _ _ _ (by simp)

end Program

/-! ## Machines that differ in their pointers -/

/-- The frames differ at most in where the caller goes on. -/
structure Frame.Alike (frame frame' : Frame) : Prop where
  function : frame'.function = frame.function
  scope : frame'.scope = frame.scope

namespace Machine

/-- The machines differ at most in where they point to, and only after the end of the program. -/
inductive Alike (m : Machine W I) : Machine W I → Prop where
  | mk {pointer : Nat} {frames : List Frame}
      (hframes : List.Forall₂ Frame.Alike m.state.frames frames)
      (hlive : m.state.halted = false → pointer = m.state.pointer ∧ frames = m.state.frames) :
      Alike m { m with state := { m.state with pointer := pointer, frames := frames } }

namespace Alike

variable {m m' : Machine W I}

theorem refl (m : Machine W I) : Alike m m :=
  @mk _ _ m m.state.pointer m.state.frames
    (List.forall₂_same.2 fun _ _ => ⟨rfl, rfl⟩) fun _ => ⟨rfl, rfl⟩

theorem eq_of_live (h : Alike m m') (hlive : m.state.halted = false) : m' = m := by
  obtain ⟨-, hsame⟩ := h
  obtain ⟨rfl, rfl⟩ := hsame hlive
  rfl

theorem lookup (h : Alike m m') (name : String) : m'.state.lookup name = m.state.lookup name := by
  obtain ⟨hframes, -⟩ := h
  simp only [State.lookup]
  generalize m.state.frames = frames at hframes ⊢
  cases hframes with
  | nil => rfl
  | cons hframe _ => simp only [hframe.scope]

theorem assign (h : Alike m m') (name : String) (value : Number) :
    Alike (m.assign name value) (m'.assign name value) := by
  cases hlive : m.state.halted with
  | false =>
    rw [h.eq_of_live hlive]
    exact .refl _
  | true =>
    obtain ⟨hframes, -⟩ := h
    have hended : ∀ {P : Prop}, m.state.halted = false → P := by simp [hlive]
    simp only [Machine.assign, State.assign]
    cases hf : m.state.frames with
    | nil =>
      rw [hf] at hframes
      cases hframes
      exact @mk _ _ { m with state := { m.state with
        globals := m.state.globals.insert name value, frames := [] } } _ _ .nil hended
    | cons frame rest =>
      rw [hf] at hframes
      obtain _ | ⟨hframe, hrest⟩ := hframes
      simp only [hframe.scope]
      split
      · exact @mk _ _ { m with state := { m.state with frames := _ :: rest } } _ _
          (.cons ⟨hframe.function, rfl⟩ hrest) hended
      · exact @mk _ _ { m with state := { m.state with
          globals := m.state.globals.insert name value, frames := frame :: rest } } _ _
          (.cons hframe hrest) hended

theorem giveBack (h : Alike m m') {frame frame' : Frame} {rest rest' : List Frame} (value : Number)
    (hf : m.state.frames = frame :: rest) (hf' : m'.state.frames = frame' :: rest') :
    Alike
      { m with state := { m.state with
          frames := rest, pointer := frame.returnAddress, lastReturn := value } }
      { m' with state := { m'.state with
          frames := rest', pointer := frame'.returnAddress, lastReturn := value } } := by
  obtain ⟨hframes, hlive⟩ := h
  simp only at hf'
  subst hf'
  rw [hf] at hframes hlive
  obtain _ | ⟨-, hrest⟩ := hframes
  refine @mk _ _ { m with state := { m.state with
    frames := rest, pointer := frame.returnAddress, lastReturn := value } } _ _ hrest fun h => ?_
  obtain ⟨-, hsame⟩ := hlive h
  cases hsame
  exact ⟨rfl, rfl⟩

theorem enter (h : Alike m m') (name : String) (entry : FunctionEntry) (values : List Number) :
    Alike (m.enter name entry values) (m'.enter name entry values) := by
  obtain ⟨hframes, hlive⟩ := h
  refine @mk _ _ (m.enter name entry values) _ _ (.cons ⟨rfl, rfl⟩ hframes) fun h => ?_
  obtain ⟨rfl, rfl⟩ := hlive h
  exact ⟨rfl, rfl⟩

end Alike

end Machine

/-- The runs of a program and of a longer one: nothing is asked of the longer one once the program
has failed. -/
def appending : Pairing W I where
  place := Eq
  machine := Machine.Alike
  excused _ := True

theorem programs_append (p q : Program) : (appending : Pairing W I).Programs p (p ++ q) where
  fetch hi := by
    have hlt := (List.getElem?_eq_some_iff.1 hi).1
    exact ⟨_, by rw [List.getElem?_append_left hlt, hi], rfl⟩
  length_le := by simp
  length := .inl fun _ => trivial
  closing start acceptElse := by
    cases h : p.closing? start acceptElse with
    | some target => exact .inl (Program.closing?_extend q h)
    | none => exact .inr ⟨rfl, fun _ => trivial⟩
  enclosing skipConditionals h := Program.enclosing?_extend q skipConditionals h
  loopGuard h := Program.loopGuard?_extend q h
  label n := by
    cases h : p.label? n with
    | some target => exact .inl (Program.label?_extend q h)
    | none => exact .inr ⟨rfl, fun _ => trivial⟩
  labelCount := .inl fun _ => trivial

variable [Writer W] [LineSource I]

theorem machines_appending (length length' : Nat) :
    (appending : Pairing W I).Machines length length' where
  lookup h := h.lookup
  lastValue := by rintro _ _ ⟨-, -⟩; rfl
  lastReturn := by rintro _ _ ⟨-, -⟩; rfl
  stack := by rintro _ _ ⟨-, -⟩; rfl
  functions := by rintro _ _ ⟨-, -⟩; rfl
  depth := by rintro _ _ ⟨hframes, -⟩; exact hframes.length_eq.symm
  halted := by rintro _ _ ⟨-, -⟩; rfl
  pointer h hlive := by rw [h.eq_of_live hlive]
  sink := by rintro _ _ ⟨-, -⟩; rfl
  jump := by rintro m _ ⟨hframes, hlive⟩ target; exact .mk hframes fun h => ⟨rfl, (hlive h).2⟩
  setStack := by rintro m _ ⟨hframes, hlive⟩ stack; exact .mk hframes hlive
  setLastValue := by rintro m _ ⟨hframes, hlive⟩ value; exact .mk hframes hlive
  setSink := by rintro m _ ⟨hframes, hlive⟩ sink; exact .mk hframes hlive
  assign h := h.assign
  halt := by rintro m _ ⟨hframes, hlive⟩; exact .mk hframes (by simp [Machine.halt])
  giveBack h value hf hf' := h.giveBack value hf hf'
  define := by
    rintro m _ ⟨hframes, hlive⟩ name entry target
    exact .mk hframes fun h => ⟨rfl, (hlive h).2⟩
  enter h := h.enter
  readLine := by
    rintro m _ place place' ⟨hframes, hlive⟩ hplace
    refine Machine.readLine_paired ?_ ?_ (fun input sink => ?_) hplace
    · rfl
    · rfl
    · exact Machine.Alike.mk hframes hlive

theorem lockstep_append (p q : Program) (limit : Nat) :
    Lockstep (appending : Pairing W I) ⟨p, limit⟩ ⟨p ++ q, limit⟩ where
  machines := machines_appending _ _
  programs := programs_append p q
  limit_le := Nat.le_refl _
  limit := .inr rfl

namespace Machine

open Activity

/-! ## Whole runs -/

theorem run_finished {setup : Setup} {fuel : Nat} {m m' : Machine}
    (h : run setup fuel m = .done () m') : m'.isFinished setup = true := by
  induction fuel generalizing m with
  | zero => simp [run] at h
  | succ fuel ih =>
    cases hf : m.isFinished setup with
    | true =>
      simp only [run, hf, ↓reduceIte] at h
      rw [flush_eq_done_of_sink h, hf]
    | false =>
      rw [run_active hf] at h
      obtain ⟨_, m₁, -, h⟩ := Outcome.andThen_eq_done h
      exact ih h

theorem run_halted {setup : Setup} {fuel : Nat} {m m' : Machine} (hm : m.state.halted = true)
    (h : run setup fuel m = .done () m') : m' = m := by
  cases fuel with
  | zero => simp [run] at h
  | succ fuel =>
    simp only [run, isFinished, hm, Bool.true_or, ↓reduceIte] at h
    exact flush_eq_done_of_sink h

/-- After the end of the program only the output is flushed, whatever the program is. -/
theorem run_alike_halted {setup setup' : Setup} {fuel : Nat} {m m' m₁ : Machine}
    (halike : Alike m m') (hm : m.state.halted = true) (h : run setup fuel m = .done () m₁) :
    run setup' fuel m' = .done () m' := by
  obtain ⟨-, -⟩ := halike
  cases fuel with
  | zero => simp [run] at h
  | succ fuel =>
    simp only [run, isFinished, hm, Bool.true_or, ↓reduceIte, flush, onSink] at h ⊢
    split at h
    · rfl
    · cases h

/-- What a round of the run does, the longer program does as well. -/
theorem step_append {p q : Program} {limit fuel : Nat} {m m₁ : Machine}
    (hf : m.isFinished ⟨p, limit⟩ = false) (h : step ⟨p, limit⟩ fuel m = .done () m₁) :
    m.isFinished ⟨p ++ q, limit⟩ = false ∧
      ∃ m₁', step ⟨p ++ q, limit⟩ fuel m = .done () m₁' ∧ Alike m₁ m₁' := by
  simp only [isFinished, Bool.or_eq_false_iff, decide_eq_false_iff_not, Nat.not_le] at hf ⊢
  obtain ⟨hlive, hend⟩ := hf
  refine ⟨⟨hlive, by rw [List.length_append]; omega⟩, ?_⟩
  have hpaired := ((lockstep_append p q limit).inStep fuel).step (Alike.refl m) hlive hend
  rw [h] at hpaired
  exact hpaired

/-- A run that does not end itself is a part of the run of the longer program. -/
theorem inProgress_append {p q : Program} {limit fuel : Nat} {start m m' : Machine}
    (hstart : InProgress ⟨p ++ q, limit⟩ start [.run m])
    (h : run ⟨p, limit⟩ fuel m = .done () m') (hlive : m'.state.halted = false) :
    InProgress ⟨p ++ q, limit⟩ start [.run m'] := by
  induction fuel generalizing m with
  | zero => simp [run] at h
  | succ fuel ih =>
    cases hf : m.isFinished ⟨p, limit⟩ with
    | true =>
      simp only [run, hf, ↓reduceIte] at h
      rw [flush_eq_done_of_sink h]
      exact hstart
    | false =>
      rw [run_active hf] at h
      obtain ⟨_, m₁, hs, h⟩ := Outcome.andThen_eq_done h
      obtain ⟨hf', m₁', hs', halike⟩ := step_append (q := q) hf hs
      have hlive₁ : m₁.state.halted = false := by
        by_contra hended
        rw [run_halted (by simpa using hended) h] at hlive
        exact hended hlive
      rw [halike.eq_of_live hlive₁] at hs'
      exact ih (hstart.goesOn (.run hf' hs')) h

/-- A run that ends itself does so in the longer program. -/
theorem run_append_halted {p q : Program} {limit fuel : Nat} {m m' : Machine}
    (h : run ⟨p, limit⟩ fuel m = .done () m') (hhalted : m'.state.halted = true) :
    ∃ m'', run ⟨p ++ q, limit⟩ fuel m = .done () m'' ∧ Alike m' m'' := by
  induction fuel generalizing m with
  | zero => simp [run] at h
  | succ fuel ih =>
    cases hf : m.isFinished ⟨p, limit⟩ with
    | true =>
      have heq : m' = m := by
        simp only [run, hf, ↓reduceIte] at h
        exact flush_eq_done_of_sink h
      subst heq
      exact ⟨m', run_alike_halted (.refl m') hhalted h, .refl m'⟩
    | false =>
      rw [run_active hf] at h
      obtain ⟨_, m₁, hs, h⟩ := Outcome.andThen_eq_done h
      obtain ⟨hf', m₁', hs', halike⟩ := step_append (q := q) hf hs
      rw [run_active hf', hs']
      cases hm₁ : m₁.state.halted with
      | true =>
        rw [run_halted hm₁ h]
        exact ⟨m₁', run_alike_halted halike hm₁ h, halike⟩
      | false =>
        rw [halike.eq_of_live hm₁]
        exact ih h

/-- If a program runs to its end, the run of a longer program that begins with it comes by the very
machine that is then left. If a program ends itself, so does the longer one, having done and left
the same. -/
theorem run_append (p q : Program) (limit fuel : Nat) (input : Input) (sink : Sink) {m : Machine}
    (h : run ⟨p, limit⟩ fuel ⟨.initial, input, sink⟩ = .done () m) :
    (m.state.halted = false → m.state.pointer = p.length ∧
      InProgress ⟨p ++ q, limit⟩ ⟨.initial, input, sink⟩ [.run m]) ∧
    (m.state.halted = true →
      ∃ m', run ⟨p ++ q, limit⟩ fuel ⟨.initial, input, sink⟩ = .done () m' ∧
        m'.state.halted = true ∧ m'.sink = m.sink ∧ m'.input = m.input ∧
        m'.state.globals = m.state.globals ∧ m'.state.functions = m.state.functions ∧
        m'.state.stack = m.state.stack ∧ m'.state.lastValue = m.state.lastValue) := by
  constructor
  · intro hlive
    refine ⟨Nat.le_antisymm ?_ ?_, inProgress_append .start h hlive⟩
    · exact (Reachable.run (.initial input sink) h).ready.pointer
    · have hfinished := run_finished h
      simpa [isFinished, hlive] using hfinished
  · intro hhalted
    obtain ⟨m', hrun, halike⟩ := run_append_halted (q := q) h hhalted
    obtain ⟨-, -⟩ := halike
    exact ⟨_, hrun, hhalted, rfl, rfl, rfl, rfl, rfl, rfl⟩

/-- A call that starts a new line. -/
def scrollsInCall : Program := .ofNodes
  [.define "f" [], .keyword .scroll, .keyword .break, .call "f" []]

/-- A call in whose argument the program ends itself. -/
def burnsInArgument : Program := .ofNodes
  [.define "f" [], .keyword .burn, .keyword .break, .define "g" ["a"], .keyword .break,
    .call "g" [.call "f" []]]

theorem run_append_load :
    (∃ m, run ⟨scrollsInCall, 1⟩ 20 {} = .done () m ∧ m.sink.written = "\n" ∧
      m.state.pointer = 4 ∧
      InProgress ⟨scrollsInCall ++ [⟨.keyword .load, {}⟩], 1⟩ {} [.run m]) ∧
    ∃ m m', run ⟨burnsInArgument, 1⟩ 20 {} = .done () m ∧
      run ⟨burnsInArgument ++ [⟨.keyword .load, {}⟩], 1⟩ 20 {} = .done () m' ∧
      m'.state.functions = m.state.functions ∧ m.state.frames.length = 2 := by
  obtain ⟨m, hrun, hlive, hwritten⟩ : ∃ m, run ⟨scrollsInCall, 1⟩ 20 {} = .done () m ∧
      m.state.halted = false ∧ m.sink.written = "\n" := ⟨_, by cbv, by cbv, by cbv⟩
  obtain ⟨m₂, hrun₂, hhalted, hframes⟩ : ∃ m, run ⟨burnsInArgument, 1⟩ 20 {}
      = .done () m ∧ m.state.halted = true ∧ m.state.frames.length = 2 :=
    ⟨_, by cbv, by cbv, by cbv⟩
  obtain ⟨hend, hpasses⟩ := (run_append _ [⟨.keyword .load, {}⟩] _ _ _ _ hrun).1 hlive
  obtain ⟨m', hrun', -, -, -, -, hfunctions, -⟩ :=
    (run_append _ [⟨.keyword .load, {}⟩] _ _ _ _ hrun₂).2 hhalted
  exact ⟨⟨m, hrun, hwritten, hend, hpasses⟩, m₂, m', hrun₂, hrun', hfunctions, hframes⟩

end Machine
end VerbScript
