import VerbScript.Proofs.Places.Text
import VerbScript.Proofs.Raising
import VerbScript.Proofs.Reachable
import VerbScript.Proofs.Syntax.Denotation
import VerbScript.Proofs.Syntax.Reading

/-!
# VerbScript.Proofs.Places.Run

Every failure of a script points into its source text.

While a program runs, all that is in progress carries the place of one instruction, the innermost one
that is being executed (`Activity.InProgress.placed`), and whatever raises a fault raises it there or,
at the end of the run, at the place of an instruction as well (`Activity.runRaises_of_fault`). The
places of instructions are those of tokens, so that `Script.failure_points_into_source` covers all
layers.
-/

namespace VerbScript

variable {W I : Type}

namespace Activity

/-- The machine on which the innermost step in progress began. -/
def innermostStep? : List (Activity W I) → Option (Machine W I)
  | [] => none
  | .step m :: _ => some m
  | _ :: outer => innermostStep? outer

/-- The place that the activity carries. -/
def place? : Activity W I → Option Position
  | .run _ => none
  | .step _ => none
  | .eval _ place _ => some place
  | .arguments _ place _ => some place
  | .call _ _ place _ => some place
  | .body _ _ place _ => some place

/-- The instruction of the innermost step in progress is at the place. -/
def Executes (setup : Setup) (stack : List (Activity W I)) (place : Position) : Prop :=
  ∃ m node, innermostStep? stack = some m ∧ setup.program[m.state.pointer]? = some ⟨node, place⟩

/-- The place that is carried is that of the innermost instruction. -/
def Placed (setup : Setup) (a : Activity W I) (outer : List (Activity W I)) : Prop :=
  ∀ place ∈ a.place?, Executes setup (a :: outer) place

section

variable {setup : Setup} {a b : Activity W I} {outer : List (Activity W I)}

variable [Writer W] [LineSource I]

theorem Placed.of_begins (h : Placed setup a outer) (hab : Begins setup a b) :
    Placed setup b (a :: outer) := by
  cases hab with
  | step _ =>
    intro place hplace
    cases hplace
  | bodyStep _ _ _ =>
    intro place hplace
    cases hplace
  | value hi _ =>
    rintro _ ⟨⟩
    exact ⟨_, _, rfl, hi⟩
  | change hi _ _ _ =>
    rintro _ ⟨⟩
    exact ⟨_, _, rfl, hi⟩
  | left => exact h
  | right _ => exact h
  | operand => exact h
  | call => exact h
  | arguments _ => exact h
  | argument => exact h
  | body _ _ => exact h

theorem Placed.of_goesOn (h : Placed setup a outer) (hab : GoesOn setup a b) :
    Placed setup b outer := by
  cases hab with
  | run _ _ =>
    intro place hplace
    cases hplace
  | arguments _ => exact h
  | body _ _ _ _ => exact h

theorem InProgress.placed {m : Machine W I} {stack : List (Activity W I)}
    (h : InProgress setup m stack) : ∃ a outer, stack = a :: outer ∧ Placed setup a outer := by
  induction h with
  | start =>
    refine ⟨_, _, rfl, ?_⟩
    intro place hplace
    cases hplace
  | begins _ hab ih =>
    obtain ⟨a, outer, heq, hplaced⟩ := ih
    cases heq
    exact ⟨_, _, rfl, hplaced.of_begins hab⟩
  | goesOn _ hab ih =>
    obtain ⟨a, outer, heq, hplaced⟩ := ih
    cases heq
    exact ⟨_, _, rfl, hplaced.of_goesOn hab⟩

/-- A run is no part of anything. -/
theorem InProgress.outer_of_run {m m₁ : Machine W I} {stack : List (Activity W I)}
    (h : InProgress setup m stack) : ∀ outer, stack = .run m₁ :: outer → outer = [] := by
  induction h generalizing m₁ with
  | start =>
    rintro _ ⟨⟩
    rfl
  | begins _ hab _ =>
    rintro _ ⟨⟩
    cases hab
  | goesOn _ hab ih =>
    rintro _ ⟨⟩
    cases hab
    exact ih _ rfl

end

variable [Writer W] [LineSource I]

/-- How a run comes to a fault: what raises it is in progress, in the middle of the instruction at
whose place the fault is, or nothing but the run is, which is at its end. -/
inductive RunRaises (setup : Setup) (m : Machine W I) (cause : Located Fault) (m' : Machine W I) :
    Prop where
  | instruction {a : Activity W I} {outer : List (Activity W I)}
      (hprogress : InProgress setup m (a :: outer)) (hraises : Raises setup cause m' a)
      (hplace : Executes setup (a :: outer) cause.position) : RunRaises setup m cause m'
  | flush {m₁ : Machine W I} (hprogress : InProgress setup m [.run m₁])
      (hraises : Raises setup cause m' (.run m₁)) (hfinished : m₁.isFinished setup = true)
      (hplace : cause.position = setup.program.position m₁.state.pointer) :
      RunRaises setup m cause m'

theorem runRaises_of_fault {setup : Setup} {fuel : Nat} {m m' : Machine W I} {cause : Located Fault}
    (h : Machine.run setup fuel m = .fault cause m') : RunRaises setup m cause m' := by
  obtain ⟨a, hwithin, hraises⟩ := exists_raiser (a := .run m) h
  obtain ⟨outer, hprogress⟩ := InProgress.start.within hwithin
  obtain ⟨_, _, heq, hplaced⟩ := hprogress.placed
  cases heq
  cases hraises.raisedBy with
  | flush hfinished hat =>
    obtain rfl := hprogress.outer_of_run _ rfl
    exact .flush hprogress hraises hfinished hat.position
  | instruction hi hat =>
    obtain rfl := hat.position
    exact .instruction hprogress hraises ⟨_, _, rfl, hi⟩
  | marker _ hcause =>
    subst hcause
    exact .instruction hprogress hraises (hplaced _ rfl)
  | value hat => exact .instruction hprogress hraises (hplaced _ (congrArg some hat.position.symm))
  | call hat => exact .instruction hprogress hraises (hplaced _ (congrArg some hat.position.symm))
  | body hat => exact .instruction hprogress hraises (hplaced _ (congrArg some hat.position.symm))

end Activity

theorem Program.position_mem {p : Program} (h : p ≠ []) (i : Nat) :
    ∃ instruction ∈ p, instruction.position = p.position i := by
  unfold Program.position
  split
  · rename_i instruction hi
    exact ⟨instruction, List.mem_of_getElem? hi, rfl⟩
  · split
    · rename_i instruction hlast
      exact ⟨instruction, List.mem_of_getLast? hlast, rfl⟩
    · rename_i hlast
      exact absurd (List.getLast?_eq_none_iff.1 hlast) h

open Activity

variable [Writer W] [LineSource I]

/-- A fault of a run is at the place of an instruction, unless there is none. -/
theorem Activity.RunRaises.position_mem {setup : Setup} {m m' : Machine W I} {cause : Located Fault}
    (h : RunRaises setup m cause m') (hne : setup.program ≠ []) :
    ∃ instruction ∈ setup.program, instruction.position = cause.position := by
  cases h with
  | instruction _ _ hplace =>
    obtain ⟨m₁, node, -, hi⟩ := hplace
    exact ⟨_, List.mem_of_getElem? hi, rfl⟩
  | flush _ _ _ hplace =>
    rw [hplace]
    exact Program.position_mem hne _

/-- Nothing but the flush at its end can fail in the run of an empty program. -/
theorem Machine.run_nil_fault {depthLimit fuel : Nat} {m m' : Machine W I} {cause : Located Fault}
    (h : run ⟨[], depthLimit⟩ fuel m = .fault cause m') :
    ∃ fault, (Writer.flush m.sink).1 = some fault ∧ cause = ⟨.channel fault, {}⟩ := by
  cases fuel with
  | zero =>
    rw [run] at h
    cases h
  | succ fuel =>
    have hfinished : m.isFinished ⟨[], depthLimit⟩ = true := by simp [isFinished]
    simp only [run, hfinished, ↓reduceIte] at h
    exact onSink_eq_fault h

namespace Script

theorem parse_eq_error {source : String} {f : Failure} (h : parse source = .error f) :
    (∃ e, Token.ofSource source = .error e ∧ f = .scan e) ∨
    ∃ ts e, Token.ofSource source = .ok ts ∧ Program.ofTokens ts = .error e ∧ f = .parse e := by
  unfold parse at h
  split at h
  · rename_i e hts
    cases h
    exact .inl ⟨e, hts, rfl⟩
  · rename_i ts hts
    split at h
    · rename_i e hprogram
      cases h
      exact .inr ⟨ts, e, hts, hprogram, rfl⟩
    · cases h

/-- What the place of a failure is, by the layer that failed. -/
def Explains (source : String) (depthLimit : Nat) (m m' : Machine W I) : Failure → Prop
  | .scan _ => True
  | .parse error => ∃ ts, Token.ofSource source = .ok ts ∧ ∃ t ∈ ts, error.position = t.position
  | .run cause => ∃ program, parse source = .ok program ∧
      (∃ instruction ∈ program, instruction.position = cause.position) ∧
      RunRaises ⟨program, depthLimit⟩ m cause m'

/-- The failure of a script is where a word, a parenthesis or a stray character of its source text
starts outside of comments, except where an empty program fails to flush. A parse error is at a
token. A fault is at an instruction: the innermost one in progress, or at the end of the run the one
that the pointer gives. -/
theorem failure_points_into_source {source : String} {depthLimit fuel : Nat} {m m' : Machine W I}
    {f : Failure} (h : run source depthLimit fuel m = (.failure f, m')) :
    (parse source = .ok [] ∧
      ∃ fault, (Writer.flush m.sink).1 = some fault ∧ f = .run ⟨.channel fault, {}⟩) ∨
    Piece.StartsAt source f.position ∧ Explains source depthLimit m m' f := by
  have hplaced := Token.ofSource_placed source
  cases hparse : parse source with
  | error f' =>
    simp only [run, hparse] at h
    cases h
    refine .inr ?_
    rcases parse_eq_error hparse with ⟨e, hscan, rfl⟩ | ⟨ts, e, hts, hprogram, rfl⟩
    · rw [hscan] at hplaced
      exact ⟨hplaced, trivial⟩
    · have hwithin := Program.ofTokens_within ts
      rw [hprogram] at hwithin
      rw [hts] at hplaced
      obtain ⟨t, ht, hplace⟩ := hwithin
      refine ⟨?_, ts, hts, t, ht, hplace⟩
      rw [Failure.position, hplace]
      exact hplaced t ht
  | ok program =>
    obtain ⟨ts, hts, hprogram⟩ := parse_eq_ok_iff.1 hparse
    have hwithin := Program.ofTokens_within ts
    rw [hprogram] at hwithin
    rw [hts] at hplaced
    simp only [run, hparse] at h
    cases hrun : Machine.run ⟨program, depthLimit⟩ fuel m with
    | done value m₁ =>
      rw [hrun] at h
      cases h
    | cutOff =>
      rw [hrun] at h
      cases h
    | fault cause m₁ =>
      rw [hrun] at h
      cases h
      by_cases hne : program = []
      · subst hne
        obtain ⟨fault, hfails, rfl⟩ := Machine.run_nil_fault hrun
        exact .inl ⟨rfl, fault, hfails, rfl⟩
      · have hraises := runRaises_of_fault hrun
        obtain ⟨instruction, hinstruction, hposition⟩ := hraises.position_mem hne
        obtain ⟨t, ht, hplace⟩ := hwithin instruction hinstruction
        refine .inr ⟨?_, program, hparse, ⟨instruction, hinstruction, hposition⟩, hraises⟩
        rw [Failure.position, ← hposition, hplace]
        exact hplaced t ht

/-- A function that pops a value, with a comment before it is called. -/
def popsInCall : String := "use () f code fax break pause fax play\nuse () f call"

/-- A character is read. -/
def reads : String := "press name a rename"

/-- A fault amid a call, and one of a writer that has been flushed before: it fails when it is flushed
again at the end. -/
theorem failure_points_into_callAndFlush :
    (∃ m', run popsInCall 1 20 {} = (.failure (.run ⟨.stackUnderflow, ⟨1, 15⟩⟩), m') ∧
      Piece.StartsAt popsInCall ⟨1, 15⟩ ∧
      Explains popsInCall 1 {} m' (.run ⟨.stackUnderflow, ⟨1, 15⟩⟩)) ∧
    ∃ m m' : Machine Outages, m.sink.coming = [none, some ⟨"outage"⟩] ∧ m'.input = [] ∧
      run reads 1 20 m = (.failure (.run ⟨.channel ⟨"outage"⟩, ⟨1, 7⟩⟩), m') ∧
      Piece.StartsAt reads ⟨1, 7⟩ ∧
      Explains reads 1 m m' (.run ⟨.channel ⟨"outage"⟩, ⟨1, 7⟩⟩) := by
  constructor
  · have hparse : parse popsInCall = .ok [⟨.define "f" [], ⟨1, 1⟩⟩, ⟨.pop, ⟨1, 15⟩⟩,
        ⟨.keyword .break, ⟨1, 19⟩⟩, ⟨.call "f" [], ⟨2, 1⟩⟩] := by cbv
    obtain ⟨m', hrun⟩ : ∃ m', run popsInCall 1 20 {} =
        (.failure (.run ⟨.stackUnderflow, ⟨1, 15⟩⟩), m') := by
      simp only [run, hparse]
      exact ⟨_, rfl⟩
    rcases failure_points_into_source hrun with ⟨hempty, -⟩ | ⟨hstarts, hexplains⟩
    · cases hempty.symm.trans hparse
    · exact ⟨m', hrun, hstarts, hexplains⟩
  · have hparse : parse reads = .ok [⟨.keyword .press, ⟨1, 1⟩⟩, ⟨.variable "a", ⟨1, 7⟩⟩] := by cbv
    let m : Machine Outages := { input := [120, 10], sink := ⟨[none, some ⟨"outage"⟩], ""⟩ }
    obtain ⟨m', hrun, hinput⟩ : ∃ m',
        run reads 1 20 m = (.failure (.run ⟨.channel ⟨"outage"⟩, ⟨1, 7⟩⟩), m') ∧ m'.input = [] := by
      simp only [run, hparse]
      exact ⟨_, rfl, rfl⟩
    rcases failure_points_into_source hrun with ⟨hempty, -⟩ | ⟨hstarts, hexplains⟩
    · cases hempty.symm.trans hparse
    · exact ⟨m, m', rfl, hinput, hrun, hstarts, hexplains⟩

end Script
end VerbScript
