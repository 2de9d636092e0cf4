import Mathlib.Logic.Relation
import VerbScript.Machine.Fuel
import VerbScript.Proofs.Block.Agreement

/-!
# VerbScript.Proofs.Block.Simulation

What it means that the machine follows a structured program.

* `Path` is a run of settled steps in the body of one call. `Drives` says what `run` and `runUntil`
  have in common: they go through a path and end as they end from its last machine.
* `Simulates` relates the evaluation of an expression on a store and on a machine.
* `Realizes` relates the execution of a block and what the machine does from the first instruction
  of the block on. `Lands` says where the machine is afterwards: at the end of the block, after the
  loop that was left, or back in the caller.

Both say as well that the machine is cut off with the fuel with which the structured program is, so
that neither ends without the other.
-/

namespace VerbScript

variable {W I : Type}

open Outcome

/-! ## Paths -/

/-- The machine executes an instruction next, with at least `depth` calls in progress. -/
structure Active (setup : Setup) (depth : Nat) (m : Machine W I) : Prop where
  live : m.state.halted = false
  inside : m.state.pointer < setup.program.length
  depth : depth ≤ m.state.frames.length

variable [Writer W] [LineSource I]

def Goes (setup : Setup) (depth : Nat) (m m' : Machine W I) : Prop :=
  Active setup depth m ∧ Settles (fun fuel => Machine.step setup fuel m) (.done () m')

abbrev Path (setup : Setup) (depth : Nat) : Machine W I → Machine W I → Prop :=
  Relation.ReflTransGen (Goes setup depth)

/-- `D` executes instructions one after another while the machine is active. -/
structure Drives (setup : Setup) (depth : Nat) (D : Nat → Machine W I → Outcome Unit W I) : Prop where
  zero : ∀ m, D 0 m = .cutOff
  stable : ∀ m, Stable fun fuel => D fuel m
  active : ∀ m fuel, Active setup depth m →
    D (fuel + 1) m = (Machine.step setup fuel m).andThen fun _ m => D fuel m

theorem drives_run (setup : Setup) :
    Drives setup 0 fun fuel (m : Machine W I) => Machine.run setup fuel m where
  zero m := by rw [Machine.run]
  stable m := Machine.run_stable setup m
  active m fuel h := by
    refine Machine.run_active ?_ fuel
    have hinside := h.inside
    simp only [Machine.isFinished, h.live, Bool.false_or, decide_eq_false_iff_not]
    omega

theorem drives_runUntil (setup : Setup) (depth : Nat) (name : String) (place : Position) :
    Drives setup (depth + 1)
      fun fuel (m : Machine W I) => Machine.runUntil setup fuel depth name place m where
  zero m := by rw [Machine.runUntil]
  stable m := Machine.runUntil_stable setup depth name place m
  active m fuel h := Machine.runUntil_active h.depth h.live h.inside fuel

namespace Drives

variable {setup : Setup} {depth : Nat} {D : Nat → Machine W I → Outcome Unit W I} {m m' : Machine W I}

theorem settles_goes (hD : Drives setup depth D) (h : Goes setup depth m m') {o : Outcome Unit W I}
    (ho : Settles (fun fuel => D fuel m') o) : Settles (fun fuel => D fuel m) o := by
  refine .of_succ ?_
  simp only [hD.active m _ h.1]
  exact h.2.andThen ho

theorem settles_fault (hD : Drives setup depth D) (hm : Active setup depth m)
    {cause : Located Fault}
    (h : Settles (fun fuel => Machine.step setup fuel m) (.fault cause m')) :
    Settles (fun fuel => D fuel m) (.fault cause m') := by
  refine .of_succ ?_
  simp only [hD.active m _ hm]
  exact h.andThen_fault

theorem settles_path (hD : Drives setup depth D) (h : Path setup depth m m') {o : Outcome Unit W I}
    (ho : Settles (fun fuel => D fuel m') o) : Settles (fun fuel => D fuel m) o := by
  induction h using Relation.ReflTransGen.head_induction_on with
  | refl => exact ho
  | head hgo _ ih => exact hD.settles_goes hgo ih

theorem cutOff_step (hD : Drives setup depth D) (hm : Active setup depth m) {fuel : Nat}
    (h : Machine.step setup fuel m = .cutOff) : D (fuel + 1) m = .cutOff := by
  rw [hD.active m fuel hm, h]
  rfl

theorem cutOff_goes (hD : Drives setup depth D) (h : Goes setup depth m m') {fuel : Nat}
    (hcut : D fuel m' = .cutOff) : D (fuel + 1) m = .cutOff := by
  rw [hD.active m fuel h.1]
  rcases h.2.cutOff_or_eq (Machine.step_stable setup m) fuel with hstep | hstep
  · rw [hstep]; rfl
  · rw [hstep]; exact hcut

theorem cutOff_path (hD : Drives setup depth D) (h : Path setup depth m m') {fuel : Nat}
    (hcut : D fuel m' = .cutOff) : D fuel m = .cutOff := by
  induction h using Relation.ReflTransGen.head_induction_on with
  | refl => exact hcut
  | head hgo _ ih =>
    exact (hD.stable _).cutOff_of_le (Nat.le_succ fuel) (hD.cutOff_goes hgo ih)

end Drives

/-! ## Expressions -/

/-- The evaluation of an expression on the store, with fuel `n`, and on the machine. -/
inductive Simulates (p : Program) (addresses : List Nat) (i n : Nat) {α : Type} :
    Ending α W I → (Nat → Outcome α W I) → Prop where
  | ends {e : Ending α W I} {f : Nat → Outcome α W I} {o : Outcome α W I} :
      Settles f o → Matches p addresses i e o → Simulates p addresses i n e f
  | cutOff {f : Nat → Outcome α W I} : f n = .cutOff → Simulates p addresses i n .cutOff f

namespace Simulates

variable {p : Program} {addresses : List Nat} {i n : Nat} {α β : Type}

omit [Writer W] [LineSource I] in
theorem of_matches {e : Ending α W I} {o : Outcome α W I} (h : Matches p addresses i e o) :
    Simulates p addresses i n e fun _ => o :=
  .ends (.const o) h

omit [Writer W] [LineSource I] in
theorem of_succ {e : Ending α W I} {f : Nat → Outcome α W I}
    (h : Simulates p addresses i n e fun fuel => f (fuel + 1)) :
    Simulates p addresses i (n + 1) e f := by
  cases h with
  | ends hf h => exact .ends hf.of_succ h
  | cutOff hf => exact .cutOff hf

omit [Writer W] [LineSource I] in
theorem andThen {j : Nat} {e : Ending α W I} {f : Nat → Outcome α W I}
    {next : α → Store W I → Ending β W I} {next' : Nat → α → Machine W I → Outcome β W I}
    (h : Simulates p addresses i n e f) (hf : Stable f)
    (hnext : ∀ value m procedures, Stands p addresses i m procedures →
      Simulates p addresses j n (next value (m.store procedures)) fun fuel => next' fuel value m) :
    Simulates p addresses j n (e.andThen next) fun fuel => (f fuel).andThen (next' fuel) := by
  cases h with
  | cutOff hcut => exact .cutOff (by rw [hcut]; rfl)
  | ends hset hmatch =>
    cases hmatch with
    | fault hm => exact .ends hset.andThen_fault (.fault hm)
    | @done value m procedures hm =>
      have hrest := hnext value m procedures hm
      generalize he : next value (m.store procedures) = e at hrest
      rw [Ending.andThen, he]
      cases hrest with
      | ends hset' hmatch => exact .ends (hset.andThen hset') hmatch
      | cutOff hcut =>
        refine .cutOff ?_
        rcases hset.cutOff_or_eq hf n with hn | hn
        · rw [hn]; rfl
        · rw [hn]; exact hcut

end Simulates

/-! ## Blocks -/

/-- The innermost call ended with a value, and its caller goes on. -/
def GaveBack (p : Program) (addresses : List Nat) (value : Number) (m : Machine W I) (s : Store W I) :
    Prop :=
  ∃ address rest procedures, addresses = address :: rest ∧ s.exit = m.store procedures ∧
    Stands p rest address m procedures ∧ m.state.lastReturn = value

omit [Writer W] [LineSource I] in
theorem GaveBack.setLastValue {p : Program} {addresses : List Nat} {value : Number} {m : Machine W I}
    {s : Store W I} (h : GaveBack p addresses value m s) (last : Number) :
    GaveBack p addresses value (m.setLastValue last) (s.setLastValue last) := by
  obtain ⟨address, rest, procedures, haddresses, hexit, hm, hvalue⟩ := h
  refine ⟨address, rest, procedures, haddresses, ?_, hm.setLastValue last, hvalue⟩
  have hcomm : (s.setLastValue last).exit = s.exit.setLastValue last := rfl
  rw [hcomm, hexit]
  rfl

/-- Where the machine is when a block that ends at `stop` has ended. -/
inductive Lands (p : Program) (around : Around) (addresses : List Nat) (stop : Nat) :
    Signal → Machine W I → Store W I → Prop where
  | next {m : Machine W I} {procedures : Table Procedure} :
      Stands p addresses stop m procedures →
      Lands p around addresses stop .next m (m.store procedures)
  | leftLoop {exit : Nat} {m : Machine W I} {procedures : Table Procedure} :
      around = .loop exit → Stands p addresses (exit + 1) m procedures →
      Lands p around addresses stop .left m (m.store procedures)
  | leftFunction {m : Machine W I} {s : Store W I} :
      around = .function → GaveBack p addresses 0 m s → Lands p around addresses stop .left m s
  | returned {value : Number} {m : Machine W I} {s : Store W I} :
      GaveBack p addresses value m s → Lands p around addresses stop (.returned value) m s

/-- What the machine does from `m` on, whatever drives it, is what a block does that was executed
with fuel `n`. -/
inductive Realizes (setup : Setup) (around : Around) (addresses : List Nat) (stop n : Nat)
    (m : Machine W I) : Ending Signal W I → Prop where
  | done {signal : Signal} {m' : Machine W I} {s : Store W I} : Path setup addresses.length m m' →
      Lands setup.program around addresses stop signal m' s →
      Realizes setup around addresses stop n m (.done signal s)
  | fault {cause : Located Fault} {m₁ m' : Machine W I} {procedures : Table Procedure} :
      Path setup addresses.length m m₁ → Active setup addresses.length m₁ →
      Settles (fun fuel => Machine.step setup fuel m₁) (.fault cause m') →
      Agrees setup.program m' procedures →
      Realizes setup around addresses stop n m (.fault cause (m'.store procedures))
  | cutOff : (∀ D, Drives setup addresses.length D → D n m = .cutOff) →
      Realizes setup around addresses stop n m .cutOff

namespace Realizes

variable {setup : Setup} {around : Around} {addresses : List Nat} {stop n : Nat} {m m' : Machine W I}

theorem of_path {e : Ending Signal W I} (h : Path setup addresses.length m m')
    (he : Realizes setup around addresses stop n m' e) :
    Realizes setup around addresses stop n m e := by
  cases he with
  | done hpath hlands => exact .done (h.trans hpath) hlands
  | fault hpath hactive hstep hagrees => exact .fault (h.trans hpath) hactive hstep hagrees
  | cutOff hcut => exact .cutOff fun D hD => hD.cutOff_path h (hcut D hD)

theorem of_goes {e : Ending Signal W I} (h : Goes setup addresses.length m m')
    (he : Realizes setup around addresses stop n m' e) :
    Realizes setup around addresses stop (n + 1) m e := by
  cases he with
  | done hpath hlands => exact .done (hpath.head h) hlands
  | fault hpath hactive hstep hagrees => exact .fault (hpath.head h) hactive hstep hagrees
  | cutOff hcut => exact .cutOff fun D hD => hD.cutOff_goes h (hcut D hD)

/-- One instruction, then the rest. -/
theorem step {j : Nat} {α : Type} {e : Ending α W I} {f : Nat → Outcome α W I}
    {g : α → Machine W I → Machine W I} {next : α → Store W I → Ending Signal W I}
    (hactive : Active setup addresses.length m)
    (hstep : ∀ fuel, Machine.step setup (fuel + 1) m
      = (f fuel).andThen fun value m => .done () (g value m))
    (h : Simulates setup.program addresses j n e f)
    (hnext : ∀ value m' procedures, Stands setup.program addresses j m' procedures →
      Realizes setup around addresses stop n (g value m')
        (next value (m'.store procedures))) :
    Realizes setup around addresses stop (n + 1) m (e.andThen next) := by
  have hsettles : ∀ {o}, Settles (fun fuel => (f fuel).andThen fun value m =>
      .done () (g value m)) o → Settles (fun fuel => Machine.step setup fuel m) o := by
    intro o ho
    refine .of_succ ?_
    simpa only [hstep] using ho
  cases h with
  | ends hset hmatch =>
    cases hmatch with
    | done hm =>
      exact of_goes ⟨hactive, hsettles (hset.andThen (.const _))⟩ (hnext _ _ _ hm)
    | fault hm => exact .fault .refl hactive (hsettles hset.andThen_fault) hm
  | cutOff hcut =>
    refine .cutOff fun D hD => (hD.stable m).cutOff_of_le (Nat.le_succ (n + 1)) ?_
    exact hD.cutOff_step hactive (by rw [hstep, hcut]; rfl)

/-- A block inside a conditional, then the rest. -/
theorem andThen {j : Nat} {e : Ending Signal W I} {next : Store W I → Ending Signal W I}
    (h : Realizes setup around addresses j n m e)
    (hnext : ∀ m' procedures, Stands setup.program addresses j m' procedures →
      Realizes setup around addresses stop n m' (next (m'.store procedures))) :
    Realizes setup around addresses stop n m (e.andThen fun signal s =>
      match signal with
      | .next => next s
      | signal => .done signal s) := by
  cases h with
  | done hpath hlands =>
    cases hlands with
    | next hm => exact of_path hpath (hnext _ _ hm)
    | leftLoop haround hm => exact .done hpath (.leftLoop haround hm)
    | leftFunction haround hm => exact .done hpath (.leftFunction haround hm)
    | returned hm => exact .done hpath (.returned hm)
  | fault hpath hactive hstep hagrees => exact .fault hpath hactive hstep hagrees
  | cutOff hcut => exact .cutOff hcut

/-- The body of a loop that is closed at `j`, then the loop again or the rest. -/
theorem loop {j : Nat} {e : Ending Signal W I} {again next : Store W I → Ending Signal W I}
    (h : Realizes setup (.loop j) addresses j n m e)
    (hagain : ∀ m' procedures, Stands setup.program addresses j m' procedures →
      Realizes setup around addresses stop n m' (again (m'.store procedures)))
    (hnext : ∀ m' procedures, Stands setup.program addresses (j + 1) m' procedures →
      Realizes setup around addresses stop n m' (next (m'.store procedures))) :
    Realizes setup around addresses stop n m (e.andThen fun signal s =>
      match signal with
      | .next => again s
      | .left => next s
      | .returned value => .done (.returned value) s) := by
  cases h with
  | done hpath hlands =>
    cases hlands with
    | next hm => exact of_path hpath (hagain _ _ hm)
    | leftLoop haround hm =>
      cases haround
      exact of_path hpath (hnext _ _ hm)
    | leftFunction haround => cases haround
    | returned hm => exact .done hpath (.returned hm)
  | fault hpath hactive hstep hagrees => exact .fault hpath hactive hstep hagrees
  | cutOff hcut => exact .cutOff hcut

end Realizes

end VerbScript
