import Mathlib
import VerbScript.Proofs.Effect
import VerbScript.Proofs.Matching
import VerbScript.Script

/-!
# VerbScript.Proofs.Jumps

Where the markers go on that end a block before its `break`: `leave`, and the else markers `fix` and
`jam`. All of it holds of programs with missing and surplus markers as well.

* `exit?` goes outward from block to block until it meets one that is no conditional.
  `enclosing?_eq_exit?`: the scan that passes over conditionals finds the same block.
* `OpenAt p o i`: the block opened at `o` is open at `i`. The blocks open at an index are nested
  (`OpenAt.outward`), and the scan finds the innermost one (`OpenAt.le_opener`).
* `leave_exits_innermost_loop`: `leave` leaves the innermost loop, the conditionals in it, and nothing
  else.
* `else_skips_innermost_block`: an else marker goes on after the innermost block, whatever opened it.
  Only a conditional should be left like this, but `else_outside_conditional` shows the others.
-/

namespace VerbScript

variable {W I : Type}

namespace Program

/-! ## Going outward -/

theorem lt_of_enclosing? {p : Program} {i : Nat} {block : Enclosing}
    (h : p.enclosing? i false = some block) : block.opener < i := by
  obtain ⟨c, instruction, hlt, -, -, -, rfl⟩ := enclosing?_eq_some_iff.1 h
  rwa [opener_opened]

/-- The innermost block open just before an index that is no conditional, found by going from block
to block. -/
def exit? (p : Program) (i : Nat) : Option Enclosing :=
  match _h : p.enclosing? i false with
  | some (.conditional check) => p.exit? check
  | block => block
termination_by i
decreasing_by exact lt_of_enclosing? _h

/-- Where the scan finds no block, it passes over no conditional either. -/
theorem enclosingBefore?_eq_none {p : Program} {depth : Nat} {before : List (Located Node)}
    (h : enclosingBefore? p false depth before = none) :
    enclosingBefore? p true depth before = none := by
  induction before generalizing depth with
  | nil => rfl
  | cons instruction before ih =>
    cases hr : instruction.value.role with
    | opens =>
      cases depth with
      | zero => rw [enclosingBefore?_opens hr] at h; cases h
      | succ depth =>
        simp only [enclosingBefore?, hr] at h ⊢
        exact ih h
    | closes | splits | plain =>
      simp only [enclosingBefore?, hr] at h ⊢
      exact ih h

/-- The scan over conditionals goes on from the innermost block if that is a conditional. -/
theorem enclosing?_skip {p : Program} {i : Nat} {block : Enclosing} :
    p.enclosing? i false = some block → p.enclosing? i true =
      match block with
      | .conditional check => p.enclosing? check true
      | block => some block := by
  intro h
  obtain ⟨c, instruction, hlt, hget, ho, hd, rfl⟩ := enclosing?_eq_some_iff.1 h
  rw [enclosing?_of_balanced hlt hd, enclosing?_succ hget ho]
  have hopener := opener_opened p c instruction.value
  cases hblock : p.opened c instruction.value with
  | conditional check =>
    rw [hblock] at hopener
    cases hopener
    rfl
  | loop guard check untilLoop => rfl
  | function definition => rfl

theorem enclosing?_eq_exit? (p : Program) (i : Nat) : p.enclosing? i true = p.exit? i := by
  fun_induction exit? p i with
  | case1 i check h ih =>
    rw [enclosing?_skip h]
    exact ih
  | case2 i hconditional =>
    cases h : p.enclosing? i false with
    | none => exact enclosingBefore?_eq_none h
    | some block =>
      rw [enclosing?_skip h]
      cases block with
      | conditional check => exact absurd h (hconditional check)
      | loop guard check untilLoop => rfl
      | function definition => rfl

/-! ## Open blocks -/

/-- The block opened at `o` is open just before `i`: it was opened before and is not closed before. -/
structure OpenAt (p : Program) (o i : Nat) : Prop where
  lt : o < i
  opens : p.role? o = some .opens
  notClosed : ∀ b, p.closing? (o + 1) false = some b → i ≤ b

theorem opener?_of_enclosing? {p : Program} {i : Nat} {block : Enclosing}
    (h : p.enclosing? i false = some block) : p.opener? i = some block.opener := by
  rw [opener?, h]; rfl

/-- The scan finds the same block from just after its opening marker. -/
theorem enclosing?_opener {p : Program} {i : Nat} {block : Enclosing}
    (h : p.enclosing? i false = some block) : p.enclosing? (block.opener + 1) false = some block := by
  obtain ⟨hlt, -, hd⟩ := opener?_eq_some_iff.1 (opener?_of_enclosing? h)
  rw [← h]
  exact (enclosing?_of_balanced hlt hd false).symm

theorem openAt_of_opener? {p : Program} {i c : Nat} (h : p.opener? i = some c) : p.OpenAt c i := by
  obtain ⟨hlt, ho, hd⟩ := opener?_eq_some_iff.1 h
  refine ⟨hlt, ho, ?_⟩
  intro b hb
  rw [closing?_of_balanced hlt hd] at hb
  exact (closing?_eq_some_iff.1 hb).1

/-- The block that the scan finds is the innermost open one. -/
theorem OpenAt.le_opener {p : Program} {o i c : Nat} (h : p.OpenAt o i) (hc : p.opener? i = some c) :
    o ≤ c := by
  obtain ⟨-, -, hd⟩ := opener?_eq_some_iff.1 hc
  by_cases hle : o ≤ c
  · exact hle
  · obtain ⟨b, hb, hclose⟩ := closing?_lt_of_balanced h.opens hd (by omega) h.lt
    have hib := h.notClosed b hclose
    omega

theorem OpenAt.mono {p : Program} {o i j : Nat} (h : p.OpenAt o j) (hlt : o < i) (hle : i ≤ j) :
    p.OpenAt o i := by
  refine ⟨hlt, h.opens, ?_⟩
  intro b hb
  have hjb := h.notClosed b hb
  omega

/-- An opening marker closes nothing. -/
theorem closing?_ne_opens {p : Program} {start b : Nat} (h : p.closing? start false = some b) {o : Nat}
    (ho : p.role? o = some .opens) : b ≠ o := by
  rintro rfl
  rw [role?_of_closing? h] at ho
  cases ho

/-- A block around another one is open as long as that one. -/
theorem OpenAt.outward {p : Program} {o c i : Nat} (h : p.OpenAt o c) (hc : p.OpenAt c i) :
    p.OpenAt o i := by
  refine ⟨Nat.lt_trans h.lt hc.lt, h.opens, ?_⟩
  intro b hb
  have hcb := h.notClosed b hb
  have hne := closing?_ne_opens hb hc.opens
  obtain ⟨b', hlt, hb'⟩ := closing?_lt_of_nested hc.opens hb h.lt (by omega)
  have hib := hc.notClosed b' hb'
  omega

/-- What `exit?` finds is an open block, and the open blocks inside it are conditionals. -/
theorem exit?_innermost {p : Program} {i : Nat} {block : Enclosing} (h : p.exit? i = some block) :
    p.OpenAt block.opener i ∧ p.enclosing? (block.opener + 1) false = some block ∧
      ∀ o, p.OpenAt o i → block.opener < o → p.enclosing? (o + 1) false = some (.conditional o) := by
  fun_induction exit? p i with
  | case1 i check hcheck ih =>
    have hopener := opener?_of_enclosing? hcheck
    obtain ⟨hopen, hblock, hinside⟩ := ih h
    refine ⟨hopen.outward (openAt_of_opener? hopener), hblock, ?_⟩
    intro o ho hlt
    have hle : o ≤ check := ho.le_opener hopener
    by_cases heq : o = check
    · rw [heq]
      exact enclosing?_opener hcheck
    · exact hinside o (ho.mono (by omega) (Nat.le_of_lt (lt_of_enclosing? hcheck))) hlt
  | case2 i _ =>
    have hopener := opener?_of_enclosing? h
    refine ⟨openAt_of_opener? hopener, enclosing?_opener h, ?_⟩
    intro o ho hlt
    have hle := ho.le_opener hopener
    omega

/-- To go on at `target` instead of `i` is to leave the block opened at `o`, of the blocks inside it
only conditionals, and no other block; and no block is entered. -/
structure Exits (p : Program) (o i target : Nat) : Prop where
  leaves : p.OpenAt o i ∧ ¬ p.OpenAt o target
  conditionals : ∀ c, p.OpenAt c i → o < c →
    p.enclosing? (c + 1) false = some (.conditional c) ∧ ¬ p.OpenAt c target
  others : ∀ c, p.OpenAt c i → c < o → p.OpenAt c target
  entersNone : ∀ c, p.OpenAt c target → p.OpenAt c i

/-- Going on after the `break` of the block that `exit?` finds leaves that block. -/
theorem exits_of_closing? {p : Program} {i b : Nat} {block : Enclosing}
    (h : p.exit? i = some block) (hb : p.closing? (block.opener + 1) false = some b) :
    p.Exits block.opener i (b + 1) := by
  obtain ⟨hopen, -, hinside⟩ := exit?_innermost h
  have hib := hopen.notClosed b hb
  have closed : ∀ c, block.opener < c → c < b → ¬ p.OpenAt c (b + 1) := by
    intro c hlt hcb hc
    obtain ⟨b', hb', hclose⟩ := closing?_lt_of_nested hc.opens hb hlt hcb
    have hle := hc.notClosed b' hclose
    omega
  refine ⟨⟨hopen, ?_⟩, ?_, ?_, ?_⟩
  · intro ho
    have hle := ho.notClosed b hb
    omega
  · intro c hc hlt
    have hci := hc.lt
    exact ⟨hinside c hc hlt, closed c hlt (by omega)⟩
  · intro c hc hlt
    refine ⟨Nat.lt_succ_of_lt (Nat.lt_of_lt_of_le hc.lt hib), hc.opens, ?_⟩
    intro b' hb'
    have hib' := hc.notClosed b' hb'
    have hoi := hopen.lt
    obtain ⟨b'', hlt', hclose⟩ := closing?_lt_of_nested hopen.opens hb' hlt (by omega)
    rw [hb] at hclose
    cases hclose
    omega
  · intro c hc
    have hcb := hc.lt
    have hne := closing?_ne_opens hb hc.opens
    by_cases hci : c < i
    · exact hc.mono hci (by omega)
    · have hoi := hopen.lt
      exact absurd hc (closed c (by omega) (by omega))

end Program

namespace Machine

/-! ## Leaving a loop -/

variable [Writer W] [LineSource I]

theorem step_leave {setup : Setup} {fuel : Nat} {m m' : Machine W I} {place : Position}
    {guard check : Nat} {untilLoop : Bool}
    (hi : setup.program[m.state.pointer]? = some ⟨.keyword .leave, place⟩)
    (hloop : setup.program.enclosing? m.state.pointer true = some (.loop guard check untilLoop))
    (h : step setup fuel m = .done () m') :
    ∃ b, setup.program.closing? (check + 1) false = some b ∧ m' = m.jump (b + 1) := by
  cases fuel with
  | zero => simp [step] at h
  | succ fuel =>
    rw [step_keyword hi (by simp)] at h
    simp only [keyword, leave, hloop] at h
    obtain ⟨b, hb, rfl⟩ := skipBlock_eq_done h
    exact ⟨b, hb, rfl⟩

/-- The scan over conditionals finds the first block that is no conditional, going outward from
block to block. Where that is a loop, `leave` goes on after the `break` that closes the loop, which
comes later, and so leaves the loop, the conditionals open in it, and no other block. -/
theorem leave_exits_innermost_loop (p : Program) (i : Nat) :
    p.enclosing? i true = p.exit? i ∧
      ∀ guard check untilLoop limit fuel place (m m' : Machine W I),
        p.enclosing? i true = some (.loop guard check untilLoop) →
        p[i]? = some ⟨.keyword .leave, place⟩ → m.state.pointer = i →
        step ⟨p, limit⟩ fuel m = .done () m' →
        ∃ b, p.closing? (check + 1) false = some b ∧ m' = m.jump (b + 1) ∧ i < b ∧
          p.enclosing? b false = some (.loop guard check untilLoop) ∧ p.Exits check i (b + 1) := by
  refine ⟨p.enclosing?_eq_exit? i, ?_⟩
  rintro guard check untilLoop limit fuel place m m' hloop hi rfl hstep
  obtain ⟨b, hb, rfl⟩ := step_leave hi hloop hstep
  rw [p.enclosing?_eq_exit?] at hloop
  have hexits : p.Exits check m.state.pointer (b + 1) := Program.exits_of_closing? hloop hb
  obtain ⟨hopen, hblock, -⟩ := Program.exit?_innermost hloop
  have hne : b ≠ m.state.pointer := by
    rintro rfl
    obtain ⟨instruction, hb', hr⟩ := Program.role?_eq_some_iff.1 (Program.role?_of_closing? hb)
    rw [hi] at hb'
    cases hb'
    cases Node.role_eq_closes_iff.1 hr
  have hle := hopen.notClosed b hb
  obtain ⟨hcheck, hbalanced, -⟩ := Program.closing?_eq_some_iff.1 hb
  refine ⟨b, hb, rfl, by omega, ?_, hexits⟩
  rw [Program.enclosing?_of_balanced hcheck hbalanced]
  exact hblock

/-- A loop in a loop. The inner one is left from inside a conditional, after another conditional has
been closed. -/
def nestedLoops : Program := .ofNodes
  [.keyword .lock, .pop, .keyword .check, .keyword .start, .pop, .keyword .check,
    .pop, .keyword .check, .keyword .break, .pop, .keyword .check, .keyword .leave, .keyword .break,
    .keyword .break, .keyword .break]

theorem leave_exits_nestedLoops :
    nestedLoops.enclosing? 11 false = some (.conditional 10) ∧
      nestedLoops.enclosing? 11 true = some (.loop 3 5 true) ∧
      ∃ m', step ⟨nestedLoops, 200⟩ 1 { state := { pointer := 11 } } = .done () m' ∧
        m'.state.pointer = 14 ∧ nestedLoops.enclosing? 13 false = some (.loop 3 5 true) ∧
        nestedLoops.Exits 5 11 14 := by
  have hloop : nestedLoops.enclosing? 11 true = some (.loop 3 5 true) := by decide
  have hstep : step ⟨nestedLoops, 200⟩ 1 { state := { pointer := 11 } } = .done () _ := rfl
  obtain ⟨-, hleave⟩ := leave_exits_innermost_loop (W := Sink) (I := Input) nestedLoops 11
  obtain ⟨b, hb, hm', -, henclosing, hexits⟩ := hleave 3 5 true 200 1 _ _ _ hloop rfl rfl hstep
  have hb' : nestedLoops.closing? 6 false = some 13 := by decide
  cases hb.symm.trans hb'
  exact ⟨by decide, hloop, _, hstep, rfl, henclosing, hexits⟩

/-! ## Else markers -/

theorem step_else {setup : Setup} {m : Machine W I} {k : Keyword} {place : Position}
    (hi : setup.program[m.state.pointer]? = some ⟨.keyword k, place⟩) (hk : k.isElseMarker = true)
    (fuel : Nat) :
    step setup (fuel + 1) m = (m.jump (m.state.pointer + 1)).skipBlock setup.program k
      (m.state.pointer + 1) false place := by
  rcases Keyword.isElseMarker_iff.1 hk with rfl | rfl
  · rw [step_keyword hi (by simp)]
    rfl
  · rw [step_keyword hi (by simp)]
    rfl

omit [Writer W] [LineSource I] in
theorem skipBlock_of_closing? {m : Machine W I} {p : Program} {start b : Nat} {acceptElse : Bool}
    (h : p.closing? start acceptElse = some b) (k : Keyword) (place : Position) :
    m.skipBlock p k start acceptElse place = .done () (m.jump (b + 1)) := by
  rw [skipBlock, h]

omit [Writer W] [LineSource I] in
theorem skipBlock_of_unclosed {m : Machine W I} {p : Program} {start : Nat} {acceptElse : Bool}
    (h : p.closing? start acceptElse = none) (k : Keyword) (place : Position) :
    m.skipBlock p k start acceptElse place = .fault ⟨.unclosedBlock k, place⟩ m := by
  rw [skipBlock, h]

/-- An else marker by itself neither opens nor closes a block. -/
theorem balanced_else {p : Program} {i : Nat} {k : Keyword} {place : Position}
    (hi : p[i]? = some ⟨.keyword k, place⟩) (hk : k.isElseMarker = true) :
    Program.Balanced (p.segment i (i + 1)) := by
  have hr : (Node.keyword k).role = .splits := Node.role_eq_splits_iff.2
    ((Keyword.isElseMarker_iff.1 hk).imp (congrArg Node.keyword) (congrArg Node.keyword))
  rw [Program.Balanced, Program.segment_split (Nat.le_refl i) (Nat.lt_succ_self i) hi]
  simp [Program.segment, Program.depthAfter?, hr]

/-- In a block an else marker goes on after the `break` that closes the block, and it is a fault if
nothing does. Outside all blocks it goes on after the next `break` that closes no block, and it is a
fault if there is none. Whether the block is a conditional is not asked. -/
theorem else_skips_innermost_block {setup : Setup} {m : Machine W I} {k : Keyword} {place : Position}
    (hi : setup.program[m.state.pointer]? = some ⟨.keyword k, place⟩) (hk : k.isElseMarker = true)
    (fuel : Nat) :
    (∀ block, setup.program.enclosing? m.state.pointer false = some block →
      (∀ b, setup.program.closing? (block.opener + 1) false = some b →
        m.state.pointer < b ∧ step setup (fuel + 1) m = .done () (m.jump (b + 1))) ∧
      (setup.program.closing? (block.opener + 1) false = none → step setup (fuel + 1) m
        = .fault ⟨.unclosedBlock k, place⟩ (m.jump (m.state.pointer + 1)))) ∧
    (setup.program.enclosing? m.state.pointer false = none →
      (∀ b, setup.program.closing? (m.state.pointer + 1) false = some b →
        setup.program.enclosing? b false = none ∧
          step setup (fuel + 1) m = .done () (m.jump (b + 1))) ∧
      (setup.program.closing? (m.state.pointer + 1) false = none → step setup (fuel + 1) m
        = .fault ⟨.unclosedBlock k, place⟩ (m.jump (m.state.pointer + 1)))) := by
  have hbalanced := balanced_else hi hk
  have hnext := Program.closing?_of_balanced (Nat.le_succ m.state.pointer) hbalanced
  constructor
  · intro block hblock
    have hclose := Program.closing?_of_opener? (Program.opener?_of_enclosing? hblock)
    rw [← hclose, hnext, step_else hi hk]
    constructor
    · intro b hb
      exact ⟨(Program.closing?_eq_some_iff.1 hb).1, skipBlock_of_closing? hb k place⟩
    · intro hnone
      exact skipBlock_of_unclosed hnone k place
  · intro houtside
    rw [step_else hi hk]
    constructor
    · intro b hb
      obtain ⟨hle, hd, -⟩ := Program.closing?_eq_some_iff.1 hb
      refine ⟨?_, skipBlock_of_closing? hb k place⟩
      rw [Program.enclosing?_of_balanced hle hd, Program.enclosing?_of_balanced (Nat.le_succ _)
        hbalanced, houtside]
    · intro hnone
      exact skipBlock_of_unclosed hnone k place

/-- Two branches, the first of which holds a conditional with two branches. -/
def nestedBranches : Program := .ofNodes
  [.pop, .keyword .check, .pop, .keyword .check, .keyword .fix, .keyword .break, .keyword .jam,
    .keyword .scroll, .keyword .break]

theorem else_skips_innermost_nestedBranches :
    nestedBranches.enclosing? 6 false = some (.conditional 1) ∧
      nestedBranches.closing? 2 false = some 8 ∧
      step ⟨nestedBranches, 200⟩ 1 { state := { pointer := 6 } }
        = .done () { state := { pointer := 9 } } := by
  have hblock : nestedBranches.enclosing? 6 false = some (.conditional 1) := by decide
  have hclose : nestedBranches.closing? 2 false = some 8 := by decide
  obtain ⟨hinside, -⟩ := @else_skips_innermost_block Sink Input _ _ ⟨nestedBranches, 200⟩
    { state := { pointer := 6 } } .jam _ rfl rfl 0
  exact ⟨hblock, hclose, ((hinside _ hblock).1 8 hclose).2⟩

/-- An else marker before a `break`, in no block. -/
def elseAlone : Program :=
  [⟨.keyword .fix, ⟨1, 1⟩⟩, ⟨.keyword .scroll, ⟨1, 5⟩⟩, ⟨.keyword .break, ⟨1, 12⟩⟩]

theorem parse_elseAlone : Script.parse "fix scroll break" = .ok elseAlone := by
  cbv

/-- An else marker in the body of a loop. -/
def elseInLoop : Program :=
  [⟨.define "g" [], ⟨1, 1⟩⟩, ⟨.keyword .break, ⟨1, 15⟩⟩, ⟨.keyword .start, ⟨1, 21⟩⟩,
   ⟨.call "g" [], ⟨1, 27⟩⟩, ⟨.keyword .check, ⟨1, 41⟩⟩, ⟨.keyword .fix, ⟨1, 47⟩⟩,
   ⟨.keyword .scroll, ⟨1, 51⟩⟩, ⟨.keyword .break, ⟨1, 58⟩⟩]

theorem parse_elseInLoop :
    Script.parse "use () g code break start use () g call check fix scroll break"
      = .ok elseInLoop := by
  cbv

/-- An else marker in the body of a function that is defined in another one. -/
def elseInFunction : Program :=
  [⟨.define "h" [], ⟨1, 1⟩⟩, ⟨.define "f" [], ⟨1, 15⟩⟩, ⟨.keyword .fix, ⟨1, 29⟩⟩,
   ⟨.keyword .scroll, ⟨1, 33⟩⟩, ⟨.keyword .break, ⟨1, 40⟩⟩, ⟨.keyword .break, ⟨1, 46⟩⟩,
   ⟨.call "h" [], ⟨1, 52⟩⟩, ⟨.call "f" [], ⟨1, 66⟩⟩]

theorem parse_elseInFunction :
    Script.parse "use () h code use () f code fix scroll break break use () h call use () f call"
      = .ok elseInFunction := by
  cbv

/-- An else marker that belongs to no conditional is no fault: outside all blocks it skips to a
`break` that closes nothing, in a loop it leaves the loop, and in a function it goes on with what
stands after the function, here the `break` of the function around it. -/
theorem else_outside_conditional :
    (Script.parse "fix scroll break" = .ok elseAlone ∧ elseAlone.enclosing? 0 false = none ∧
      step ⟨elseAlone, 200⟩ 1 {} = .done () { state := { pointer := 3 } } ∧
      ∃ m, run ⟨elseAlone, 200⟩ 20 {} = .done () m ∧ m.sink.written = "") ∧
    (Script.parse "use () g code break start use () g call check fix scroll break" = .ok elseInLoop ∧
      elseInLoop.enclosing? 5 false = some (.loop 2 4 true) ∧
      step ⟨elseInLoop, 200⟩ 1 { state := { pointer := 5 } }
        = .done () { state := { pointer := 8 } } ∧
      ∃ m, run ⟨elseInLoop, 200⟩ 20 {} = .done () m ∧ m.sink.written = "") ∧
    Script.parse "use () h code use () f code fix scroll break break use () h call use () f call"
        = .ok elseInFunction ∧
      elseInFunction.enclosing? 2 false = some (.function 1) ∧
      step ⟨elseInFunction, 200⟩ 1 { state := { pointer := 2 } }
        = .done () { state := { pointer := 5 } } ∧
      ∃ m, run ⟨elseInFunction, 200⟩ 20 {} = .done () m ∧ m.sink.written = "" := by
  refine ⟨⟨parse_elseAlone, by decide, rfl, ?_⟩, ⟨parse_elseInLoop, by decide, rfl, ?_⟩,
    parse_elseInFunction, by decide, rfl, ?_⟩
  · exact ⟨_, rfl, rfl⟩
  · exact ⟨_, rfl, rfl⟩
  · exact ⟨_, by cbv, rfl⟩

end Machine
end VerbScript
