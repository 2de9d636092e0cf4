import VerbScript.Proofs.HostStack
import VerbScript.Proofs.ReturnValue

/-!
# VerbScript.Proofs.Halting.Frames

A call in which the program ends itself leaves its frame behind, so that an operator that gives back
a value afterwards finds one (`Machine.leavesFrame`).
-/

namespace VerbScript.Machine

variable {W I : Type}

theorem Effect.halted {programLength : Nat} {m m' : Machine W I} (he : Effect programLength m m')
    (hm : m.state.halted = false) (hm' : m'.state.halted = true) :
    m'.state.frames = m.state.frames := by
  cases he with
  | halt => rfl
  | assign target input sink name value =>
    rw [assign_halted] at hm'
    exact absurd (hm.symm.trans hm') (by simp)
  | _ => exact absurd (hm.symm.trans hm') (by simp)

/-- Two evaluations in a row, the first of which may have ended the program. -/
theorem frames_lt_of_two {m m₁ m₂ : Machine W I} (hk₁ : Kept m m₁) (hk₂ : Kept m₁ m₂)
    (h₁ : m₁.state.halted = true → m.state.frames.length < m₁.state.frames.length)
    (h₂ : m₁.state.halted = false → m₁.state.frames.length < m₂.state.frames.length) :
    m.state.frames.length < m₂.state.frames.length := by
  cases hh : m₁.state.halted with
  | true => exact Nat.lt_of_lt_of_le (h₁ hh) hk₂.frames.length_le
  | false => exact (hk₁.live hh).1 ▸ h₂ hh

variable [Writer W] [LineSource I]

/-- Only a call can end the program in the middle of an expression. -/
theorem eval_callFree {setup : Setup} {place : Position} :
    ∀ (fuel : Nat) (node : Node) {m m' : Machine W I} {value : Number}, node.callNesting = 0 →
      eval setup fuel node place m = .done value m' → m'.state.halted = m.state.halted := by
  intro fuel
  induction fuel with
  | zero => intro node m m' value _ h; simp [eval] at h
  | succ fuel ih =>
    intro node m m' value hfree h
    cases node with
    | number x => simp only [eval] at h; cases h; rfl
    | «variable» name =>
      simp only [eval] at h
      split at h
      · cases h; rfl
      · cases h
    | binary op left right =>
      simp only [Node.callNesting, Nat.max_eq_zero_iff] at hfree
      simp only [eval] at h
      obtain ⟨a, m₁, hl, h⟩ := Outcome.andThen_eq_done h
      obtain ⟨b, m₂, hr, h⟩ := Outcome.andThen_eq_done h
      have hm₂ := (ih right hfree.2 hr).trans (ih left hfree.1 hl)
      split at h
      · cases h; exact hm₂
      · cases h
    | unary op operand =>
      simp only [eval] at h
      obtain ⟨a, m₁, ho, h⟩ := Outcome.andThen_eq_done h
      have hm₁ := ih operand hfree ho
      cases op with
      | giveBack =>
        obtain ⟨-, frame, rest, -, rfl⟩ := giveBack_eq_done h
        exact hm₁
      | _ => cases h; exact hm₁
    | call name nodes => simp [Node.callNesting] at hfree
    | pop =>
      simp only [eval, pop] at h
      split at h
      · cases h
      · cases h; rfl
    | keyword k => simp only [eval] at h; cases h
    | label => simp only [eval] at h; cases h
    | define name parameters => simp only [eval] at h; cases h

/-- Where the program ends in the middle of evaluation or execution, a frame is left behind. -/
structure LeavesFrame (W I : Type) [Writer W] [LineSource I] (setup : Setup) (fuel : Nat) : Prop where
  eval : ∀ {node place value} {m m' : Machine W I}, node.returnFree = true →
    Machine.eval setup fuel node place m = .done value m' → m.state.halted = false →
    m'.state.halted = true → m.state.frames.length < m'.state.frames.length
  evalArguments : ∀ {nodes place values} {m m' : Machine W I}, Node.allReturnFree nodes = true →
    Machine.evalArguments setup fuel nodes place m = .done values m' → m.state.halted = false →
    m'.state.halted = true → m.state.frames.length < m'.state.frames.length
  call : ∀ {name nodes place value} {m m' : Machine W I}, Node.allReturnFree nodes = true →
    Machine.call setup fuel name nodes place m = .done value m' → m.state.halted = false →
    m'.state.halted = true → m.state.frames.length < m'.state.frames.length
  instruction : ∀ {node place value} {m m' : Machine W I}, node.returnsOutermost = true →
    Machine.eval setup fuel node place m = .done value m' → m.state.halted = false →
    m'.state.halted = true → m.state.frames.length ≤ m'.state.frames.length
  runUntil : ∀ {depth name place} {m m' : Machine W I}, depth < m.state.frames.length →
    Machine.runUntil setup fuel depth name place m = .done () m' → m.state.halted = false →
    m'.state.halted = true → depth < m'.state.frames.length
  step : ∀ {m m' : Machine W I}, Machine.step setup fuel m = .done () m' → m.state.halted = false →
    m'.state.halted = true → m.state.frames.length ≤ m'.state.frames.length

theorem leavesFrame_zero (setup : Setup) : LeavesFrame W I setup 0 where
  eval _ h := by simp [Machine.eval] at h
  evalArguments _ h := by simp [Machine.evalArguments] at h
  call _ h := by simp [Machine.call] at h
  instruction _ h := by simp [Machine.eval] at h
  runUntil _ h := by simp [Machine.runUntil] at h
  step h := by simp [Machine.step] at h

section

variable {setup : Setup} (hp : setup.program.ReturnsOutermost) {fuel : Nat}
  (ih : LeavesFrame W I setup fuel)
include hp ih

theorem eval_leavesFrame {node : Node} {place : Position} {m m' : Machine W I} {value : Number}
    (hfree : node.returnFree = true) (h : eval setup (fuel + 1) node place m = .done value m')
    (hm : m.state.halted = false) (hm' : m'.state.halted = true) :
    m.state.frames.length < m'.state.frames.length := by
  have ht := transparent (W := W) (I := I) hp fuel
  cases node with
  | binary op left right =>
    simp only [Node.returnFree, Bool.and_eq_true] at hfree
    simp only [eval] at h
    obtain ⟨a, m₁, hl, h⟩ := Outcome.andThen_eq_done h
    obtain ⟨b, m₂, hr, h⟩ := Outcome.andThen_eq_done h
    have heq : m' = m₂ := by
      split at h
      · cases h; rfl
      · cases h
    subst heq
    exact frames_lt_of_two (ht.eval hfree.1 hl) (ht.eval hfree.2 hr) (ih.eval hfree.1 hl hm)
      fun hm₁ => ih.eval hfree.2 hr hm₁ hm'
  | unary op operand =>
    simp only [Node.returnFree, Bool.and_eq_true, bne_iff_ne] at hfree
    simp only [eval] at h
    obtain ⟨a, m₁, ho, h⟩ := Outcome.andThen_eq_done h
    cases op with
    | giveBack => exact absurd rfl hfree.1
    | paste =>
      cases h
      have hlt := ih.eval hfree.2 ho hm hm'
      exact hlt
    | negate => cases h; exact ih.eval hfree.2 ho hm hm'
    | not => cases h; exact ih.eval hfree.2 ho hm hm'
  | call name nodes =>
    simp only [eval] at h
    exact ih.call hfree h hm hm'
  | _ =>
    rw [eval_callFree (fuel + 1) _ rfl h, hm] at hm'
    cases hm'

theorem evalArguments_leavesFrame {nodes : List Node} {place : Position} {m m' : Machine W I}
    {values : List Number} (hfree : Node.allReturnFree nodes = true)
    (h : evalArguments setup (fuel + 1) nodes place m = .done values m')
    (hm : m.state.halted = false) (hm' : m'.state.halted = true) :
    m.state.frames.length < m'.state.frames.length := by
  have ht := transparent (W := W) (I := I) hp fuel
  cases nodes with
  | nil =>
    simp only [evalArguments] at h
    cases h
    rw [hm] at hm'
    cases hm'
  | cons node rest =>
    simp only [Node.allReturnFree, Bool.and_eq_true] at hfree
    simp only [evalArguments] at h
    obtain ⟨value, m₁, he, h⟩ := Outcome.andThen_eq_done h
    obtain ⟨values', m₂, hr, h⟩ := Outcome.andThen_eq_done h
    cases h
    exact frames_lt_of_two (ht.eval hfree.1 he) (ht.evalArguments hfree.2 hr)
      (ih.eval hfree.1 he hm) fun hm₁ => ih.evalArguments hfree.2 hr hm₁ hm'

theorem call_leavesFrame {name : String} {nodes : List Node} {place : Position} {m m' : Machine W I}
    {value : Number} (hfree : Node.allReturnFree nodes = true)
    (h : call setup (fuel + 1) name nodes place m = .done value m')
    (hm : m.state.halted = false) (hm' : m'.state.halted = true) :
    m.state.frames.length < m'.state.frames.length := by
  obtain ⟨entry, values, m₁, -, ha, hr, -⟩ := call_eq_done h
  cases hh : m₁.state.halted with
  | true =>
    have hlt := ih.evalArguments hfree ha hm hh
    cases runUntil_of_halted hr hh
    exact Nat.lt_succ_of_lt hlt
  | false =>
    have hframes := (((transparent hp fuel).evalArguments hfree ha).live hh).1
    have hdepth : m.state.frames.length < (m₁.enter name entry values).state.frames.length := by
      rw [← hframes]
      exact Nat.lt_succ_self _
    exact ih.runUntil hdepth hr hh hm'

omit hp in
theorem runUntil_leavesFrame {depth : Nat} {name : String} {place : Position} {m m' : Machine W I}
    (hdepth : depth < m.state.frames.length)
    (h : runUntil setup (fuel + 1) depth name place m = .done () m')
    (hm : m.state.halted = false) (hm' : m'.state.halted = true) :
    depth < m'.state.frames.length := by
  by_cases hend : m.state.pointer < setup.program.length
  · rw [runUntil_active hdepth hm hend] at h
    obtain ⟨_, m₁, hs, h⟩ := Outcome.andThen_eq_done h
    cases hh : m₁.state.halted with
    | true =>
      cases runUntil_of_halted h hh
      exact Nat.lt_of_lt_of_le hdepth (ih.step hs hm hh)
    | false =>
      by_cases hdepth₁ : depth < m₁.state.frames.length
      · exact ih.runUntil hdepth₁ h hh hm'
      · -- the frame is gone, so that this was the last step, and it has not ended the program
        cases fuel with
        | zero => simp [runUntil] at h
        | succ fuel =>
          simp only [runUntil] at h
          rw [if_pos (Nat.le_of_not_lt hdepth₁)] at h
          cases h
          rw [hh] at hm'
          cases hm'
  · simp only [runUntil] at h
    rw [if_neg (by omega), if_neg (by simp [hm]), if_pos (by omega)] at h
    cases h

/-- The expression of an instruction: at most one frame is taken off after the program has ended. -/
theorem instruction_leavesFrame {node : Node} {place : Position} {m m' : Machine W I} {value : Number}
    (hnode : node.returnsOutermost = true)
    (h : eval setup (fuel + 1) node place m = .done value m') (hm : m.state.halted = false)
    (hm' : m'.state.halted = true) :
    m.state.frames.length ≤ m'.state.frames.length := by
  unfold Node.returnsOutermost at hnode
  split at hnode
  · simp only [eval] at h
    obtain ⟨a, m₁, ho, hgive⟩ := Outcome.andThen_eq_done h
    have hm₁ : m₁.state.halted = true := (giveBack_halted hgive).symm.trans hm'
    have hlt := ih.eval hnode ho hm hm₁
    obtain ⟨-, frame, rest, hf, rfl⟩ := giveBack_eq_done hgive
    rw [hf] at hlt
    exact Nat.le_of_lt_succ hlt
  · exact Nat.le_of_lt (eval_leavesFrame hp ih hnode h hm hm')

theorem step_leavesFrame {m m' : Machine W I} (h : step setup (fuel + 1) m = .done () m')
    (hm : m.state.halted = false) (hm' : m'.state.halted = true) :
    m.state.frames.length ≤ m'.state.frames.length := by
  cases step_cases h with
  | pastEnd _ => exact Nat.le_refl _
  | effect _ _ he => exact Nat.le_of_eq (congrArg List.length (he.halted hm hm')).symm
  | change _ _ hoperand _ he ho =>
    obtain ⟨instruction, hi, rfl⟩ := Option.map_eq_some_iff.1 hoperand
    obtain ⟨stack, rfl⟩ := overwrite_eq_done ho
    have hle := ih.instruction (hp _ (List.mem_of_getElem? hi)) he hm hm'
    exact hle
  | value hi _ he =>
    have hle := ih.instruction (hp _ (List.mem_of_getElem? hi)) he hm hm'
    exact hle

end

theorem leavesFrame {setup : Setup} (hp : setup.program.ReturnsOutermost) (fuel : Nat) :
    LeavesFrame W I setup fuel := by
  induction fuel with
  | zero => exact leavesFrame_zero setup
  | succ fuel ih =>
    exact ⟨eval_leavesFrame hp ih, evalArguments_leavesFrame hp ih, call_leavesFrame hp ih,
      instruction_leavesFrame hp ih, runUntil_leavesFrame ih, step_leavesFrame hp ih⟩

end VerbScript.Machine
