import Mathlib
import VerbScript.Proofs.Lockstep
import VerbScript.Proofs.Spacing.Parse
import VerbScript.Script

/-!
# VerbScript.Proofs.Spacing.Run

Spacing changes nothing that a script does.

A program runs the same without the places of its instructions (`Machine.run_unplaced`): blocks and
labels are found by the nodes alone, and a place is only handed on to faults. Together with what
holds of texts and tokens, `Script.run_gap` says that separators and filler words put between two
words of a script leave what is read, what is written and how it ends as they are. Only the places
that errors name can differ.
-/

namespace VerbScript

variable {W I : Type}

namespace Program

/-- The instructions by themselves. -/
abbrev unplaced (p : Program) : Program := p.map Located.unplaced

theorem node?_unplaced (p : Program) (i : Nat) : p.unplaced.node? i = p.node? i := by
  simp only [node?, List.getElem?_map, Option.map_map]
  rfl

theorem position_unplaced (p : Program) (i : Nat) : p.unplaced.position i = {} := by
  simp only [position, List.getElem?_map, List.getLast?_map]
  cases p[i]? with
  | some instruction => rfl
  | none => cases p.getLast? <;> rfl

theorem closingOffset?_unplaced (acceptElse : Bool) (depth : Nat) (l : Program) :
    closingOffset? acceptElse depth l.unplaced = closingOffset? acceptElse depth l := by
  induction l generalizing depth with
  | nil => rfl
  | cons instruction rest ih =>
    simp only [List.map_cons, closingOffset?, ih]
    rfl

theorem closing?_unplaced (p : Program) (start : Nat) (acceptElse : Bool) :
    p.unplaced.closing? start acceptElse = p.closing? start acceptElse := by
  rw [closing?, closing?, ← List.map_drop, closingOffset?_unplaced]

theorem loopGuard?_unplaced (p : Program) (check : Nat) :
    p.unplaced.loopGuard? check = p.loopGuard? check := by
  unfold loopGuard?
  cases check with
  | zero => rfl
  | succ check =>
    cases check with
    | zero => rfl
    | succ guard => simp only [node?_unplaced]

theorem opened_unplaced (p : Program) (index : Nat) (node : Node) :
    p.unplaced.opened index node = p.opened index node := by
  simp only [opened, loopGuard?_unplaced]

theorem enclosingBefore?_unplaced (p : Program) (skipConditionals : Bool) (depth : Nat)
    (before : List (Located Node)) :
    p.unplaced.enclosingBefore? skipConditionals depth (before.map Located.unplaced) =
      p.enclosingBefore? skipConditionals depth before := by
  induction before generalizing depth with
  | nil => rfl
  | cons instruction before ih =>
    simp only [List.map_cons, enclosingBefore?, ih, List.length_map, opened_unplaced]
    rfl

theorem enclosing?_unplaced (p : Program) (index : Nat) (skipConditionals : Bool) :
    p.unplaced.enclosing? index skipConditionals = p.enclosing? index skipConditionals := by
  rw [enclosing?, enclosing?, ← List.map_take, ← List.map_reverse, enclosingBefore?_unplaced]

theorem labelOffset?_unplaced (skipped : Nat) (l : Program) :
    labelOffset? skipped l.unplaced = labelOffset? skipped l := by
  induction l generalizing skipped with
  | nil => rfl
  | cons instruction rest ih =>
    simp only [List.map_cons, labelOffset?, ih]
    rfl

theorem label?_unplaced (p : Program) (n : Nat) : p.unplaced.label? n = p.label? n := by
  cases n with
  | zero => rfl
  | succ n => exact labelOffset?_unplaced n p

theorem labelCount_unplaced (p : Program) : p.unplaced.labelCount = p.labelCount := by
  rw [labelCount, labelCount, List.countP_map]
  rfl

end Program

/-! ## Runs without places -/

/-- The outcome, wherever it came about. -/
def Outcome.unplaced {α : Type} : Outcome α W I → Outcome α W I
  | .fault cause m => .fault cause.unplaced m
  | o => o

/-- The second run is the first one, and is nowhere. -/
def Pairing.unplaced : Pairing W I := .onOne (fun _ place' => place' = {}) fun _ => False

theorem Outcome.Paired.eq_unplaced {α : Type} {o o' : Outcome α W I} (h : o.Paired .unplaced o') :
    o' = o.unplaced := by
  cases o with
  | done value m =>
    obtain ⟨_, rfl, rfl⟩ := h
    rfl
  | fault cause m =>
    rcases h with hexcused | ⟨_, _, rfl, rfl, rfl⟩
    · cases hexcused
    · rfl
  | cutOff => exact h

namespace Machine

variable [Writer W] [LineSource I]

theorem lockstep_unplaced (p : Program) (limit : Nat) :
    Lockstep (.unplaced : Pairing W I) ⟨p, limit⟩ ⟨p.unplaced, limit⟩ where
  machines := by
    simp only [List.length_map]
    exact Pairing.machines_onOne _ _ _
  programs := {
    fetch := fun {i node place} hi => ⟨{}, by rw [List.getElem?_map, hi]; rfl, rfl⟩
    length_le := by simp
    length := .inr (by simp)
    closing := fun start acceptElse => .inl (p.closing?_unplaced start acceptElse)
    enclosing := fun skipConditionals _ => p.enclosing?_unplaced _ skipConditionals
    loopGuard := fun _ => p.loopGuard?_unplaced _
    label := fun n => .inl (p.label?_unplaced n)
    labelCount := .inr p.labelCount_unplaced }
  limit_le := Nat.le_refl _
  limit := .inr rfl

/-- A program runs the same without the places of its instructions. -/
theorem run_unplaced (p : Program) (limit fuel : Nat) (m : Machine W I) :
    run ⟨p.unplaced, limit⟩ fuel m = (run ⟨p, limit⟩ fuel m).unplaced := by
  refine Outcome.Paired.eq_unplaced ((lockstep_unplaced p limit).run ?_ ?_ fuel rfl)
  · simp
  · intro m m' _
    exact p.position_unplaced _

end Machine

/-! ## Scripts -/

/-- Why a script has no result, wherever that became clear. -/
def Failure.unplaced : Failure → Failure
  | .scan error => .scan error.unplaced
  | .parse error => .parse error.unplaced
  | .run fault => .run fault.unplaced

namespace Script

def Ending.unplaced : Ending → Ending
  | .failure f => .failure f.unplaced
  | ending => ending

/-- The program that is read from tokens, if there are any. -/
def programOf : Except (Located ScanError) Tokens → Except Failure Program
  | .error error => .error (.scan error)
  | .ok tokens =>
    match Program.ofTokens tokens with
    | .error error => .error (.parse error)
    | .ok program => .ok program

variable [Writer W] [LineSource I]

/-- How a program ends on a machine, if there is one. -/
def endingOf (depthLimit fuel : Nat) (m : Machine W I) : Except Failure Program → Ending × Machine W I
  | .error f => (.failure f, m)
  | .ok program =>
    match Machine.run ⟨program, depthLimit⟩ fuel m with
    | .done _ m => (.success, m)
    | .fault cause m => (.failure (.run cause), m)
    | .cutOff => (.cutOff, m)

/-- A script is run layer by layer. -/
theorem run_eq (source : String) (depthLimit fuel : Nat) (m : Machine W I) :
    run source depthLimit fuel m = endingOf depthLimit fuel m (programOf (Token.ofSource source)) :=
  rfl

/-- A program by itself, or why there is none. -/
def unplacedProgram : Except Failure Program → Except Failure Program
  | .ok p => .ok p.unplaced
  | .error f => .error f.unplaced

theorem programOf_unplaced (tokens : Except (Located ScanError) Tokens) :
    programOf (unplacedReading Tokens.unplaced tokens) = unplacedProgram (programOf tokens) := by
  cases tokens with
  | error e => rfl
  | ok ts =>
    simp only [unplacedReading, programOf, ← Program.ofTokens_unplaced]
    cases Program.ofTokens ts <;> rfl

theorem endingOf_unplaced (depthLimit fuel : Nat) (m : Machine W I)
    (program : Except Failure Program) : endingOf depthLimit fuel m (unplacedProgram program) =
      ((endingOf depthLimit fuel m program).1.unplaced, (endingOf depthLimit fuel m program).2) := by
  cases program with
  | error f => rfl
  | ok p =>
    simp only [unplacedProgram, endingOf, Machine.run_unplaced]
    cases Machine.run ⟨p, depthLimit⟩ fuel m <;> rfl

/-- What a script does depends on its tokens only, but for the places that errors name. -/
theorem run_unplaced (source : String) (depthLimit fuel : Nat) (m : Machine W I) :
    ((run source depthLimit fuel m).1.unplaced, (run source depthLimit fuel m).2) =
      endingOf depthLimit fuel m
        (programOf (unplacedReading Tokens.unplaced (Token.ofSource source))) := by
  rw [run_eq, programOf_unplaced, endingOf_unplaced]

/-- Separators and filler words can be put anywhere but inside a word, comments and phrases included:
the script then reads and writes the same and ends in the same way, and an error differs at most in
the place it names. -/
theorem run_gap (front gap back : String) (hgap : Piece.Gap gap.toList)
    (hapart : Piece.Apart front.toList back.toList) (depthLimit fuel : Nat) (m : Machine W I) :
    (run (front ++ gap ++ back) depthLimit fuel m).1.unplaced =
      (run (front ++ back) depthLimit fuel m).1.unplaced ∧
    (run (front ++ gap ++ back) depthLimit fuel m).2 =
      (run (front ++ back) depthLimit fuel m).2 := by
  have hrun := run_unplaced (front ++ gap ++ back) depthLimit fuel m
  rw [Token.ofSource_gap hgap hapart, ← run_unplaced] at hrun
  exact Prod.mk.inj hrun

/-- A new line and a filler word in a comment and inside a phrase. -/
theorem run_gap_in_comment_and_phrase :
    ((run ("scroll pause" ++ " play fax drag and drop fax") 1 20 {}).1 =
        .failure (.run ⟨.stackUnderflow, ⟨1, 19⟩⟩) ∧
      (run ("scroll pause" ++ "\n it," ++ " play fax drag and drop fax") 1 20 {}).1.unplaced =
        .failure (.run ⟨.stackUnderflow, {}⟩) ∧
      (run ("scroll pause" ++ "\n it," ++ " play fax drag and drop fax") 1 20 {}).2.sink.written =
        "\n") ∧
    (run ("scroll fax drag" ++ "\n it," ++ " and drop fax") 1 20 {}).1.unplaced =
      .failure (.run ⟨.stackUnderflow, {}⟩) := by
  have hgap : Piece.Gap "\n it,".toList :=
    .more rfl (@Piece.Gap.filler ' ' "it" [','] rfl rfl (.separator rfl))
  obtain ⟨m, hrun, hwritten⟩ : ∃ m, run ("scroll pause" ++ " play fax drag and drop fax") 1 20 {} =
      (.failure (.run ⟨.stackUnderflow, ⟨1, 19⟩⟩), m) ∧ m.sink.written = "\n" :=
    ⟨_, by cbv, by cbv⟩
  have hcomment := run_gap "scroll pause" _ " play fax drag and drop fax" hgap
    (fun _ _ _ => rfl) 1 20 {}
  have hphrase := run_gap "scroll fax drag" _ " and drop fax" hgap (fun _ _ _ => rfl) 1 20 {}
  have hfault : (run ("scroll fax drag" ++ " and drop fax") 1 20 {}).1.unplaced =
      .failure (.run ⟨.stackUnderflow, {}⟩) := by cbv
  rw [hrun] at hcomment
  refine ⟨⟨by rw [hrun], hcomment.1, ?_⟩, hphrase.1.trans hfault⟩
  rw [hcomment.2, hwritten]

end Script
end VerbScript
