import VerbScript.Proofs.Raising
import VerbScript.Proofs.Syntax.Denotation

/-!
# VerbScript.Proofs.Values

Only values are evaluated.

Evaluation has a fault for markers, which no program from a source text comes to. Instructions that
are no markers are trees of values, so what a step begins to evaluate is such a tree, and what the
evaluation of such a tree begins to evaluate is one too (`Activity.Valued.of_leads`). With
`Activity.exists_raiser` it follows that the fault is raised nowhere
(`Script.evaluates_no_marker`).
-/

namespace VerbScript

variable {W I : Type}

namespace Activity

/-- What the activity evaluates are values. -/
def Valued : Activity W I → Prop
  | .run _ => True
  | .step _ => True
  | .eval node _ _ => node.IsValue
  | .arguments nodes _ _ => ∀ node ∈ nodes, node.IsValue
  | .call _ nodes _ _ => ∀ node ∈ nodes, node.IsValue
  | .body _ _ _ _ => True

section

variable {setup : Setup} (hp : ∀ instruction ∈ setup.program, instruction.value.WellFormed)
include hp

theorem isValue_of_node? {i : Nat} {node : Node} (hi : setup.program.node? i = some node)
    (hm : node.isMarker = false) : node.IsValue := by
  obtain ⟨instruction, hget, rfl⟩ := Option.map_eq_some_iff.1 hi
  exact (hp instruction (List.mem_of_getElem? hget)).isValue hm

omit hp in
theorem Valued.not_raised {a : Activity W I} (h : a.Valued) {node : Node} {place : Position} :
    ¬ RaisedBy setup ⟨.notAValue node, place⟩ a := by
  intro hr
  cases hr with
  | marker hm _ =>
    have hvalue : Node.IsValue _ := h
    exact Bool.false_ne_true (hvalue.not_marker.symm.trans hm)
  | flush _ hat => cases hat.value
  | instruction _ hat => cases hat.value
  | value hat => cases hat.value
  | call hat => cases hat.value
  | body hat => cases hat.value

variable [Writer W] [LineSource I]

theorem Valued.of_begins {a b : Activity W I} (h : a.Valued) (hab : Begins setup a b) : b.Valued := by
  cases hab with
  | step _ => trivial
  | value hi hm => exact isValue_of_node? hp (by rw [Program.node?, hi]; rfl) hm
  | change _ _ ho hm => exact isValue_of_node? hp ho hm
  | left =>
    cases h with
    | binary _ hleft _ => exact hleft
  | right _ =>
    cases h with
    | binary _ _ hright => exact hright
  | operand =>
    cases h with
    | unary _ hoperand => exact hoperand
  | call =>
    cases h with
    | call _ harguments => exact harguments
  | arguments _ => exact h
  | argument => exact h _ List.mem_cons_self
  | body _ _ => trivial
  | bodyStep _ _ _ => trivial

omit hp in
theorem Valued.of_goesOn {a b : Activity W I} (h : a.Valued) (hab : GoesOn setup a b) : b.Valued := by
  cases hab with
  | run _ _ => trivial
  | arguments _ => exact fun node hnode => h node (List.mem_cons_of_mem _ hnode)
  | body _ _ _ _ => trivial

theorem Valued.of_leads {a b : Activity W I} (h : a.Valued) (hab : Leads setup a b) : b.Valued := by
  rcases hab with hab | hab
  · exact h.of_begins hp hab
  · exact h.of_goesOn hab

theorem Valued.within {a b : Activity W I} (h : a.Valued) (hab : Within setup a b) : b.Valued := by
  induction hab with
  | refl => exact h
  | tail _ hbc ih => exact ih.of_leads hp hbc

/-- What evaluates values never ends with the fault for markers. -/
theorem Valued.not_faults {a : Activity W I} (h : a.Valued) {node : Node} {place : Position}
    {m' : Machine W I} : ¬ Faults setup ⟨.notAValue node, place⟩ m' a := by
  intro hfaults
  obtain ⟨fuel, hfault⟩ := faults_iff.1 hfaults
  obtain ⟨b, hab, hraises⟩ := exists_raiser hfault
  exact (h.within hp hab).not_raised hraises.raisedBy

end

end Activity

open Activity

namespace Script

variable [Writer W] [LineSource I]

/-- In the program of a source text, no marker is ever evaluated: not by a step or a run of any
machine, and not by anything that these begin, however many calls are in progress. -/
theorem evaluates_no_marker {source : String} {program : Program}
    (h : parse source = .ok program) (depthLimit : Nat) (m : Machine W I) (node : Node)
    (place : Position) (m' : Machine W I) :
    (∀ fuel, Machine.step ⟨program, depthLimit⟩ fuel m ≠ .fault ⟨.notAValue node, place⟩ m') ∧
    (∀ fuel, Machine.run ⟨program, depthLimit⟩ fuel m ≠ .fault ⟨.notAValue node, place⟩ m') ∧
    ∀ a, Within ⟨program, depthLimit⟩ (.step m) a ∨ Within ⟨program, depthLimit⟩ (.run m) a →
      ¬ Faults ⟨program, depthLimit⟩ ⟨.notAValue node, place⟩ m' a := by
  obtain ⟨ts, hts, hprogram⟩ := parse_eq_ok_iff.1 h
  have hp : ∀ instruction ∈ (⟨program, depthLimit⟩ : Setup).program, instruction.value.WellFormed :=
    Program.ofTokens_wellFormed hprogram (Token.ofSource_readable hts)
  have hstep : (Activity.step m).Valued := trivial
  have hrun : (Activity.run m).Valued := trivial
  refine ⟨fun fuel hfault => ?_, fun fuel hfault => ?_, fun a ha => ?_⟩
  · exact hstep.not_faults hp (faults_iff.2 ⟨fuel, hfault⟩)
  · exact hrun.not_faults hp (faults_iff.2 ⟨fuel, hfault⟩)
  · rcases ha with ha | ha
    · exact (hstep.within hp ha).not_faults hp
    · exact (hrun.within hp ha).not_faults hp

/-- A function whose body changes the stack, by an index that it pops from it. -/
def changesInCall : String := "use (a) f code change fax break use (fax) f call"

theorem evaluates_no_marker_changesInCall :
    ∃ program, parse changesInCall = .ok program ∧ ∀ node place m',
      Machine.step ⟨program, 1⟩ 9 {} ≠ .fault ⟨.notAValue node, place⟩ m' ∧
      Machine.run ⟨program, 1⟩ 99 {} ≠ .fault ⟨.notAValue node, place⟩ m' ∧
      ¬ Faults ⟨program, 1⟩ ⟨.notAValue node, place⟩ m' (.step {}) := by
  obtain ⟨program, hparse⟩ : ∃ program, parse changesInCall = .ok program := ⟨_, by cbv⟩
  refine ⟨program, hparse, fun node place m' => ?_⟩
  obtain ⟨hstep, hrun, hpart⟩ := evaluates_no_marker hparse 1 {} node place m'
  exact ⟨hstep 9, hrun 99, hpart _ (.inl .refl)⟩

/-- No source text spells this program. -/
example : Machine.run ⟨[⟨.unary .not .label, ⟨1, 1⟩⟩], 1⟩ 9 {} =
    .fault ⟨.notAValue .label, ⟨1, 1⟩⟩ (Machine.jump {} 1) := by
  rfl

end Script
end VerbScript
