import VerbScript.Proofs.HostStack

/-!
# VerbScript.Proofs.Trace

The machines that a run passes through, in order.

`Activity.trace setup fuel a` lists the machine with which an activity begins, what the activities
pass through that it is made of, one after another, and the machine that it leaves. The list is cut
where the fuel is used up. `InProgress.mem_trace` says that no moment of a run is left out.
-/

namespace VerbScript

variable {W I : Type}

namespace Outcome

variable {α : Type}

/-- The machine that the outcome leaves, if it is not cut off. -/
def last : Outcome α W I → List (Machine W I)
  | .done _ m => [m]
  | .fault _ m => [m]
  | .cutOff => []

/-- What is passed through after an action that is done. -/
def onward (o : Outcome α W I) (next : α → Machine W I → List (Machine W I)) : List (Machine W I) :=
  match o with
  | .done value m => next value m
  | .fault _ _ => []
  | .cutOff => []

end Outcome

namespace Activity

/-- The machine with which the activity begins. -/
def machine : Activity W I → Machine W I
  | .run m => m
  | .step m => m
  | .eval _ _ m => m
  | .arguments _ _ m => m
  | .call _ _ _ m => m
  | .body _ _ _ m => m

/-- The evaluation that the instruction under the pointer begins with. -/
def evaluation? (p : Program) (m : Machine W I) : Option (Activity W I) :=
  match p[m.state.pointer]? with
  | none => none
  | some ⟨.keyword .change, place⟩ =>
    match m.state.lastValue, p.node? (m.state.pointer + 1) with
    | some _, some operand =>
      if operand.isMarker then none
      else some (.eval operand place (m.jump (m.state.pointer + 2)))
    | _, _ => none
  | some ⟨node, place⟩ =>
    if node.isMarker then none else some (.eval node place (m.jump (m.state.pointer + 1)))

theorem evaluation?_value {p : Program} {m : Machine W I} {node : Node} {place : Position}
    (hi : p[m.state.pointer]? = some ⟨node, place⟩) (hm : node.isMarker = false) :
    evaluation? p m = some (.eval node place (m.jump (m.state.pointer + 1))) := by
  simp only [evaluation?, hi]
  cases node with
  | keyword k => cases hm
  | label => cases hm
  | define name parameters => cases hm
  | _ => rfl

theorem evaluation?_change {p : Program} {m : Machine W I} {operand : Node} {place : Position}
    {value : Number} (hi : p[m.state.pointer]? = some ⟨.keyword .change, place⟩)
    (hv : m.state.lastValue = some value) (ho : p.node? (m.state.pointer + 1) = some operand)
    (hm : operand.isMarker = false) :
    evaluation? p m = some (.eval operand place (m.jump (m.state.pointer + 2))) := by
  simp only [evaluation?, hi, hv, ho, hm]
  rfl

/-- An activity that is begun after another one is done is among what comes after that. -/
theorem subset_onward {α : Type} {f : Nat → Outcome α W I} (hf : Outcome.Stable f) {fuel : Nat}
    {value : α} {m : Machine W I} (h : f fuel = .done value m) {fuel' : Nat} (hle : fuel ≤ fuel')
    (before : List (Machine W I)) (next : α → Machine W I → List (Machine W I)) :
    next value m ⊆ before ++ (f fuel').onward next := by
  rw [hf.le hle (by rw [h]; simp), h]
  exact List.subset_append_right _ _

variable [Writer W] [LineSource I]

/-- The machine that the activity leaves. -/
def last (setup : Setup) (fuel : Nat) : Activity W I → List (Machine W I)
  | .run m => (Machine.run setup fuel m).last
  | .step m => (Machine.step setup fuel m).last
  | .eval node place m => (Machine.eval setup fuel node place m).last
  | .arguments nodes place m => (Machine.evalArguments setup fuel nodes place m).last
  | .call name nodes place m => (Machine.call setup fuel name nodes place m).last
  | .body depth name place m => (Machine.runUntil setup fuel depth name place m).last

/-- What the parts of an activity pass through, given what each activity by itself passes through. -/
def parts (setup : Setup) (fuel : Nat) (inner : Activity W I → List (Machine W I)) :
    Activity W I → List (Machine W I)
  | .run m =>
    if m.isFinished setup then []
    else inner (.step m) ++ (Machine.step setup fuel m).onward fun _ m => inner (.run m)
  | .step m =>
    match evaluation? setup.program m with
    | some evaluation => inner evaluation
    | none => []
  | .eval (.binary _ left right) place m =>
    inner (.eval left place m) ++
      (Machine.eval setup fuel left place m).onward fun _ m => inner (.eval right place m)
  | .eval (.unary _ operand) place m => inner (.eval operand place m)
  | .eval (.call name nodes) place m => inner (.call name nodes place m)
  | .eval _ _ _ => []
  | .arguments [] _ _ => []
  | .arguments (node :: nodes) place m =>
    inner (.eval node place m) ++
      (Machine.eval setup fuel node place m).onward fun _ m => inner (.arguments nodes place m)
  | .call name nodes place m =>
    match m.state.functions.get? name with
    | none => []
    | some entry =>
      if entry.parameters.length = nodes.length ∧ m.state.frames.length < setup.depthLimit then
        inner (.arguments nodes place m) ++
          (Machine.evalArguments setup fuel nodes place m).onward fun values m₁ =>
            inner (.body m.state.frames.length name place (m₁.enter name entry values))
      else []
  | .body depth name place m =>
    if depth < m.state.frames.length ∧ m.state.halted = false ∧
        m.state.pointer < setup.program.length then
      inner (.step m) ++
        (Machine.step setup fuel m).onward fun _ m => inner (.body depth name place m)
    else []

/-- The machines that an activity passes through, in order. -/
def trace (setup : Setup) : Nat → Activity W I → List (Machine W I)
  | 0, a => [a.machine]
  | fuel + 1, a => a.machine :: (a.parts setup fuel (trace setup fuel) ++ a.last setup (fuel + 1))

theorem machine_mem_trace (setup : Setup) (fuel : Nat) (a : Activity W I) :
    a.machine ∈ trace setup fuel a := by
  cases fuel with
  | zero => exact List.mem_singleton_self _
  | succ fuel => exact List.mem_cons_self

theorem parts_subset_trace (setup : Setup) (fuel : Nat) (a : Activity W I) :
    a.parts setup fuel (trace setup fuel) ⊆ trace setup (fuel + 1) a := by
  intro m hm
  exact List.mem_cons_of_mem _ (List.mem_append_left _ hm)

theorem begins_of_evaluation? {setup : Setup} {m : Machine W I} {a : Activity W I}
    (h : evaluation? setup.program m = some a) : Begins setup (.step m) a := by
  unfold evaluation? at h
  split at h
  · cases h
  · rename_i place hi
    split at h
    · rename_i value operand hv ho
      split at h
      · cases h
      · rename_i hm
        cases h
        exact .change hi hv ho (Bool.eq_false_iff.2 hm)
    · cases h
  · rename_i node place _ hi
    split at h
    · cases h
    · rename_i hm
      cases h
      exact .value hi (Bool.eq_false_iff.2 hm)

/-! ## All moments are in it -/

/-- What an activity begins is one of its parts, given enough fuel to come to it. -/
theorem Begins.subset_parts {setup : Setup} {a b : Activity W I} (hab : Begins setup a b) :
    ∃ enough, ∀ fuel, enough ≤ fuel → ∀ inner : Activity W I → List (Machine W I),
      inner b ⊆ a.parts setup fuel inner := by
  cases hab with
  | step hf =>
    refine ⟨0, fun fuel _ inner => ?_⟩
    simp only [parts, hf, Bool.false_eq_true, ↓reduceIte]
    exact List.subset_append_left _ _
  | value hi hm =>
    refine ⟨0, fun fuel _ inner => ?_⟩
    simp only [parts, evaluation?_value hi hm]
    exact List.Subset.refl _
  | change hi hv ho hm =>
    refine ⟨0, fun fuel _ inner => ?_⟩
    simp only [parts, evaluation?_change hi hv ho hm]
    exact List.Subset.refl _
  | left => exact ⟨0, fun fuel _ inner => List.subset_append_left _ _⟩
  | @right op left right place m m₁ value enough hl =>
    refine ⟨enough, fun fuel hle inner => ?_⟩
    exact subset_onward (Machine.eval_stable setup left place m) hl hle _ fun _ m =>
      inner (.eval right place m)
  | operand => exact ⟨0, fun fuel _ inner => List.Subset.refl _⟩
  | call => exact ⟨0, fun fuel _ inner => List.Subset.refl _⟩
  | arguments ha =>
    refine ⟨0, fun fuel _ inner => ?_⟩
    simp only [parts, ha.known]
    rw [if_pos ⟨ha.count, ha.room⟩]
    exact List.subset_append_left _ _
  | argument => exact ⟨0, fun fuel _ inner => List.subset_append_left _ _⟩
  | @body name nodes place m m₁ entry values enough ha he =>
    refine ⟨enough, fun fuel hle inner => ?_⟩
    simp only [parts, ha.known]
    rw [if_pos ⟨ha.count, ha.room⟩]
    exact subset_onward (Machine.evalArguments_stable setup nodes place m) he hle _
      fun values m₁ => inner (.body m.state.frames.length name place (m₁.enter name entry values))
  | bodyStep hd hh hp =>
    refine ⟨0, fun fuel _ inner => ?_⟩
    simp only [parts]
    rw [if_pos ⟨hd, hh, hp⟩]
    exact List.subset_append_left _ _

/-- So is the next round of a loop. -/
theorem GoesOn.subset_parts {setup : Setup} {a a' : Activity W I} (haa : GoesOn setup a a') :
    ∃ enough, ∀ fuel, enough ≤ fuel → ∀ inner : Activity W I → List (Machine W I),
      inner a' ⊆ a.parts setup fuel inner := by
  cases haa with
  | @run m m' enough hf hs =>
    refine ⟨enough, fun fuel hle inner => ?_⟩
    simp only [parts, hf, Bool.false_eq_true, ↓reduceIte]
    exact subset_onward (Machine.step_stable setup m) hs hle _ fun _ m => inner (.run m)
  | @arguments node nodes place m m' value enough he =>
    refine ⟨enough, fun fuel hle inner => ?_⟩
    exact subset_onward (Machine.eval_stable setup node place m) he hle _ fun _ m =>
      inner (.arguments nodes place m)
  | @body depth name place m m' enough hd hh hp hs =>
    refine ⟨enough, fun fuel hle inner => ?_⟩
    simp only [parts]
    rw [if_pos ⟨hd, hh, hp⟩]
    exact subset_onward (Machine.step_stable setup m) hs hle _ fun _ m =>
      inner (.body depth name place m)

/-- What the innermost activity passes through, the run passes through, given fuel for the activities
around it. -/
theorem InProgress.trace_subset {setup : Setup} {m : Machine W I} {stack : List (Activity W I)}
    (h : InProgress setup m stack) :
    ∀ a outer, stack = a :: outer → ∃ enough around, ∀ fuel, enough ≤ fuel →
      trace setup fuel a ⊆ trace setup (fuel + around) (.run m) := by
  have widen : ∀ {a b : Activity W I},
      (∃ enough, ∀ fuel, enough ≤ fuel → ∀ inner : Activity W I → List (Machine W I),
        inner b ⊆ a.parts setup fuel inner) →
      (∃ enough around, ∀ fuel, enough ≤ fuel →
        trace setup fuel a ⊆ trace setup (fuel + around) (.run m)) →
      ∃ enough around, ∀ fuel, enough ≤ fuel →
        trace setup fuel b ⊆ trace setup (fuel + around) (.run m) := by
    rintro a b ⟨enough, hpart⟩ ⟨enough', around, htrace⟩
    refine ⟨max enough enough', around + 1, fun fuel hle => ?_⟩
    have hb : trace setup fuel b ⊆ trace setup (fuel + 1) a :=
      List.Subset.trans (hpart fuel (by omega) _) (parts_subset_trace setup fuel a)
    have ha := htrace (fuel + 1) (by omega)
    rw [show fuel + 1 + around = fuel + (around + 1) by omega] at ha
    exact List.Subset.trans hb ha
  induction h with
  | start =>
    intro a outer heq
    cases heq
    exact ⟨0, 0, fun fuel _ => List.Subset.refl _⟩
  | begins _ hab ih =>
    intro b outer heq
    cases heq
    exact widen hab.subset_parts (ih _ _ rfl)
  | goesOn _ haa ih =>
    intro a' outer heq
    cases heq
    exact widen haa.subset_parts (ih _ _ rfl)

/-- The machine with which an activity begins that is in progress at any moment of a run is one of
those that the run passes through. -/
theorem InProgress.mem_trace {setup : Setup} {m : Machine W I} {a : Activity W I}
    {outer : List (Activity W I)} (h : InProgress setup m (a :: outer)) :
    ∃ enough, ∀ fuel, enough ≤ fuel → a.machine ∈ trace setup fuel (.run m) := by
  obtain ⟨enough, around, hsub⟩ := h.trace_subset a outer rfl
  refine ⟨enough + around, fun fuel hle => ?_⟩
  have hmem := hsub (fuel - around) (by omega) (machine_mem_trace setup _ a)
  rwa [Nat.sub_add_cancel (by omega)] at hmem

end Activity
end VerbScript
