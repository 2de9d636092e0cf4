import VerbScript.Proofs.Effect

/-!
# VerbScript.Proofs.Labels

Labels are counted from 1 in the order of the program, and `find` goes by this count.

The search for a label passes over the labels before it. What it finds is known by how many labels
stand before the place (`labelOffset?_eq_some_iff`), and it finds nothing exactly where there are
not enough labels (`labelOffset?_eq_none_iff`); both are inductions over the instructions that are
searched. `find_counts_labels` is what this means for a step that carries out `find`.
-/

namespace VerbScript

variable {W I : Type}

theorem Node.isLabel_iff {node : Node} : node.isLabel = true ↔ node = .label := by
  cases node <;> simp [Node.isLabel]

namespace Program

/-- The `n`-th label, counted from 1, is at the index `i`: before it are `n - 1` labels. -/
def LabelAt (p : Program) (n i : Nat) : Prop :=
  1 ≤ n ∧ p.node? i = some .label ∧ labelCount (p.take i) = n - 1

/-! ## The search -/

theorem labelCount_cons (instruction : Located Node) (rest : Program) :
    labelCount (instruction :: rest) =
      labelCount rest + if instruction.value.isLabel then 1 else 0 :=
  List.countP_cons

theorem labelOffset?_eq_some_iff {skipped i : Nat} {l : Program} :
    labelOffset? skipped l = some i ↔
      l.node? i = some .label ∧ labelCount (l.take i) = skipped := by
  induction l generalizing skipped i with
  | nil => simp [labelOffset?, node?]
  | cons instruction rest ih =>
    have later : ∀ skipped, (labelOffset? skipped rest).map (· + 1) = some i ↔
        ∃ j, i = j + 1 ∧ node? rest j = some .label ∧ labelCount (rest.take j) = skipped := by
      intro skipped
      rw [Option.map_eq_some_iff]
      constructor
      · rintro ⟨j, hj, rfl⟩
        exact ⟨j, rfl, ih.1 hj⟩
      · rintro ⟨j, rfl, hj⟩
        exact ⟨j, ih.2 hj, rfl⟩
    simp only [labelOffset?]
    by_cases hlabel : instruction.value.isLabel = true
    · rw [if_pos hlabel]
      cases skipped with
      | zero =>
        -- The label is the one looked for: it is the only one with no label before it.
        cases i with
        | zero => simp [node?, labelCount, Node.isLabel_iff.1 hlabel]
        | succ i => simp [labelCount_cons, hlabel]
      | succ skipped =>
        rw [later]
        cases i with
        | zero => simp [labelCount]
        | succ i => simp [node?, labelCount_cons, hlabel]
    · rw [if_neg hlabel, later]
      have hnode : instruction.value ≠ .label := fun h => hlabel (Node.isLabel_iff.2 h)
      cases i with
      | zero => simp [node?, hnode]
      | succ i => simp [node?, labelCount_cons, hlabel]

theorem labelOffset?_eq_none_iff {skipped : Nat} {l : Program} :
    labelOffset? skipped l = none ↔ l.labelCount ≤ skipped := by
  induction l generalizing skipped with
  | nil => simp [labelOffset?, labelCount]
  | cons instruction rest ih =>
    simp only [labelOffset?, labelCount_cons]
    by_cases hlabel : instruction.value.isLabel = true
    · rw [if_pos hlabel, if_pos hlabel]
      cases skipped with
      | zero => simp
      | succ skipped => simp [ih]
    · rw [if_neg hlabel, if_neg hlabel, Option.map_eq_none_iff]
      exact ih

theorem label?_eq_some_iff {p : Program} {n i : Nat} :
    p.label? n = some i ↔ p.LabelAt n i := by
  cases n with
  | zero => simp [label?, LabelAt]
  | succ n => simp [label?, LabelAt, labelOffset?_eq_some_iff]

theorem label?_eq_none_iff {p : Program} {n : Nat} :
    p.label? n = none ↔ n = 0 ∨ p.labelCount < n := by
  cases n with
  | zero => simp [label?]
  | succ n =>
    rw [label?, labelOffset?_eq_none_iff]
    omega

/-- There is an `n`-th label exactly if there are at least `n` labels. -/
theorem exists_labelAt_iff {p : Program} {n : Nat} :
    (∃ i, p.LabelAt n i) ↔ 1 ≤ n ∧ n ≤ p.labelCount := by
  simp only [← label?_eq_some_iff]
  rw [← Option.isSome_iff_exists, Option.isSome_iff_ne_none, ne_eq, label?_eq_none_iff]
  omega

end Program

namespace Machine

/-! ## The jump -/

/-- All that `find` does with an index: it ends the program, or goes on after a label, or fails. -/
theorem find_cases {m : Machine W I} {p : Program} {value : Number} {n : Nat}
    (hvalue : m.state.lastValue = some value) (hindex : value.index? = some n) (place : Position) :
    (n = 0 ∧ m.find p place = .done () (m.halt p.length)) ∨
      (∃ i, p.LabelAt n i ∧ m.find p place = .done () (m.jump (i + 1))) ∨
      (p.labelCount < n ∧
        m.find p place = .fault ⟨.labelOutOfRange n p.labelCount, place⟩ m) := by
  simp only [find, withLastValue, hvalue, hindex]
  cases n with
  | zero => exact .inl ⟨rfl, rfl⟩
  | succ n =>
    refine .inr ?_
    cases hlabel : p.label? (n + 1) with
    | some i => exact .inl ⟨i, Program.label?_eq_some_iff.1 hlabel, by simp only [hlabel]⟩
    | none =>
      rcases Program.label?_eq_none_iff.1 hlabel with hzero | hlarge
      · cases hzero
      · exact .inr ⟨hlarge, by simp only [hlabel]⟩

variable [Writer W] [LineSource I]

/-- Labels are counted from 1 in the order of the program: the `n`-th one is the label with `n - 1`
labels before it, and there is one unless `n` is zero or larger than the number of labels. With `n`
as the last value, `find` ends the program if `n` is zero and only then, goes on after the `n`-th
label if there is one and only then, and otherwise fails and says what was looked for among how
many. -/
theorem find_counts_labels (p : Program) (n : Nat) :
    (∀ i, p.label? n = some i ↔ p.LabelAt n i) ∧
      (p.label? n = none ↔ n = 0 ∨ p.labelCount < n) ∧
      ∀ limit fuel place (m : Machine W I) value, p[m.state.pointer]? = some ⟨.keyword .find, place⟩ →
        m.state.lastValue = some value → value.index? = some n →
        (n = 0 → step ⟨p, limit⟩ (fuel + 1) m = .done () (m.halt p.length)) ∧
        (∀ m', step ⟨p, limit⟩ (fuel + 1) m = .done () m' →
          (m'.state.halted = true ↔ m.state.halted = true ∨ n = 0)) ∧
        ((∃ i, p.LabelAt n i ∧ step ⟨p, limit⟩ (fuel + 1) m = .done () (m.jump (i + 1))) ↔
          1 ≤ n ∧ n ≤ p.labelCount) ∧
        (step ⟨p, limit⟩ (fuel + 1) m =
            .fault ⟨.labelOutOfRange n p.labelCount, place⟩ (m.jump (m.state.pointer + 1)) ↔
          p.labelCount < n) := by
  refine ⟨fun i => Program.label?_eq_some_iff, Program.label?_eq_none_iff, ?_⟩
  intro limit fuel place m value hi hvalue hindex
  have hstep : step ⟨p, limit⟩ (fuel + 1) m = (m.jump (m.state.pointer + 1)).find p place :=
    step_keyword (k := .find) hi (by simp) fuel
  have hcases := find_cases (m := m.jump (m.state.pointer + 1)) (p := p) hvalue hindex place
  rw [← hstep] at hcases
  generalize step ⟨p, limit⟩ (fuel + 1) m = after at hcases ⊢
  have hrange := @Program.exists_labelAt_iff p n
  rcases hcases with ⟨hzero, rfl⟩ | ⟨i, hlabel, rfl⟩ | ⟨hlarge, rfl⟩
  · refine ⟨fun _ => rfl, ?_, ?_, ?_⟩
    · rintro m' ⟨⟩
      simp [halt, hzero]
    · constructor
      · rintro ⟨i, hlabel, -⟩
        exact hrange.1 ⟨i, hlabel⟩
      · intro hn
        omega
    · constructor
      · rintro ⟨⟩
      · intro hn
        omega
  · obtain ⟨hpos, hle⟩ := hrange.1 ⟨i, hlabel⟩
    refine ⟨fun hzero => by omega, ?_, ?_, ?_⟩
    · rintro m' ⟨⟩
      have hn : n ≠ 0 := by omega
      simp [jump, State.jump, hn]
    · exact ⟨fun _ => ⟨hpos, hle⟩, fun _ => ⟨i, hlabel, rfl⟩⟩
    · constructor
      · rintro ⟨⟩
      · intro hn
        omega
  · refine ⟨fun hzero => by omega, ?_, ?_, ?_⟩
    · rintro m' ⟨⟩
    · constructor
      · rintro ⟨i, hlabel, -⟩
        exact hrange.1 ⟨i, hlabel⟩
      · intro hn
        omega
    · exact ⟨fun _ => hlarge, fun _ => rfl⟩

/-- Three labels, with a `find` between them. -/
def threeLabels : Program := .ofNodes
  [.label, .keyword .scroll, .keyword .find, .label, .keyword .scroll, .label]

/-- A machine before the `find`, with a last value. -/
def beforeFind (value : Number) : Machine := { state := { pointer := 2, lastValue := some value } }

theorem find_counts_labels_three :
    threeLabels.label? 2 = some 3 ∧
      step ⟨threeLabels, 200⟩ 1 (beforeFind 2) = .done () ((beforeFind 2).jump 4) ∧
      step ⟨threeLabels, 200⟩ 1 (beforeFind 4) =
        .fault ⟨.labelOutOfRange 4 3, ⟨3, 1⟩⟩ ((beforeFind 4).jump 3) := by
  have hlabel : threeLabels.LabelAt 2 3 := ⟨by decide, rfl, by decide⟩
  obtain ⟨hsome, -, hstep⟩ := find_counts_labels (W := Sink) (I := Input) threeLabels 2
  obtain ⟨-, -, hjump, -⟩ := hstep 200 0 ⟨3, 1⟩ (beforeFind 2) 2 rfl rfl (by decide +kernel)
  obtain ⟨-, -, hstep'⟩ := find_counts_labels (W := Sink) (I := Input) threeLabels 4
  obtain ⟨-, -, -, hfault⟩ := hstep' 200 0 ⟨3, 1⟩ (beforeFind 4) 4 rfl rfl (by decide +kernel)
  obtain ⟨i, hi, hdone⟩ := hjump.2 (by decide)
  cases ((hsome i).2 hi).symm.trans ((hsome 3).2 hlabel)
  exact ⟨(hsome 3).2 hlabel, hdone, hfault.2 (by decide)⟩

end Machine
end VerbScript
