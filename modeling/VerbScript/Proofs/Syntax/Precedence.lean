import VerbScript.Proofs.Syntax.Denotation

/-!
# VerbScript.Proofs.Syntax.Precedence

Atoms with binary operators between them are grouped by precedence.

* `Grouping`: trees over atoms. `Grouping.Binds` says that an operator in the left operand of another
  one binds at least as tightly and one in the right operand tighter. There is at most one such tree
  over given atoms and operators (`Grouping.eq_of_reading`): its root is the last of the operators
  that bind least.
* `Node.Atom` and `Node.Operands`: the tokens of atoms, and of operators with an atom behind each.
* `Node.climb_operands`: what climbing makes of them, from any tree on the left and with any floor.
  It takes the operators up to the first one that binds no tighter than the floor.
* `Node.climb_groups_by_precedence`: from the floor zero it takes them all, and what it makes is the
  one tree that binds.
-/

namespace VerbScript

/-! ## Trees over atoms -/

/-- How operators are grouped. The atoms are leaves, whatever nodes they are. -/
inductive Grouping where
  | atom (node : Node)
  | apply (op : BinaryOperator) (left right : Grouping)

namespace Grouping

/-- The node that the tree stands for. -/
def node : Grouping → Node
  | .atom node => node
  | .apply op left right => .binary op left.node right.node

/-- The first atom from the left. -/
def first : Grouping → Node
  | .atom node => node
  | .apply _ left _ => left.first

/-- The operators from left to right, each with the atom behind it. -/
def operands : Grouping → List (BinaryOperator × Node)
  | .atom _ => []
  | .apply op left right => left.operands ++ (op, right.first) :: right.operands

/-- The operator at the root. -/
def top? : Grouping → Option BinaryOperator
  | .atom _ => none
  | .apply op _ _ => some op

/-- Operators to the left bind at least as tightly as the one above them, those to the right
tighter. -/
def Binds : Grouping → Prop
  | .atom _ => True
  | .apply op left right =>
    (∀ inner ∈ left.top?, op.precedence ≤ inner.precedence) ∧
    (∀ inner ∈ right.top?, op.precedence < inner.precedence) ∧ left.Binds ∧ right.Binds

/-- What binds at the root binds throughout the tree. -/
theorem Binds.le_of_mem {tree : Grouping} (h : tree.Binds) {floor : Nat}
    (htop : ∀ op ∈ tree.top?, floor ≤ op.precedence) :
    ∀ pair ∈ tree.operands, floor ≤ pair.1.precedence := by
  induction tree with
  | atom node =>
    intro pair hpair
    cases hpair
  | apply op left right ihl ihr =>
    obtain ⟨hleft, hright, hl, hr⟩ := h
    have hop : floor ≤ op.precedence := htop op rfl
    intro pair hpair
    rcases List.mem_append.1 hpair with hpair | hpair
    · exact ihl hl (fun inner hinner => hop.trans (hleft inner hinner)) pair hpair
    · rcases List.mem_cons.1 hpair with rfl | hpair
      · exact hop
      · exact ihr hr (fun inner hinner => hop.trans (hright inner hinner).le) pair hpair

/-- The root cannot stand to the left of another root over the same operators: the other one would
bind tighter, as it is to the right, and not, as the first one is to its left. -/
theorem eq_nil_of_overlap {op op' : BinaryOperator} {x x' : Node}
    {between right right' : List (BinaryOperator × Node)}
    (hleft : ∀ pair ∈ between, op'.precedence ≤ pair.1.precedence)
    (hright : ∀ pair ∈ right, op.precedence < pair.1.precedence)
    (h : (op, x) :: right = between ++ (op', x') :: right') : between = [] := by
  cases between with
  | nil => rfl
  | cons pair between =>
    obtain ⟨rfl, htail⟩ := List.cons.inj h
    have hle := hleft (op, x) List.mem_cons_self
    have hlt := hright (op', x') (by rw [htail]; simp)
    exact absurd (hlt.trans_le hle) (Nat.lt_irrefl _)

theorem eq_of_reading {tree tree' : Grouping} (h : tree.Binds) (h' : tree'.Binds)
    (hfirst : tree.first = tree'.first) (hoperands : tree.operands = tree'.operands) :
    tree = tree' := by
  induction tree generalizing tree' with
  | atom node =>
    cases tree' with
    | atom node' => exact congrArg atom hfirst
    | apply op left right => simp [operands] at hoperands
  | apply op left right ihl ihr =>
    cases tree' with
    | atom node' => simp [operands] at hoperands
    | apply op' left' right' =>
      obtain ⟨hleft, hright, hl, hr⟩ := h
      obtain ⟨hleft', hright', hl', hr'⟩ := h'
      -- both roots are at the same place of the sequence
      obtain ⟨hlefts, hrights⟩ : left.operands = left'.operands ∧
          (op, right.first) :: right.operands = (op', right'.first) :: right'.operands := by
        rcases List.append_eq_append_iff.1 hoperands with
          ⟨between, hlonger, hrest⟩ | ⟨between, hlonger, hrest⟩
        · have hnil := eq_nil_of_overlap
            (fun pair hpair => hl'.le_of_mem hleft' pair (by simp [hlonger, hpair]))
            (fun pair hpair => hr.le_of_mem hright pair hpair) hrest
          subst hnil
          exact ⟨by simpa using hlonger.symm, hrest⟩
        · have hnil := eq_nil_of_overlap
            (fun pair hpair => hl.le_of_mem hleft pair (by simp [hlonger, hpair]))
            (fun pair hpair => hr'.le_of_mem hright' pair hpair) hrest
          subst hnil
          exact ⟨by simpa using hlonger, hrest.symm⟩
      simp only [List.cons.injEq, Prod.mk.injEq] at hrights
      obtain ⟨⟨rfl, hrightFirst⟩, hrightOperands⟩ := hrights
      rw [ihl hl hl' hfirst hlefts, ihr hr hr' hrightFirst hrightOperands]

end Grouping

theorem BinaryOperator.precedence_pos (op : BinaryOperator) : 0 < op.precedence := by
  cases op <;> decide

namespace Node

/-! ## Atoms -/

/-- Applies unary operators to a node, the first one innermost. -/
def withPostfixes (node : Node) (ops : List UnaryOperator) : Node :=
  ops.foldl (fun node op => .unary op node) node

/-- The tokens of an atom that is a value, by its form. What stands inside of a group or between the
parentheses of a call is read by itself. -/
inductive Atom (bare : Bool) : Tokens → Node → Prop where
  | number {ts : Tokens} {digits : List Nat} {value : Number} (hne : digits ≠ [])
      (hts : ts.map Located.value = digits.map .digit)
      (hvalue : Number.ofText? (String.ofList (digits.map digitChar)) = some value) :
      Atom bare ts (.number value)
  | variable {ts : Tokens} {name : String} (hname : Vocabulary.isName name = true)
      (hts : ts.map Located.value = [.structural .name, .name name, .structural .rename]) :
      Atom bare ts (.variable name)
  /-- A bare name, where such a name is a variable. -/
  | bareName {t : Located Token} {name : String} (hbare : bare = true)
      (hname : Vocabulary.isName name = true) (ht : t.value = .name name) :
      Atom bare [t] (.variable name)
  | pop {t : Located Token} (ht : t.value = .pop) : Atom bare [t] .pop
  | call {use opening called ending : Located Token} {ts : Tokens} {name : String}
      {arguments : List Node} (huse : use.value = .structural .use)
      (hopening : opening.value = .punctuation '(')
      (harguments : parseArguments (depthBound ts) {} ts = .ok (arguments, []))
      (hname : Vocabulary.isName name = true) (hcalled : called.value = .name name)
      (hending : ending.value = .structural .call) :
      Atom bare (use :: opening :: (ts ++ [called, ending])) (.call name arguments)
  | group {zip unzip : Located Token} {ts behind : Tokens} {ops : List UnaryOperator} {node : Node}
      (hzip : zip.value = .structural .zip)
      (hinner : valueExpression false {} ts = .ok (node, []))
      (hunzip : unzip.value = .structural .unzip)
      (hbehind : behind.map Located.value = ops.map .unary) :
      Atom bare (zip :: (ts ++ unzip :: behind)) (node.withPostfixes ops)

theorem withPostfixes_not_marker {node : Node} (h : node.isMarker = false)
    (ops : List UnaryOperator) : (node.withPostfixes ops).isMarker = false := by
  induction ops generalizing node with
  | nil => exact h
  | cons op ops ih => exact @ih (.unary op node) rfl

theorem Atom.not_marker {bare : Bool} {ts : Tokens} {node : Node} (h : Atom bare ts node) :
    node.isMarker = false := by
  cases h with
  | group _ hinner _ _ => exact withPostfixes_not_marker (not_marker_of_parseValue hinner) _
  | _ => rfl

theorem takeDigits_digits {ts : Tokens} {digits : List Nat}
    (h : ts.map Located.value = digits.map .digit) : takeDigits ts = (digits.map digitChar, []) := by
  induction ts generalizing digits with
  | nil =>
    cases List.map_eq_nil_iff.1 h.symm
    rfl
  | cons t ts ih =>
    obtain ⟨digit, digits, rfl, ht, hts⟩ := List.map_eq_cons_iff.1 h.symm
    simp only [takeDigits, ← ht, ih hts.symm, List.map_cons]

theorem postfixes_unary {node : Node} {ts rest : Tokens} {ops : List UnaryOperator}
    (h : ts.map Located.value = ops.map .unary) (hrest : Tokens.EndAtom rest) :
    postfixes node (ts ++ rest) = (node.withPostfixes ops, rest) := by
  induction ts generalizing ops node with
  | nil =>
    cases List.map_eq_nil_iff.1 h.symm
    exact postfixes_end hrest node
  | cons t ts ih =>
    obtain ⟨op, ops, rfl, ht, hts⟩ := List.map_eq_cons_iff.1 h.symm
    simp only [List.cons_append, postfixes, ← ht]
    exact ih hts.symm

/-- An atom is read wherever it stands, unless a digit or a unary operator is behind it. -/
theorem Atom.parseAtom {bare : Bool} {ts rest : Tokens} {node : Node} (h : Atom bare ts node)
    (hrest : Tokens.EndAtom rest) {bound : Nat} (hbound : 4 * ts.length ≤ bound)
    (fallback : Position) :
    Node.parseAtom bound bare fallback (ts ++ rest) = .ok (node, rest) := by
  cases h with
  | @number _ digits value hne hts hvalue =>
    have hdigits := takeDigits_digits hts
    have happend := @takeDigits_append ts rest fun _ => not_isDigit_of_endAtom hrest
    obtain ⟨digit, digits, rfl⟩ := List.exists_cons_of_ne_nil hne
    obtain ⟨t, ts, rfl, ht, -⟩ := List.map_eq_cons_iff.1 hts
    obtain ⟨bound, rfl⟩ : ∃ b, bound = b + 1 := ⟨bound - 1, by simp at hbound; omega⟩
    rw [hdigits] at happend
    simp only [List.cons_append, Node.parseAtom, ht, parseNumber] at happend ⊢
    simp only [happend, hvalue, List.nil_append]
  | «variable» hname hts =>
    simp only [List.map_eq_cons_iff, List.map_eq_nil_iff] at hts
    obtain ⟨t, _, rfl, ht, u, _, rfl, hu, v, _, rfl, hv, rfl⟩ := hts
    obtain ⟨bound, rfl⟩ : ∃ b, bound = b + 1 := ⟨bound - 1, by simp at hbound; omega⟩
    simp only [List.cons_append, List.nil_append, Node.parseAtom, ht, parseVariable, hu, freeName?,
      hname, expectWord, hv, ↓reduceIte, bind, Except.bind]
  | bareName hbare hname ht =>
    obtain ⟨bound, rfl⟩ : ∃ b, bound = b + 1 := ⟨bound - 1, by simp at hbound; omega⟩
    simp [Node.parseAtom, ht, hname, hbare]
  | pop ht =>
    obtain ⟨bound, rfl⟩ : ∃ b, bound = b + 1 := ⟨bound - 1, by simp at hbound; omega⟩
    simp [Node.parseAtom, ht]
  | @call use opening called ending ts name arguments huse hopening harguments hname hcalled hending =>
    simp only [List.length_cons, List.length_append, List.length_nil] at hbound
    obtain ⟨bound, rfl⟩ : ∃ b, bound = b + 1 := ⟨bound - 1, by omega⟩
    have hinner := (readsLocally _).arguments harguments (called :: ending :: rest)
      (by simp only [depthBound]; omega : depthBound ts ≤ bound) use.position
    have hheader := parseAtom_header huse hopening hinner bare fallback
    simp only [List.cons_append, List.append_assoc, List.nil_append] at hheader ⊢
    rw [hheader]
    simp [parseHeaderEnd, hcalled, freeName?, hname, hending]
  | @group zip unzip ts behind ops node hzip hinner hunzip hbehind =>
    simp only [List.length_cons, List.length_append] at hbound
    obtain ⟨bound, rfl⟩ : ∃ b, bound = b + 1 := ⟨bound - 1, by omega⟩
    have hvalue := (readsLocally _).value hinner
      (fun _ => parted_structural hunzip (by decide) ts (behind ++ rest))
      (by simp only [depthBound]; omega : depthBound ts ≤ bound) zip.position
    have hgroup := parseAtom_group hzip hunzip hvalue bare fallback
    simp only [List.cons_append, List.append_assoc] at hgroup ⊢
    rw [hgroup, postfixes_unary hbehind hrest]

/-! ## Climbing -/

/-- The tokens of binary operators with an atom behind each. -/
inductive Operands (bare : Bool) : Tokens → List (BinaryOperator × Node) → Prop where
  | nil : Operands bare [] []
  | cons {t : Located Token} {op : BinaryOperator} {ts more : Tokens} {node : Node}
      {operands : List (BinaryOperator × Node)} (ht : t.value = .binary op)
      (hatom : Atom bare ts node) (hmore : Operands bare more operands) :
      Operands bare (t :: (ts ++ more)) ((op, node) :: operands)

theorem Operands.endAtom {bare : Bool} {ts after : Tokens}
    {operands : List (BinaryOperator × Node)} (h : Operands bare ts operands)
    (hafter : Tokens.EndValue after) : Tokens.EndAtom (ts ++ after) := by
  cases h with
  | nil => exact hafter.endAtom
  | cons ht _ _ => exact Tokens.endAtom_binary ht _

/-- What climbing makes of a tree on the left and of the operators behind it: it takes them up to the
first one that binds no tighter than the floor. -/
structure Climbed (floor : Nat) (tree : Grouping) (operands : List (BinaryOperator × Node))
    (result : Grouping) (left : List (BinaryOperator × Node)) : Prop where
  first : result.first = tree.first
  operands : result.operands ++ left = tree.operands ++ operands
  binds : result.Binds
  top : ∀ op ∈ result.top?, floor < op.precedence
  stop : ∀ next ∈ left.head?, next.1.precedence ≤ floor

theorem climb_operands {bare : Bool} (fallback : Position) {after : Tokens}
    (hafter : Tokens.EndValue after) (bound : Nat) :
    ∀ (ts : Tokens) (operands : List (BinaryOperator × Node)) (tree : Grouping) (floor : Nat),
      Operands bare ts operands → 4 * ts.length < bound → tree.Binds →
      (∀ op ∈ tree.top?, floor < op.precedence) →
      (∀ op ∈ tree.top?, ∀ next ∈ operands.head?, next.1.precedence ≤ op.precedence) →
      ∃ result left rest, Operands bare rest left ∧ rest.length ≤ ts.length ∧
        climb bound tree.node floor bare fallback (ts ++ after) = .ok (result.node, rest ++ after) ∧
        Climbed floor tree operands result left := by
  induction bound with
  | zero =>
    intro ts operands tree floor _ hbound
    omega
  | succ bound ih =>
    intro ts operands tree floor h hbound hbinds htop hnext
    cases h with
    | nil =>
      refine ⟨tree, [], [], .nil, Nat.le_refl _, climb_end hafter bound _ _ _ _, ?_⟩
      exact ⟨rfl, rfl, hbinds, htop, by simp⟩
    | @cons t op ts more node operands ht hatom hmore =>
      simp only [List.length_cons, List.length_append] at hbound
      by_cases hfloor : op.precedence ≤ floor
      · refine ⟨tree, _, _, .cons ht hatom hmore, Nat.le_refl _, ?_, ?_⟩
        · simp only [List.cons_append, climb, ht, if_pos hfloor]
        · refine ⟨rfl, rfl, hbinds, htop, fun next hhead => ?_⟩
          cases hhead
          exact hfloor
      · have hread := hatom.parseAtom (hmore.endAtom hafter) (by omega : _ ≤ bound) t.position
        -- the right operand is all that binds tighter than the operator
        obtain ⟨right, left₁, rest₁, hrest₁, hle₁, hright, hclimbed₁⟩ :=
          ih more operands (.atom node) op.precedence hmore (by omega) trivial (by simp [Grouping.top?])
            (by simp [Grouping.top?])
        obtain ⟨hfirst₁, hoperands₁, hbinds₁, htop₁, hstop₁⟩ := hclimbed₁
        have hwhole : (Grouping.apply op tree right).Binds :=
          ⟨fun inner hinner => hnext inner hinner (op, node) rfl, htop₁, hbinds, hbinds₁⟩
        obtain ⟨result, left, rest, hrest, hle, hresult, hclimbed⟩ :=
          ih rest₁ left₁ (.apply op tree right) floor hrest₁ (by omega) hwhole
            (by rintro inner ⟨⟩; omega) (by rintro inner ⟨⟩; exact hstop₁)
        obtain ⟨hfirst, hoperands, hbinds', htop', hstop⟩ := hclimbed
        refine ⟨result, left, rest, hrest, by simp only [List.length_cons, List.length_append]; omega,
          ?_, ⟨hfirst, ?_, hbinds', htop', hstop⟩⟩
        · simp only [Grouping.node] at hright hresult
          rw [List.cons_append, climb]
          simp only [ht, if_neg hfloor, List.append_assoc, hread, asValue, hatom.not_marker,
            bind, Except.bind, Bool.false_eq_true, ↓reduceIte, hright, hresult]
        · simp only [Grouping.operands, List.nil_append, Grouping.first] at hfirst₁ hoperands₁
          rw [hoperands, Grouping.operands, hfirst₁, List.append_assoc, List.cons_append, hoperands₁]

/-- An atom and binary operators with an atom behind each, with neither an operator nor a digit behind
them, are read to their end, and grouped into the one tree over these atoms and operators that
binds. -/
theorem climb_groups_by_precedence {bare : Bool} {front back after : Tokens} {first : Node}
    {operands : List (BinaryOperator × Node)} (hfront : Atom bare front first)
    (hback : Operands bare back operands) (hafter : Tokens.EndValue after) {bound : Nat}
    (hbound : 4 * (front ++ back).length < bound) (fallback : Position) :
    ∃ tree : Grouping,
      (do
        let (atom, rest) ← parseAtom bound bare fallback (front ++ back ++ after)
        climb bound atom 0 bare fallback rest) = .ok (tree.node, after) ∧
      tree.first = first ∧ tree.operands = operands ∧ tree.Binds ∧
      ∀ other : Grouping, other.first = first → other.operands = operands → other.Binds →
        other = tree := by
  rw [List.length_append] at hbound
  have hread := hfront.parseAtom (hback.endAtom hafter) (by omega : _ ≤ bound) fallback
  obtain ⟨tree, left, rest, hrest, -, hclimb, hfirst, hoperands, hbinds, -, hstop⟩ :=
    climb_operands fallback hafter bound back operands (.atom first) 0 hback (by omega) trivial
      (by simp [Grouping.top?]) (by simp [Grouping.top?])
  -- nothing is left: every operator binds tighter than the floor zero
  have hleft : left = [] := by
    cases left with
    | nil => rfl
    | cons next left => exact absurd (hstop next rfl) (Nat.not_le.2 next.1.precedence_pos)
  subst hleft
  cases hrest
  have hreading : tree.operands = operands := by simpa [Grouping.operands] using hoperands
  refine ⟨tree, ?_, hfirst, hreading, hbinds, ?_⟩
  · rw [List.append_assoc, hread]
    exact hclimb
  · intro other hother hothers hbind
    exact Grouping.eq_of_reading hbind hbinds (hother.trans hfirst.symm)
      (hothers.trans hreading.symm)

/-- The tokens of a sum with a product in it and a difference behind it, and of what follows. -/
def mixedOperators : Tokens × Tokens × Tokens :=
  let words (ts : List Token) : Tokens := ts.map (⟨·, {}⟩)
  (words [.structural .name, .name "a", .structural .rename],
    words [.binary .add, .structural .zip, .pop, .structural .unzip, .unary .not,
      .binary .multiply, .digit 2,
      .binary .subtract, .structural .use, .punctuation '(', .name "b", .punctuation ')', .name "f",
      .structural .call],
    words [.keyword .send])

theorem climb_groups_mixedOperators :
    let (front, back, after) := mixedOperators
    let sum := Grouping.apply .add (.atom (.variable "a"))
      (.apply .multiply (.atom (.unary .not .pop)) (.atom (.number 2)))
    let tree := Grouping.apply .subtract sum (.atom (.call "f" [.variable "b"]))
    Atom false front (.variable "a") ∧
    Operands false back [(.add, .unary .not .pop), (.multiply, .number 2),
      (.subtract, .call "f" [.variable "b"])] ∧
    Tokens.EndValue after ∧ 4 * (front ++ back).length < 80 ∧ tree.Binds ∧
    (do
      let (atom, rest) ← parseAtom 80 false {} (front ++ back ++ after)
      climb 80 atom 0 false {} rest) = .ok (tree.node, after) := by
  have hfront : Atom false mixedOperators.1 (.variable "a") := .variable (by decide) rfl
  have hback : Operands false mixedOperators.2.1 [(.add, .unary .not .pop), (.multiply, .number 2),
      (.subtract, .call "f" [.variable "b"])] := by
    have hgroup := @Atom.group false ⟨.structural .zip, {}⟩ ⟨.structural .unzip, {}⟩ [⟨.pop, {}⟩]
      [⟨.unary .not, {}⟩] [.not] .pop rfl rfl rfl rfl
    have hnumber := @Atom.number false [⟨.digit 2, {}⟩] [2] 2 (by decide) rfl (by decide +kernel)
    have hcall := @Atom.call false ⟨.structural .use, {}⟩ ⟨.punctuation '(', {}⟩ ⟨.name "f", {}⟩
      ⟨.structural .call, {}⟩ [⟨.name "b", {}⟩, ⟨.punctuation ')', {}⟩] "f" [.variable "b"] rfl rfl
      rfl (by decide) rfl rfl
    exact .cons rfl hgroup (.cons rfl hnumber (.cons rfl hcall .nil))
  have hafter : Tokens.EndValue mixedOperators.2.2 := by rintro t ⟨⟩; rfl
  have hbound : 4 * (mixedOperators.1 ++ mixedOperators.2.1).length < 80 := by decide
  have hbinds : (Grouping.apply .subtract (.apply .add (.atom (.variable "a"))
      (.apply .multiply (.atom (.unary .not .pop)) (.atom (.number 2))))
      (.atom (.call "f" [.variable "b"]))).Binds := by
    simp [Grouping.Binds, Grouping.top?, BinaryOperator.precedence]
  obtain ⟨tree, hread, -, -, -, hunique⟩ :=
    climb_groups_by_precedence hfront hback hafter hbound {}
  refine ⟨hfront, hback, hafter, hbound, hbinds, ?_⟩
  rw [hunique _ rfl rfl hbinds]
  exact hread

end Node
end VerbScript
