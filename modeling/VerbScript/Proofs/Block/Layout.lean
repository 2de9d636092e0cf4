import VerbScript.Proofs.Block.Semantics
import VerbScript.Proofs.Matching

/-!
# VerbScript.Proofs.Block.Layout

Where the parts of a block stand in a program, and that the scans for markers find them there.

* `At p i code` says that the instructions `code` stand in `p` from index `i` on.
* `Block.depthAfter?_code`: the code of a block opens and closes its markers in pairs.
* `Fresh p i`: no loop keyword stands one or two instructions before `i`, so that no `check` there
  is taken for that of a loop. `Block.keepsFresh_code`: this holds after a block if it holds before.
* `Bracketed p i j`: the block opened at `i` is closed at `j`. Both scans, from inside and from
  outside, follow from it.
* `Around` is what a `leave` would leave. `Block.Placed` puts all of this together, and has one lemma
  for each way a block begins.
-/

namespace VerbScript

open Program

/-- The instructions stand in the program from the index on. -/
def At (p : Program) (i : Nat) (code : Program) : Prop := ∃ after, p.drop i = code ++ after

theorem At.head {p : Program} {i : Nat} {x : Located Node} {code : Program}
    (h : At p i (x :: code)) : p[i]? = some x := by
  obtain ⟨after, h⟩ := h
  have hx : (p.drop i)[0]? = some x := by rw [h]; rfl
  simpa using hx

theorem At.left {p : Program} {i : Nat} {s t : Program} (h : At p i (s ++ t)) : At p i s := by
  obtain ⟨after, h⟩ := h
  exact ⟨t ++ after, by rw [h, List.append_assoc]⟩

theorem At.right {p : Program} {i : Nat} {s t : Program} (h : At p i (s ++ t)) :
    At p (i + s.length) t := by
  obtain ⟨after, h⟩ := h
  have hdrop : p.drop (i + s.length) = (p.drop i).drop s.length := List.drop_drop.symm
  exact ⟨after, by simp [hdrop, h]⟩

theorem At.tail {p : Program} {i : Nat} {x : Located Node} {code : Program}
    (h : At p i (x :: code)) : At p (i + 1) code :=
  At.right (s := [x]) h

theorem At.segment {p : Program} {i : Nat} {s : Program} (h : At p i s) :
    p.segment i (i + s.length) = s := by
  obtain ⟨after, h⟩ := h
  simp [Program.segment, List.drop_take, h]

theorem At.node? {p : Program} {i : Nat} {x : Located Node} {code : Program}
    (h : At p i (x :: code)) : p.node? i = some x.value := by
  rw [Program.node?, h.head]; rfl

theorem Expression.isMarker_node (e : Expression) : e.node.isMarker = false := by
  cases e <;> rfl

theorem Node.role_of_not_isMarker {node : Node} (h : node.isMarker = false) :
    node.role = .plain := by
  cases node with
  | keyword k => cases h
  | define name parameters => cases h
  | _ => rfl

theorem Expression.role_node (e : Expression) : e.node.role = .plain :=
  Node.role_of_not_isMarker e.isMarker_node

theorem Action.role_keyword (a : Action) : (Node.keyword a.keyword).role = .plain := by
  cases a <;> rfl

theorem Origin.role_keyword (o : Origin) : (Node.keyword o.keyword).role = .plain := by
  cases o <;> rfl

theorem role_loopKeyword (untilTrue : Bool) :
    (Node.keyword (loopKeyword untilTrue)).role = .plain := by
  cases untilTrue <;> rfl

/-! ## Balance -/

theorem depthAfter?_plain {acceptElse : Bool} {depth : Nat} {x : Located Node} {rest : Program}
    (hx : x.value.role = .plain) :
    depthAfter? acceptElse depth (x :: rest) = depthAfter? acceptElse depth rest := by
  simp only [depthAfter?, hx]

theorem depthAfter?_bracket {acceptElse : Bool} {depth : Nat} {x y : Located Node}
    {s rest : Program} (hx : x.value.role = .opens) (hy : y.value.role = .closes)
    (hs : depthAfter? acceptElse (depth + 1) s = some (depth + 1)) :
    depthAfter? acceptElse depth (x :: (s ++ y :: rest)) = depthAfter? acceptElse depth rest := by
  simp only [depthAfter?, hx, depthAfter?_append, hs, Option.bind_some, hy]

/-- Two branches with the marker between them. A scan that ends at such a marker does not end at
this one if it is inside a block. -/
theorem depthAfter?_branches {acceptElse : Bool} {depth : Nat} {x : Located Node} {s t : Program}
    (hx : x.value.role = .splits) (hd : acceptElse = false ∨ 0 < depth)
    (hs : depthAfter? acceptElse depth s = some depth)
    (ht : depthAfter? acceptElse depth t = some depth) :
    depthAfter? acceptElse depth (s ++ x :: t) = some depth := by
  rw [depthAfter?_append, hs, Option.bind_some]
  simp only [depthAfter?, hx]
  rw [if_neg (by simp; grind)]
  exact ht

theorem Block.code_either (check split finish : Position) (yes no rest : Block) :
    (Block.either check yes split no finish rest).code
      = ⟨.keyword .check, check⟩ :: ((yes.code ++ ⟨.keyword .fix, split⟩ :: no.code)
        ++ ⟨.keyword .break, finish⟩ :: rest.code) := by
  simp [code]

/-- A scan that would end at the marker between two branches passes over a block all the same: the
markers of its own conditionals are inside them. -/
theorem Block.depthAfter?_code (b : Block) (depth : Nat) :
    depthAfter? true depth b.code = some depth := by
  induction b generalizing depth with
  | nil => rfl
  | evaluate place e rest ih =>
    rw [code, depthAfter?_plain e.role_node]
    exact ih depth
  | giveBack place e rest ih =>
    rw [code, depthAfter?_plain rfl]
    exact ih depth
  | action place a rest ih =>
    rw [code, depthAfter?_plain a.role_keyword]
    exact ih depth
  | assign place origin name rest ih =>
    rw [code, depthAfter?_plain origin.role_keyword, depthAfter?_plain rfl]
    exact ih depth
  | change place e rest ih =>
    rw [code, depthAfter?_plain rfl, depthAfter?_plain e.value.role_node]
    exact ih depth
  | when check yes finish rest ihYes ih =>
    rw [code, depthAfter?_bracket rfl rfl (ihYes _)]
    exact ih depth
  | either check yes split no finish rest ihYes ihNo ih =>
    have hbranches := depthAfter?_branches (x := ⟨.keyword .fix, split⟩) rfl
      (.inr (Nat.succ_pos depth)) (ihYes _) (ihNo _)
    rw [code_either, depthAfter?_bracket rfl rfl hbranches]
    exact ih depth
  | loop start untilTrue condition check body finish rest ihBody ih =>
    rw [code, depthAfter?_plain (role_loopKeyword untilTrue),
      depthAfter?_plain condition.value.role_node, depthAfter?_bracket rfl rfl (ihBody _)]
    exact ih depth
  | define place name parameters body finish rest ihBody ih =>
    rw [code, depthAfter?_bracket rfl rfl (ihBody _)]
    exact ih depth
  | leave place rest ih =>
    rw [code, depthAfter?_plain rfl]
    exact ih depth

theorem Block.balanced_code (b : Block) : Program.Balanced b.code :=
  depthAfter?_of_acceptElse (b.depthAfter?_code 0)

/-! ## Loop keywords -/

def Node.startsLoop : Node → Bool
  | .keyword k => k.isLoopMarker
  | _ => false

theorem Expression.startsLoop_node (e : Expression) : e.node.startsLoop = false := by
  cases e <;> rfl

theorem Action.startsLoop_keyword (a : Action) :
    (Node.keyword a.keyword).startsLoop = false := by
  cases a <;> rfl

theorem Origin.startsLoop_keyword (o : Origin) :
    (Node.keyword o.keyword).startsLoop = false := by
  cases o <;> rfl

theorem Node.startsLoop_of_opens {node : Node} (h : node.role = .opens) :
    node.startsLoop = false := by
  rcases Node.role_eq_opens_iff.1 h with rfl | ⟨name, parameters, rfl⟩
  · rfl
  · rfl

theorem loopGuard?_eq_none {p : Program} {i : Nat} {x : Located Node} {code : Program}
    (h : At p i (x :: code)) (hx : x.value.startsLoop = false) : p.loopGuard? (i + 2) = none := by
  simp only [loopGuard?, h.node?]
  split
  · rename_i k hk
    rw [Option.some.inj hk] at hx
    exact if_neg (by rw [Node.startsLoop] at hx; simp [hx])
  · rfl

/-- No `check` at the index or after it opens the body of a loop that started before the index. -/
structure Fresh (p : Program) (i : Nat) : Prop where
  first : p.loopGuard? i = none
  second : p.loopGuard? (i + 1) = none

/-- Nothing is left open for a loop after the code if nothing was before it. -/
def KeepsFresh (code : Program) : Prop :=
  ∀ p i, At p i code → Fresh p i → Fresh p (i + code.length)

theorem KeepsFresh.nil : KeepsFresh [] := fun _ _ _ h => h

theorem KeepsFresh.cons {x : Located Node} {code : Program} (hx : x.value.startsLoop = false)
    (h : KeepsFresh code) : KeepsFresh (x :: code) := by
  intro p i hat hfresh
  rw [List.length_cons, show i + (code.length + 1) = i + 1 + code.length by omega]
  exact h p (i + 1) hat.tail ⟨hfresh.second, loopGuard?_eq_none hat hx⟩

theorem KeepsFresh.append {s t : Program} (hs : KeepsFresh s) (ht : KeepsFresh t) :
    KeepsFresh (s ++ t) := by
  intro p i hat hfresh
  rw [List.length_append, ← Nat.add_assoc]
  exact ht p (i + s.length) hat.right (hs p i hat.left hfresh)

/-- The keyword of a loop is out of sight after the condition and `check`. -/
theorem fresh_loopBody {p : Program} {i : Nat} {x y z : Located Node} {code : Program}
    (h : At p i (x :: y :: z :: code)) (hy : y.value.startsLoop = false)
    (hz : z.value.startsLoop = false) : Fresh p (i + 3) :=
  ⟨loopGuard?_eq_none h.tail hy, loopGuard?_eq_none h.tail.tail hz⟩

theorem KeepsFresh.loop {x y z : Located Node} {code : Program} (hy : y.value.startsLoop = false)
    (hz : z.value.startsLoop = false) (h : KeepsFresh code) :
    KeepsFresh (x :: y :: z :: code) := by
  intro p i hat hfresh
  have hlen : i + (x :: y :: z :: code).length = i + 3 + code.length := by
    simp only [List.length_cons]
    omega
  rw [hlen]
  exact h p (i + 3) hat.tail.tail.tail (fresh_loopBody hat hy hz)

theorem Block.keepsFresh_code (b : Block) : KeepsFresh b.code := by
  induction b with
  | nil => exact .nil
  | evaluate place e rest ih => exact .cons e.startsLoop_node ih
  | giveBack place e rest ih => exact .cons rfl ih
  | action place a rest ih => exact .cons a.startsLoop_keyword ih
  | assign place origin name rest ih => exact .cons origin.startsLoop_keyword (.cons rfl ih)
  | change place e rest ih => exact .cons rfl (.cons e.value.startsLoop_node ih)
  | when check yes finish rest ihYes ih => exact .cons rfl (ihYes.append (.cons rfl ih))
  | either check yes split no finish rest ihYes ihNo ih =>
    exact .cons rfl (ihYes.append (.cons rfl (ihNo.append (.cons rfl ih))))
  | loop start untilTrue condition check body finish rest ihBody ih =>
    exact .loop condition.value.startsLoop_node rfl (ihBody.append (.cons rfl ih))
  | define place name parameters body finish rest ihBody ih =>
    exact .cons rfl (ihBody.append (.cons rfl ih))
  | leave place rest ih => exact .cons rfl ih

/-! ## Brackets -/

/-- A block opened by `node` at `i` and closed at `j`, as the scans see it. -/
structure Bracketed (p : Program) (i j : Nat) (node : Node) : Prop where
  closing : p.closing? (i + 1) false = some j
  enclosing : p.enclosing? j false = some (p.opened i node)

theorem closing?_of_at {p : Program} {i : Nat} {y : Located Node} {s t : Program}
    {acceptElse : Bool} (h : At p i (s ++ y :: t)) (hs : depthAfter? acceptElse 0 s = some 0)
    (hy : endsScan acceptElse y.value.role) : p.closing? i acceptElse = some (i + s.length) := by
  rw [closing?_eq_some_iff]
  refine ⟨by omega, ?_, _, role?_eq_some_iff.2 ⟨y, h.right.head, rfl⟩, hy⟩
  rwa [h.left.segment]

theorem At.bracketed {p : Program} {i : Nat} {x y : Located Node} {s t : Program}
    (h : At p i (x :: (s ++ y :: t))) (hx : x.value.role = .opens) (hs : Program.Balanced s)
    (hy : y.value.role = .closes) : Bracketed p i (i + 1 + s.length) x.value where
  closing := closing?_of_at h.tail hs (.inl hy)
  enclosing := by
    rw [enclosing?_eq_some_iff]
    refine ⟨i, x, by omega, h.head, hx, ?_, rfl⟩
    rwa [h.tail.left.segment]

theorem At.enclosing? {p : Program} {i : Nat} {s : Program} (h : At p i s)
    (hs : Program.Balanced s) : p.enclosing? (i + s.length) true = p.enclosing? i true :=
  enclosing?_of_balanced (by omega) (by rwa [h.segment]) true

/-- What `leave` leaves at some point of a program. -/
inductive Around where
  | outside
  /-- A loop whose body is closed at `exit`. -/
  | loop (exit : Nat)
  | function

namespace Around

def inside : Around → Bool
  | .outside => false
  | .loop _ | .function => true

def Holds (p : Program) (i : Nat) : Around → Prop
  | .outside => p.enclosing? i true = none
  | .loop exit => ∃ guard check untilLoop,
      p.enclosing? i true = some (.loop guard check untilLoop) ∧
        p.closing? (check + 1) false = some exit
  | .function => ∃ definition, p.enclosing? i true = some (.function definition)

theorem Holds.of_eq {p : Program} {i j : Nat} {around : Around} (h : around.Holds p i)
    (heq : p.enclosing? j true = p.enclosing? i true) : around.Holds p j := by
  cases around with
  | outside => exact heq.trans h
  | loop exit =>
    obtain ⟨guard, check, untilLoop, h, hexit⟩ := h
    exact ⟨guard, check, untilLoop, heq.trans h, hexit⟩
  | function =>
    obtain ⟨definition, h⟩ := h
    exact ⟨definition, heq.trans h⟩

end Around

/-- A block stands in a program, inside the loop or function `around`. -/
structure Block.Placed (p : Program) (around : Around) (i : Nat) (b : Block) : Prop where
  at_code : At p i b.code
  fresh : Fresh p i
  holds : around.Holds p i

namespace Block.Placed

variable {p : Program} {around : Around} {i : Nat}

theorem of_at {r : Block} {s t : Program} (hat : At p i (s ++ (r.code ++ t)))
    (hfresh : Fresh p i) (hholds : around.Holds p i) (hs : Program.Balanced s)
    (hkeeps : KeepsFresh s) : Placed p around (i + s.length) r :=
  ⟨hat.right.left, hkeeps p i hat.left hfresh, hholds.of_eq (hat.left.enclosing? hs)⟩

/-- The rest of a block, after a statement. -/
theorem rest {b r : Block} {s : Program} (h : Placed p around i b) (hcode : b.code = s ++ r.code)
    (hs : Program.Balanced s) (hkeeps : KeepsFresh s) : Placed p around (i + s.length) r :=
  of_at (t := []) (by rw [List.append_nil, ← hcode]; exact h.at_code) h.fresh h.holds hs hkeeps

theorem next {b r : Block} {x : Located Node} (h : Placed p around i b)
    (hcode : b.code = x :: r.code) (hrole : x.value.role = .plain)
    (hx : x.value.startsLoop = false) : Placed p around (i + 1) r :=
  h.rest (s := [x]) hcode (depthAfter?_plain hrole) (.cons hx .nil)

/-- The rest of a block, after a keyword with its operand. -/
theorem next_two {b r : Block} {x y : Located Node} (h : Placed p around i b)
    (hcode : b.code = x :: y :: r.code) (hrole : x.value.role = .plain)
    (hx : x.value.startsLoop = false) (hrole' : y.value.role = .plain)
    (hy : y.value.startsLoop = false) : Placed p around (i + 2) r :=
  h.rest (s := [x, y]) hcode ((depthAfter?_plain hrole).trans (depthAfter?_plain hrole'))
    (.cons hx (.cons hy .nil))

/-- The rest of a block, after one that is opened and closed. -/
theorem after {b r : Block} {x : Located Node} {finish : Position} {s : Program}
    (h : Placed p around i b) (hcode : b.code = x :: (s ++ ⟨.keyword .break, finish⟩ :: r.code))
    (hx : x.value.role = .opens) (hs : Program.Balanced s) (hfresh : KeepsFresh s) :
    Placed p around (i + 1 + s.length + 1) r := by
  have hrest := h.rest (s := x :: (s ++ [⟨.keyword .break, finish⟩])) (r := r) (by simp [hcode])
    (depthAfter?_bracket hx rfl (depthAfter?_add hs 1))
    (.cons (Node.startsLoop_of_opens hx) (hfresh.append (.cons rfl .nil)))
  have hlen : i + (x :: (s ++ [⟨.keyword .break, finish⟩])).length = i + 1 + s.length + 1 := by
    simp only [List.length_cons, List.length_append, List.length_nil]
    omega
  rwa [hlen] at hrest

theorem opened_check (hfresh : Fresh p i) : p.opened i (.keyword .check) = .conditional i := by
  simp only [opened, hfresh.first]

/-- For `leave`, the body of a conditional is where the conditional is. -/
theorem of_conditional {b : Block} {check : Position} {t : Program} (hfresh : Fresh p i)
    (hholds : around.Holds p i) (hat : At p i (⟨.keyword .check, check⟩ :: (b.code ++ t))) :
    Placed p around (i + 1) b := by
  refine ⟨hat.tail.left, ⟨hfresh.second, loopGuard?_eq_none hat rfl⟩, hholds.of_eq ?_⟩
  rw [enclosing?_succ hat.head rfl, opened_check hfresh]

theorem when_decode {check finish : Position} {yes rest : Block} {j : Nat}
    (h : Placed p around i (.when check yes finish rest)) (hj : j = i + 1 + yes.code.length) :
    p[i]? = some ⟨.keyword .check, check⟩ ∧ p.closing? (i + 1) true = some j ∧
      p[j]? = some ⟨.keyword .break, finish⟩ ∧ p.enclosing? j false = some (.conditional i) ∧
      Placed p around (i + 1) yes ∧ Placed p around (j + 1) rest ∧
      i + (Block.when check yes finish rest).code.length = j + 1 + rest.code.length := by
  subst hj
  have hat := h.at_code
  rw [code] at hat
  refine ⟨hat.head, closing?_of_at hat.tail (yes.depthAfter?_code 0) (.inl rfl),
    hat.tail.right.head, ?_, of_conditional h.fresh h.holds hat,
    h.after rfl rfl yes.balanced_code yes.keepsFresh_code, ?_⟩
  · rw [(hat.bracketed rfl yes.balanced_code rfl).enclosing, opened_check h.fresh]
  · simp only [code, List.length_cons, List.length_append]
    omega

theorem either_decode {check split finish : Position} {yes no rest : Block} {j k : Nat}
    (h : Placed p around i (.either check yes split no finish rest))
    (hj : j = i + 1 + yes.code.length) (hk : k = j + 1 + no.code.length) :
    p[i]? = some ⟨.keyword .check, check⟩ ∧ p.closing? (i + 1) true = some j ∧
      p[j]? = some ⟨.keyword .fix, split⟩ ∧ p.closing? (j + 1) false = some k ∧
      p[k]? = some ⟨.keyword .break, finish⟩ ∧ p.enclosing? k false = some (.conditional i) ∧
      Placed p around (i + 1) yes ∧ Placed p around (j + 1) no ∧ Placed p around (k + 1) rest ∧
      i + (Block.either check yes split no finish rest).code.length
        = k + 1 + rest.code.length := by
  subst hj
  have hat := h.at_code
  rw [code] at hat
  have hyes := of_conditional h.fresh h.holds hat
  have hbranches : Program.Balanced (yes.code ++ ⟨.keyword .fix, split⟩ :: no.code) :=
    depthAfter?_branches rfl (.inl rfl) yes.balanced_code no.balanced_code
  have hk' : k = i + 1 + (yes.code ++ ⟨.keyword .fix, split⟩ :: no.code).length := by
    simp only [List.length_append, List.length_cons]
    omega
  have hbracket := At.bracketed (code_either check split finish yes no rest ▸ h.at_code) rfl
    hbranches rfl
  refine ⟨hat.head, closing?_of_at hat.tail (yes.depthAfter?_code 0) (.inr ⟨rfl, rfl⟩),
    hat.tail.right.head, ?_, ?_, ?_, hyes, ?_, ?_, ?_⟩
  · rw [hk]
    exact closing?_of_at hat.tail.right.tail no.balanced_code (.inl rfl)
  · rw [hk]
    exact hat.tail.right.tail.right.head
  · rw [hk', hbracket.enclosing, opened_check h.fresh]
  · have hsplit : At p (i + 1) ((yes.code ++ [⟨.keyword .fix, split⟩]) ++
        (no.code ++ ⟨.keyword .break, finish⟩ :: rest.code)) := by
      simpa using hat.tail
    have hno := of_at hsplit hyes.fresh hyes.holds
      (depthAfter?_branches rfl (.inl rfl) yes.balanced_code rfl)
      (yes.keepsFresh_code.append (.cons rfl .nil))
    rwa [List.length_append, ← Nat.add_assoc] at hno
  · rw [hk']
    exact h.after (code_either check split finish yes no rest) rfl hbranches
      (yes.keepsFresh_code.append (.cons rfl no.keepsFresh_code))
  · simp only [code, List.length_cons, List.length_append]
    omega

theorem loop_decode {start check finish : Position} {untilTrue : Bool}
    {condition : Located Expression} {body rest : Block} {j : Nat}
    (h : Placed p around i (.loop start untilTrue condition check body finish rest))
    (hj : j = i + 3 + body.code.length) :
    p[i]? = some ⟨.keyword (loopKeyword untilTrue), start⟩ ∧
      p[i + 1]? = some ⟨condition.value.node, condition.position⟩ ∧
      p[i + 2]? = some ⟨.keyword .check, check⟩ ∧ p.loopGuard? (i + 2) = some (i, untilTrue) ∧
      p.closing? (i + 3) false = some j ∧ p[j]? = some ⟨.keyword .break, finish⟩ ∧
      p.enclosing? j false = some (.loop i (i + 2) untilTrue) ∧
      Placed p (.loop j) (i + 3) body ∧ Placed p around (j + 1) rest ∧
      i + (Block.loop start untilTrue condition check body finish rest).code.length
        = j + 1 + rest.code.length := by
  subst hj
  have hat := h.at_code
  rw [code] at hat
  have hguard : p.loopGuard? (i + 2) = some (i, untilTrue) := by
    simp only [loopGuard?, hat.node?]
    cases untilTrue <;> rfl
  have hopened : p.opened (i + 2) (.keyword .check) = .loop i (i + 2) untilTrue := by
    simp only [opened, hguard]
  have hbracket := hat.tail.tail.bracketed rfl body.balanced_code rfl
  refine ⟨hat.head, hat.tail.head, hat.tail.tail.head, hguard, hbracket.closing,
    hat.tail.tail.tail.right.head, hopened ▸ hbracket.enclosing, ?_, ?_, ?_⟩
  · refine ⟨hat.tail.tail.tail.left, fresh_loopBody hat condition.value.startsLoop_node rfl,
      i, i + 2, untilTrue, ?_, hbracket.closing⟩
    rw [enclosing?_succ hat.tail.tail.head rfl, hopened]
  · have hrest := h.rest (r := rest) (s := ⟨.keyword (loopKeyword untilTrue), start⟩ ::
        ⟨condition.value.node, condition.position⟩ :: ⟨.keyword .check, check⟩ ::
        (body.code ++ [⟨.keyword .break, finish⟩])) (by simp [code]) ?_
      (.loop condition.value.startsLoop_node rfl
        (body.keepsFresh_code.append (.cons rfl .nil)))
    · have hlen : i + 3 + body.code.length + 1 = i + (body.code.length + 1 + 3) := by omega
      rw [hlen]
      simpa using hrest
    · rw [Program.Balanced, depthAfter?_plain (role_loopKeyword untilTrue),
        depthAfter?_plain condition.value.role_node,
        depthAfter?_bracket rfl rfl (depthAfter?_add body.balanced_code 1)]
      rfl
  · simp only [code, List.length_cons, List.length_append]
    omega

theorem define_decode {place finish : Position} {name : String} {parameters : List String}
    {body rest : Block} {j : Nat}
    (h : Placed p around i (.define place name parameters body finish rest))
    (hj : j = i + 1 + body.code.length) :
    p[i]? = some ⟨.define name parameters, place⟩ ∧ p.closing? (i + 1) false = some j ∧
      p[j]? = some ⟨.keyword .break, finish⟩ ∧ p.enclosing? j false = some (.function i) ∧
      Placed p .function (i + 1) body ∧ Placed p around (j + 1) rest ∧
      i + (Block.define place name parameters body finish rest).code.length
        = j + 1 + rest.code.length := by
  subst hj
  have hat := h.at_code
  rw [code] at hat
  have hbracket := hat.bracketed rfl body.balanced_code rfl
  refine ⟨hat.head, hbracket.closing, hat.tail.right.head, hbracket.enclosing, ?_,
    h.after rfl rfl body.balanced_code body.keepsFresh_code, ?_⟩
  · refine ⟨hat.tail.left, ⟨h.fresh.second, loopGuard?_eq_none hat rfl⟩, i, ?_⟩
    rw [enclosing?_succ hat.head rfl]
    rfl
  · simp only [code, List.length_cons, List.length_append]
    omega

end Block.Placed

end VerbScript
