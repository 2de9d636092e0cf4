import VerbScript.Program.Markers

/-!
# VerbScript.Proofs.Matching

The forward and the backward scan for block markers are one and the same bracket matching.

* `depthAfter? acceptElse d segment` is the number of open blocks after a segment that starts with
  `d` of them, and `none` if a marker in the segment ends the block around it. A segment is
  `Balanced` if it leads from no open block back to none.
* `closing?_eq_some_iff` and `enclosing?_eq_some_iff` say what either scan finds: an end of a
  balanced segment.
* `closing_iff_enclosing` and what follows from it hold of programs with missing and surplus markers
  as well.
-/

namespace VerbScript

/-- Where the block was opened. -/
def Enclosing.opener : Enclosing → Nat
  | .conditional check => check
  | .loop _ check _ => check
  | .function definition => definition

namespace Program

/-- How many blocks are open after a segment that starts with `depth` open ones. -/
def depthAfter? (acceptElse : Bool) : Nat → List (Located Node) → Option Nat
  | depth, [] => some depth
  | depth, instruction :: rest =>
    match instruction.value.role with
    | .opens => depthAfter? acceptElse (depth + 1) rest
    | .closes =>
      match depth with
      | 0 => none
      | depth + 1 => depthAfter? acceptElse depth rest
    | .splits => if acceptElse && depth == 0 then none else depthAfter? acceptElse depth rest
    | .plain => depthAfter? acceptElse depth rest

theorem depthAfter?_append (acceptElse : Bool) (depth : Nat) (s t : List (Located Node)) :
    depthAfter? acceptElse depth (s ++ t)
      = (depthAfter? acceptElse depth s).bind (depthAfter? acceptElse · t) := by
  induction s generalizing depth with
  | nil => rfl
  | cons instruction s ih =>
    cases hr : instruction.value.role with
    | opens => simp [depthAfter?, hr, ih]
    | closes => cases depth <;> simp [depthAfter?, hr, ih]
    | splits =>
      simp only [List.cons_append, depthAfter?, hr, ih]
      split <;> rfl
    | plain => simp [depthAfter?, hr, ih]

/-- A segment that leads from one depth to another leads from a larger one as much higher. -/
theorem depthAfter?_add {acceptElse : Bool} {depth depth' : Nat} {s : List (Located Node)}
    (h : depthAfter? acceptElse depth s = some depth') (k : Nat) :
    depthAfter? acceptElse (depth + k) s = some (depth' + k) := by
  induction s generalizing depth with
  | nil => cases h; rfl
  | cons instruction s ih =>
    simp only [depthAfter?] at h ⊢
    cases hr : instruction.value.role with
    | opens =>
      simp only [hr] at h ⊢
      rw [show depth + k + 1 = depth + 1 + k by omega]
      exact ih h
    | closes =>
      simp only [hr] at h ⊢
      cases depth with
      | zero => cases h
      | succ depth =>
        rw [show depth + 1 + k = depth + k + 1 by omega]
        exact ih h
    | splits =>
      simp only [hr] at h ⊢
      split at h
      · cases h
      · rename_i hz
        rw [if_neg (by simp at hz ⊢; grind)]
        exact ih h
    | plain =>
      simp only [hr] at h ⊢
      exact ih h

theorem depthAfter?_of_acceptElse {depth depth' : Nat} {s : List (Located Node)}
    (h : depthAfter? true depth s = some depth') : depthAfter? false depth s = some depth' := by
  induction s generalizing depth with
  | nil => exact h
  | cons instruction s ih =>
    simp only [depthAfter?] at h ⊢
    cases hr : instruction.value.role with
    | opens => simp only [hr] at h ⊢; exact ih h
    | closes =>
      simp only [hr] at h ⊢
      cases depth with
      | zero => cases h
      | succ depth => exact ih h
    | splits =>
      simp only [hr] at h ⊢
      split at h
      · cases h
      · exact ih h
    | plain => simp only [hr] at h ⊢; exact ih h

/-- The segment opens and closes its blocks in pairs. -/
def Balanced (s : List (Located Node)) : Prop := depthAfter? false 0 s = some 0

/-- The role of the node at an index. -/
def role? (p : Program) (i : Nat) : Option Node.Role := (p.node? i).map Node.role

theorem role?_eq_some_iff {p : Program} {i : Nat} {role : Node.Role} :
    p.role? i = some role ↔
      ∃ instruction, p[i]? = some instruction ∧ instruction.value.role = role := by
  simp [role?, node?]

/-- The instructions from `i` on and before `j`. -/
def segment (p : Program) (i j : Nat) : List (Located Node) := (p.take j).drop i

theorem drop_eq_segment_append (p : Program) {i j : Nat} (h : i ≤ j) :
    p.drop i = p.segment i j ++ p.drop j := by
  have hj : p.drop j = (p.drop i).drop (j - i) := by
    rw [List.drop_drop, show i + (j - i) = j by omega]
  rw [segment, List.drop_take, hj, List.take_append_drop]

/-! ## The forward scan -/

/-- Whether a marker ends the forward scan where no inner block is open. -/
def endsScan (acceptElse : Bool) (role : Node.Role) : Prop :=
  role = .closes ∨ acceptElse = true ∧ role = .splits

theorem closingOffset?_eq_some_iff {acceptElse : Bool} {depth k : Nat} {l : List (Located Node)} :
    closingOffset? acceptElse depth l = some k ↔
      depthAfter? acceptElse depth (l.take k) = some 0 ∧
        ∃ instruction, l[k]? = some instruction ∧ endsScan acceptElse instruction.value.role := by
  induction l generalizing depth k with
  | nil => simp [closingOffset?]
  | cons instruction l ih =>
    cases hr : instruction.value.role with
    | opens =>
      cases k with
      | zero => simp [closingOffset?, endsScan, hr]
      | succ k => simp [closingOffset?, depthAfter?, hr, ih]
    | closes =>
      cases depth with
      | zero => cases k <;> simp [closingOffset?, depthAfter?, endsScan, hr]
      | succ depth =>
        cases k with
        | zero => simp [closingOffset?, depthAfter?, hr]
        | succ k => simp [closingOffset?, depthAfter?, hr, ih]
    | splits =>
      simp only [closingOffset?, hr]
      split
      · rename_i hz
        cases k <;> simp_all [depthAfter?, endsScan]
      · rename_i hz
        cases k with
        | zero =>
          have hz' : depth = 0 → acceptElse = false := by
            rintro rfl
            simpa using hz
          simp only [List.take_zero, depthAfter?, List.getElem?_cons_zero, endsScan]
          simp only [Option.map_eq_some_iff, Nat.add_one_ne_zero, and_false, exists_false,
            Option.some.injEq, false_iff]
          rintro ⟨rfl, _, rfl, h | ⟨h, -⟩⟩
          · rw [hr] at h; cases h
          · rw [hz' rfl] at h; cases h
        | succ k => simp [depthAfter?, hr, hz, ih]
    | plain =>
      cases k with
      | zero => simp [closingOffset?, endsScan, hr]
      | succ k => simp [closingOffset?, depthAfter?, hr, ih]

theorem closing?_eq_some_iff {p : Program} {acceptElse : Bool} {start b : Nat} :
    p.closing? start acceptElse = some b ↔
      start ≤ b ∧ depthAfter? acceptElse 0 (p.segment start b) = some 0 ∧
        ∃ role, p.role? b = some role ∧ endsScan acceptElse role := by
  constructor
  · intro h
    obtain ⟨k, hk, rfl⟩ := Option.map_eq_some_iff.1 h
    obtain ⟨hd, instruction, hi, hr⟩ := closingOffset?_eq_some_iff.1 hk
    refine ⟨by omega, ?_, _, role?_eq_some_iff.2 ⟨instruction, by simpa using hi, rfl⟩, hr⟩
    rwa [segment, List.drop_take, Nat.add_sub_cancel_left]
  · rintro ⟨hle, hd, role, hb, hr⟩
    obtain ⟨instruction, hi, rfl⟩ := role?_eq_some_iff.1 hb
    refine Option.map_eq_some_iff.2 ⟨b - start, ?_, by omega⟩
    refine closingOffset?_eq_some_iff.2 ⟨?_, instruction, ?_, hr⟩
    · rwa [segment, List.drop_take] at hd
    · rw [List.getElem?_drop, show start + (b - start) = b by omega]
      exact hi

/-- A scan passes over a segment without a marker that ends it. -/
theorem closingOffset?_append {acceptElse : Bool} {depth depth' : Nat} {s : List (Located Node)}
    (h : depthAfter? acceptElse depth s = some depth') (t : List (Located Node)) :
    closingOffset? acceptElse depth (s ++ t)
      = (closingOffset? acceptElse depth' t).map (s.length + ·) := by
  induction s generalizing depth with
  | nil => cases h; simp
  | cons instruction s ih =>
    simp only [depthAfter?] at h
    simp only [List.cons_append, closingOffset?, List.length_cons]
    have shift : ∀ o : Option Nat,
        (o.map (s.length + ·)).map (· + 1) = o.map (s.length + 1 + ·) := by
      intro o
      cases o <;> simp; omega
    cases hr : instruction.value.role with
    | opens => simp only [hr] at h ⊢; rw [ih h, shift]
    | closes =>
      simp only [hr] at h ⊢
      cases depth with
      | zero => cases h
      | succ depth => simp only; rw [ih h, shift]
    | splits =>
      simp only [hr] at h ⊢
      split at h
      · cases h
      · rename_i hz
        rw [if_neg hz, ih h, shift]
    | plain => simp only [hr] at h ⊢; rw [ih h, shift]

/-- The block around a balanced segment ends where it ends for what follows the segment. -/
theorem closing?_of_balanced {p : Program} {i j : Nat} (hij : i ≤ j)
    (h : Balanced (p.segment i j)) : p.closing? i false = p.closing? j false := by
  rw [closing?, closing?, drop_eq_segment_append p hij, closingOffset?_append h, Option.map_map]
  cases hk : closingOffset? false 0 (p.drop j) with
  | none => rfl
  | some k =>
    have hj : j ≤ p.length := by
      rcases Nat.le_total j p.length with hj | hj
      · exact hj
      · rw [List.drop_eq_nil_of_le hj] at hk
        cases hk
    have hlen : (p.segment i j).length = j - i := by
      rw [segment, List.length_drop, List.length_take, Nat.min_eq_left hj]
    simp only [Option.map_some, Function.comp_apply, hlen]
    congr 1
    omega

/-! ## The backward scan -/

theorem depthAfter?_concat_eq_some_iff {depth depth' : Nat} {s : List (Located Node)}
    {instruction : Located Node} :
    depthAfter? false depth (s ++ [instruction]) = some depth' ↔
      match instruction.value.role with
      | .opens => ∃ d, depth' = d + 1 ∧ depthAfter? false depth s = some d
      | .closes => depthAfter? false depth s = some (depth' + 1)
      | _ => depthAfter? false depth s = some depth' := by
  rw [depthAfter?_append]
  cases h : depthAfter? false depth s with
  | none => cases instruction.value.role <;> simp
  | some d =>
    cases hr : instruction.value.role with
    | opens => simp [depthAfter?, hr, eq_comm]
    | closes => cases d <;> simp [depthAfter?, hr]
    | splits => simp [depthAfter?, hr]
    | plain => simp [depthAfter?, hr]

/-- The backward scan passes over a segment that closes the blocks it opens. -/
theorem enclosingBefore?_append {p : Program} {skipConditionals : Bool} {depth depth' : Nat}
    {s : List (Located Node)} (h : depthAfter? false depth s = some depth')
    (before : List (Located Node)) :
    enclosingBefore? p skipConditionals depth' (s.reverse ++ before)
      = enclosingBefore? p skipConditionals depth before := by
  induction s generalizing depth before with
  | nil => cases h; rfl
  | cons instruction s ih =>
    rw [List.reverse_cons, List.append_assoc, List.singleton_append]
    simp only [depthAfter?] at h
    cases hr : instruction.value.role with
    | opens =>
      simp only [hr] at h
      rw [ih h]
      simp only [enclosingBefore?, hr]
    | closes =>
      simp only [hr] at h
      cases depth with
      | zero => cases h
      | succ depth =>
        rw [ih h]
        simp only [enclosingBefore?, hr]
    | splits =>
      simp only [hr, Bool.false_and, Bool.false_eq_true, ↓reduceIte] at h
      rw [ih h]
      simp only [enclosingBefore?, hr]
    | plain =>
      simp only [hr] at h
      rw [ih h]
      simp only [enclosingBefore?, hr]

theorem take_eq_append_segment (p : Program) {i j : Nat} (h : i ≤ j) :
    p.take j = p.take i ++ p.segment i j := by
  have hi : p.take i = (p.take j).take i := by rw [List.take_take, Nat.min_eq_left h]
  rw [segment, hi, List.take_append_drop]

/-- After a balanced segment the same block is open as before it. -/
theorem enclosing?_of_balanced {p : Program} {i j : Nat} (hij : i ≤ j)
    (h : Balanced (p.segment i j)) (skipConditionals : Bool) :
    p.enclosing? j skipConditionals = p.enclosing? i skipConditionals := by
  rw [enclosing?, enclosing?, take_eq_append_segment p hij, List.reverse_append,
    enclosingBefore?_append h]

theorem opener_opened (p : Program) (index : Nat) (node : Node) :
    (p.opened index node).opener = index := by
  unfold opened
  split
  · rfl
  · split <;> rfl

theorem enclosingBefore?_opens {p : Program} {instruction : Located Node}
    {before : List (Located Node)} (h : instruction.value.role = .opens) :
    enclosingBefore? p false 0 (instruction :: before)
      = some (p.opened before.length instruction.value) := by
  simp only [enclosingBefore?, h]
  split
  · rename_i check hc
    rw [hc]; rfl
  · rfl

/-- What the backward scan finds: the opening marker before a segment that leads to the number of
blocks that were closed since. -/
theorem enclosingBefore?_eq_some_iff {p : Program} {depth : Nat} {before : List (Located Node)}
    {block : Enclosing} :
    enclosingBefore? p false depth before = some block ↔
      ∃ k instruction, before[k]? = some instruction ∧ instruction.value.role = .opens ∧
        depthAfter? false 0 (before.take k).reverse = some depth ∧
        block = p.opened (before.length - (k + 1)) instruction.value := by
  constructor
  · intro h
    induction before generalizing depth with
    | nil => cases h
    | cons instruction before ih =>
      -- What is found further back is found across this instruction.
      have further : ∀ d, enclosingBefore? p false d before = some block →
          (∀ s, depthAfter? false 0 s = some d →
            depthAfter? false 0 (s ++ [instruction]) = some depth) →
          ∃ k found, (instruction :: before)[k]? = some found ∧ found.value.role = .opens ∧
            depthAfter? false 0 ((instruction :: before).take k).reverse = some depth ∧
            block = p.opened ((instruction :: before).length - (k + 1)) found.value := by
        intro d h hd
        obtain ⟨k, found, hk, ho, hs, hb⟩ := ih h
        refine ⟨k + 1, found, hk, ho, ?_, ?_⟩
        · rw [List.take_succ_cons, List.reverse_cons]
          exact hd _ hs
        · rw [hb, List.length_cons, Nat.add_sub_add_right]
      cases hr : instruction.value.role with
      | opens =>
        cases depth with
        | zero =>
          rw [enclosingBefore?_opens hr] at h
          cases h
          exact ⟨0, instruction, rfl, hr, rfl, rfl⟩
        | succ depth =>
          simp only [enclosingBefore?, hr] at h
          exact further depth h fun s hs => by simp [depthAfter?_concat_eq_some_iff, hr, hs]
      | closes =>
        simp only [enclosingBefore?, hr] at h
        exact further _ h fun s hs => by simp [depthAfter?_concat_eq_some_iff, hr, hs]
      | splits =>
        simp only [enclosingBefore?, hr] at h
        exact further _ h fun s hs => by simp [depthAfter?_concat_eq_some_iff, hr, hs]
      | plain =>
        simp only [enclosingBefore?, hr] at h
        exact further _ h fun s hs => by simp [depthAfter?_concat_eq_some_iff, hr, hs]
  · rintro ⟨k, found, hk, ho, hd, rfl⟩
    obtain ⟨hlt, hget⟩ := List.getElem?_eq_some_iff.1 hk
    have hdrop : before.drop k = found :: before.drop (k + 1) := by
      rw [List.drop_eq_getElem_cons hlt, hget]
    have hscan := @enclosingBefore?_append p false _ _ _ hd (before.drop k)
    rw [List.reverse_reverse, List.take_append_drop, hdrop, enclosingBefore?_opens ho,
      List.length_drop] at hscan
    exact hscan

theorem enclosing?_eq_some_iff {p : Program} {i : Nat} {block : Enclosing} :
    p.enclosing? i false = some block ↔
      ∃ c instruction, c < i ∧ p[c]? = some instruction ∧ instruction.value.role = .opens ∧
        Balanced (p.segment (c + 1) i) ∧ block = p.opened c instruction.value := by
  rw [enclosing?, enclosingBefore?_eq_some_iff]
  constructor
  · rintro ⟨k, instruction, hk, ho, hd, rfl⟩
    have hlt : k < (p.take i).length := by
      have := (List.getElem?_eq_some_iff.1 hk).1
      rwa [List.length_reverse] at this
    rw [List.getElem?_reverse hlt] at hk
    rw [List.take_reverse, List.reverse_reverse] at hd
    rw [List.length_take] at hlt hk
    have hc : min i p.length - 1 - k < i := by omega
    rw [List.getElem?_take_of_lt hc] at hk
    rw [List.length_reverse, List.length_take,
      show min i p.length - (k + 1) = min i p.length - 1 - k by omega]
    refine ⟨_, instruction, hc, hk, ho, ?_, rfl⟩
    rwa [Balanced, segment, show min i p.length - 1 - k + 1 = (p.take i).length - k by
      rw [List.length_take]; omega]
  · rintro ⟨c, instruction, hc, hget, ho, hd, rfl⟩
    have hlen : c < p.length := (List.getElem?_eq_some_iff.1 hget).1
    have hmin : c < (p.take i).length := by rw [List.length_take]; omega
    have hk : (p.take i).length - 1 - ((p.take i).length - 1 - c) = c := by omega
    refine ⟨(p.take i).length - 1 - c, instruction, ?_, ho, ?_, ?_⟩
    · rw [List.getElem?_reverse (by omega), hk, List.getElem?_take_of_lt hc]
      exact hget
    · rw [List.take_reverse, List.reverse_reverse,
        show (p.take i).length - ((p.take i).length - 1 - c) = c + 1 by omega]
      exact hd
    · rw [List.length_reverse,
        show (p.take i).length - ((p.take i).length - 1 - c + 1) = c by omega]

/-- Just after an opening marker its block is the innermost one, unless it is a conditional and passed
over. -/
theorem enclosing?_succ {p : Program} {i : Nat} {x : Located Node} (h : p[i]? = some x)
    (hx : x.value.role = .opens) :
    p.enclosing? (i + 1) true =
      match p.opened i x.value with
      | .conditional _ => p.enclosing? i true
      | block => some block := by
  obtain ⟨hi, hget⟩ := List.getElem?_eq_some_iff.1 h
  have htake : (p.take (i + 1)).reverse = x :: (p.take i).reverse := by
    rw [List.take_succ_eq_append_getElem hi, hget, List.reverse_append]; rfl
  have hlen : (p.take i).reverse.length = i := by
    rw [List.length_reverse, List.length_take]
    omega
  rw [enclosing?, htake]
  simp only [enclosingBefore?, hx, hlen]
  cases p.opened i x.value <;> rfl

/-- The opening marker of the innermost block still open just before an index. -/
def opener? (p : Program) (i : Nat) : Option Nat := (p.enclosing? i false).map Enclosing.opener

theorem opener?_eq_some_iff {p : Program} {i c : Nat} :
    p.opener? i = some c ↔
      c < i ∧ p.role? c = some .opens ∧ Balanced (p.segment (c + 1) i) := by
  rw [opener?, Option.map_eq_some_iff]
  constructor
  · rintro ⟨block, hblock, hc⟩
    obtain ⟨c', instruction, hlt, hget, ho, hd, rfl⟩ := enclosing?_eq_some_iff.1 hblock
    rw [opener_opened] at hc
    subst hc
    exact ⟨hlt, role?_eq_some_iff.2 ⟨instruction, hget, ho⟩, hd⟩
  · rintro ⟨hlt, hr, hd⟩
    obtain ⟨instruction, hget, ho⟩ := role?_eq_some_iff.1 hr
    exact ⟨_, enclosing?_eq_some_iff.2 ⟨c, instruction, hlt, hget, ho, hd, rfl⟩,
      opener_opened p c instruction.value⟩

/-! ## Both scans -/

theorem closing?_eq_some_iff_opener? {p : Program} {o b : Nat} (ho : p.role? o = some .opens)
    (hb : p.role? b = some .closes) :
    p.closing? (o + 1) false = some b ↔ p.opener? b = some o := by
  rw [closing?_eq_some_iff, opener?_eq_some_iff]
  constructor
  · rintro ⟨hle, hd, -⟩
    exact ⟨hle, ho, hd⟩
  · rintro ⟨hlt, -, hd⟩
    exact ⟨hlt, hd, _, hb, .inl rfl⟩

theorem role?_of_closing? {p : Program} {start b : Nat} (h : p.closing? start false = some b) :
    p.role? b = some .closes := by
  obtain ⟨-, -, role, hb, hr | ⟨hr, -⟩⟩ := closing?_eq_some_iff.1 h
  · rw [hb, hr]
  · cases hr

/-- A segment that ends with fewer open blocks than it starts with closes one of them. -/
theorem closingOffset?_of_depthAfter?_le {depth surplus final : Nat} {s : List (Located Node)}
    (h : depthAfter? false (depth + 1 + surplus) s = some final) (hle : final ≤ surplus)
    (t : List (Located Node)) :
    ∃ k, k < s.length ∧ closingOffset? false depth (s ++ t) = some k := by
  induction s generalizing depth with
  | nil =>
    simp only [depthAfter?, Option.some.injEq] at h
    omega
  | cons instruction s ih =>
    simp only [depthAfter?] at h
    cases hr : instruction.value.role with
    | opens =>
      simp only [hr] at h
      rw [show depth + 1 + surplus + 1 = depth + 1 + 1 + surplus by omega] at h
      obtain ⟨k, hk, hfound⟩ := ih h
      exact ⟨k + 1, by simpa using hk, by simp [closingOffset?, hr, hfound]⟩
    | closes =>
      cases depth with
      | zero => exact ⟨0, by simp, by simp [closingOffset?, hr]⟩
      | succ depth =>
        rw [show depth + 1 + 1 + surplus = depth + 1 + surplus + 1 by omega] at h
        simp only [hr] at h
        obtain ⟨k, hk, hfound⟩ := ih h
        exact ⟨k + 1, by simpa using hk, by simp [closingOffset?, hr, hfound]⟩
    | splits =>
      simp only [hr] at h
      obtain ⟨k, hk, hfound⟩ := ih h
      exact ⟨k + 1, by simpa using hk, by simp [closingOffset?, hr, hfound]⟩
    | plain =>
      simp only [hr] at h
      obtain ⟨k, hk, hfound⟩ := ih h
      exact ⟨k + 1, by simpa using hk, by simp [closingOffset?, hr, hfound]⟩

theorem segment_split {p : Program} {i j k : Nat} (hik : i ≤ k) (hkj : k < j)
    {instruction : Located Node} (h : p[k]? = some instruction) :
    p.segment i j = p.segment i k ++ instruction :: p.segment (k + 1) j := by
  obtain ⟨hk, hget⟩ := List.getElem?_eq_some_iff.1 h
  have hdrop : (p.take j).drop k = instruction :: (p.take j).drop (k + 1) := by
    rw [List.drop_eq_getElem_cons (by rw [List.length_take]; omega), List.getElem_take, hget]
  have htake : p.take k = (p.take j).take k := by
    rw [List.take_take, Nat.min_eq_left (by omega)]
  rw [segment, segment, segment, ← hdrop, htake]
  have hsplit : (p.take j).drop i = ((p.take j).take k ++ (p.take j).drop k).drop i := by
    rw [List.take_append_drop]
  rw [hsplit, List.drop_append_of_le_length]
  rw [List.length_take, List.length_take]
  omega

/-- A block that is opened in a balanced segment is closed in it. -/
theorem closing?_lt_of_balanced {p : Program} {start o i : Nat} (ho : p.role? o = some .opens)
    (h : Balanced (p.segment start i)) (hle : start ≤ o) (hlt : o < i) :
    ∃ b, b < i ∧ p.closing? (o + 1) false = some b := by
  obtain ⟨instruction, hi, hr⟩ := role?_eq_some_iff.1 ho
  rw [Balanced, segment_split hle hlt hi, depthAfter?_append] at h
  obtain ⟨d, -, h⟩ := Option.bind_eq_some_iff.1 h
  simp only [depthAfter?, hr] at h
  rw [show d + 1 = 0 + 1 + d by omega] at h
  obtain ⟨k, hk, hfound⟩ := closingOffset?_of_depthAfter?_le h (Nat.zero_le d) (p.drop i)
  rw [← drop_eq_segment_append p hlt] at hfound
  have hlen : (p.segment (o + 1) i).length ≤ i - (o + 1) := by
    rw [segment, List.length_drop, List.length_take]
    omega
  refine ⟨o + 1 + k, by omega, ?_⟩
  rw [closing?, hfound]; rfl

/-- A block that is opened inside another one is closed inside it. -/
theorem closing?_lt_of_nested {p : Program} {o o' b : Nat} (ho' : p.role? o' = some .opens)
    (h : p.closing? (o + 1) false = some b) (hlt : o < o') (hb : o' < b) :
    ∃ b', b' < b ∧ p.closing? (o' + 1) false = some b' :=
  closing?_lt_of_balanced ho' (closing?_eq_some_iff.1 h).2.1 hlt hb

theorem closing?_of_opener? {p : Program} {i c : Nat} (h : p.opener? i = some c) :
    p.closing? i false = p.closing? (c + 1) false := by
  obtain ⟨hlt, -, hd⟩ := opener?_eq_some_iff.1 h
  exact (closing?_of_balanced hlt hd).symm

/-- The marker between two branches is inside their block, which ends where it ends for the second
branch. -/
theorem else_inside_block {p : Program} {c j : Nat} (hc : p.role? c = some .opens)
    (h : p.closing? (c + 1) true = some j) (hj : p.role? j = some .splits) :
    p.opener? j = some c ∧ p.closing? (j + 1) false = p.closing? (c + 1) false := by
  obtain ⟨hle, hd, -⟩ := closing?_eq_some_iff.1 h
  have hbal : Balanced (p.segment (c + 1) j) := depthAfter?_of_acceptElse hd
  refine ⟨opener?_eq_some_iff.2 ⟨hle, hc, hbal⟩, ?_⟩
  obtain ⟨instruction, hi, hr⟩ := role?_eq_some_iff.1 hj
  refine (closing?_of_balanced (by omega) ?_).symm
  rw [Balanced, segment_split hle (Nat.lt_succ_self j) hi, depthAfter?_append, hbal]
  simp [depthAfter?, hr, segment]

/-- What it means that opening and closing markers are matched like brackets, whichever end one
starts from. -/
structure BracketMatching (p : Program) : Prop where
  /-- Both scans find the same pairs. -/
  pairs : ∀ o b, p.role? o = some .opens → p.role? b = some .closes →
    (p.closing? (o + 1) false = some b ↔ p.opener? b = some o)
  /-- No `break` closes two blocks. -/
  injective : ∀ o o' b, p.role? o = some .opens → p.role? o' = some .opens →
    p.closing? (o + 1) false = some b → p.closing? (o' + 1) false = some b → o = o'
  /-- Two blocks follow each other or one is inside the other. -/
  nested : ∀ o o' b b', p.role? o = some .opens → p.role? o' = some .opens → o < o' →
    p.closing? (o + 1) false = some b → p.closing? (o' + 1) false = some b' → b < o' ∨ b' < b
  /-- A `break` that closes no block is one before which no block is open. -/
  unmatched : ∀ b, p.role? b = some .closes →
    ((∀ o, p.role? o = some .opens → p.closing? (o + 1) false ≠ some b) ↔
      p.enclosing? b false = none)
  /-- From everywhere in a block, outside its inner blocks, the scans find both its ends. -/
  inside : ∀ i c, p.opener? i = some c → p.closing? i false = p.closing? (c + 1) false
  /-- The marker between two branches belongs to the block that it splits. -/
  split : ∀ c j, p.role? c = some .opens → p.closing? (c + 1) true = some j →
    p.role? j = some .splits →
      p.opener? j = some c ∧ p.closing? (j + 1) false = p.closing? (c + 1) false

theorem bracketMatching (p : Program) : BracketMatching p where
  pairs o b ho hb := closing?_eq_some_iff_opener? ho hb
  injective o o' b ho ho' h h' := by
    have hb := role?_of_closing? h
    have heq := (closing?_eq_some_iff_opener? ho hb).1 h
    rw [(closing?_eq_some_iff_opener? ho' hb).1 h'] at heq
    exact (Option.some.inj heq).symm
  nested o o' b b' ho ho' hlt h h' := by
    have hb := role?_of_closing? h
    rcases Nat.lt_trichotomy b o' with hbo | rfl | hob
    · exact .inl hbo
    · rw [hb] at ho'; cases ho'
    · obtain ⟨b'', hlt', hclose⟩ := closing?_lt_of_nested ho' h hlt hob
      rw [h'] at hclose
      cases hclose
      exact .inr hlt'
  unmatched b hb := by
    constructor
    · intro hnone
      cases he : p.enclosing? b false with
      | none => rfl
      | some block =>
        have ho : p.opener? b = some block.opener := by rw [opener?, he]; rfl
        obtain ⟨-, hr, -⟩ := opener?_eq_some_iff.1 ho
        exact absurd ((closing?_eq_some_iff_opener? hr hb).2 ho) (hnone _ hr)
    · intro he o ho h
      have := (closing?_eq_some_iff_opener? ho hb).1 h
      rw [opener?, he] at this
      cases this
  inside _ _ h := closing?_of_opener? h
  split _ _ hc h hj := else_inside_block hc h hj

/-- In a function two conditionals, each in two branches and one inside the other. Behind it stand a
`break` that closes nothing and a `check` that nothing closes. -/
example :
    let p : Program := .ofNodes
      [.define "f" [], .keyword .check, .keyword .check, .keyword .fix, .keyword .break,
        .keyword .jam, .keyword .break, .keyword .break, .keyword .break, .keyword .check]
    (p.closing? 1 false = some 7 ∧ p.opener? 7 = some 0) ∧
      (p.closing? 2 false = some 6 ∧ p.closing? 2 true = some 5 ∧ p.opener? 5 = some 1) ∧
      (p.closing? 3 false = some 4 ∧ p.closing? 3 true = some 3 ∧ p.opener? 3 = some 2) ∧
      p.opener? 8 = none ∧ p.closing? 10 false = none := by
  decide

end Program
end VerbScript
