import VerbScript.Machine.Run

/-!
# VerbScript.Machine.Fuel

Fuel only cuts off. An outcome that is not cut off is the outcome with any larger fuel
(`run_stable`), so "the outcome of a run" needs no fuel in its name.

* `Keeps W I setup fuel`: one more unit of fuel changes no outcome of evaluation or execution that is
  not cut off. `keeps` proves it by one induction, since all five functions count down together.
* `Outcome.Stable`: what that means for a function of the fuel, with `Stable.le` for any larger fuel.
* `Outcome.Settles f o`: from some fuel on, the outcome is `o`. It goes through `andThen` without a
  word about fuel.
-/

namespace VerbScript

variable {W I : Type}

/-- If both an action and what follows keep the outcomes that are not cut off, so does the whole. -/
theorem Outcome.andThen_congr {α β : Type} {o o' : Outcome α W I}
    {next next' : α → Machine W I → Outcome β W I} (ho : o ≠ .cutOff → o' = o)
    (hnext : ∀ value m, next value m ≠ .cutOff → next' value m = next value m)
    (h : o.andThen next ≠ .cutOff) : o'.andThen next' = o.andThen next := by
  rw [ho (by rintro rfl; exact h rfl)]
  cases o with
  | done value m => exact hnext value m h
  | fault cause m => rfl
  | cutOff => rfl

/-- Once the outcome is not cut off, more fuel does not change it. -/
def Outcome.Stable {α : Type} (f : Nat → Outcome α W I) : Prop :=
  ∀ fuel, f fuel ≠ .cutOff → f (fuel + 1) = f fuel

theorem Outcome.Stable.le {α : Type} {f : Nat → Outcome α W I} (h : Stable f) {fuel fuel' : Nat}
    (hle : fuel ≤ fuel') (hf : f fuel ≠ .cutOff) : f fuel' = f fuel := by
  induction hle with
  | refl => rfl
  | step _ ih => rw [h _ (by rwa [ih]), ih]

/-- From some fuel on, the outcome is `o`. -/
def Outcome.Settles {α : Type} (f : Nat → Outcome α W I) (o : Outcome α W I) : Prop :=
  ∃ enough, ∀ fuel, enough ≤ fuel → f fuel = o

namespace Outcome

variable {α β : Type} {f : Nat → Outcome α W I} {o : Outcome α W I}

theorem Stable.settles (h : Stable f) {fuel : Nat} (hf : f fuel = o) (ho : o ≠ .cutOff) :
    Settles f o :=
  ⟨fuel, fun fuel' hle => by rw [h.le hle (by rwa [hf]), hf]⟩

theorem Settles.exists (h : Settles f o) : ∃ fuel, f fuel = o := by
  obtain ⟨enough, h⟩ := h
  exact ⟨enough, h enough (Nat.le_refl enough)⟩

theorem Settles.unique {o' : Outcome α W I} (h : Settles f o) (h' : Settles f o') : o = o' := by
  obtain ⟨n, h⟩ := h
  obtain ⟨n', h'⟩ := h'
  rw [← h (max n n') (Nat.le_max_left n n'), h' (max n n') (Nat.le_max_right n n')]

theorem Stable.cutOff_of_le (h : Stable f) {fuel fuel' : Nat} (hle : fuel ≤ fuel')
    (hf : f fuel' = .cutOff) : f fuel = .cutOff := by
  cases hcase : f fuel with
  | cutOff => rfl
  | _ =>
    rw [h.le hle (by rw [hcase]; simp), hcase] at hf
    cases hf

/-- Where the outcome is not cut off, it is the one that is settled on. -/
theorem Settles.cutOff_or_eq (h : Settles f o) (hs : Stable f) (fuel : Nat) :
    f fuel = .cutOff ∨ f fuel = o := by
  cases hcase : f fuel with
  | cutOff => exact .inl rfl
  | _ => exact .inr ((hs.settles hcase (by simp)).unique h)

/-- What takes one unit of fuel before it goes on settles where it goes on. -/
theorem Settles.of_succ (h : Settles (fun fuel => f (fuel + 1)) o) : Settles f o := by
  obtain ⟨enough, h⟩ := h
  refine ⟨enough + 1, fun fuel hle => ?_⟩
  obtain ⟨fuel, rfl⟩ : ∃ k, fuel = k + 1 := ⟨fuel - 1, by omega⟩
  exact h fuel (by omega)

theorem Settles.const (o : Outcome α W I) : Settles (fun _ => o) o := ⟨0, fun _ _ => rfl⟩

theorem Settles.andThen {next : Nat → α → Machine W I → Outcome β W I} {value : α} {m : Machine W I}
    {o' : Outcome β W I} (h : Settles f (.done value m))
    (hnext : Settles (fun fuel => next fuel value m) o') :
    Settles (fun fuel => (f fuel).andThen (next fuel)) o' := by
  obtain ⟨n, h⟩ := h
  obtain ⟨n', hnext⟩ := hnext
  refine ⟨max n n', fun fuel hle => ?_⟩
  have hn : n ≤ fuel := Nat.le_trans (Nat.le_max_left n n') hle
  have hn' : n' ≤ fuel := Nat.le_trans (Nat.le_max_right n n') hle
  simp only [h fuel hn]
  exact hnext fuel hn'

theorem Settles.andThen_fault {next : Nat → α → Machine W I → Outcome β W I} {cause : Located Fault}
    {m : Machine W I} (h : Settles f (.fault cause m)) :
    Settles (fun fuel => (f fuel).andThen (next fuel)) (.fault cause m) := by
  obtain ⟨n, h⟩ := h
  refine ⟨n, fun fuel hle => ?_⟩
  simp only [h fuel hle]
  rfl

end Outcome

namespace Machine

/-- One more unit of fuel changes no outcome that is not cut off. -/
structure Keeps (W I : Type) [Writer W] [LineSource I] (setup : Setup) (fuel : Nat) : Prop where
  eval : ∀ node place (m : Machine W I), Machine.eval setup fuel node place m ≠ .cutOff →
    Machine.eval setup (fuel + 1) node place m = Machine.eval setup fuel node place m
  evalArguments : ∀ nodes place (m : Machine W I),
    Machine.evalArguments setup fuel nodes place m ≠ .cutOff →
    Machine.evalArguments setup (fuel + 1) nodes place m
      = Machine.evalArguments setup fuel nodes place m
  call : ∀ name nodes place (m : Machine W I),
    Machine.call setup fuel name nodes place m ≠ .cutOff →
    Machine.call setup (fuel + 1) name nodes place m = Machine.call setup fuel name nodes place m
  runUntil : ∀ depth name place (m : Machine W I),
    Machine.runUntil setup fuel depth name place m ≠ .cutOff →
    Machine.runUntil setup (fuel + 1) depth name place m
      = Machine.runUntil setup fuel depth name place m
  step : ∀ m : Machine W I, Machine.step setup fuel m ≠ .cutOff →
    Machine.step setup (fuel + 1) m = Machine.step setup fuel m

variable [Writer W] [LineSource I]

theorem keeps_zero (setup : Setup) : Keeps W I setup 0 where
  eval _ _ _ h := absurd (by rw [Machine.eval]) h
  evalArguments _ _ _ h := absurd (by rw [Machine.evalArguments]) h
  call _ _ _ _ h := absurd (by rw [Machine.call]) h
  runUntil _ _ _ _ h := absurd (by rw [Machine.runUntil]) h
  step _ h := absurd (by rw [Machine.step]) h

theorem eval_succ {setup : Setup} {fuel : Nat} (ih : Keeps W I setup fuel) (node : Node)
    (place : Position) (m : Machine W I) (h : eval setup (fuel + 1) node place m ≠ .cutOff) :
    eval setup (fuel + 1 + 1) node place m = eval setup (fuel + 1) node place m := by
  cases node with
  | binary op left right =>
    simp only [eval] at h ⊢
    refine Outcome.andThen_congr (ih.eval _ _ _) (fun _ _ h => ?_) h
    exact Outcome.andThen_congr (ih.eval _ _ _) (fun _ _ _ => rfl) h
  | unary op operand =>
    simp only [eval] at h ⊢
    exact Outcome.andThen_congr (ih.eval _ _ _) (fun _ _ _ => rfl) h
  | call name nodes =>
    simp only [eval] at h ⊢
    exact ih.call _ _ _ _ h
  | _ => simp only [eval]

theorem evalArguments_succ {setup : Setup} {fuel : Nat} (ih : Keeps W I setup fuel)
    (nodes : List Node) (place : Position) (m : Machine W I)
    (h : evalArguments setup (fuel + 1) nodes place m ≠ .cutOff) :
    evalArguments setup (fuel + 1 + 1) nodes place m
      = evalArguments setup (fuel + 1) nodes place m := by
  cases nodes with
  | nil => simp only [evalArguments]
  | cons node rest =>
    simp only [evalArguments] at h ⊢
    refine Outcome.andThen_congr (ih.eval _ _ _) (fun _ _ h => ?_) h
    exact Outcome.andThen_congr (ih.evalArguments _ _ _) (fun _ _ _ => rfl) h

theorem call_succ {setup : Setup} {fuel : Nat} (ih : Keeps W I setup fuel) (name : String)
    (nodes : List Node) (place : Position) (m : Machine W I)
    (h : call setup (fuel + 1) name nodes place m ≠ .cutOff) :
    call setup (fuel + 1 + 1) name nodes place m = call setup (fuel + 1) name nodes place m := by
  simp only [call] at h ⊢
  cases hf : m.state.functions.get? name with
  | none => rfl
  | some entry =>
    simp only [hf] at h ⊢
    split
    · rfl
    · split
      · rfl
      · rename_i hcount hdepth
        simp only [if_neg hcount, if_neg hdepth] at h
        refine Outcome.andThen_congr (ih.evalArguments _ _ _) (fun _ _ h => ?_) h
        exact Outcome.andThen_congr (ih.runUntil _ _ _ _) (fun _ _ _ => rfl) h

theorem runUntil_succ {setup : Setup} {fuel : Nat} (ih : Keeps W I setup fuel) (depth : Nat)
    (name : String) (place : Position) (m : Machine W I)
    (h : runUntil setup (fuel + 1) depth name place m ≠ .cutOff) :
    runUntil setup (fuel + 1 + 1) depth name place m
      = runUntil setup (fuel + 1) depth name place m := by
  simp only [runUntil] at h ⊢
  split
  · rfl
  · split
    · rfl
    · split
      · rfl
      · rename_i hframes hhalted hend
        simp only [if_neg hframes, if_neg hhalted, if_neg hend] at h
        cases hs : step setup fuel m with
        | done _ m' =>
          rw [hs] at h
          rw [ih.step m (by rw [hs]; simp), hs]
          exact ih.runUntil _ _ _ _ h
        | fault cause m' => rw [ih.step m (by rw [hs]; simp), hs]
        | cutOff => rw [hs] at h; exact absurd rfl h

theorem step_succ {setup : Setup} {fuel : Nat} (ih : Keeps W I setup fuel) (m : Machine W I)
    (h : step setup (fuel + 1) m ≠ .cutOff) :
    step setup (fuel + 1 + 1) m = step setup (fuel + 1) m := by
  simp only [step] at h ⊢
  split
  · rfl
  · rename_i node place hi
    simp only [hi] at h
    split
    · simp only [withLastValue, withOperand] at h ⊢
      split
      · split
        · split
          · rfl
          · simp_all only
            exact Outcome.andThen_congr (ih.eval _ _ _) (fun _ _ _ => rfl) h
        · rfl
      · rfl
    · rfl
    · rfl
    · rfl
    · simp_all only
      exact Outcome.andThen_congr (ih.eval _ _ _) (fun _ _ _ => rfl) h

theorem keeps (setup : Setup) (fuel : Nat) : Keeps W I setup fuel := by
  induction fuel with
  | zero => exact keeps_zero setup
  | succ fuel ih =>
    exact ⟨eval_succ ih, evalArguments_succ ih, call_succ ih, runUntil_succ ih, step_succ ih⟩

theorem run_succ (setup : Setup) (fuel : Nat) (m : Machine W I) (h : run setup fuel m ≠ .cutOff) :
    run setup (fuel + 1) m = run setup fuel m := by
  induction fuel generalizing m with
  | zero => exact absurd (by rw [run]) h
  | succ fuel ih =>
    simp only [run] at h ⊢
    split
    · rfl
    · rename_i hfinished
      simp only [if_neg hfinished] at h
      cases hs : step setup fuel m with
      | done _ m' =>
        rw [hs] at h
        rw [(keeps setup fuel).step m (by rw [hs]; simp), hs]
        exact ih m' h
      | fault cause m' => rw [(keeps setup fuel).step m (by rw [hs]; simp), hs]
      | cutOff => rw [hs] at h; exact absurd rfl h

theorem eval_stable (setup : Setup) (node : Node) (place : Position) (m : Machine W I) :
    Outcome.Stable fun fuel => eval setup fuel node place m :=
  fun fuel => (keeps setup fuel).eval node place m

theorem evalArguments_stable (setup : Setup) (nodes : List Node) (place : Position)
    (m : Machine W I) : Outcome.Stable fun fuel => evalArguments setup fuel nodes place m :=
  fun fuel => (keeps setup fuel).evalArguments nodes place m

theorem runUntil_stable (setup : Setup) (depth : Nat) (name : String) (place : Position)
    (m : Machine W I) : Outcome.Stable fun fuel => runUntil setup fuel depth name place m :=
  fun fuel => (keeps setup fuel).runUntil depth name place m

theorem step_stable (setup : Setup) (m : Machine W I) :
    Outcome.Stable fun fuel => step setup fuel m :=
  fun fuel => (keeps setup fuel).step m

theorem run_stable (setup : Setup) (m : Machine W I) : Outcome.Stable fun fuel => run setup fuel m :=
  fun fuel => run_succ setup fuel m

end Machine
end VerbScript
