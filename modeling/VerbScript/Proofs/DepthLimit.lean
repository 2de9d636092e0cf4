import Mathlib
import VerbScript.Proofs.Lockstep

/-!
# VerbScript.Proofs.DepthLimit

A larger limit on calls only takes faults away: a run that does not fail because of its limit is,
under any larger limit, the same run, whatever it writes to and reads from.
-/

namespace VerbScript.Machine

variable {W I : Type}

variable [Writer W] [LineSource I]

/-- The two runs are on the same machine until the first one has reached its limit. -/
theorem lockstep_limit (p : Program) {limit limit' : Nat} (hle : limit ≤ limit') :
    Lockstep (.onOne Eq (· = .callDepth limit) : Pairing W I) ⟨p, limit⟩ ⟨p, limit'⟩ where
  machines := Pairing.machines_onOne _ _ _
  programs := .refl (fun _ => rfl) p
  limit_le := hle
  limit := .inl rfl

/-- An outcome other than the fault that too many calls are in progress is the outcome under every
larger limit: the same result or fault, what was read and written, and the state. -/
theorem run_of_limit_le (p : Program) {limit limit' : Nat} (hle : limit ≤ limit') (fuel : Nat)
    (m : Machine W I)
    (hdepth : ∀ place m', run ⟨p, limit⟩ fuel m ≠ .fault ⟨.callDepth limit, place⟩ m') :
    run ⟨p, limit'⟩ fuel m = run ⟨p, limit⟩ fuel m := by
  have hpaired := (lockstep_limit p hle).run rfl (by rintro _ _ rfl; rfl) fuel (m := m) rfl
  cases ho : run ⟨p, limit⟩ fuel m with
  | done value m₁ =>
    rw [ho] at hpaired
    obtain ⟨_, ho', rfl⟩ := hpaired
    exact ho'
  | fault cause m₁ =>
    rw [ho] at hpaired
    rcases hpaired with hexcused | ⟨_, _, ho', rfl, rfl⟩
    · obtain ⟨fault, place⟩ := cause
      cases hexcused
      exact absurd ho (hdepth place m₁)
    · exact ho'
  | cutOff =>
    rw [ho] at hpaired
    exact hpaired

/-- A function that starts a new line, called in an argument and in the body of another one. -/
def scrolling : Program := .ofNodes
  [.define "f" [], .keyword .scroll, .keyword .break, .define "g" ["a"], .call "f" [],
    .keyword .break, .call "g" [.call "f" []]]

theorem run_of_limit_le_scrolling :
    (∃ place m, run ⟨scrolling, 1⟩ 30 {} = .fault ⟨.callDepth 1, place⟩ m) ∧
    ∃ m, run ⟨scrolling, 2⟩ 30 {} = .done () m ∧ run ⟨scrolling, 200⟩ 30 {} = .done () m ∧
      m.sink.written = "\n\n" := by
  obtain ⟨m, hrun, hwritten⟩ : ∃ m, run ⟨scrolling, 2⟩ 30 {} = .done () m ∧
      m.sink.written = "\n\n" := ⟨_, by cbv, by cbv⟩
  have hraised : run ⟨scrolling, 200⟩ 30 {} = run ⟨scrolling, 2⟩ 30 {} := by
    refine run_of_limit_le scrolling (by decide) 30 _ fun place m' hfault => ?_
    rw [hrun] at hfault
    cases hfault
  exact ⟨⟨_, _, by cbv⟩, m, hrun, hraised.trans hrun, hwritten⟩

end VerbScript.Machine
