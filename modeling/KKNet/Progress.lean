import KKNet.Runs
import Mathlib.Tactic

/-!
# Progress and potentials

Ways to count the steps of a run. If up to a goal some step always lowers a rank, the
goal can be reached from wherever the system is. If every step pays what it costs out
of a potential, to which some steps add, then no run costs more than the potential at
its start and what its steps added. And if steps pay like this until a goal is reached,
a run that costs more than the potential has reached it.
-/

namespace KKNet.Runs

variable {σ ε : Type} {step : σ → ε → Option σ} {inv : σ → Prop} {s s' : σ} {events : List ε}

/-- Where some step always lowers the rank, until the goal is reached, a run reaches it. -/
theorem exists_run_of_progress {goal : σ → Prop} (rank : σ → ℕ)
    (hprogress : ∀ s, inv s → ¬goal s → ∃ e s', step s e = some s' ∧ inv s' ∧ rank s' < rank s)
    (hs : inv s) : ∃ events s', run step s events = some s' ∧ inv s' ∧ goal s' := by
  induction hrank : rank s using Nat.strong_induction_on generalizing s with
  | _ n ih =>
    subst hrank
    by_cases hgoal : goal s
    · exact ⟨[], s, rfl, hs, hgoal⟩
    · obtain ⟨e, s₁, he, hs₁, hlt⟩ := hprogress s hs hgoal
      obtain ⟨events, s', hrun, hs', hgoal'⟩ := ih (rank s₁) hlt hs₁ rfl
      exact ⟨e :: events, s', (run_cons_of_step he events).trans hrun, hs', hgoal'⟩

/-- The costs of a run are paid out of the potential at its start and the gains. -/
theorem cost_le_potential (potential : σ → ℕ) (cost gain : ε → ℕ)
    (hstep : ∀ s e s', inv s → step s e = some s' →
      inv s' ∧ potential s' + cost e ≤ potential s + gain e)
    (hs : inv s) (hrun : run step s events = some s') :
    inv s' ∧ potential s' + (events.map cost).sum ≤ potential s + (events.map gain).sum := by
  induction events generalizing s with
  | nil =>
    cases hrun
    exact ⟨hs, le_rfl⟩
  | cons e events ih =>
    rw [run_cons] at hrun
    obtain ⟨s₁, he, hrest⟩ := Option.bind_eq_some_iff.mp hrun
    obtain ⟨hs₁, hfirst⟩ := hstep s e s₁ hs he
    obtain ⟨hs', hmore⟩ := ih hs₁ hrest
    refine ⟨hs', ?_⟩
    rw [List.map_cons, List.map_cons, List.sum_cons, List.sum_cons]
    omega

/-- Where steps pay what they cost out of a rank until a goal is reached that is never
left, a run that has not reached the goal costs no more than the rank. -/
theorem goal_or_cost_le {ok : ε → Prop} {goal : σ → Prop} (rank : σ → ℕ) (cost : ε → ℕ)
    (hstep : ∀ s e s', inv s → ok e → step s e = some s' →
      inv s' ∧ (goal s' ∨ ¬goal s ∧ rank s' + cost e ≤ rank s))
    (hs : inv s) (hok : ∀ e ∈ events, ok e) (hrun : run step s events = some s') :
    inv s' ∧ (goal s' ∨ ¬goal s ∧ rank s' + (events.map cost).sum ≤ rank s) := by
  induction events generalizing s with
  | nil =>
    cases hrun
    exact ⟨hs, (Classical.em _).imp_right fun hnot => ⟨hnot, le_rfl⟩⟩
  | cons e events ih =>
    rw [run_cons] at hrun
    obtain ⟨s₁, he, hrest⟩ := Option.bind_eq_some_iff.mp hrun
    obtain ⟨hok₁, hoks⟩ := List.forall_mem_cons.mp hok
    obtain ⟨hs₁, hfirst⟩ := hstep s e s₁ hs hok₁ he
    obtain ⟨hs', hmore⟩ := ih hs₁ hoks hrest
    refine ⟨hs', hmore.imp_right fun ⟨hnot₁, hle⟩ => ?_⟩
    rcases hfirst with hgoal | ⟨hnot, hlt⟩
    · exact absurd hgoal hnot₁
    · refine ⟨hnot, ?_⟩
      rw [List.map_cons, List.sum_cons]
      omega

end KKNet.Runs
