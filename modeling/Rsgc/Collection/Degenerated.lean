import Rsgc.Collection.Conservative.Kept

namespace Rsgc.Collection

open Marking Storage

namespace World

-- The marks are final, and what they leave unmarked is being freed, or will be by the
-- collection that completes a cancelled sweep.
def Sweepable (s : World) : Prop :=
  (∃ cycle todo, s.phase = .sweeping cycle todo) ∨ s.phase = .idle ∧ s.degenPoint = .concurrentSweep

-- How the flags follow the phases.
structure Flagged (s : World) : Prop where
  sweepable : s.Sweepable → s.phase.stopped = false → s.concurrentMark = false
  draining : s.phase = .draining .concurrent → s.concurrentMark = false
  resumed : s.degenPoint = .concurrentMark → s.concurrentMark = true

variable {c : Config} {s s' : World} {t : Nat} {keep : Nat → Prop}

theorem Sweepable.of_same (h : s'.Sweepable) (hphase : s'.phase = s.phase)
    (hpoint : s'.degenPoint = s.degenPoint) : s.Sweepable := by
  unfold Sweepable at h
  rwa [hphase, hpoint] at h

theorem Flagged.of_same (h : s.Flagged) (hphase : s'.phase = s.phase)
    (hpoint : s'.degenPoint = s.degenPoint) (hflag : s'.concurrentMark = s.concurrentMark) :
    s'.Flagged where
  sweepable hsweep hrun := by
    rw [hflag]
    exact h.sweepable (hsweep.of_same hphase hpoint) (hphase ▸ hrun)
  draining hdraining := by
    rw [hflag]
    exact h.draining (hphase ▸ hdraining)
  resumed hresumed := by
    rw [hflag]
    exact h.resumed (hpoint ▸ hresumed)

-- A pause that begins, or the concurrent mark.
theorem Flagged.of_phase (hsweep : ∀ todo, s.phase ≠ .sweeping .concurrent todo)
    (hdraining : s.phase ≠ .draining .concurrent) (hpoint : s.degenPoint = .outsideCycle) :
    s.Flagged where
  sweepable hsweepable hrun := by
    rcases hsweepable with ⟨cycle, todo, hphase⟩ | ⟨-, hidle⟩
    · rw [hphase] at hrun
      cases cycle with
      | concurrent => exact absurd hphase (hsweep todo)
      | degenerated => cases hrun
      | full => cases hrun
    · rw [hpoint] at hidle
      cases hidle
  draining hphase := absurd hphase hdraining
  resumed hresumed := by
    rw [hpoint] at hresumed
    cases hresumed

theorem stopped_sweeping (cycle : Cycle) (todo todo' : List Nat) :
    (Phase.sweeping cycle todo).stopped = (Phase.sweeping cycle todo').stopped := by
  cases cycle <;> rfl

theorem Flagged.step (h : s.Flagged) (htracing : s.Tracing) {e : Event}
    (hstep : s.step c e = some s') : s'.Flagged := by
  cases e with
  | load | writeBarrier | store | allocate | drop | upgrade | attach | detach | step =>
      have hbeside := step_of_mutator hstep rfl
      exact h.of_same hbeside.phase hbeside.degenPoint hbeside.concurrentMark
  | mark i =>
      obtain ⟨-, op, marks, ops, -, -, rfl⟩ := stepMark_cases hstep
      exact h.of_same rfl rfl rfl
  | initMark | full =>
      obtain ⟨-, rfl⟩ := guard_eq_some.mp hstep
      exact .of_phase (by simp) (by simp) rfl
  | finalMark =>
      obtain ⟨⟨hphase, -⟩, rfl⟩ := guard_eq_some.mp hstep
      have hpoint := htracing.degenPoint (by simp [hphase])
      refine ⟨fun hsweep _ => rfl, fun _ => rfl, fun hresumed => ?_⟩
      change s.degenPoint = _ at hresumed
      rw [hpoint] at hresumed
      cases hresumed
  | finishMark =>
      obtain ⟨-, ⟨hphase, rfl⟩ | ⟨cycle, hcycle, hphase, rfl⟩⟩ := stepFinishMark_cases hstep
      · exact .of_phase (by simp) (by simp) (htracing.degenPoint (by simp [hphase]))
      · have hpoint := htracing.degenPoint (by simp [hphase])
        cases cycle with
        | concurrent =>
            refine ⟨fun _ _ => h.draining hphase, (fun hdraining => by cases hdraining),
              fun hresumed => ?_⟩
            change s.degenPoint = _ at hresumed
            rw [hpoint] at hresumed
            cases hresumed
        | degenerated => exact absurd rfl hcycle
        | full => exact .of_phase (by simp) (by simp) hpoint
  | sweep r =>
      obtain ⟨cycle, todo, hphase, -, rfl⟩ := stepSweep_cases hstep
      refine ⟨fun _ hrun => h.sweepable (Or.inl ⟨cycle, todo, hphase⟩) ?_,
        (fun hdraining => by cases hdraining), h.resumed⟩
      rw [hphase, stopped_sweeping cycle todo (todo.erase r)]
      exact hrun
  | skip r =>
      obtain ⟨todo, hphase, -, rfl⟩ := stepSkip_cases hstep
      refine ⟨fun _ hrun => h.sweepable (Or.inl ⟨_, todo, hphase⟩) ?_,
        (fun hdraining => by cases hdraining), h.resumed⟩
      rw [hphase]
      exact hrun
  | finish =>
      obtain ⟨cycle, hphase, rfl⟩ := stepFinish_cases hstep
      have hpoint := htracing.degenPoint (by simp [hphase])
      refine ⟨fun hsweep _ => ?_, (fun hdraining => by cases hdraining), fun hresumed => ?_⟩
      · rcases hsweep with ⟨_, _, hsweeping⟩ | ⟨-, hsweep⟩
        · cases hsweeping
        · simp only at hsweep
          split at hsweep
          · rename_i hcancelled
            refine h.sweepable (Or.inl ⟨cycle, [], hphase⟩) ?_
            rw [hphase, hcancelled.1]
            rfl
          · rw [hpoint] at hsweep
            cases hsweep
      · simp only at hresumed
        split at hresumed
        · cases hresumed
        · rw [hpoint] at hresumed
          cases hresumed
  | cancel =>
      obtain ⟨-, rfl⟩ := guard_not_eq_some.mp hstep
      exact h.of_same rfl rfl rfl
  | abort =>
      obtain ⟨⟨hphase, -, -⟩, rfl⟩ := guard_eq_some.mp hstep
      refine ⟨fun hsweep _ => ?_, (fun hdraining => by cases hdraining),
        fun _ => htracing.tidy.marking hphase⟩
      rcases hsweep with ⟨_, _, hsweeping⟩ | ⟨-, hsweep⟩
      · cases hsweeping
      · cases hsweep
  | degenerate =>
      obtain ⟨⟨hphase, -⟩, ⟨-, rfl⟩ | ⟨-, rfl⟩ | ⟨-, rfl⟩ | ⟨-, rfl⟩⟩ :=
        stepDegenerate_cases hstep
      · exact .of_phase (by simp [hphase]) (by simp [hphase]) rfl
      · exact .of_phase (by simp) (by simp) rfl
      · exact .of_phase (by simp) (by simp) rfl
      · exact .of_phase (by simp) (by simp) rfl

end World

end Rsgc.Collection
