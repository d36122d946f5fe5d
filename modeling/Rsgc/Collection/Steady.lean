import Rsgc.Collection.Stale

namespace Rsgc.Collection

open Marking Storage

def Event.ofMutator : Event → Bool
  | .load .. | .writeBarrier .. | .store .. | .allocate .. | .drop .. | .upgrade .. | .attach
  | .detach _ | .step _ => true
  | _ => false

namespace World

variable {c : Config} {s s' : World} {t : Nat}

-- The mutators take part in no phase of a cycle and switch no flag of the heap.
-- All they queue is a task for an object they have buffered.
structure Beside (s s' : World) : Prop where
  running : s.phase.stopped = false
  phase : s'.phase = s.phase
  concurrentMark : s'.concurrentMark = s.concurrentMark
  degenPoint : s'.degenPoint = s.degenPoint
  work : ∀ op ∈ s'.work, op ∈ s.work ∨ ∃ obj, op = .push (.new obj false false)

theorem step_of_mutator {e : Event} (hstep : s.step c e = some s')
    (he : e.ofMutator = true) : s.Beside s' := by
  cases e with
  | load t obj slot =>
      obtain ⟨hrun, m, ref, -, -, -, rfl⟩ := stepLoad_cases hstep
      exact ⟨hrun, rfl, rfl, rfl, fun op hop => Or.inl hop⟩
  | writeBarrier t obj =>
      obtain ⟨hrun, m, -, -, -, rfl⟩ := stepWriteBarrier_cases hstep
      exact ⟨hrun, rfl, rfl, rfl, fun op hop => Or.inl hop⟩
  | store t obj slot value =>
      obtain ⟨hrun, m, -, -, -, -, -, rfl⟩ := stepStore_cases hstep
      exact ⟨hrun, rfl, rfl, rfl, fun op hop => Or.inl hop⟩
  | allocate t new =>
      obtain ⟨hrun, m, regions, -, -, -, -, -, -, rfl⟩ := stepAllocate_cases hstep
      exact ⟨hrun, rfl, rfl, rfl, fun op hop => Or.inl hop⟩
  | drop t obj =>
      obtain ⟨hrun, m, -, -, rfl⟩ := stepDrop_cases hstep
      exact ⟨hrun, rfl, rfl, rfl, fun op hop => Or.inl hop⟩
  | upgrade t weak =>
      obtain ⟨hrun, m, target, -, -, -, rfl⟩ := stepUpgrade_cases hstep
      exact ⟨hrun, rfl, rfl, rfl, fun op hop => Or.inl hop⟩
  | attach =>
      obtain ⟨hrun, rfl⟩ := guard_not_eq_some.mp hstep
      exact ⟨Bool.eq_false_iff.mpr hrun, rfl, rfl, rfl, fun op hop => Or.inl hop⟩
  | detach t =>
      obtain ⟨hrun, m, -, -, rfl⟩ := stepDetach_cases hstep
      exact ⟨hrun, rfl, rfl, rfl, fun op hop => Or.inl hop⟩
  | step t =>
      obtain ⟨hrun, m, -, hcases⟩ := stepThread_cases hstep
      rcases hcases with ⟨_, -, -, rfl⟩ | ⟨obj, _, _, -, rfl⟩ | ⟨-, -, rfl⟩ | ⟨_, _, _, -, rfl⟩ |
        ⟨_, -, rfl⟩ | ⟨-, rfl⟩
      · exact ⟨hrun, rfl, rfl, rfl, fun op hop => Or.inl hop⟩
      · exact ⟨hrun, rfl, rfl, rfl, fun op hop => (List.mem_cons.mp hop).symm.imp id fun h => ⟨obj, h⟩⟩
      all_goals exact ⟨hrun, rfl, rfl, rfl, fun op hop => Or.inl hop⟩
  | _ => cases he

-- Among concurrent cycles that nothing cancels the flag of the heap is on just
-- while the concurrent mark runs.
structure Steady (s : World) : Prop where
  tidy : s.Tidy
  cycle : ∀ cycle, s.phase = .draining cycle ∨ (∃ todo, s.phase = .sweeping cycle todo) →
    cycle = .concurrent
  flag : s.concurrentMark = true → s.phase = .marking

theorem Steady.work_eq_nil (h : s.Steady) (hphase : s.phase ≠ .marking)
    (hdraining : ∀ cycle, s.phase ≠ .draining cycle) : s.work = [] :=
  h.tidy.work (Bool.eq_false_iff.mpr fun hon => hphase (h.flag hon)) hdraining

theorem Steady.off (h : s.Steady) (hphase : s.phase ≠ .marking) : s.concurrentMark = false :=
  Bool.eq_false_iff.mpr fun hon => hphase (h.flag hon)

theorem Steady.step (h : s.Steady) {upgrades : Bool} {e : Event}
    (hstep : (concurrentCycles c upgrades).step s e = some s') : s'.Steady := by
  obtain ⟨hcycle, hstep⟩ := Option.ite_none_right_eq_some.mp hstep
  have htidy : s'.Tidy := h.tidy.step hstep
  have hsweeping {todo : List Nat} (hp : s'.phase = .sweeping .concurrent todo) (cycle : Cycle)
      (hc : s'.phase = .draining cycle ∨ ∃ todo, s'.phase = .sweeping cycle todo) :
      cycle = .concurrent := by
    rw [hp] at hc
    rcases hc with hc | ⟨_, hc⟩
    · cases hc
    · exact (Phase.sweeping.inj hc).1.symm
  have hmutator (hp : s'.phase = s.phase) (hf : s'.concurrentMark = s.concurrentMark) :
      s'.Steady := by
    refine ⟨htidy, ?_, ?_⟩
    · rw [hp]
      exact h.cycle
    · rw [hp, hf]
      exact h.flag
  cases e with
  | load | writeBarrier | store | allocate | drop | upgrade | attach | detach | step =>
      have hbeside := step_of_mutator hstep rfl
      exact hmutator hbeside.phase hbeside.concurrentMark
  | mark i =>
      obtain ⟨-, op, marks, ops, -, -, rfl⟩ := stepMark_cases hstep
      exact hmutator rfl rfl
  | initMark =>
      obtain ⟨-, rfl⟩ := guard_eq_some.mp hstep
      exact ⟨htidy, by simp, fun _ => rfl⟩
  | finalMark =>
      obtain ⟨-, rfl⟩ := guard_eq_some.mp hstep
      exact ⟨htidy, by simp, by simp⟩
  | finishMark =>
      obtain ⟨-, ⟨hphase, rfl⟩ | ⟨cycle, -, hphase, rfl⟩⟩ := stepFinishMark_cases hstep
      · cases h.cycle _ (Or.inl hphase)
      · obtain rfl := h.cycle _ (Or.inl hphase)
        refine ⟨htidy, hsweeping rfl, fun hon => ?_⟩
        exact absurd hon (Bool.eq_false_iff.mp (h.off (by simp [hphase])))
  | sweep r =>
      obtain ⟨cycle, todo, hphase, -, rfl⟩ := stepSweep_cases hstep
      obtain rfl := h.cycle _ (Or.inr ⟨todo, hphase⟩)
      refine ⟨htidy, hsweeping rfl, fun hon => ?_⟩
      exact absurd hon (Bool.eq_false_iff.mp (h.off (by simp [hphase])))
  | finish =>
      obtain ⟨cycle, hphase, rfl⟩ := stepFinish_cases hstep
      refine ⟨htidy, by simp, fun hon => ?_⟩
      exact absurd hon (Bool.eq_false_iff.mp (h.off (by simp [hphase])))
  | cancel | skip | abort | full | degenerate => cases hcycle

theorem steady_of_fresh (h : s.Fresh) : s.Steady := by
  refine ⟨tidy_of_reachable (c := ⟨.satb, 0, 0⟩) (Machine.Via.init h), by simp [h.phase], ?_⟩
  simp [h.concurrentMark]

end World

end Rsgc.Collection
