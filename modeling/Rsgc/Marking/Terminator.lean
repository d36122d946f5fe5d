import Rsgc.Lib.Pool

namespace Rsgc.Marking

-- Where a worker is in `Terminator::try_terminate`: before `decrease_workers`,
-- asleep, and in the loop of `zero_or_increase_workers` with the value it has read.
inductive TryTerminate
  | decrease
  | sleeping
  | increase (seen : Nat)
deriving DecidableEq, Repr

inductive Verdict
  | wait (place : TryTerminate)
  | resume
  | stop
deriving DecidableEq, Repr

namespace TryTerminate

-- `try_terminate` of a `Terminator` for `n` workers begins.
def enter (n : Nat) : Verdict := if n = 1 then .stop else .wait .decrease

-- One access to the counter, with what it leaves there.
def step (nworkers : Nat) : TryTerminate → Verdict × Nat
  | .decrease => (if nworkers = 1 then .stop else .wait .sleeping, nworkers - 1)
  | .sleeping => (.wait (.increase nworkers), nworkers)
  | .increase seen =>
      if seen = 0 then (.stop, nworkers)
      else if nworkers = seen then (.resume, nworkers + 1)
      else (.wait (.increase nworkers), nworkers)

def stage : TryTerminate → Stage
  | .decrease => .spent
  | .sleeping => .resting
  | .increase seen => .raising seen

end TryTerminate

def Verdict.stage : Verdict → Stage
  | .wait place => place.stage
  | .resume => .busy
  | .stop => .stopped

section

variable {ι : Type*} [DecidableEq ι] [Fintype ι] {p q : Pool ι} {i : ι}

theorem TryTerminate.pool_step {place : TryTerminate} (hcard : Fintype.card ι ≠ 1)
    (hstage : p.stage i = place.stage) (hm : p.Moves q i (place.step p.count).1.stage)
    (hl : q.loaded i → p.loaded i) (hs : q.shared → p.shared)
    (hc : q.count = (place.step p.count).2) : p.Step q := by
  cases place with
  | decrease =>
      have heq : (TryTerminate.decrease.step p.count).1.stage =
          if p.count = 1 then .stopped else .resting := by
        simp only [TryTerminate.step]
        split <;> rfl
      rw [heq] at hm
      exact .rest i hcard hstage hm hl hs hc
  | sleeping => exact .look i hstage hm hl hs hc
  | increase seen =>
      have heq : ((TryTerminate.increase seen).step p.count).1.stage =
          if seen = 0 then .stopped else if p.count = seen then .busy else .raising p.count := by
        simp only [TryTerminate.step]
        split
        · rfl
        · split <;> rfl
      rw [heq] at hm
      refine .raise i seen hstage hm hl hs ?_
      rw [hc, TryTerminate.step]
      by_cases hseen : seen = 0
      · simp [hseen]
      · by_cases hcount : p.count = seen <;> simp [hseen, hcount]

-- Before it the worker has found its own queue and then the shared one empty.
theorem TryTerminate.pool_enter (hstage : p.stage i = .spent)
    (hm : p.Moves q i (TryTerminate.enter (Fintype.card ι)).stage) (hl : q.loaded i → p.loaded i)
    (hs : q.shared → p.shared) (hc : q.count = p.count) : p.Step q := by
  unfold TryTerminate.enter at hm
  split at hm
  · rename_i hcard
    exact .halt i hcard hstage hm hl hs hc
  · exact .search i hstage hm hl hs hc

end

end Rsgc.Marking
