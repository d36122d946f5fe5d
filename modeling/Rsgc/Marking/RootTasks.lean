import Rsgc.Marking.Workers.Exact
import Rsgc.Marking.Workers.Termination

namespace Rsgc.Marking

-- Where a worker is in `ThreadRootProcessor::run`: the two queues of
-- `pick_next`, its answer `None`, a task and `try_terminate`.
inductive RootPhase
  | pop
  | popGlobal
  | noTask
  | running
  | terminating (place : TryTerminate)
  | stopped
deriving DecidableEq, Repr

namespace RootPhase

def afterVerdict : Verdict → RootPhase
  | .wait place => terminating place
  | .resume => pop
  | .stop => stopped

def stage : RootPhase → Stage
  | pop | running => .busy
  | popGlobal => .drained
  | noTask => .spent
  | terminating place => place.stage
  | stopped => .stopped

theorem afterVerdict_stage (verdict : Verdict) : (afterVerdict verdict).stage = verdict.stage := by
  cases verdict <;> rfl

end RootPhase

-- The queue of a worker has its newest task first.
structure RootWorker (τ : Type*) where
  worker : List τ
  phase : RootPhase

-- `RootProcessor` and its `ThreadRootProcessor`s. `added` and `executed` are not
-- in the source: the tasks added and the tasks begun so far.
structure RootProcessor (n : Nat) (τ : Type*) where
  injector : List τ
  workers : Fin n → RootWorker τ
  nworkers : Nat
  added : List τ
  executed : List τ

-- `take` is `steal_batch_and_pop`, `addTask` what the task in the hands of the
-- worker does.
inductive RootEvent (n : Nat) (τ : Type*)
  | step (w : Fin n)
  | take (w : Fin n) (task : τ) (moved : List τ)
  | addTask (w : Fin n) (task : τ) (toLocal : Bool)

namespace RootProcessor

variable {n : Nat} {τ : Type*}

def set (s : RootProcessor n τ) (w : Fin n) (worker : List τ) (phase : RootPhase) :
    RootProcessor n τ :=
  { s with workers := Function.update s.workers w ⟨worker, phase⟩ }

def addRoots (n : Nat) (roots : List τ) : RootProcessor n τ :=
  ⟨roots, fun _ => ⟨[], .pop⟩, n, roots, []⟩

-- `pick_next` where the worker has a task of its own
def begin (s : RootProcessor n τ) (w : Fin n) (task : τ) (worker : List τ) : RootProcessor n τ :=
  { s.set w worker .running with executed := task :: s.executed }

def stepWorker (s : RootProcessor n τ) (w : Fin n) : Option (RootProcessor n τ) :=
  let worker := (s.workers w).worker
  match (s.workers w).phase with
  | .pop =>
      match worker with
      | task :: rest => some (s.begin w task rest)
      | [] => some (s.set w worker .popGlobal)
  | .popGlobal => if s.injector.isEmpty then some (s.set w worker .noTask) else none
  | .noTask => some (s.set w worker (.afterVerdict (TryTerminate.enter n)))
  | .running => some (s.set w worker .pop)
  | .terminating place =>
      let verdict := place.step s.nworkers
      some { s.set w worker (.afterVerdict verdict.1) with nworkers := verdict.2 }
  | .stopped => none

def stepTake [DecidableEq τ] (s : RootProcessor n τ) (w : Fin n) (task : τ) (moved : List τ) :
    Option (RootProcessor n τ) :=
  let batch := s.injector.take (moved.length + 1)
  if (s.workers w).phase = .popGlobal ∧ (task :: moved).isPerm batch then
    some (begin { s with injector := s.injector.drop (moved.length + 1) } w task
      (moved ++ (s.workers w).worker))
  else none

def stepAddTask (s : RootProcessor n τ) (w : Fin n) (task : τ) (toLocal : Bool) :
    Option (RootProcessor n τ) :=
  if (s.workers w).phase = .running then
    if toLocal then
      some { s.set w (task :: (s.workers w).worker) .running with added := task :: s.added }
    else some { s with injector := s.injector ++ [task], added := task :: s.added }
  else none

def step [DecidableEq τ] (s : RootProcessor n τ) : RootEvent n τ → Option (RootProcessor n τ)
  | .step w => s.stepWorker w
  | .take w task moved => s.stepTake w task moved
  | .addTask w task toLocal => s.stepAddTask w task toLocal

def queued (s : RootProcessor n τ) : Multiset τ := s.injector + ∑ w, ((s.workers w).worker : Multiset τ)

end RootProcessor

-- The root tasks of `RootSet::process`, with any tasks that they add.
def processRoots {τ : Type*} [DecidableEq τ] (n : Nat) (roots : List τ) :
    Machine (RootProcessor n τ) (RootEvent n τ) where
  init s := s = RootProcessor.addRoots n roots
  step := RootProcessor.step

namespace RootProcessor

variable {n : Nat} {τ : Type*} {s t : RootProcessor n τ}

def pool (s : RootProcessor n τ) : Pool (Fin n) where
  stage w := (s.workers w).phase.stage
  loaded w := (s.workers w).worker ≠ []
  shared := s.injector ≠ []
  count := s.nworkers

-- No task is left or in the hands of a worker, every task has been executed
-- once, and no step will add or begin another.
structure Terminated [DecidableEq τ] (s : RootProcessor n τ) : Prop where
  queued : s.queued = 0
  idle : ∀ w, (s.workers w).phase ≠ .running
  executed : (s.added : Multiset τ) = s.executed
  final : ∀ e t, s.step e = some t → t.added = s.added ∧ t.executed = s.executed

structure Quiet (s : RootProcessor n τ) : Prop where
  several : ∀ w place, (s.workers w).phase = .terminating place → n ≠ 1
  pool : s.pool.Inv
  conserved : (s.added : Multiset τ) = s.executed + s.queued

theorem queued_of_update {w : Fin n} {m : RootWorker τ}
    (h : t.workers = Function.update s.workers w m) :
    t.queued + ((s.workers w).worker + s.injector) = s.queued + (m.worker + t.injector) := by
  have hsum := sum_update_add (fun m : RootWorker τ => (m.worker : Multiset τ)) s.workers w m
  rw [queued, queued, h]
  calc _ = (∑ j, ((Function.update s.workers w m j).worker : Multiset τ) + (s.workers w).worker) +
        (t.injector + s.injector) := by ac_rfl
    _ = (∑ j, ((s.workers j).worker : Multiset τ) + m.worker) + (t.injector + s.injector) := by
        rw [hsum]
    _ = _ := by ac_rfl

-- What a step takes from the queues it begins, and what it puts there it has added.
theorem conserved_of_update {w : Fin n} {m : RootWorker τ}
    (h : t.workers = Function.update s.workers w m)
    (hs : (s.added : Multiset τ) = s.executed + s.queued)
    (hmoved : (t.added + ((s.workers w).worker + s.injector) + s.executed : Multiset τ) =
      s.added + (m.worker + t.injector) + t.executed) :
    (t.added : Multiset τ) = t.executed + t.queued := by
  have hqueued := queued_of_update h
  refine add_right_cancel (b := ((s.workers w).worker + s.injector + s.executed : Multiset τ)) ?_
  calc _ = (t.added + ((s.workers w).worker + s.injector) + s.executed : Multiset τ) := by ac_rfl
    _ = s.executed + (s.queued + (m.worker + t.injector)) + t.executed := by
        rw [hmoved, hs]
        ac_rfl
    _ = _ := by
        rw [← hqueued]
        ac_rfl

theorem several_of_update {w : Fin n} {m : RootWorker τ}
    (h : t.workers = Function.update s.workers w m) (hs : s.Quiet)
    (hm : ∀ place, m.phase = .terminating place → n ≠ 1) :
    ∀ w place, (t.workers w).phase = .terminating place → n ≠ 1 := by
  rw [h]
  exact (Function.forall_update_iff s.workers
    fun _ m => ∀ place, m.phase = .terminating place → n ≠ 1).mpr ⟨hm, fun j _ => hs.several j⟩

theorem moves_of_update {w : Fin n} {m : RootWorker τ} {x : Stage}
    (h : t.workers = Function.update s.workers w m) (hx : m.phase.stage = x) :
    s.pool.Moves t.pool w x := by
  unfold pool
  rw [h, ← hx]
  exact Pool.moves_of_update (fun m : RootWorker τ => m.phase.stage)
    (fun m : RootWorker τ => m.worker ≠ []) s.workers w m _ _ _ _

-- A worker that keeps its queue has gone from place to place.
theorem Quiet.goto (h : s.Quiet) {w : Fin n} {phase : RootPhase} {count : Nat}
    (hpool : s.pool.Moves
        { s.set w (s.workers w).worker phase with nworkers := count }.pool w phase.stage →
      s.pool.Step { s.set w (s.workers w).worker phase with nworkers := count }.pool)
    (hseveral : ∀ place, phase = .terminating place → n ≠ 1) :
    Quiet { s.set w (s.workers w).worker phase with nworkers := count } where
  several := several_of_update (s := s) rfl h hseveral
  pool := (hpool (moves_of_update rfl rfl)).inv h.pool
  conserved := conserved_of_update (s := s) rfl h.conserved rfl

theorem Quiet.begin (h : s.Quiet) {w : Fin n} {task : τ} {worker injector : List τ}
    (hmoved : ((s.workers w).worker + s.injector : Multiset τ) = task ::ₘ (worker + injector))
    (hstage : s.pool.stage w ≠ .busy →
      s.pool.stage w = .drained ∧ (injector ≠ [] → s.injector ≠ [])) :
    (RootProcessor.begin { s with injector } w task worker).Quiet where
  several := several_of_update (s := s) rfl h (by simp)
  pool := by
    refine Pool.Step.inv ?_ h.pool
    by_cases hbusy : s.pool.stage w = .busy
    · exact .work w hbusy (moves_of_update rfl rfl) rfl
    · obtain ⟨hdrained, hinjector⟩ := hstage hbusy
      exact .resume w (Or.inl hdrained) (moves_of_update rfl rfl) hinjector rfl
  conserved := by
    refine conserved_of_update (s := s) rfl h.conserved ?_
    rw [hmoved]
    simp only [RootProcessor.begin, set, ← Multiset.cons_coe, ← Multiset.singleton_add]
    ac_rfl

theorem Quiet.stepWorker (h : s.Quiet) {w : Fin n} (hstep : s.stepWorker w = some t) :
    t.Quiet := by
  unfold RootProcessor.stepWorker at hstep
  simp only at hstep
  split at hstep <;> rename_i hphase
  · have hbusy : s.pool.stage w = .busy := by simp [RootProcessor.pool, hphase, RootPhase.stage]
    split at hstep <;> rename_i hworker <;> obtain rfl := Option.some.inj hstep
    · refine h.begin ?_ (absurd hbusy)
      rw [hworker, ← Multiset.cons_coe, Multiset.cons_add]
    · refine h.goto (fun hm => .drain w hbusy hm ?_ id rfl) (by simp)
      simp [RootProcessor.pool, RootProcessor.set, hworker]
  · obtain ⟨hempty, rfl⟩ := guard_eq_some.mp hstep
    refine h.goto (fun hm => .spend w ?_ hm ?_ ?_ rfl) (by simp)
    · simp [RootProcessor.pool, hphase, RootPhase.stage]
    · simp [RootProcessor.pool, RootProcessor.set]
    · simpa [RootProcessor.pool, RootProcessor.set] using hempty
  · obtain rfl := Option.some.inj hstep
    refine h.goto (fun hm => TryTerminate.pool_enter (i := w) ?_ ?_ ?_ id rfl) ?_
    · simp [RootProcessor.pool, hphase, RootPhase.stage]
    · rwa [Fintype.card_fin, ← RootPhase.afterVerdict_stage]
    · simp [RootProcessor.pool, RootProcessor.set]
    · intro place hplace hn
      simp [TryTerminate.enter, hn, RootPhase.afterVerdict] at hplace
  · obtain rfl := Option.some.inj hstep
    refine h.goto (fun hm => .work w ?_ hm rfl) (by simp)
    simp [RootProcessor.pool, hphase, RootPhase.stage]
  · rename_i place
    obtain rfl := Option.some.inj hstep
    have hn := h.several w place hphase
    refine h.goto (fun hm => TryTerminate.pool_step (i := w) ?_ ?_ ?_ ?_ id rfl) fun _ _ => hn
    · rwa [Fintype.card_fin]
    · simp [RootProcessor.pool, hphase, RootPhase.stage]
    · rwa [← RootPhase.afterVerdict_stage]
    · simp [RootProcessor.pool, RootProcessor.set]
  · cases hstep

theorem Quiet.stepAddTask (h : s.Quiet) {w : Fin n} {task : τ} {toLocal : Bool}
    (hstep : s.stepAddTask w task toLocal = some t) : t.Quiet := by
  obtain ⟨hphase, hstep⟩ := Option.ite_none_right_eq_some.mp hstep
  have hbusy : s.pool.stage w = .busy := by simp [RootProcessor.pool, hphase, RootPhase.stage]
  have hworkers : s.workers = Function.update s.workers w (s.workers w) :=
    (Function.update_eq_self w s.workers).symm
  split at hstep <;> obtain rfl := Option.some.inj hstep
  · refine ⟨several_of_update (s := s) rfl h (by simp), ?_, ?_⟩
    · exact Pool.Step.inv (.work w hbusy (moves_of_update rfl rfl) rfl) h.pool
    · refine conserved_of_update (s := s) rfl h.conserved ?_
      simp only [set, ← Multiset.cons_coe, ← Multiset.singleton_add]
      ac_rfl
  · refine ⟨h.several, ?_, ?_⟩
    · exact Pool.Step.inv (.work w hbusy (moves_of_update hworkers hbusy) rfl) h.pool
    · refine conserved_of_update (s := s) hworkers h.conserved ?_
      simp only [← Multiset.cons_coe, ← Multiset.singleton_add, ← Multiset.coe_add]
      ac_rfl

variable [DecidableEq τ]

theorem Quiet.stepTake (h : s.Quiet) {w : Fin n} {task : τ} {moved : List τ}
    (hstep : s.stepTake w task moved = some t) : t.Quiet := by
  obtain ⟨⟨hphase, hperm⟩, rfl⟩ := guard_eq_some.mp hstep
  have hdrained : s.pool.stage w = .drained := by simp [RootProcessor.pool, hphase, RootPhase.stage]
  have hbatch : (s.injector.take (moved.length + 1) : Multiset τ) = task ::ₘ moved :=
    (Multiset.coe_eq_coe.mpr (List.isPerm_iff.mp hperm)).symm
  have hsplit : (s.injector : Multiset τ) =
      s.injector.take (moved.length + 1) + s.injector.drop (moved.length + 1) := by
    rw [Multiset.coe_add, List.take_append_drop]
  refine h.begin ?_ fun _ => ⟨hdrained, fun hne hempty => ?_⟩
  · rw [hsplit, hbatch, ← Multiset.coe_add]
    simp only [← Multiset.singleton_add]
    ac_rfl
  · exact hne (by rw [hempty, List.drop_nil])

theorem Quiet.step (h : s.Quiet) {e : RootEvent n τ} (hstep : s.step e = some t) : t.Quiet := by
  cases e with
  | step w => exact h.stepWorker hstep
  | take w task moved => exact h.stepTake hstep
  | addTask w task toLocal => exact h.stepAddTask hstep

theorem quiet_of_reachable {roots : List τ} (hs : (processRoots n roots).Reachable s) :
    s.Quiet := by
  refine Machine.Reachable.invariant (P := Quiet) ?_ ?_ hs
  · rintro s rfl
    refine ⟨by simp [addRoots], ?_, ?_⟩
    · exact Pool.Inv.init (fun w => rfl) (Fintype.card_fin n).symm
    · simp [addRoots, queued]
  · exact fun s e t h hstep => h.step hstep

theorem Quiet.terminated (h : s.Quiet) {w : Fin n} (hw : (s.workers w).phase = .stopped) :
    s.Terminated := by
  obtain ⟨hshared, hall⟩ := h.pool.finished (i := w) (by simp [RootProcessor.pool, hw, RootPhase.stage])
  have hidle : ∀ j, ¬(s.workers j).phase.stage.active = true := fun j =>
    Bool.eq_false_iff.mp (hall j).1
  have hqueued : s.queued = 0 := by
    have hempty : ∀ j, (s.workers j).worker = [] := fun j => not_not.mp (hall j).2
    have hinjector : s.injector = [] := not_not.mp hshared
    simp [RootProcessor.queued, hempty, hinjector]
  refine ⟨hqueued, fun j hj => hidle j (by rw [hj]; rfl), ?_, fun e t hstep => ?_⟩
  · rw [h.conserved, hqueued, add_zero]
  cases e with
  | step j =>
      simp only [RootProcessor.step, RootProcessor.stepWorker] at hstep
      split at hstep <;> rename_i hphase
      · exact absurd (by rw [hphase]; rfl) (hidle j)
      · exact absurd (by rw [hphase]; rfl) (hidle j)
      · exact absurd (by rw [hphase]; rfl) (hidle j)
      · exact absurd (by rw [hphase]; rfl) (hidle j)
      · obtain rfl := Option.some.inj hstep
        exact ⟨rfl, rfl⟩
      · cases hstep
  | take j task moved =>
      obtain ⟨⟨hphase, -⟩, -⟩ := guard_eq_some.mp hstep
      exact absurd (by rw [hphase]; rfl) (hidle j)
  | addTask j task toLocal =>
      obtain ⟨hphase, -⟩ := Option.ite_none_right_eq_some.mp hstep
      exact absurd (by rw [hphase]; rfl) (hidle j)

end RootProcessor

-- Once `try_terminate` has returned true to some worker nothing is left, in
-- the marking that follows the roots, in a final mark and for the root tasks.
theorem try_terminate_safe (n : Nat) :
    (∀ (stride : Nat) (graph : Graph) (roots : List Nat) (s : MarkingRun n),
      (stwMark n stride graph roots).Reachable s ∨ (finishMark n stride graph).Reachable s →
      ∀ w, (s.workers w).phase = .stopped → s.Terminated graph stride) ∧
    ∀ (τ : Type) (_ : DecidableEq τ) (roots : List τ) (s : RootProcessor n τ),
      (processRoots n roots).Reachable s →
      ∀ w, (s.workers w).phase = .stopped → s.Terminated := by
  refine ⟨fun stride graph roots s hs w hw => ?_, fun τ _ roots s hs w hw => ?_⟩
  · have hquiet : s.Quiet :=
      hs.elim (fun h => MarkingRun.quiet_of_stwMark h hw) MarkingRun.quiet_of_reachable
    exact hquiet.terminated hw
  · exact (RootProcessor.quiet_of_reachable hs).terminated hw

-- Worker 0 adds two tasks and worker 1 takes one of them.
def twoWorkersEvents : List (RootEvent 2 Nat) :=
  [.step 0, .take 0 0 [], .addTask 0 1 true, .addTask 0 2 false, .step 0,
    .step 1, .take 1 2 [], .step 1, .step 1, .step 1, .step 1, .step 1,
    .step 0, .step 0, .step 0, .step 0, .step 0, .step 0]

theorem try_terminate_safe_two_workers :
    (∃ s : RootProcessor 2 Nat, s.executed = [1, 2, 0] ∧ s.Terminated) ∧
      ∃ s : MarkingRun 1, s.marks 1 = true ∧
        s.Terminated (MarkingRun.arrayGraph 5000 (by decide) (by decide)) 32 := by
  constructor
  · have hrun : ((processRoots 2 [0]).run (RootProcessor.addRoots 2 [0]) twoWorkersEvents).map
        (fun s => ((s.workers 0).phase, s.executed)) = some (.stopped, [1, 2, 0]) := by
      decide +kernel
    obtain ⟨s, hs, heq⟩ := Option.map_eq_some_iff.mp hrun
    obtain ⟨hstopped, hexecuted⟩ := Prod.mk.inj heq
    exact ⟨s, hexecuted, (try_terminate_safe 2).2 Nat _ [0] s
      (Machine.run_reachable (Machine.Via.init rfl) hs) 0 hstopped⟩
  · have hrun : ((MarkingRun.soleRun (MarkingRun.arrayGraph 5000 (by decide) (by decide)) [0]
        70).workers 0).phase = .stopped ∧ (MarkingRun.soleRun
          (MarkingRun.arrayGraph 5000 (by decide) (by decide)) [0] 70).marks 1 = true := by
      decide +kernel
    exact ⟨_, hrun.2, (try_terminate_safe 1).1 32 _ [0] _
      (Or.inl (MarkingRun.soleRun_reachable _ _ 70)) 0 hrun.1⟩

end Rsgc.Marking
