import Rsgc.Sync.WorkerThreads.Balance

namespace Rsgc.Sync

namespace WorkerThreads

variable {τ : Type*} {s u : WorkerThreads τ} {t : τ} {k a left ended id : Nat}

-- Nobody is busy with a task.
structure Quiet (s : WorkerThreads τ) : Prop where
  start_zero : s.dispatcher.startSemaphore = 0
  end_zero : s.dispatcher.endSemaphore = 0
  resting : ∀ t, (s.stage t).Resting

-- The task `k` is written, and no worker has come to it.
structure Written (s : WorkerThreads τ) (numWorkers k : Nat) : Prop where
  quiet : s.Quiet
  calls : s.calls = k + 1
  task : s.dispatcher.task = some k
  num_lt : numWorkers < 2 ^ 64
  record : s.record k = ⟨numWorkers, s.dispatcher.started, [], [], false⟩

variable [Fintype τ]

-- The task `k` is under way.
structure Running (s : WorkerThreads τ) (k a left ended : Nat) : Prop where
  calls : s.calls = k + 1
  task : s.dispatcher.task = some k
  current : ∀ t j id, s.stage t = .working j id → j = k
  running : (s.record k).returned = false
  balanced : Balanced s.dispatcher (s.record k) (.of s.stage) a left ended

def Phase (s : WorkerThreads τ) : Coordinator → Prop
  | .idle => s.Quiet
  | .storing numWorkers => ∃ k, s.Written numWorkers k
  | .signalling left => ∃ k a, s.Running k a left 0
  | .clearing => ∃ k a, s.Running k a 0 1

structure Inv (s : WorkerThreads τ) : Prop where
  started_lt : s.dispatcher.started < 2 ^ 64
  created_lt : s.createdWorkers < 2 ^ 64
  active_le : s.activeWorkers ≤ s.createdWorkers
  complete : ∀ i, (s.record i).returned = true → (s.record i).Complete
  phase : s.Phase s.coordinator

-- Where a worker has something to do, a task is under way; the phase of the coordinator
-- does not depend on how far.
theorem Inv.busy (h : s.Inv) (hnot : ¬s.Quiet) :
    ∃ k a left ended, s.Running k a left ended ∧
      ∀ (u : WorkerThreads τ) a', u.Running k a' left ended → u.Phase s.coordinator := by
  have hphase := h.phase
  unfold Phase at hphase
  cases hc : s.coordinator with
  | idle =>
      rw [hc] at hphase
      exact absurd hphase hnot
  | storing numWorkers =>
      rw [hc] at hphase
      obtain ⟨k, hk⟩ := hphase
      exact absurd hk.quiet hnot
  | signalling left =>
      rw [hc] at hphase
      obtain ⟨k, a, hrun⟩ := hphase
      exact ⟨k, a, left, 0, hrun, fun u a' hu => ⟨k, a', hu⟩⟩
  | clearing =>
      rw [hc] at hphase
      obtain ⟨k, a, hrun⟩ := hphase
      exact ⟨k, a, 0, 1, hrun, fun u a' hu => ⟨k, a', hu⟩⟩

-- What keeps the task under way keeps the invariant.
theorem Inv.of_running (h : s.Inv) (hnot : ¬s.Quiet) (hcoordinator : u.coordinator = s.coordinator)
    (hcreated : u.createdWorkers = s.createdWorkers) (hactive : u.activeWorkers = s.activeWorkers)
    (hstep : ∀ k a left ended, s.Running k a left ended →
      (∃ a', u.Running k a' left ended) ∧ ∀ i ≠ k, u.record i = s.record i) : u.Inv := by
  obtain ⟨k, a, left, ended, hrun, hback⟩ := h.busy hnot
  obtain ⟨⟨a', hrun'⟩, hothers⟩ := hstep k a left ended hrun
  refine ⟨?_, by rw [hcreated]; exact h.created_lt, ?_, fun i hi => ?_, ?_⟩
  · rw [hrun'.balanced.started]
    exact Nat.mod_lt _ (by decide)
  · rw [hactive, hcreated]
    exact h.active_le
  · by_cases hik : i = k
    · subst hik
      rw [hrun'.running] at hi
      cases hi
    · rw [hothers i hik] at hi ⊢
      exact h.complete i hi
  · rw [hcoordinator]
    exact hback u a' hrun'

section Coordinator

theorem Inv.phase_of (h : s.Inv) {c : Coordinator} (hc : s.coordinator = c) : s.Phase c := by
  have hphase := h.phase
  rwa [hc] at hphase

theorem Inv.setActiveWorkers (h : s.Inv) (hidle : s.coordinator = .idle) (n : Nat) :
    Inv { s with activeWorkers := min s.createdWorkers n } := by
  have hquiet : s.Quiet := h.phase_of hidle
  refine ⟨h.started_lt, h.created_lt, Nat.min_le_left _ _, h.complete, ?_⟩
  simp only [hidle]
  exact ⟨hquiet.start_zero, hquiet.end_zero, hquiet.resting⟩

theorem Inv.runTask (h : s.Inv) (hidle : s.coordinator = .idle) : s.runTask.Inv := by
  have hquiet : s.Quiet := h.phase_of hidle
  have hactive : s.activeWorkers < 2 ^ 64 := Nat.lt_of_le_of_lt h.active_le h.created_lt
  refine ⟨h.started_lt, h.created_lt, h.active_le, fun i hi => ?_, s.calls,
    ⟨hquiet.start_zero, hquiet.end_zero, hquiet.resting⟩, rfl, rfl, hactive, ?_⟩
  · simp only [WorkerThreads.runTask, advance, write] at hi ⊢
    by_cases hnew : i = s.calls
    · subst hnew
      rw [Function.update_self] at hi
      cases hi
    · rw [Function.update_of_ne hnew] at hi ⊢
      exact h.complete i hi
  · simp only [WorkerThreads.runTask, advance, write, Function.update_self]

theorem Inv.storeNotFinished {numWorkers : Nat} (h : s.Inv)
    (hstoring : s.coordinator = .storing numWorkers) :
    (s.advance (.signalling numWorkers) { s.dispatcher with notFinished := numWorkers }).Inv := by
  obtain ⟨k, hk⟩ := h.phase_of hstoring
  have hbalanced := Balanced.init s.dispatcher hk.num_lt h.started_lt hk.quiet.start_zero
    hk.quiet.end_zero
  rw [← hk.record, ← Tally.of_eq_none.mpr hk.quiet.resting] at hbalanced
  refine ⟨h.started_lt, h.created_lt, h.active_le, h.complete, k, 0, hk.calls, hk.task,
    fun t j id ht => ?_, ?_, hbalanced⟩
  · obtain hrest | hrest := hk.quiet.resting t
    · cases hrest.symm.trans ht
    · cases hrest.symm.trans ht
  · simp only [advance, hk.record]

theorem Inv.signalStart (h : s.Inv) (hsignalling : s.coordinator = .signalling (left + 1)) :
    (s.advance (.signalling left) s.dispatcher.signalStart).Inv := by
  obtain ⟨k, a, hrun⟩ := h.phase_of hsignalling
  refine ⟨h.started_lt, h.created_lt, h.active_le, h.complete, k, a, hrun.calls, hrun.task,
    hrun.current, hrun.running, hrun.balanced.signalStart⟩

theorem Inv.waitEnd (h : s.Inv) (hsignalling : s.coordinator = .signalling 0)
    (hpos : 0 < s.dispatcher.endSemaphore) :
    (s.advance .clearing s.dispatcher.waitEnd).Inv := by
  obtain ⟨k, a, hrun⟩ := h.phase_of hsignalling
  refine ⟨h.started_lt, h.created_lt, h.active_le, h.complete, k, a, hrun.calls, hrun.task,
    hrun.current, hrun.running, hrun.balanced.waitEnd hpos⟩

theorem Inv.clearTask (h : s.Inv) (hclearing : s.coordinator = .clearing) : s.clearTask.Inv := by
  obtain ⟨k, a, hrun⟩ := h.phase_of hclearing
  obtain ⟨hnone, hstart, hend, hcomplete⟩ := hrun.balanced.completed
  have hcurrent : s.calls - 1 = k := by
    rw [hrun.calls, Nat.add_sub_cancel]
  refine ⟨h.started_lt, h.created_lt, h.active_le, fun i hi => ?_, hstart, hend,
    Tally.of_eq_none.mp hnone⟩
  simp only [WorkerThreads.clearTask, advance, write, hcurrent] at hi ⊢
  by_cases hik : i = k
  · subst hik
    rw [Function.update_self]
    exact ⟨hcomplete.pos, hcomplete.num_lt, hcomplete.started_lt, hcomplete.ids,
      hcomplete.finished⟩
  · rw [Function.update_of_ne hik] at hi ⊢
    exact h.complete i hi

end Coordinator

section Workers

variable [DecidableEq τ]

-- One worker goes on with the task.
theorem Running.move {stage : WorkerStage} {d : WorkerTaskDispatcher} {r : TaskRecord}
    (h : s.Running k a left ended) (htask : d.task = s.dispatcher.task)
    (hr : r.returned = (s.record k).returned) (hstage : ∀ j id, stage = .working j id → j = k)
    (hbalanced : ∀ c : Tally,
      Balanced s.dispatcher (s.record k) (c.add (s.stage t)) a left ended →
        ∃ a', Balanced d r (c.add stage) a' left ended) :
    ∃ a', ((s.move t stage d).write k r).Running k a' left ended := by
  obtain ⟨c, hc⟩ := Tally.of_update s.stage t
  have hold := h.balanced
  rw [← Function.update_eq_self t s.stage, hc] at hold
  obtain ⟨a', hnew⟩ := hbalanced c hold
  refine ⟨a', h.calls, htask.trans h.task, fun v j id hv => ?_, ?_, ?_⟩
  · simp only [write, WorkerThreads.move] at hv
    by_cases hvt : v = t
    · subst hvt
      rw [Function.update_self] at hv
      exact hstage j id hv
    · rw [Function.update_of_ne hvt] at hv
      exact h.current v j id hv
  · simp only [write, Function.update_self, hr, h.running]
  · simp only [write, WorkerThreads.move, Function.update_self, hc]
    exact hnew

-- A step that makes no call of `work` and ends none.
theorem Inv.move {stage : WorkerStage} {d : WorkerTaskDispatcher} (h : s.Inv) (hnot : ¬s.Quiet)
    (htask : d.task = s.dispatcher.task) (hstage : ∀ j id, stage ≠ .working j id)
    (hbalanced : ∀ (c : Tally) r a left ended,
      Balanced s.dispatcher r (c.add (s.stage t)) a left ended →
        ∃ a', Balanced d r (c.add stage) a' left ended) : (s.move t stage d).Inv := by
  refine h.of_running hnot rfl rfl rfl fun k a left ended hrun => ⟨?_, fun _ _ => rfl⟩
  have hmove := hrun.move (r := s.record k) htask rfl (fun j id hj => absurd hj (hstage j id))
    fun c hc => hbalanced c _ a left ended hc
  simpa only [write, WorkerThreads.move, Function.update_eq_self] using hmove

theorem Inv.waitStart (h : s.Inv) (ht : s.stage t = .waiting)
    (hpos : 0 < s.dispatcher.startSemaphore) :
    (s.move t .woken s.dispatcher.waitStart).Inv := by
  have hnot : ¬s.Quiet := fun hq => by
    rw [hq.start_zero] at hpos
    omega
  refine h.move hnot rfl (fun k id hk => by cases hk) fun c r a left ended hc => ⟨a, ?_⟩
  rw [ht] at hc
  exact hc.waitStart hpos

omit [Fintype τ] [DecidableEq τ] in
theorem not_quiet (ht : ¬(s.stage t).Resting) : ¬s.Quiet := fun hq => ht (hq.resting t)

theorem Inv.fetchId (h : s.Inv) (ht : s.stage t = .woken) : (s.fetchId t).Inv := by
  have hnot : ¬s.Quiet := not_quiet (by rw [ht]; simp [WorkerStage.Resting])
  refine h.move hnot rfl (fun k id hk => by cases hk) fun c r a left ended hc => ⟨a + 1, ?_⟩
  rw [ht] at hc
  exact hc.fetchId

theorem Inv.readTask (h : s.Inv) (ht : s.stage t = .numbered id) : (s.readTask t id).Inv := by
  have hnot : ¬s.Quiet := not_quiet (by rw [ht]; simp [WorkerStage.Resting])
  obtain ⟨k, a, left, ended, hrun, _⟩ := h.busy hnot
  have hread : s.readTask t id = (s.move t (.working k id) s.dispatcher).write k
      { s.record k with ids := id :: (s.record k).ids } := by
    unfold WorkerThreads.readTask
    rw [hrun.task]
  rw [hread]
  refine h.of_running hnot rfl rfl rfl fun k' a left ended hrun' => ?_
  obtain rfl : k' = k := Option.some.inj (hrun'.task.symm.trans hrun.task)
  refine ⟨hrun'.move rfl rfl (by simp) fun c hc => ⟨a, ?_⟩, fun i hi => Function.update_of_ne hi _ _⟩
  rw [ht] at hc
  exact hc.readTask

theorem Inv.workReturns (h : s.Inv) (ht : s.stage t = .working k id) :
    (s.workReturns t k id).Inv := by
  have hnot : ¬s.Quiet := not_quiet (by rw [ht]; simp [WorkerStage.Resting])
  refine h.of_running hnot rfl rfl rfl fun k' a left ended hrun => ?_
  obtain rfl : k = k' := hrun.current t k id ht
  refine ⟨hrun.move rfl rfl (by simp) fun c hc => ⟨a, ?_⟩, fun i hi => Function.update_of_ne hi _ _⟩
  rw [ht] at hc
  exact hc.workReturns

theorem Inv.subNotFinished (h : s.Inv) (ht : s.stage t = .worked) : (s.subNotFinished t).Inv := by
  have hnot : ¬s.Quiet := not_quiet (by rw [ht]; simp [WorkerStage.Resting])
  refine h.move hnot (by simp) (fun j id hj => ?_) fun c r a left ended hc => ⟨a, ?_⟩
  · split at hj <;> cases hj
  · rw [ht] at hc
    exact hc.subNotFinished

theorem Inv.signalEnd (h : s.Inv) (ht : s.stage t = .signalling) :
    (s.move t .waiting s.dispatcher.signalEnd).Inv := by
  have hnot : ¬s.Quiet := not_quiet (by rw [ht]; simp [WorkerStage.Resting])
  refine h.move hnot rfl (fun k id hk => by cases hk) fun c r a left ended hc => ⟨a, ?_⟩
  rw [ht] at hc
  exact hc.signalEnd

theorem Inv.createWorker (h : s.Inv) (hidle : s.coordinator = .idle)
    (hlt : s.createdWorkers + 1 < 2 ^ 64) : (s.createWorker t).Inv := by
  have hquiet : s.Quiet := h.phase_of hidle
  have hphase : (s.createWorker t).Phase .idle := by
    refine ⟨hquiet.start_zero, hquiet.end_zero, fun v => ?_⟩
    simp only [WorkerThreads.createWorker, WorkerThreads.move]
    by_cases hvt : v = t
    · subst hvt
      rw [Function.update_self]
      exact Or.inr rfl
    · rw [Function.update_of_ne hvt]
      exact hquiet.resting v
  refine ⟨h.started_lt, hlt, Nat.le_succ_of_le h.active_le, h.complete, ?_⟩
  rwa [show (s.createWorker t).coordinator = .idle from hidle]

theorem Inv.step {e : WorkerEvent τ} (h : s.Inv) (hstep : s.step e = some u) : u.Inv := by
  cases e with
  | createWorker t =>
      obtain ⟨⟨hidle, _, hlt⟩, rfl⟩ := guard_eq_some.mp hstep
      exact h.createWorker hidle hlt
  | setActiveWorkers numWorkers =>
      obtain ⟨⟨hidle, _⟩, rfl⟩ := guard_eq_some.mp hstep
      exact h.setActiveWorkers hidle numWorkers
  | runTask =>
      obtain ⟨hidle, rfl⟩ := guard_eq_some.mp hstep
      exact h.runTask hidle
  | storeNotFinished =>
      simp only [WorkerThreads.step] at hstep
      split at hstep
      · obtain rfl := Option.some.inj hstep
        exact h.storeNotFinished ‹_›
      · cases hstep
  | signalStart =>
      simp only [WorkerThreads.step] at hstep
      split at hstep
      · obtain rfl := Option.some.inj hstep
        exact h.signalStart ‹_›
      · cases hstep
  | waitEnd =>
      obtain ⟨⟨hsignalling, hpos⟩, rfl⟩ := guard_eq_some.mp hstep
      exact h.waitEnd hsignalling hpos
  | clearTask =>
      obtain ⟨hclearing, rfl⟩ := guard_eq_some.mp hstep
      exact h.clearTask hclearing
  | waitStart t =>
      obtain ⟨⟨ht, hpos⟩, rfl⟩ := guard_eq_some.mp hstep
      exact h.waitStart ht hpos
  | fetchId t =>
      obtain ⟨ht, rfl⟩ := guard_eq_some.mp hstep
      exact h.fetchId ht
  | readTask t =>
      simp only [WorkerThreads.step] at hstep
      split at hstep
      · obtain rfl := Option.some.inj hstep
        exact h.readTask ‹_›
      · cases hstep
  | workReturns t =>
      simp only [WorkerThreads.step] at hstep
      split at hstep
      · obtain rfl := Option.some.inj hstep
        exact h.workReturns ‹_›
      · cases hstep
  | subNotFinished t =>
      obtain ⟨ht, rfl⟩ := guard_eq_some.mp hstep
      exact h.subNotFinished ht
  | signalEnd t =>
      obtain ⟨ht, rfl⟩ := guard_eq_some.mp hstep
      exact h.signalEnd ht

theorem inv_of_reachable (hs : (workerThreads τ).Reachable s) : s.Inv := by
  refine Machine.Reachable.invariant (fun s hs => ?_) (fun s e u h hstep => h.step hstep) hs
  obtain rfl := hs
  have hpos : 0 < 2 ^ 64 := by decide
  exact ⟨hpos, hpos, Nat.le_refl _, nofun, rfl, rfl, fun t => Or.inl rfl⟩

-- When `run_task` returns, each of its workers has been through the task, whatever the
-- counter was.
theorem runTask_finished (hs : (workerThreads τ).Reachable s)
    (hreturned : (s.record k).returned = true) :
    (s.record k).finished.Perm (s.record k).ids ∧
      (s.record k).ids.length = (s.record k).numWorkers ∧ (s.record k).ids.Nodup := by
  have h := (inv_of_reachable hs).complete k hreturned
  refine ⟨Multiset.coe_eq_coe.mp h.finished, ?_, ?_⟩
  · rw [← Multiset.coe_card, h.ids, card_idsFrom]
  · rw [← Multiset.coe_nodup, h.ids]
    exact nodup_idsFrom h.num_lt.le

-- The ids are those of the workers just when the call has found the counter at zero.
theorem runTask_exact_iff (hs : (workerThreads τ).Reachable s)
    (hreturned : (s.record k).returned = true) :
    ((s.record k).ids.Perm (List.range (s.record k).numWorkers) ∧
      (s.record k).finished.Perm (List.range (s.record k).numWorkers)) ↔
        (s.record k).startedAt = 0 := by
  have h := (inv_of_reachable hs).complete k hreturned
  rw [← idsFrom_eq_range_iff h.started_lt h.num_lt h.pos, ← h.ids, ← Multiset.coe_range,
    Multiset.coe_eq_coe]
  exact and_iff_left_of_imp (Multiset.coe_eq_coe.mp h.finished).trans

-- The first task, on two workers that overtake each other.
theorem runTask_exact_first : ∃ s : WorkerThreads (Fin 2), (workerThreads (Fin 2)).Reachable s ∧
    (s.record 0).numWorkers = 2 ∧
      (((s.record 0).ids.Perm (List.range (s.record 0).numWorkers) ∧
        (s.record 0).finished.Perm (List.range (s.record 0).numWorkers)) ↔
          (s.record 0).startedAt = 0) := by
  have hrun : ((workerThreads (Fin 2)).run (new (Fin 2))
      [.createWorker 0, .createWorker 1, .setActiveWorkers 2, .runTask, .storeNotFinished,
        .signalStart, .waitStart 1, .signalStart, .fetchId 1, .waitStart 0, .fetchId 0,
        .readTask 0, .readTask 1, .workReturns 1, .subNotFinished 1, .workReturns 0,
        .subNotFinished 0, .signalEnd 0, .waitEnd, .clearTask]).map
          (fun s => s.record 0) = some ⟨2, 0, [0, 1], [1, 0], true⟩ := by
    decide +kernel
  obtain ⟨s, hs, hrecord⟩ := Option.map_eq_some_iff.mp hrun
  have hreach := Machine.run_reachable (Machine.Via.init rfl) hs
  refine ⟨s, hreach, congrArg TaskRecord.numWorkers hrecord, ?_⟩
  exact runTask_exact_iff hreach (congrArg TaskRecord.returned hrecord)

-- The second task of a single worker is given the id 1.
theorem second_task_id : ∃ s : WorkerThreads (Fin 1), (workerThreads (Fin 1)).Reachable s ∧
    s.record 1 = ⟨1, 1, [1], [1], true⟩ ∧
      ¬(s.record 1).ids.Perm (List.range (s.record 1).numWorkers) := by
  have hrun : ((workerThreads (Fin 1)).run (new (Fin 1))
      ([.createWorker 0, .setActiveWorkers 1] ++ (List.replicate 2
        [.runTask, .storeNotFinished, .signalStart, .waitStart 0, .fetchId 0, .readTask 0,
          .workReturns 0, .subNotFinished 0, .signalEnd 0, .waitEnd, .clearTask]).flatten)).map
            (fun s => s.record 1) = some ⟨1, 1, [1], [1], true⟩ := by
    decide +kernel
  obtain ⟨s, hs, hrecord⟩ := Option.map_eq_some_iff.mp hrun
  refine ⟨s, Machine.run_reachable (Machine.Via.init rfl) hs, hrecord, ?_⟩
  rw [hrecord]
  decide

end Workers

end WorkerThreads

end Rsgc.Sync
