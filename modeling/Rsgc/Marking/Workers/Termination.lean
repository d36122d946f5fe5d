import Rsgc.Marking.Workers.Effects

namespace Rsgc.Marking

def WorkerPhase.stage : WorkerPhase → Stage
  | rooting _ | popLocal | popWorker | running _ => .busy
  | popGlobal => .drained
  | steal _ => .spent
  | terminating place => place.stage
  | stopped => .stopped

-- Places of which nothing else is known.
def WorkerPhase.plain : WorkerPhase → Bool
  | popWorker | rooting _ | terminating _ => false
  | _ => true

theorem afterVerdict_stage (verdict : Verdict) :
    (WorkerPhase.afterVerdict verdict).stage = verdict.stage := by
  cases verdict <;> rfl

-- What is known of a worker by its place in `MarkingTask::run`.
structure MarkWorker.Placed (n : Nat) (m : MarkWorker) : Prop where
  segment : m.phase = .popWorker → m.visitor.segment = []
  rooting : ∀ ops, m.phase ≠ .rooting ops
  several : ∀ place, m.phase = .terminating place → n ≠ 1

namespace MarkingRun

variable {n stride : Nat} {graph : Graph} {s t : MarkingRun n}

def pool (s : MarkingRun n) : Pool (Fin n) where
  stage w := (s.workers w).phase.stage
  loaded w := (s.workers w).visitor.queued ≠ 0
  shared := s.injector ≠ []
  count := s.nworkers

-- What the claim asks of a state in which some worker has returned from
-- `try_terminate`: nothing is left, every task pushed has been begun once, and
-- no step will push or begin another.
structure Terminated (graph : Graph) (stride : Nat) (s : MarkingRun n) : Prop where
  done : s.Done
  executed : (s.pushed : Multiset MarkTask) = s.executed
  final : ∀ e t, s.step graph stride e = some t → t.pushed = s.pushed ∧ t.executed = s.executed

structure Quiet (s : MarkingRun n) : Prop where
  roots : s.roots = []
  placed : ∀ w, (s.workers w).Placed n
  pool : s.pool.Inv
  conserved : (s.pushed : Multiset MarkTask) = s.executed + s.queued

theorem moves_of_update {w : Fin n} {m : MarkWorker} {x : Stage}
    (h : t.workers = Function.update s.workers w m) (hx : m.phase.stage = x) :
    s.pool.Moves t.pool w x := by
  unfold pool
  rw [h, ← hx]
  exact Pool.moves_of_update (fun m : MarkWorker => m.phase.stage)
    (fun m : MarkWorker => m.visitor.queued ≠ 0) s.workers w m _ _ _ _

theorem placed_update {w : Fin n} {m : MarkWorker}
    (h : t.workers = Function.update s.workers w m) (hs : ∀ w, (s.workers w).Placed n)
    (hm : m.Placed n) : ∀ j : Fin n, (t.workers j).Placed n := by
  rw [h]
  exact (Function.forall_update_iff s.workers fun _ m => m.Placed n).mpr ⟨hm, fun j _ => hs j⟩

theorem loaded_of_update {w : Fin n} {m : MarkWorker}
    (h : t.workers = Function.update s.workers w m) : t.pool.loaded w ↔ m.visitor.queued ≠ 0 := by
  simp [pool, h]

-- The places that need no more than the place itself.
theorem placed_of_plain {m : MarkWorker} (h : m.phase.plain = true) : m.Placed n := by
  refine ⟨fun hphase => ?_, fun ops hphase => ?_, fun place hphase => ?_⟩ <;>
    rw [hphase] at h <;> cases h

theorem placed_afterVerdict {m : MarkWorker} {verdict : Verdict}
    (h : m.phase = .afterVerdict verdict) (hn : ∀ place, verdict = .wait place → n ≠ 1) :
    m.Placed n := by
  cases verdict with
  | wait place =>
      refine ⟨fun hphase => ?_, fun ops hphase => ?_, fun _ _ => hn place rfl⟩ <;>
        rw [h] at hphase <;> cases hphase
  | resume => exact placed_of_plain (by rw [h]; rfl)
  | stop => exact placed_of_plain (by rw [h]; rfl)

theorem begin_moves {u : MarkingRun n} {w : Fin n} {visitor : SlotVisitor} {task : MarkTask}
    (h : u.begin graph w visitor task = some t) : ∃ ops, t = { u.set w
      { u.workers w with visitor, phase := .running ops } with executed := task :: u.executed } := by
  obtain ⟨ops, -, rfl⟩ := Option.map_eq_some_iff.mp h
  exact ⟨ops, rfl⟩

theorem Quiet.stepWorker (h : s.Quiet) {w : Fin n} (hstep : s.stepWorker graph stride w = some t) :
    (∀ j, (t.workers j).Placed n) ∧ s.pool.Step t.pool := by
  have hplaced := h.placed w
  have hcard : Fintype.card (Fin n) = n := Fintype.card_fin n
  unfold MarkingRun.stepWorker at hstep
  split at hstep <;> rename_i hphase
  · exact absurd hphase (hplaced.rooting _)
  · obtain rfl := Option.some.inj hstep
    refine ⟨placed_update rfl h.placed (placed_of_plain rfl), ?_⟩
    exact .work w (by simp [MarkingRun.pool, hphase, WorkerPhase.stage]) (moves_of_update rfl rfl) rfl
  · cases hstep
  · obtain rfl := Option.some.inj hstep
    refine ⟨placed_update rfl h.placed (placed_of_plain rfl), ?_⟩
    exact .work w (by simp [MarkingRun.pool, hphase, WorkerPhase.stage]) (moves_of_update rfl rfl) rfl
  · have hbusy : s.pool.stage w = .busy := by simp [MarkingRun.pool, hphase, WorkerPhase.stage]
    split at hstep <;> rename_i hseg
    · obtain ⟨ops, rfl⟩ := begin_moves hstep
      refine ⟨placed_update rfl h.placed (placed_of_plain rfl), ?_⟩
      exact .work w hbusy (moves_of_update rfl rfl) rfl
    · obtain rfl := Option.some.inj hstep
      refine ⟨placed_update rfl h.placed ⟨fun _ => hseg, nofun, nofun⟩, ?_⟩
      exact .work w hbusy (moves_of_update rfl rfl) rfl
  · have hbusy : s.pool.stage w = .busy := by simp [MarkingRun.pool, hphase, WorkerPhase.stage]
    split at hstep <;> rename_i hworker
    · obtain ⟨ops, rfl⟩ := begin_moves hstep
      refine ⟨placed_update rfl h.placed (placed_of_plain rfl), ?_⟩
      exact .work w hbusy (moves_of_update rfl rfl) rfl
    · obtain rfl := Option.some.inj hstep
      refine ⟨placed_update rfl h.placed (placed_of_plain rfl), ?_⟩
      refine .drain w hbusy (moves_of_update rfl rfl) ?_ id rfl
      rw [loaded_of_update (s := s) rfl]
      simp [SlotVisitor.queued, hplaced.segment hphase, hworker]
  · obtain ⟨hinjector, rfl⟩ := guard_eq_some.mp hstep
    refine ⟨placed_update rfl h.placed (placed_of_plain rfl), ?_⟩
    refine .spend w (by simp [MarkingRun.pool, hphase, WorkerPhase.stage]) (moves_of_update rfl rfl) ?_ ?_ rfl
    · rw [loaded_of_update (s := s) rfl]
      exact id
    · simpa [MarkingRun.pool, goto, set] using hinjector
  · obtain ⟨-, rfl⟩ := guard_eq_some.mp hstep
    have hspent : s.pool.stage w = .spent := by simp [MarkingRun.pool, hphase, WorkerPhase.stage]
    unfold noTask
    split
    · refine ⟨placed_update rfl h.placed (placed_afterVerdict rfl fun place heq hn => ?_), ?_⟩
      · rw [TryTerminate.enter, if_pos hn] at heq
        cases heq
      · refine TryTerminate.pool_enter hspent ?_ ?_ id rfl
        · rw [hcard]
          exact moves_of_update rfl (afterVerdict_stage _)
        · rw [loaded_of_update (s := s) rfl]
          exact id
    · refine ⟨placed_update rfl h.placed (placed_of_plain rfl), ?_⟩
      exact .resume w (Or.inr hspent) (moves_of_update rfl rfl) id rfl
  · rename_i place
    obtain rfl := Option.some.inj hstep
    have hn := hplaced.several place hphase
    refine ⟨placed_update rfl h.placed (placed_afterVerdict rfl fun _ _ => hn), ?_⟩
    refine TryTerminate.pool_step (i := w) (by rwa [hcard]) ?_ ?_ ?_ id rfl
    · simp [MarkingRun.pool, hphase, WorkerPhase.stage]
    · exact moves_of_update rfl (afterVerdict_stage _)
    · rw [loaded_of_update (s := s) rfl]
      exact id
  · cases hstep

theorem Quiet.stepPass (h : s.Quiet) {w : Fin n} {count : Nat}
    (hstep : s.stepPass graph w count = some t) :
    (∀ j, (t.workers j).Placed n) ∧ s.pool.Step t.pool := by
  unfold MarkingRun.stepPass at hstep
  split at hstep
  · rename_i hphase
    obtain ⟨-, rfl⟩ := guard_eq_some.mp hstep
    refine ⟨placed_update rfl h.placed (placed_of_plain rfl), ?_⟩
    exact .work w (by simp [MarkingRun.pool, hphase, WorkerPhase.stage])
      (moves_of_update rfl rfl) rfl
  · cases hstep

theorem Quiet.stepTake (h : s.Quiet) {w : Fin n} {task : MarkTask} {moved : List MarkTask}
    (hstep : s.stepTake graph w task moved = some t) :
    (∀ j, (t.workers j).Placed n) ∧ s.pool.Step t.pool := by
  obtain ⟨⟨hphase, -⟩, hbegin⟩ := Option.ite_none_right_eq_some.mp hstep
  obtain ⟨ops, rfl⟩ := begin_moves hbegin
  refine ⟨placed_update (s := s) rfl h.placed (placed_of_plain rfl), ?_⟩
  refine .resume w (Or.inl ?_) (moves_of_update rfl rfl) ?_ rfl
  · simp [MarkingRun.pool, hphase, WorkerPhase.stage]
  · intro hshared hempty
    exact hshared (by simp only [set, hempty, List.drop_nil])

theorem Quiet.stepSteal (h : s.Quiet) {w victim : Fin n} {task : MarkTask}
    {moved : List MarkTask} (hstep : s.stepSteal graph w victim task moved = some t) :
    (∀ j, (t.workers j).Placed n) ∧ s.pool.Step t.pool := by
  unfold MarkingRun.stepSteal at hstep
  split at hstep
  · rename_i tries hphase
    obtain ⟨⟨hne, -⟩, hbegin⟩ := Option.ite_none_right_eq_some.mp hstep
    generalize (s.workers victim).visitor.worker.length - (moved.length + 1) = kept at hbegin
    obtain ⟨robbed, hrobbed⟩ : ∃ robbed : MarkWorker, robbed = { s.workers victim with
        visitor := { (s.workers victim).visitor with
          worker := (s.workers victim).visitor.worker.take kept } } := ⟨_, rfl⟩
    simp only [← hrobbed] at hbegin
    have hplaced : robbed.Placed n := by
      rw [hrobbed]
      exact ⟨(h.placed victim).segment, (h.placed victim).rooting, (h.placed victim).several⟩
    have hu := placed_update (s := s) (t := s.set victim robbed) rfl h.placed hplaced
    obtain ⟨ops, rfl⟩ := begin_moves hbegin
    refine ⟨placed_update (s := s.set victim robbed) rfl hu (placed_of_plain rfl), ?_⟩
    refine .resume w (Or.inr ?_) ⟨?_, fun j hj hl => ?_⟩ id rfl
    · simp [MarkingRun.pool, hphase, WorkerPhase.stage]
    · funext j
      by_cases hw : j = w
      · subst hw
        simp [MarkingRun.pool, set, WorkerPhase.stage]
      · by_cases hv : j = victim
        · subst hv
          simp [MarkingRun.pool, set, Function.update_of_ne hw, hrobbed]
        · simp [MarkingRun.pool, set, Function.update_of_ne hw, Function.update_of_ne hv]
    · by_cases hv : j = victim
      · -- What is left of the queue of the victim was there before.
        subst hv
        intro hempty
        have hnil : (s.workers j).visitor.segment = [] ∧ (s.workers j).visitor.worker = [] := by
          simpa [SlotVisitor.queued] using hempty
        exact hl (by simp [set, Function.update_of_ne hj, hrobbed, SlotVisitor.queued, hnil])
      · simpa [MarkingRun.pool, set, Function.update_of_ne hj, Function.update_of_ne hv] using hl
  · cases hstep

theorem Quiet.stepMiss (h : s.Quiet) {w victim : Fin n} (hstep : s.stepMiss w victim = some t) :
    (∀ j, (t.workers j).Placed n) ∧ s.pool.Step t.pool := by
  unfold MarkingRun.stepMiss at hstep
  split at hstep
  · rename_i tries hphase
    obtain ⟨-, rfl⟩ := guard_eq_some.mp hstep
    refine ⟨placed_update rfl h.placed (placed_of_plain rfl), ?_⟩
    refine .search w ?_ (moves_of_update rfl rfl) ?_ id rfl
    · simp [MarkingRun.pool, hphase, WorkerPhase.stage]
    · rw [loaded_of_update (s := s) rfl]
      exact id
  · cases hstep

theorem Quiet.step (h : s.Quiet) {e : MarkingEvent n} (hstep : s.step graph stride e = some t) :
    t.Quiet := by
  have hconserved := Effect.conserved (step_effect hstep) h.conserved
  have hroots : t.roots = [] := by
    obtain ⟨-, -, -, -, -, -, hsubset⟩ := step_effect hstep
    exact List.eq_nil_of_subset_nil (h.roots ▸ hsubset)
  have hall (hpool : (∀ j, (t.workers j).Placed n) ∧ s.pool.Step t.pool) : t.Quiet :=
    ⟨hroots, hpool.1, hpool.2.inv h.pool, hconserved⟩
  cases e with
  | root w ref =>
      obtain ⟨⟨hphase, -⟩, -⟩ := guard_eq_some.mp hstep
      exact absurd hphase ((h.placed w).rooting [])
  | rootInjector ref =>
      obtain ⟨⟨-, hmem⟩, -⟩ := Option.ite_none_right_eq_some.mp hstep
      rw [h.roots] at hmem
      cases hmem
  | start =>
      obtain ⟨⟨hphase, -⟩, rfl⟩ := guard_eq_some.mp hstep
      have hempty (w : Fin n) : False := (h.placed w).rooting [] (hphase w)
      refine ⟨h.roots, fun w => (hempty w).elim, Pool.Inv.init (fun w => (hempty w).elim) ?_,
        hconserved⟩
      exact (Fintype.card_fin n).symm
  | step w => exact hall (h.stepWorker hstep)
  | pass w count => exact hall (h.stepPass hstep)
  | take w task moved => exact hall (h.stepTake hstep)
  | steal w victim task moved => exact hall (h.stepSteal hstep)
  | miss w victim => exact hall (h.stepMiss hstep)

theorem quiet_of_reachable (hs : (finishMark n stride graph).Reachable s) : s.Quiet := by
  refine Machine.Reachable.invariant (P := Quiet) ?_ ?_ hs
  · rintro s ⟨hroots, hcount, hexecuted, hpushed, hphase⟩
    refine ⟨hroots, fun w => placed_of_plain (by rw [(hphase w).1]; rfl), ?_, ?_⟩
    · refine Pool.Inv.init (fun w => ?_) (hcount.trans (Fintype.card_fin n).symm)
      simp [MarkingRun.pool, (hphase w).1, WorkerPhase.stage]
    · rw [hexecuted, hpushed, Multiset.coe_nil, zero_add]
  · exact fun s e t h hstep => h.step hstep

-- Until `start` all workers visit roots.
def Rooting (s : MarkingRun n) : Prop := ∀ w, ∃ ops, (s.workers w).phase = .rooting ops

theorem rooting_update {w : Fin n} {m : MarkWorker} {ops : List Op}
    (h : t.workers = Function.update s.workers w m) (hs : s.Rooting) (hm : m.phase = .rooting ops) :
    t.Rooting := by
  unfold Rooting
  rw [h]
  exact (Function.forall_update_iff s.workers fun _ m => ∃ ops, m.phase = .rooting ops).mpr
    ⟨⟨ops, hm⟩, fun j _ => hs j⟩

theorem Rooting.step (h : s.Rooting)
    (hconserved : (s.pushed : Multiset MarkTask) = s.executed + s.queued) {e : MarkingEvent n}
    (hstep : s.step graph stride e = some t) : t.Rooting ∨ t.Quiet := by
  have hafter := Effect.conserved (step_effect hstep) hconserved
  cases e with
  | root w ref =>
      obtain ⟨-, rfl⟩ := guard_eq_some.mp hstep
      exact Or.inl (rooting_update (s := s) rfl h rfl)
  | rootInjector ref =>
      obtain ⟨-, hstep⟩ := Option.ite_none_right_eq_some.mp hstep
      simp only at hstep
      split at hstep <;> obtain rfl := Option.some.inj hstep <;> exact Or.inl h
  | start =>
      obtain ⟨⟨-, hroots⟩, rfl⟩ := guard_eq_some.mp hstep
      refine Or.inr ⟨hroots, fun w => placed_of_plain rfl, ?_, hafter⟩
      exact Pool.Inv.init (fun w => rfl) (Fintype.card_fin n).symm
  | step w =>
      obtain ⟨ops, hphase⟩ := h w
      simp only [MarkingRun.step, stepWorker, hphase] at hstep
      cases ops with
      | nil => cases hstep
      | cons op rest =>
          obtain rfl := Option.some.inj hstep
          exact Or.inl (rooting_update (s := s) rfl h rfl)
  | pass w count =>
      obtain ⟨ops, hphase⟩ := h w
      simp [MarkingRun.step, stepPass, hphase] at hstep
  | take w task moved =>
      obtain ⟨ops, hphase⟩ := h w
      simp [MarkingRun.step, stepTake, hphase] at hstep
  | steal w victim task moved =>
      obtain ⟨ops, hphase⟩ := h w
      simp [MarkingRun.step, stepSteal, hphase] at hstep
  | miss w victim =>
      obtain ⟨ops, hphase⟩ := h w
      simp [MarkingRun.step, stepMiss, hphase] at hstep

theorem quiet_of_stwMark {roots : List Nat} (hs : (stwMark n stride graph roots).Reachable s)
    {w : Fin n} (hw : (s.workers w).phase = .stopped) : s.Quiet := by
  have hinv : (s.pushed : Multiset MarkTask) = s.executed + s.queued ∧ (s.Rooting ∨ s.Quiet) := by
    refine Machine.Reachable.invariant (P := fun s =>
      (s.pushed : Multiset MarkTask) = s.executed + s.queued ∧ (s.Rooting ∨ s.Quiet)) ?_ ?_ hs
    · rintro s rfl
      exact ⟨by simp [queued, SlotVisitor.queued], Or.inl fun _ => ⟨[], rfl⟩⟩
    · rintro s e t ⟨hconserved, hs⟩ hstep
      refine ⟨Effect.conserved (step_effect hstep) hconserved, ?_⟩
      exact hs.elim (fun h => h.step hconserved hstep) fun h => Or.inr (h.step hstep)
  refine hinv.2.resolve_left fun hrooting => ?_
  obtain ⟨ops, hphase⟩ := hrooting w
  rw [hw] at hphase
  cases hphase

theorem ops_of_inactive {phase : WorkerPhase} (h : phase.stage.active = false) :
    phase.ops = [] := by
  cases phase with
  | rooting | running => cases h
  | _ => rfl

theorem Quiet.terminated (h : s.Quiet) {w : Fin n} (hw : (s.workers w).phase = .stopped) :
    s.Terminated graph stride := by
  obtain ⟨hshared, hall⟩ := h.pool.finished (i := w) (by simp [MarkingRun.pool, hw, WorkerPhase.stage])
  have hqueued : s.queued = 0 := by
    have hempty : ∀ j, (s.workers j).visitor.queued = 0 := fun j => not_not.mp (hall j).2
    have hinjector : s.injector = [] := not_not.mp hshared
    simp [queued, hinjector, hempty]
  have hdone : s.Done := ⟨h.roots, hqueued, fun j => ops_of_inactive (hall j).1⟩
  refine ⟨hdone, ?_, fun e t hstep => Effect.final (step_effect hstep) hdone⟩
  rw [h.conserved, hqueued, add_zero]

end MarkingRun

end Rsgc.Marking
