import Mathlib.Tactic.Abel
import Rsgc.Lib.Pool
import Rsgc.Marking.Work
import Rsgc.Marking.Workers

namespace Rsgc.Marking

-- What the workers have in their hands, and all that is left to do.
def MarkingRun.inHand {n : Nat} (s : MarkingRun n) : Multiset Op :=
  ∑ w, ((s.workers w).phase.ops : Multiset Op)

def MarkingRun.items {n : Nat} (s : MarkingRun n) : Multiset Op :=
  (s.roots.map Op.visit : Multiset Op) + s.inHand + s.queued.map Op.push

-- What a step makes of the operations left; `begun` are the tasks it begins.
inductive Rewrites {n : Nat} (graph : Graph) (s t : MarkingRun n) : List MarkTask → Prop
  | still (spills : List Op) (hspill : ∀ op ∈ spills, ∃ target, op = .spill target)
      (hitems : t.items = s.items + spills) (hmarks : t.marks = s.marks) : Rewrites graph s t []
  | work (op : Op) (ops : List Op) (rest : Multiset Op) (hop : ∀ task, op ≠ .push task)
      (hstep : op.step graph s.marks = some (t.marks, ops))
      (hs : s.items = op ::ₘ rest) (ht : t.items = ops + rest) : Rewrites graph s t []
  | begin (task : MarkTask) (ops : List Op) (rest : Multiset Op)
      (hdo : doTask graph task = some ops) (hmarks : t.marks = s.marks)
      (hs : s.items = .push task ::ₘ rest) (ht : t.items = ops + rest) :
      Rewrites graph s t [task]
  | pass (obj : Nat) (part : Part) (next count stop : Nat) (rest : Multiset Op)
      (hle : next + count ≤ stop) (hnull : (graph obj).Null part next count)
      (hmarks : t.marks = s.marks) (hs : s.items = .scan obj part next stop ::ₘ rest)
      (ht : t.items = .scan obj part (next + count) stop ::ₘ rest) : Rewrites graph s t []

-- A step rewrites the operations, and of the tasks it puts into the queues those
-- that it pushes and takes out those that it begins.
def Effect {n : Nat} (graph : Graph) (s t : MarkingRun n) : Prop :=
  ∃ pushed begun : List MarkTask, Rewrites graph s t begun ∧
    t.pushed = pushed ++ s.pushed ∧ t.executed = begun ++ s.executed ∧
    t.queued + begun = s.queued + pushed ∧ t.roots ⊆ s.roots

namespace SlotVisitor

@[simp] theorem queued_cons_segment (t : MarkTask) (segment worker : List MarkTask) (m : Nat) :
    queued ⟨t :: segment, m, worker⟩ = t ::ₘ queued ⟨segment, m, worker⟩ := by
  simp [queued]

@[simp] theorem queued_cons_worker (t : MarkTask) (segment worker : List MarkTask) (m : Nat) :
    queued ⟨segment, m, t :: worker⟩ = t ::ₘ queued ⟨segment, m, worker⟩ := by
  simp [queued]

-- Pushing puts the task into one of the queues and may leave a spill to do.
theorem push_effect (v : SlotVisitor) (task : MarkTask) :
    (v.push task).1.queued = task ::ₘ v.queued ∧
      ∀ op ∈ (v.push task).2, ∃ target, op = .spill target := by
  unfold push
  split
  · unfold defensivePush
    split
    · refine ⟨by simp [queued], fun op hop => ?_⟩
      split at hop
      · exact ⟨_, List.mem_singleton.mp hop⟩
      · cases hop
    · exact ⟨by simp [queued], by simp⟩
  · exact ⟨by simp [queued], by simp⟩

end SlotVisitor

-- The cases of one operation in the hands of a worker.
theorem execute_cases (graph : Graph) (marks : Nat → Bool) (v : SlotVisitor) (op : Op) :
    let d := v.execute graph marks op
    ((∀ task, op ≠ .push task) ∧ op.step graph marks = some (d.marks, d.ops) ∧
      d.visitor = v ∧ d.injected = [] ∧ d.pushed = []) ∨
    (∃ task, op = .push task ∧ d.marks = marks ∧ d.visitor.queued = task ::ₘ v.queued ∧
      (∀ op ∈ d.ops, ∃ target, op = .spill target) ∧ d.injected = [] ∧ d.pushed = [task]) ∨
    (∃ task, d.ops = [op] ∧ d.marks = marks ∧ v.queued = task ::ₘ d.visitor.queued ∧
      d.injected = [task] ∧ d.pushed = []) := by
  cases op with
  | scan obj part next stop =>
      refine Or.inl ⟨by simp, ?_⟩
      simp only [SlotVisitor.execute, Op.step]
      split <;> exact ⟨rfl, rfl, rfl, rfl⟩
  | visit ref =>
      refine Or.inl ⟨by simp, ?_⟩
      simp only [SlotVisitor.execute, Op.step]
      split <;> exact ⟨rfl, rfl, rfl, rfl⟩
  | push task =>
      obtain ⟨hqueued, hspill⟩ := v.push_effect task
      exact Or.inr (Or.inl ⟨task, rfl, rfl, hqueued, hspill, rfl, rfl⟩)
  | spill target =>
      obtain ⟨segment, marked, worker⟩ := v
      cases segment with
      | nil => exact Or.inl ⟨by simp, rfl, rfl, rfl, rfl⟩
      | cons task rest =>
          simp only [SlotVisitor.execute]
          split
          · exact Or.inr (Or.inr ⟨task, rfl, rfl, by simp, rfl, rfl⟩)
          · exact Or.inl ⟨by simp, rfl, rfl, rfl, rfl⟩

namespace MarkingRun

variable {n : Nat} {graph : Graph} {stride : Nat} {s t : MarkingRun n}

-- The tasks in the queues of all workers but one.
def othersQueued (s : MarkingRun n) (w : Fin n) : Multiset MarkTask :=
  ∑ j ∈ Finset.univ.erase w, (s.workers j).visitor.queued

theorem queued_eq (s : MarkingRun n) (w : Fin n) :
    s.queued = s.injector + ((s.workers w).visitor.queued + s.othersQueued w) := by
  rw [queued, othersQueued,
    Finset.add_sum_erase _ (fun j => (s.workers j).visitor.queued) (Finset.mem_univ w)]

theorem queued_of_update {w : Fin n} {x : MarkWorker}
    (h : t.workers = Function.update s.workers w x) :
    t.queued = t.injector + (x.visitor.queued + s.othersQueued w) := by
  rw [queued, h, sum_update fun m : MarkWorker => m.visitor.queued, othersQueued]

-- What all workers but one have in their hands.
def othersHand (s : MarkingRun n) (w : Fin n) : Multiset Op :=
  ∑ j ∈ Finset.univ.erase w, ((s.workers j).phase.ops : Multiset Op)

theorem inHand_eq (s : MarkingRun n) (w : Fin n) :
    s.inHand = (s.workers w).phase.ops + s.othersHand w := by
  rw [inHand, othersHand, Finset.add_sum_erase _ (fun j => ((s.workers j).phase.ops : Multiset Op))
    (Finset.mem_univ w)]

theorem inHand_of_update {w : Fin n} {x : MarkWorker}
    (h : t.workers = Function.update s.workers w x) :
    t.inHand = x.phase.ops + s.othersHand w := by
  rw [inHand, h, sum_update fun m : MarkWorker => (m.phase.ops : Multiset Op), othersHand]

-- A worker goes on to another place with nothing in its hands.
theorem goto_effect {w : Fin n} {phase : WorkerPhase} {work count : Nat}
    (hs : (s.workers w).phase.ops = []) (hx : phase.ops = []) :
    Effect graph s { s.set w { s.workers w with phase, work } with nworkers := count } := by
  have hqueued := queued_of_update (s := s) (w := w)
    (t := { s.set w { s.workers w with phase, work } with nworkers := count }) rfl
  have hhand := inHand_of_update (s := s) (w := w)
    (t := { s.set w { s.workers w with phase, work } with nworkers := count }) rfl
  have hsame : s.queued = s.injector + ((s.workers w).visitor.queued + s.othersQueued w) :=
    s.queued_eq w
  refine ⟨[], [], .still [] (by simp) ?_ rfl, rfl, rfl, ?_, fun _ hr => hr⟩
  · rw [items, items, hqueued, hhand, hsame, s.inHand_eq w, hs, hx]
    simp [set]
  · rw [hqueued, hsame]
    simp [set]

-- A worker takes a task from a queue and begins it.
theorem begin_effect {u : MarkingRun n} {w : Fin n} {visitor : SlotVisitor} {task : MarkTask}
    (h : u.begin graph w visitor task = some t) (hinHand : u.inHand = s.inHand)
    (hops : (u.workers w).phase.ops = [])
    (hqueued : s.queued = task ::ₘ (u.injector + (visitor.queued + u.othersQueued w)))
    (hroots : u.roots = s.roots) (hmarks : u.marks = s.marks) (hpushed : u.pushed = s.pushed)
    (hexecuted : u.executed = s.executed) : Effect graph s t := by
  obtain ⟨ops, hdo, rfl⟩ := Option.map_eq_some_iff.mp h
  have hhand := inHand_of_update (s := u) (w := w) (t := { u.set w
    { u.workers w with visitor, phase := .running ops } with executed := task :: u.executed }) rfl
  have hrest := queued_of_update (s := u) (w := w) (t := { u.set w
    { u.workers w with visitor, phase := .running ops } with executed := task :: u.executed }) rfl
  have hothers : s.inHand = u.othersHand w := by
    rw [← hinHand, u.inHand_eq w, hops, Multiset.coe_nil, zero_add]
  refine ⟨[], [task], .begin task ops
    ((s.roots.map Op.visit : Multiset Op) + s.inHand + (u.injector + (visitor.queued +
      u.othersQueued w)).map Op.push) hdo hmarks ?_ ?_, hpushed, ?_, ?_, hroots ▸ fun _ hr => hr⟩
  · rw [items, hqueued, Multiset.map_cons, Multiset.add_cons]
  · rw [items, hhand, hrest, hothers]
    simp only [set, hroots, WorkerPhase.ops]
    ac_rfl
  · simp [hexecuted]
  · rw [hrest, hqueued]
    simp [set, add_comm]

theorem items_of_execute {d : Executed} {w : Fin n} {op : Op} {rest : List Op} {x : MarkWorker}
    (hrest : (s.workers w).phase.ops = op :: rest) (hx : x.phase.ops = d.ops ++ rest)
    (hworkers : t.workers = Function.update s.workers w x) (hroots : t.roots = s.roots) :
    ∃ left : Multiset Op, s.items = op ::ₘ left + s.queued.map Op.push ∧
      t.items = d.ops + left + t.queued.map Op.push := by
  refine ⟨(s.roots.map Op.visit : Multiset Op) + (rest + s.othersHand w), ?_, ?_⟩
  · rw [items, s.inHand_eq w, hrest, ← Multiset.cons_coe]
    simp only [Multiset.cons_add, Multiset.add_cons]
  · rw [items, inHand_of_update hworkers, hx, hroots, ← Multiset.coe_add]
    ac_rfl

-- A worker executes the first operation in its hands.
theorem execute_effect {w : Fin n} {op : Op} {rest : List Op}
    {next : List Op → WorkerPhase} (hrest : (s.workers w).phase.ops = op :: rest)
    (hnext : ∀ ops, (next ops).ops = ops ++ rest) : Effect graph s (s.execute graph w op next) := by
  obtain ⟨left, hs, ht⟩ := items_of_execute (t := s.execute graph w op next)
    (d := (s.workers w).visitor.execute graph s.marks op) hrest (hnext _) rfl rfl
  have hqueued : (s.execute graph w op next).queued =
      s.injector + ((s.workers w).visitor.execute graph s.marks op).injected +
        (((s.workers w).visitor.execute graph s.marks op).visitor.queued + s.othersQueued w) := by
    rw [queued_of_update (s := s) (w := w) rfl, Multiset.coe_add]
    rfl
  rcases execute_cases graph s.marks (s.workers w).visitor op with
    ⟨hop, hstep, hvisitor, hinjected, hpushed⟩ |
    ⟨task, rfl, hmarks, hvisitor, hspill, hinjected, hpushed⟩ |
    ⟨task, hops, hmarks, hvisitor, hinjected, hpushed⟩
  · have hsame : (s.execute graph w op next).queued = s.queued := by
      rw [hqueued, s.queued_eq w, hinjected, hvisitor, Multiset.coe_nil, add_zero]
    refine ⟨[], [], .work op _ (left + s.queued.map Op.push) hop hstep ?_ ?_, ?_, rfl, ?_, fun _ hr => hr⟩
    · rw [hs, Multiset.cons_add]
    · rw [ht, hsame, add_assoc]
    · simp [execute, hpushed]
    · rw [hsame]
  · have hmore : (s.execute graph w (.push task) next).queued = task ::ₘ s.queued := by
      rw [hqueued, s.queued_eq w, hinjected, hvisitor, Multiset.coe_nil, add_zero,
        Multiset.cons_add, Multiset.add_cons]
    refine ⟨[task], [], .still _ hspill ?_ hmarks, ?_, rfl, ?_, fun _ hr => hr⟩
    · rw [ht, hs, hmore, Multiset.map_cons]
      simp only [Multiset.cons_add, Multiset.add_cons]
      congr 1
      ac_rfl
    · simp [execute, hpushed]
    · rw [hmore]
      simp [add_comm]
  · have hsame : (s.execute graph w op next).queued = s.queued := by
      rw [hqueued, s.queued_eq w, hinjected, hvisitor]
      simp only [Multiset.coe_singleton, ← Multiset.singleton_add]
      ac_rfl
    refine ⟨[], [], .still [] (by simp) ?_ hmarks, ?_, rfl, ?_, fun _ hr => hr⟩
    · rw [ht, hs, hsame, hops]
      simp
    · simp [execute, hpushed]
    · rw [hsame]

theorem afterVerdict_ops (verdict : Verdict) : (WorkerPhase.afterVerdict verdict).ops = [] := by
  cases verdict <;> rfl

theorem stepWorker_effect {w : Fin n} (h : s.stepWorker graph stride w = some t) :
    Effect graph s t := by
  unfold stepWorker at h
  split at h <;> rename_i hphase
  · obtain rfl := Option.some.inj h
    exact execute_effect (by rw [hphase]; rfl) fun _ => rfl
  · obtain rfl := Option.some.inj h
    exact execute_effect (by rw [hphase]; rfl) fun _ => rfl
  · cases h
  · obtain rfl := Option.some.inj h
    exact goto_effect (by rw [hphase]; rfl) rfl
  · have hops : (s.workers w).phase.ops = [] := by rw [hphase]; rfl
    split at h <;> rename_i hseg
    · refine begin_effect h rfl hops ?_ rfl rfl rfl rfl
      rw [s.queued_eq w]
      simp only [SlotVisitor.queued, hseg, ← Multiset.cons_coe, ← Multiset.singleton_add,
        othersQueued]
      ac_rfl
    · obtain rfl := Option.some.inj h
      exact goto_effect hops rfl
  · have hops : (s.workers w).phase.ops = [] := by rw [hphase]; rfl
    split at h <;> rename_i hseg
    · refine begin_effect h rfl hops ?_ rfl rfl rfl rfl
      rw [s.queued_eq w]
      simp only [SlotVisitor.queued, hseg, ← Multiset.cons_coe, ← Multiset.singleton_add,
        othersQueued]
      ac_rfl
    · obtain rfl := Option.some.inj h
      exact goto_effect hops rfl
  · have hops : (s.workers w).phase.ops = [] := by rw [hphase]; rfl
    obtain ⟨-, rfl⟩ := guard_eq_some.mp h
    exact goto_effect hops rfl
  · have hops : (s.workers w).phase.ops = [] := by rw [hphase]; rfl
    obtain ⟨-, rfl⟩ := guard_eq_some.mp h
    unfold noTask
    split
    · exact goto_effect hops (afterVerdict_ops _)
    · exact goto_effect hops rfl
  · obtain rfl := Option.some.inj h
    exact goto_effect (by rw [hphase]; rfl) (afterVerdict_ops _)
  · cases h

theorem stepPass_effect {w : Fin n} {count : Nat} (h : s.stepPass graph w count = some t) :
    Effect graph s t := by
  unfold stepPass at h
  split at h
  · rename_i obj part next stop rest hphase
    obtain ⟨⟨hle, hnull⟩, rfl⟩ := guard_eq_some.mp h
    have hqueued := queued_of_update (s := s) (w := w)
      (t := s.goto w (.running (.scan obj part (next + count) stop :: rest))) rfl
    have hsame : (s.goto w (.running (.scan obj part (next + count) stop :: rest))).queued =
        s.queued := by
      rw [hqueued, s.queued_eq w]
      rfl
    have hhand := inHand_of_update (s := s) (w := w)
      (t := s.goto w (.running (.scan obj part (next + count) stop :: rest))) rfl
    refine ⟨[], [], .pass obj part next count stop ((s.roots.map Op.visit : Multiset Op) +
      (rest + s.othersHand w) + s.queued.map Op.push) hle hnull rfl ?_ ?_, rfl, rfl, by rw [hsame],
      fun _ hr => hr⟩
    · rw [items, s.inHand_eq w, hphase, WorkerPhase.ops, ← Multiset.cons_coe]
      simp only [Multiset.cons_add, Multiset.add_cons]
    · rw [items, hhand, hsame, WorkerPhase.ops, ← Multiset.cons_coe]
      simp only [Multiset.cons_add, Multiset.add_cons]
      rfl
  · cases h

theorem coe_of_isPerm {task : MarkTask} {moved batch : List MarkTask}
    (h : (task :: moved).isPerm batch = true) : (batch : Multiset MarkTask) = task ::ₘ moved :=
  (Multiset.coe_eq_coe.mpr (List.isPerm_iff.mp h)).symm

theorem stepTake_effect {w : Fin n} {task : MarkTask} {moved : List MarkTask}
    (h : s.stepTake graph w task moved = some t) : Effect graph s t := by
  obtain ⟨⟨hphase, hperm⟩, h⟩ := Option.ite_none_right_eq_some.mp h
  refine begin_effect h rfl (by rw [hphase]; rfl) ?_ rfl rfl rfl rfl
  have hbatch := coe_of_isPerm hperm
  have hsplit : (s.injector : Multiset MarkTask) =
      s.injector.take (moved.length + 1) + s.injector.drop (moved.length + 1) := by
    rw [Multiset.coe_add, List.take_append_drop]
  rw [s.queued_eq w, hsplit, hbatch]
  simp only [SlotVisitor.queued, ← Multiset.coe_add, ← Multiset.singleton_add, othersQueued]
  ac_rfl

theorem stepSteal_effect {w victim : Fin n} {task : MarkTask} {moved : List MarkTask}
    (h : s.stepSteal graph w victim task moved = some t) : Effect graph s t := by
  unfold stepSteal at h
  split at h
  · rename_i tries hphase
    obtain ⟨⟨hne, hperm⟩, h⟩ := Option.ite_none_right_eq_some.mp h
    have hbatch := coe_of_isPerm hperm
    generalize (s.workers victim).visitor.worker.length - (moved.length + 1) = kept at h hbatch
    obtain ⟨robbed, hrobbed⟩ : ∃ robbed : MarkWorker, robbed = { s.workers victim with
        visitor := { (s.workers victim).visitor with
          worker := (s.workers victim).visitor.worker.take kept } } := ⟨_, rfl⟩
    simp only [← hrobbed] at h
    have hw : (s.set victim robbed).workers w = s.workers w := Function.update_of_ne hne.symm _ _
    refine begin_effect h ?_ (by rw [hw, hphase]; rfl) ?_ rfl rfl rfl rfl
    · rw [inHand_of_update (s := s) (w := victim) rfl, s.inHand_eq victim, hrobbed]
    · have hu := queued_of_update (s := s) (w := victim) (t := s.set victim robbed) rfl
      rw [(s.set victim robbed).queued_eq w, hw] at hu
      have hsplit : ((s.workers victim).visitor.worker : Multiset MarkTask) =
          (s.workers victim).visitor.worker.take kept +
            (s.workers victim).visitor.worker.drop kept := by
        rw [Multiset.coe_add, List.take_append_drop]
      have hvictim : (s.workers victim).visitor.queued = robbed.visitor.queued + (task ::ₘ moved) := by
        rw [hrobbed]
        simp only [SlotVisitor.queued]
        rw [hsplit, hbatch, add_assoc]
      have hown : (⟨(s.workers w).visitor.segment, (s.workers w).visitor.marked,
          moved ++ (s.workers w).visitor.worker⟩ : SlotVisitor).queued =
            moved + (s.workers w).visitor.queued := by
        simp only [SlotVisitor.queued, ← Multiset.coe_add]
        ac_rfl
      calc s.queued = s.injector + (robbed.visitor.queued + s.othersQueued victim) +
            (task ::ₘ moved) := by
            rw [s.queued_eq victim, hvictim]
            ac_rfl
        _ = _ := by
            rw [show ((s.injector : Multiset MarkTask)) = (s.set victim robbed).injector from rfl,
              ← hu, hown]
            simp only [← Multiset.singleton_add]
            ac_rfl
  · cases h

theorem stepMiss_effect {w victim : Fin n} (h : s.stepMiss w victim = some t) :
    Effect graph s t := by
  unfold stepMiss at h
  split at h
  · rename_i tries hphase
    obtain ⟨-, rfl⟩ := guard_eq_some.mp h
    exact goto_effect (by rw [hphase]; rfl) rfl
  · cases h

theorem stepRoot_effect {w : Fin n} {ref : Nat} (h : s.stepRoot w ref = some t) :
    Effect graph s t := by
  obtain ⟨⟨hphase, hmem⟩, rfl⟩ := guard_eq_some.mp h
  have hqueued := queued_of_update (s := s) (w := w)
    (t := { s.goto w (.rooting [.visit ref]) with roots := s.roots.erase ref }) rfl
  have hhand := inHand_of_update (s := s) (w := w)
    (t := { s.goto w (.rooting [.visit ref]) with roots := s.roots.erase ref }) rfl
  have hsame : ({ s.goto w (.rooting [.visit ref]) with roots := s.roots.erase ref } :
      MarkingRun n).queued = s.queued := by
    rw [hqueued, s.queued_eq w]
    rfl
  have hroots : (s.roots.map Op.visit : Multiset Op) =
      .visit ref ::ₘ ((s.roots.erase ref).map Op.visit : Multiset Op) := by
    rw [Multiset.cons_coe, ← List.map_cons]
    exact Multiset.coe_eq_coe.mpr ((List.perm_cons_erase hmem).map Op.visit)
  refine ⟨[], [], .still [] (by simp) ?_ rfl, rfl, rfl, by rw [hsame], List.erase_subset⟩
  rw [items, items, hhand, hsame, s.inHand_eq w, hroots, hphase]
  simp only [WorkerPhase.ops, Multiset.coe_singleton, Multiset.coe_nil, ← Multiset.singleton_add]
  ac_rfl

theorem stepRootInjector_effect {ref : Nat} (h : s.stepRootInjector ref = some t) :
    Effect graph s t := by
  obtain ⟨⟨-, hmem⟩, h⟩ := Option.ite_none_right_eq_some.mp h
  have hroots : (s.roots.map Op.visit : Multiset Op) =
      .visit ref ::ₘ ((s.roots.erase ref).map Op.visit : Multiset Op) := by
    rw [Multiset.cons_coe, ← List.map_cons]
    exact Multiset.coe_eq_coe.mpr ((List.perm_cons_erase hmem).map Op.visit)
  have hs : s.items = .visit ref ::ₘ (((s.roots.erase ref).map Op.visit : Multiset Op) +
      s.inHand + s.queued.map Op.push) := by
    rw [items, hroots]
    simp only [Multiset.cons_add]
  simp only at h
  split at h <;> rename_i hmark <;> obtain rfl := Option.some.inj h
  · refine ⟨[], [], .work (.visit ref) [] _ (by simp) ?_ hs ?_, rfl, rfl, rfl, List.erase_subset⟩
    · simp only [Op.step]
      exact if_pos hmark
    · rw [Multiset.coe_nil, zero_add]
      rfl
  · refine ⟨[.new ref false false], [], .work (.visit ref) [.push (.new ref false false)] _
      (by simp) ?_ hs ?_, rfl, rfl, ?_, List.erase_subset⟩
    · simp only [Op.step]
      exact if_neg hmark
    · simp only [items, inHand, queued, ← Multiset.coe_add, Multiset.map_add,
        Multiset.coe_singleton, Multiset.map_singleton]
      ac_rfl
    · simp only [queued, ← Multiset.coe_add, Multiset.coe_nil, add_zero]
      ac_rfl

theorem stepStart_effect (h : s.stepStart = some t) : Effect graph s t := by
  obtain ⟨⟨hphase, -⟩, rfl⟩ := guard_eq_some.mp h
  refine ⟨[], [], .still [] (by simp) ?_ rfl, rfl, rfl, rfl, fun _ hr => hr⟩
  simp [items, inHand, queued, hphase, WorkerPhase.ops]

theorem Done.items_eq (h : s.Done) : s.items = 0 := by
  obtain ⟨hroots, hqueued, hops⟩ := h
  simp [items, inHand, hroots, hqueued, hops]

-- With nothing left no step pushes or begins a task.
theorem Effect.final (h : Effect graph s t) (hdone : s.Done) :
    t.pushed = s.pushed ∧ t.executed = s.executed := by
  obtain ⟨pushed, begun, hrewrites, hpushed, hexecuted, hqueued, -⟩ := h
  have hitems := hdone.items_eq
  cases hrewrites with
  | still spills hspill ht hmarks =>
      refine ⟨?_, hexecuted⟩
      rw [hdone.2.1, Multiset.coe_nil, add_zero, zero_add] at hqueued
      cases pushed with
      | nil => exact hpushed
      | cons task rest =>
          have hmem : .push task ∈ t.items := by
            rw [items, hqueued]
            exact Multiset.mem_add.mpr (Or.inr (Multiset.mem_map_of_mem _ (by simp)))
          rw [ht, hitems, zero_add] at hmem
          obtain ⟨target, heq⟩ := hspill _ hmem
          cases heq
  | work op ops rest hop hstep hs ht =>
      exact absurd (hitems ▸ hs).symm (Multiset.cons_ne_zero)
  | begin task ops rest hdo hmarks hs ht =>
      exact absurd (hitems ▸ hs).symm (Multiset.cons_ne_zero)
  | pass obj part next count stop rest hle hnull hmarks hs ht =>
      exact absurd (hitems ▸ hs).symm (Multiset.cons_ne_zero)

theorem Effect.conserved (h : Effect graph s t)
    (hs : (s.pushed : Multiset MarkTask) = s.executed + s.queued) :
    (t.pushed : Multiset MarkTask) = t.executed + t.queued := by
  obtain ⟨pushed, begun, -, hpushed, hexecuted, hqueued, -⟩ := h
  rw [hpushed, hexecuted, ← Multiset.coe_add, ← Multiset.coe_add, hs]
  calc _ = (s.executed : Multiset MarkTask) + (s.queued + pushed) := by ac_rfl
    _ = _ := by rw [← hqueued]; ac_rfl

-- What any step does to the operations and to the tasks.
theorem step_effect {e : MarkingEvent n} (h : s.step graph stride e = some t) :
    Effect graph s t := by
  cases e with
  | root w ref => exact stepRoot_effect h
  | rootInjector ref => exact stepRootInjector_effect h
  | start => exact stepStart_effect h
  | step w => exact stepWorker_effect h
  | pass w count => exact stepPass_effect h
  | take w task moved => exact stepTake_effect h
  | steal w victim task moved => exact stepSteal_effect h
  | miss w victim => exact stepMiss_effect h

end MarkingRun

end Rsgc.Marking
