import Rsgc.Collection.World

namespace Rsgc.Collection

open Marking Storage

-- All elements stay but the one that is taken out.
theorem eq_or_mem_eraseIdx {α : Type} {list : List α} {i : Nat} {a x : α} (ha : list[i]? = some a)
    (hx : x ∈ list) : x = a ∨ x ∈ list.eraseIdx i := by
  obtain ⟨j, hj⟩ := List.mem_iff_getElem?.mp hx
  by_cases hji : j = i
  · subst hji
    exact Or.inl (Option.some.inj (hj.symm.trans ha))
  · exact Or.inr (List.mem_eraseIdx_iff_getElem?.mpr ⟨j, hji, hj⟩)

namespace World

variable {c : Config} {s s' : World} {t : Nat}

theorem mutate_eq_some {f : Mutator → Option World} :
    s.mutate t f = some s' ↔
      s.phase.stopped = false ∧ ∃ m, s.threads[t]? = some m ∧ f m = some s' := by
  constructor
  · intro h
    cases hstop : s.phase.stopped with
    | true =>
        rw [mutate, hstop, if_pos rfl] at h
        cases h
    | false =>
        rw [mutate, hstop, if_neg Bool.false_ne_true] at h
        exact ⟨rfl, Option.bind_eq_some_iff.mp h⟩
  · rintro ⟨hstop, hfound⟩
    rw [mutate, hstop, if_neg Bool.false_ne_true]
    exact Option.bind_eq_some_iff.mpr hfound

-- What each step of a mutator does.
theorem stepLoad_cases {obj : Nat} {slot : Slot} (h : s.stepLoad t obj slot = some s') :
    s.phase.stopped = false ∧ ∃ m ref, s.threads[t]? = some m ∧ obj ∈ m.roots ∧
      (s.graph obj).ref slot = some ref ∧
      s' = s.setThread t { m with roots := ref :: m.roots } := by
  obtain ⟨hphase, m, hm, h⟩ := mutate_eq_some.mp h
  obtain ⟨⟨-, hobj⟩, h⟩ := Option.ite_none_right_eq_some.mp h
  obtain ⟨ref, href, rfl⟩ := Option.map_eq_some_iff.mp h
  exact ⟨hphase, m, ref, hm, hobj, href, rfl⟩

theorem stepWriteBarrier_cases {obj : Nat} (h : s.stepWriteBarrier c t obj = some s') :
    s.phase.stopped = false ∧ ∃ m, s.threads[t]? = some m ∧ m.place = .free ∧ obj ∈ m.roots ∧
      s' = s.setThread t (m.rawWriteBarrier c s.marks obj) := by
  obtain ⟨hphase, m, hm, h⟩ := mutate_eq_some.mp h
  obtain ⟨⟨hplace, hobj⟩, rfl⟩ := guard_eq_some.mp h
  exact ⟨hphase, m, hm, hplace, hobj, rfl⟩

theorem stepStore_cases {obj : Nat} {slot : Slot} {value : Option Nat}
    (h : s.stepStore t obj slot value = some s') :
    s.phase.stopped = false ∧ ∃ m, s.threads[t]? = some m ∧ m.place = .storing obj ∧
      obj ∈ m.roots ∧ (∀ ref ∈ value, ref ∈ m.roots) ∧
      ∃ htraced : (s.graph obj).Traced slot, s' = { s.setThread t { m with place := .free } with
        graph := Function.update s.graph obj ((s.graph obj).store slot htraced value) } := by
  obtain ⟨hphase, m, hm, h⟩ := mutate_eq_some.mp h
  split at h
  · rename_i htraced
    obtain ⟨⟨hplace, hobj, hvalue⟩, rfl⟩ := guard_eq_some.mp h
    exact ⟨hphase, m, hm, hplace, hobj, hvalue, htraced, rfl⟩
  · cases h

theorem stepAllocate_cases {new : NewObject} (h : s.stepAllocate c t new = some s') :
    s.phase.stopped = false ∧ ∃ m regions, s.threads[t]? = some m ∧ m.place = .free ∧
      new.obj ∉ s.objects ∧ (∀ entry ∈ new.object.refs, entry.2 ∈ m.roots) ∧
      (∀ target ∈ new.weak, target ∈ m.roots) ∧
      place c s.regions new.region new.span = some regions ∧
      s' = { s.setThread t { m with roots := new.obj :: m.roots } with
        graph := Function.update s.graph new.obj new.object
        objects := new.obj :: s.objects
        home := Function.update s.home new.obj new.region
        regions
        marks := if c.build = .satb ∨ new.black then Function.update s.marks new.obj true
          else s.marks
        weak := Function.update s.weak new.obj new.weak
        finalizers := if new.finalize then new.obj :: s.finalizers else s.finalizers
        born := new.obj :: s.born
        cleared := s.cleared.filter fun obj => obj ≠ new.obj } := by
  obtain ⟨hphase, m, hm, h⟩ := mutate_eq_some.mp h
  obtain ⟨⟨hplace, hnew, hrefs, hweak⟩, h⟩ := Option.ite_none_right_eq_some.mp h
  obtain ⟨regions, hregions, rfl⟩ := Option.map_eq_some_iff.mp h
  exact ⟨hphase, m, regions, hm, hplace, hnew, hrefs, hweak, hregions, rfl⟩

theorem stepDrop_cases {obj : Nat} (h : s.stepDrop t obj = some s') :
    s.phase.stopped = false ∧ ∃ m, s.threads[t]? = some m ∧
      (m.place.ownCode = true ∨ m.place = .leaving) ∧
      s' = s.setThread t { m with roots := m.roots.erase obj } := by
  obtain ⟨hphase, m, hm, h⟩ := mutate_eq_some.mp h
  obtain ⟨hplace, rfl⟩ := guard_eq_some.mp h
  exact ⟨hphase, m, hm, hplace, rfl⟩

theorem stepUpgrade_cases {weak : Nat} (h : s.stepUpgrade t weak = some s') :
    s.phase.stopped = false ∧ ∃ m target, s.threads[t]? = some m ∧ weak ∈ m.roots ∧
      s.weak weak = some target ∧
      s' = { s.setThread t { m with roots := target :: m.roots } with
        upgraded := target :: s.upgraded } := by
  obtain ⟨hphase, m, hm, h⟩ := mutate_eq_some.mp h
  obtain ⟨⟨-, hweak⟩, h⟩ := Option.ite_none_right_eq_some.mp h
  obtain ⟨target, htarget, rfl⟩ := Option.map_eq_some_iff.mp h
  exact ⟨hphase, m, target, hm, hweak, htarget, rfl⟩

theorem stepDetach_cases (h : s.stepDetach t = some s') :
    s.phase.stopped = false ∧ ∃ m, s.threads[t]? = some m ∧ m.place = .free ∧
      s' = s.setThread t { m with place := .flushing m.satbMarkQueue .leave } := by
  obtain ⟨hphase, m, hm, h⟩ := mutate_eq_some.mp h
  obtain ⟨hplace, rfl⟩ := guard_eq_some.mp h
  exact ⟨hphase, m, hm, hplace, rfl⟩

-- The steps inside the barrier and the flush: to clear a mark bit, to push an
-- entry, to leave, and those that only the thread itself sees.
theorem stepThread_cases (h : s.stepThread c t = some s') :
    s.phase.stopped = false ∧ ∃ m, s.threads[t]? = some m ∧
      ((∃ obj, c.build = .incrementalUpdate ∧ m.place = .clearing obj ∧ s' = { s.setThread t (m.enqueue c obj) with
          marks := Function.update s.marks obj false
          cleared := obj :: s.cleared
          scanned := s.scanned.filter fun entry => entry.1 ≠ obj }) ∨
        (∃ obj todo next, m.place = .pushing obj todo next ∧
          s' = { s.setThread t { m with place := .flushing todo next } with
            work := .push (.new obj false false) :: s.work }) ∨
        (m.place = .leaving ∧ m.roots = [] ∧ s' = { s with threads := s.threads.eraseIdx t }) ∨
        (∃ obj todo next, m.place = .flushing (obj :: todo) next ∧ s' = s.setThread t { m with
          place := if s.flushes c obj then .pushing obj todo next else .flushing todo next }) ∨
        (∃ obj, m.place = .flushing [] (.barrier obj) ∧ s' = s.setThread t
          ({ m with satbMarkQueue := [] }.rawWriteBarrier c s.marks obj)) ∨
        (m.place = .flushing [] .leave ∧
          s' = s.setThread t { m with satbMarkQueue := [], place := .leaving })) := by
  obtain ⟨hphase, m, hm, h⟩ := mutate_eq_some.mp h
  refine ⟨hphase, m, hm, ?_⟩
  split at h <;> rename_i hplace
  · obtain ⟨hbuild, rfl⟩ := guard_eq_some.mp h
    exact Or.inl ⟨_, hbuild, hplace, rfl⟩
  · exact Or.inr (Or.inr (Or.inr (Or.inl ⟨_, _, _, hplace, (Option.some.inj h).symm⟩)))
  · exact Or.inr (Or.inl ⟨_, _, _, hplace, (Option.some.inj h).symm⟩)
  · exact Or.inr (Or.inr (Or.inr (Or.inr (Or.inl ⟨_, hplace, (Option.some.inj h).symm⟩))))
  · exact Or.inr (Or.inr (Or.inr (Or.inr (Or.inr ⟨hplace, (Option.some.inj h).symm⟩))))
  · obtain ⟨hroots, rfl⟩ := guard_eq_some.mp h
    exact Or.inr (Or.inr (Or.inl ⟨hplace, hroots, rfl⟩))
  · cases h
  · cases h

theorem stepMark_cases {i : Nat} (h : s.stepMark i = some s') :
    (s.phase = .marking ∨ ∃ cycle, s.phase = .draining cycle) ∧
      ∃ op marks ops, s.work[i]? = some op ∧ op.step s.graph s.marks = some (marks, ops) ∧
        s' = { s with marks, work := ops ++ s.work.eraseIdx i
                      scanned := reads op ++ s.scanned } := by
  obtain ⟨hphase, h⟩ := Option.ite_none_right_eq_some.mp h
  obtain ⟨op, hop, h⟩ := Option.bind_eq_some_iff.mp h
  obtain ⟨done, hdone, rfl⟩ := Option.map_eq_some_iff.mp h
  refine ⟨?_, op, done.1, done.2, hop, hdone, rfl⟩
  rcases hphase with hphase | hphase | hphase | hphase
  · exact Or.inl hphase
  · exact Or.inr ⟨_, hphase⟩
  · exact Or.inr ⟨_, hphase⟩
  · exact Or.inr ⟨_, hphase⟩

theorem stepFinishMark_cases (h : s.stepFinishMark c = some s') :
    s.work = [] ∧
      ((s.phase = .draining .degenerated ∧ s' = { s.processWeak with
          concurrentMark := false
          phase := .sweeping .degenerated (List.range c.numRegions) }) ∨
        ∃ cycle, cycle ≠ .degenerated ∧ s.phase = .draining cycle ∧
          s' = { s.processWeak.finalize.prepareUnsweptRegions with
            phase := .sweeping cycle (List.range c.numRegions) }) := by
  obtain ⟨hwork, h⟩ := Option.ite_none_right_eq_some.mp h
  refine ⟨hwork, ?_⟩
  split at h <;> rename_i hphase
  · exact Or.inl ⟨hphase, (Option.some.inj h).symm⟩
  · rename_i hcycle
    exact Or.inr ⟨_, hcycle, hphase, (Option.some.inj h).symm⟩
  · cases h

theorem stepSweep_cases {r : Nat} (h : s.stepSweep r = some s') :
    ∃ cycle todo, s.phase = .sweeping cycle todo ∧ r ∈ todo ∧
      s' = { s.sweepRegion r with phase := .sweeping cycle (todo.erase r) } := by
  unfold stepSweep at h
  split at h <;> rename_i hphase
  · obtain ⟨hr, rfl⟩ := guard_eq_some.mp h
    exact ⟨_, _, hphase, hr, rfl⟩
  · cases h

theorem stepSkip_cases {r : Nat} (h : s.stepSkip r = some s') :
    ∃ todo, s.phase = .sweeping .concurrent todo ∧ s.cancelled = true ∧
      s' = { s with phase := .sweeping .concurrent (todo.erase r) } := by
  unfold stepSkip at h
  split at h <;> rename_i hphase
  · obtain ⟨⟨-, hcancelled⟩, rfl⟩ := guard_eq_some.mp h
    exact ⟨_, hphase, hcancelled, rfl⟩
  · cases h

theorem stepFinish_cases (h : s.stepFinish = some s') :
    ∃ cycle, s.phase = .sweeping cycle [] ∧ s' = { s with
      phase := .idle
      degenPoint := if cycle = .concurrent ∧ s.cancelled then .concurrentSweep
        else s.degenPoint } := by
  unfold stepFinish at h
  split at h <;> rename_i hphase
  · exact ⟨_, hphase, (Option.some.inj h).symm⟩
  · cases h

-- What becomes of the heap when a degenerated collection begins: at most weak
-- references and mark bits change before it marks or sweeps.
theorem stepDegenerate_cases (h : s.stepDegenerate c = some s') :
    (s.phase = .idle ∧ s.Parked) ∧
      ((s.degenPoint = .unset ∧
          s' = { s with cancelled := false, degenPoint := .outsideCycle }) ∨
        (s.degenPoint = .outsideCycle ∧
          s' = { ({ s with cancelled := false, degenPoint := .outsideCycle } :
            World).prepareGc.cancelMark.collectRoots with phase := .draining .degenerated }) ∨
        ((s.degenPoint = .concurrentMark ∧ s.concurrentMark = true) ∧
          s' = { flushThreads c ({ s with cancelled := false, degenPoint := .outsideCycle } :
            World).collectRoots with phase := .draining .degenerated }) ∨
        ((s.degenPoint = .concurrentMark ∧ s.concurrentMark = false ∨
            s.degenPoint = .concurrentSweep) ∧
          s' = { ({ s with cancelled := false, degenPoint := .outsideCycle } : World).processWeak with
            phase := .sweeping .degenerated (List.range c.numRegions) })) := by
  obtain ⟨hbegin, h⟩ := Option.ite_none_right_eq_some.mp h
  refine ⟨hbegin, ?_⟩
  simp only at h
  split at h <;> rename_i hpoint
  · exact Or.inl ⟨hpoint, (Option.some.inj h).symm⟩
  · exact Or.inr (Or.inl ⟨hpoint, (Option.some.inj h).symm⟩)
  · split at h <;> rename_i hflag
    · exact Or.inr (Or.inr (Or.inl ⟨⟨hpoint, hflag⟩, (Option.some.inj h).symm⟩))
    · have hoff : s.concurrentMark = false := Bool.eq_false_iff.mpr hflag
      exact Or.inr (Or.inr (Or.inr ⟨Or.inl ⟨hpoint, hoff⟩, (Option.some.inj h).symm⟩))
  · exact Or.inr (Or.inr (Or.inr ⟨Or.inr hpoint, (Option.some.inj h).symm⟩))

-- The steps that change objects or regions.
def changesHeap : Event → Bool
  | .store .. | .allocate .. | .finishMark | .sweep _ => true
  | _ => false

structure SameHeap (s s' : World) : Prop where
  graph : s'.graph = s.graph
  objects : s'.objects = s.objects
  home : s'.home = s.home
  regions : s'.regions = s.regions

theorem step_frame {e : Event} (h : s.step c e = some s') (he : changesHeap e = false) :
    s.SameHeap s' := by
  cases e with
  | load t obj slot =>
      obtain ⟨-, m, ref, -, -, -, rfl⟩ := stepLoad_cases h
      exact ⟨rfl, rfl, rfl, rfl⟩
  | writeBarrier t obj =>
      obtain ⟨-, m, -, -, -, rfl⟩ := stepWriteBarrier_cases h
      exact ⟨rfl, rfl, rfl, rfl⟩
  | drop t obj =>
      obtain ⟨-, m, -, -, rfl⟩ := stepDrop_cases h
      exact ⟨rfl, rfl, rfl, rfl⟩
  | upgrade t weak =>
      obtain ⟨-, m, target, -, -, -, rfl⟩ := stepUpgrade_cases h
      exact ⟨rfl, rfl, rfl, rfl⟩
  | attach | cancel =>
      obtain ⟨-, rfl⟩ := guard_not_eq_some.mp h
      exact ⟨rfl, rfl, rfl, rfl⟩
  | detach t =>
      obtain ⟨-, m, -, -, rfl⟩ := stepDetach_cases h
      exact ⟨rfl, rfl, rfl, rfl⟩
  | step t =>
      obtain ⟨-, m, -, hcases⟩ := stepThread_cases h
      rcases hcases with ⟨_, _, _, rfl⟩ | ⟨_, _, _, _, rfl⟩ | ⟨_, _, rfl⟩ | ⟨_, _, _, _, rfl⟩ |
        ⟨_, _, rfl⟩ | ⟨_, rfl⟩ <;> exact ⟨rfl, rfl, rfl, rfl⟩
  | mark i =>
      obtain ⟨-, op, marks, ops, -, -, rfl⟩ := stepMark_cases h
      exact ⟨rfl, rfl, rfl, rfl⟩
  | initMark | finalMark | abort | full =>
      obtain ⟨-, rfl⟩ := guard_eq_some.mp h
      exact ⟨rfl, rfl, rfl, rfl⟩
  | skip r =>
      obtain ⟨todo, -, -, rfl⟩ := stepSkip_cases h
      exact ⟨rfl, rfl, rfl, rfl⟩
  | finish =>
      obtain ⟨cycle, -, rfl⟩ := stepFinish_cases h
      exact ⟨rfl, rfl, rfl, rfl⟩
  | degenerate =>
      obtain ⟨-, ⟨-, rfl⟩ | ⟨-, rfl⟩ | ⟨-, rfl⟩ | ⟨-, rfl⟩⟩ := stepDegenerate_cases h <;>
        exact ⟨rfl, rfl, rfl, rfl⟩
  | store | allocate | finishMark | sweep => cases he

-- In a pause only the collector takes steps.
theorem step_of_stopped {e : Event} (hstop : s.phase.stopped = true) (h : s.step c e = some s') :
    (∃ i, s.stepMark i = some s') ∨ s.stepFinishMark c = some s' ∨
      (∃ r, s.stepSweep r = some s') ∨ s.stepFinish = some s' := by
  have hmutate {t : Nat} {f : Mutator → Option World} (hf : s.mutate t f = some s') : False := by
    have hrun := (mutate_eq_some.mp hf).1
    rw [hstop] at hrun
    cases hrun
  have hphase {p : Phase} (hp : s.phase = p) (hrun : p.stopped = false) : False := by
    rw [hp, hrun] at hstop
    cases hstop
  cases e with
  | load | writeBarrier | store | allocate | drop | upgrade | detach | step =>
      exact (hmutate h).elim
  | attach | cancel => exact absurd hstop (guard_not_eq_some.mp h).1
  | mark i => exact Or.inl ⟨i, h⟩
  | finishMark => exact Or.inr (Or.inl h)
  | sweep r => exact Or.inr (Or.inr (Or.inl ⟨r, h⟩))
  | finish => exact Or.inr (Or.inr (Or.inr h))
  | initMark | full => exact (hphase (guard_eq_some.mp h).1.1 rfl).elim
  | finalMark | abort => exact (hphase (guard_eq_some.mp h).1.1 rfl).elim
  | degenerate => exact (hphase (Option.ite_none_right_eq_some.mp h).1.1 rfl).elim
  | skip r =>
      obtain ⟨todo, hsweeping, -⟩ := stepSkip_cases h
      exact (hphase hsweeping rfl).elim

end World

end Rsgc.Collection
