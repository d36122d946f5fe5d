import Rsgc.Collection.Stale
import Rsgc.Lib.Simulation
import Rsgc.Marking.Workers.Termination

namespace Rsgc.Collection

open Marking

-- The collector's world in terms of the workers that drain its marking: `work` is what
-- they have queued and in their hands, but for what they have left to spill.
structure Drains {n : Nat} (s : MarkingRun n) (w : World) : Prop where
  marks : s.marks = w.marks
  work : ∃ spills : Multiset Op, (∀ op ∈ spills, ∃ target, op = .spill target) ∧
    s.items = w.work + spills

namespace World

variable {c : Config} {w : World} {n stride : Nat} {s t : MarkingRun n}

-- All that marking steps change.
def MarkedFrom (w u : World) : Prop :=
  u = { w with marks := u.marks, work := u.work, scanned := u.scanned }

theorem MarkedFrom.trans {u v : World} (h : w.MarkedFrom u) (h' : u.MarkedFrom v) :
    w.MarkedFrom v := by
  unfold MarkedFrom at h h' ⊢
  rw [h', h]

-- A run of `.mark` events
def Marks (c : Config) (w u : World) : Prop :=
  w.MarkedFrom u ∧ ∃ steps : List Nat, (controller c).run w (steps.map .mark) = some u

theorem Marks.refl : Marks c w w := ⟨rfl, [], rfl⟩

theorem Marks.trans {u v : World} (h : Marks c w u) (h' : Marks c u v) : Marks c w v := by
  obtain ⟨hframe, steps, hrun⟩ := h
  obtain ⟨hframe', steps', hrun'⟩ := h'
  refine ⟨hframe.trans hframe', steps ++ steps', ?_⟩
  rw [List.map_append, Machine.run_append, hrun]
  exact hrun'

-- One of the operations of the world, wherever it is in its list.
theorem marks_of_mem {cycle : Cycle} (hphase : w.phase = .draining cycle) {op : Op} {ops : List Op}
    {marks : Nat → Bool} {rest : Multiset Op} (hstep : op.step w.graph w.marks = some (marks, ops))
    (hwork : (w.work : Multiset Op) = op ::ₘ rest) :
    ∃ u, Marks c w u ∧ u.marks = marks ∧ (u.work : Multiset Op) = ops + rest := by
  have hop : op ∈ w.work := by
    rw [← Multiset.mem_coe, hwork]
    exact Multiset.mem_cons_self op rest
  obtain ⟨i, hi, hget⟩ := List.getElem_of_mem hop
  have hget? : w.work[i]? = some op := by rw [List.getElem?_eq_getElem hi, hget]
  refine ⟨{ w with marks, work := ops ++ w.work.eraseIdx i, scanned := reads op ++ w.scanned },
    ⟨rfl, [i], ?_⟩, rfl, ?_⟩
  · have hdraining : w.phase = .marking ∨ w.phase = .draining .concurrent ∨
        w.phase = .draining .degenerated ∨ w.phase = .draining .full := by
      rw [hphase]
      cases cycle <;> simp
    simp [Machine.run, controller, World.step, stepMark, hdraining, hget?, hstep]
  · have hperm := Multiset.coe_eq_coe.mpr (List.getElem_cons_eraseIdx_perm hi)
    rw [hget, ← Multiset.cons_coe, hwork] at hperm
    rw [← Multiset.coe_add, Multiset.cons_inj_right op |>.mp hperm]

theorem MarkedFrom.phase_eq {u : World} (h : w.MarkedFrom u) : u.phase = w.phase := by
  rw [h]

theorem MarkedFrom.graph_eq {u : World} (h : w.MarkedFrom u) : u.graph = w.graph := by
  rw [h]

theorem ref_of_null {o : Object} {part : Part} {next count : Nat}
    (h : o.Null part next count) (hcount : 0 < count) : o.ref ⟨part, next⟩ = none := by
  rw [Object.ref, Option.map_eq_none_iff, List.find?_eq_none]
  intro entry hentry heq
  have hslot : entry.1 = ⟨part, next⟩ := by simpa using heq
  have := h entry hentry (by rw [hslot])
  rw [hslot] at this
  simp only at this
  omega

-- `pass` over slots that are null are as many steps of the world.
theorem marks_of_pass {cycle : Cycle} (hphase : w.phase = .draining cycle) {obj : Nat} {part : Part}
    {next count stop : Nat} {rest : Multiset Op} (hle : next + count ≤ stop)
    (hnull : (w.graph obj).Null part next count)
    (hwork : (w.work : Multiset Op) = .scan obj part next stop ::ₘ rest) :
    ∃ u, Marks c w u ∧ u.marks = w.marks ∧
      (u.work : Multiset Op) = .scan obj part (next + count) stop ::ₘ rest := by
  induction count generalizing w next with
  | zero => exact ⟨w, Marks.refl, rfl, hwork⟩
  | succ count ih =>
      have href : (w.graph obj).ref ⟨part, next⟩ = none := ref_of_null hnull (by omega)
      have hstep : (Op.scan obj part next stop).step w.graph w.marks =
          some (w.marks, [.scan obj part (next + 1) stop]) := by
        rw [Op.step, if_pos (by omega), href]
        rfl
      obtain ⟨u, hu, hmarks, hrest⟩ := marks_of_mem (c := c) hphase hstep hwork
      have hphase' := hu.1.phase_eq.trans hphase
      have hle' : next + 1 + count ≤ stop := by omega
      have hnull' : (u.graph obj).Null part (next + 1) count := by
        rw [hu.1.graph_eq]
        intro entry hentry hpart
        have := hnull entry hentry hpart
        omega
      obtain ⟨v, hv, hsame, hdone⟩ := ih hphase' hle' hnull'
        (by rw [hrest, Multiset.coe_singleton, Multiset.singleton_add])
      refine ⟨v, hu.trans hv, hsame.trans hmarks, ?_⟩
      rw [hdone, Nat.add_right_comm]
      rfl

end World

namespace Drains

variable {c : Config} {w : World} {n stride : Nat} {s t : MarkingRun n}

-- The operation of a worker is one of the world, or a spill of which it knows nothing.
theorem rewrites (h : Drains s w) {cycle : Cycle} (hphase : w.phase = .draining cycle) {op : Op}
    {ops : List Op} {rest : Multiset Op} (hstep : op.step w.graph s.marks = some (t.marks, ops))
    (hs : s.items = op ::ₘ rest) (ht : t.items = ops + rest) :
    ∃ u, World.Marks c w u ∧ Drains t u := by
  obtain ⟨hmarks, spills, hspills, hwork⟩ := h
  rw [hwork] at hs
  rw [hmarks] at hstep
  have hmem : op ∈ (w.work : Multiset Op) + spills := hs ▸ Multiset.mem_cons_self op rest
  rcases Multiset.mem_add.mp hmem with hop | hop
  · obtain ⟨left, hleft⟩ := Multiset.exists_cons_of_mem hop
    obtain ⟨u, hu, hsame, hdone⟩ := World.marks_of_mem (c := c) hphase hstep hleft
    rw [hleft, Multiset.cons_add, Multiset.cons_inj_right] at hs
    refine ⟨u, hu, hsame.symm, spills, hspills, ?_⟩
    rw [ht, hdone, ← hs, add_assoc]
  · obtain ⟨target, rfl⟩ := hspills op hop
    obtain ⟨left, hleft⟩ := Multiset.exists_cons_of_mem hop
    obtain ⟨hsame, rfl⟩ : w.marks = t.marks ∧ ([] : List Op) = ops := by
      simpa [Op.step] using hstep
    rw [hleft, Multiset.add_cons, Multiset.cons_inj_right] at hs
    refine ⟨w, World.Marks.refl, hsame.symm, left, fun op hmem => ?_, ?_⟩
    · exact hspills op (hleft ▸ Multiset.mem_cons_of_mem hmem)
    · rw [ht, ← hs, Multiset.coe_nil, zero_add]

theorem step (h : Drains s w) {cycle : Cycle} (hphase : w.phase = .draining cycle)
    {e : MarkingEvent n} (hstep : s.step w.graph stride e = some t) :
    ∃ u, World.Marks c w u ∧ Drains t u := by
  obtain ⟨pushed, begun, hrewrites, -⟩ := MarkingRun.step_effect hstep
  cases hrewrites with
  | still more hmore hitems hmarks =>
      obtain ⟨hsame, spills, hspills, hwork⟩ := h
      refine ⟨w, World.Marks.refl, hmarks.trans hsame, spills + more, fun op hop => ?_, ?_⟩
      · rcases Multiset.mem_add.mp hop with hop | hop
        · exact hspills op hop
        · exact hmore op (Multiset.mem_coe.mp hop)
      · rw [hitems, hwork, add_assoc]
  | work op ops rest hop hdo hs ht => exact h.rewrites hphase hdo hs ht
  | begin task ops rest hdo hmarks hs ht =>
      have hpush : (Op.push task).step w.graph s.marks = some (t.marks, ops) := by
        rw [Op.step, hdo, hmarks]
        rfl
      exact h.rewrites hphase hpush hs ht
  | pass obj part next count stop rest hle hnull hmarks hs ht =>
      obtain ⟨hsame, spills, hspills, hwork⟩ := h
      rw [hwork] at hs
      have hmem : Op.scan obj part next stop ∈ (w.work : Multiset Op) := by
        have hor := hs ▸ Multiset.mem_cons_self _ rest
        refine (Multiset.mem_add.mp hor).resolve_right fun hspill => ?_
        obtain ⟨target, htarget⟩ := hspills _ hspill
        cases htarget
      obtain ⟨left, hleft⟩ := Multiset.exists_cons_of_mem hmem
      obtain ⟨u, hu, hmarked, hdone⟩ := World.marks_of_pass (c := c) hphase hle hnull hleft
      rw [hleft, Multiset.cons_add, Multiset.cons_inj_right] at hs
      refine ⟨u, hu, (hmarks.trans hsame).trans hmarked.symm, spills, hspills, ?_⟩
      rw [ht, hdone, ← hs, Multiset.cons_add]

theorem run (h : Drains s w) {cycle : Cycle} (hphase : w.phase = .draining cycle)
    {events : List (MarkingEvent n)}
    (hrun : (finishMark n stride w.graph).run s events = some t) :
    ∃ u, World.Marks c w u ∧ Drains t u := by
  induction events generalizing s w with
  | nil =>
      obtain rfl : s = t := Option.some.inj hrun
      exact ⟨w, World.Marks.refl, h⟩
  | cons e rest ih =>
      obtain ⟨v, hstep, hrest⟩ := Option.bind_eq_some_iff.mp hrun
      obtain ⟨u, hu, hv⟩ := h.step (c := c) hphase hstep
      obtain ⟨x, hx, ht⟩ := ih hv (hu.1.phase_eq.trans hphase) (hu.1.graph_eq.symm ▸ hrest)
      exact ⟨x, hu.trans hx, ht⟩

theorem work_eq_nil (h : Drains s w) (hdone : s.Done) : w.work = [] := by
  obtain ⟨-, spills, -, hwork⟩ := h
  rw [hdone.items_eq] at hwork
  exact (Multiset.coe_eq_zero _).mp (add_eq_zero.mp hwork.symm).1

end Drains

-- The drain of `ConcMark::finish` by any number of workers, which take the tasks from their
-- own queues, from the injector or from each other in any order, is a sequence of marking
-- steps of the world. When one of the workers stops, the marking of the world is over.
theorem drain_refines {c : Config} {w : World} {cycle : Cycle} (hphase : w.phase = .draining cycle)
    {n stride : Nat} {s t : MarkingRun n} (hinit : (finishMark n stride w.graph).init s)
    (hmarks : s.marks = w.marks) (hwork : (w.work : Multiset Op) = s.queued.map .push)
    {events : List (MarkingEvent n)}
    (hrun : (finishMark n stride w.graph).run s events = some t) :
    ∃ (steps : List Nat) (u : World), (controller c).run w (steps.map .mark) = some u ∧
      w.MarkedFrom u ∧ u.marks = t.marks ∧
      ((∃ v, (t.workers v).phase = .stopped) →
        u.work = [] ∧ ∃ x, World.step c u .finishMark = some x) := by
  have hreach := Machine.run_reachable (Machine.Via.init hinit) hrun
  have hdrains : Drains s w := by
    refine ⟨hmarks, 0, by simp, ?_⟩
    have hhands : s.inHand = 0 := by
      simp [MarkingRun.inHand, (hinit.2.2.2.2 _).1, WorkerPhase.ops]
    rw [MarkingRun.items, hinit.1, hhands, hwork]
    simp
  obtain ⟨u, ⟨hframe, steps, hsteps⟩, ht⟩ := hdrains.run (c := c) hphase hrun
  refine ⟨steps, u, hsteps, hframe, ht.marks.symm, ?_⟩
  rintro ⟨v, hv⟩
  have hterminated : t.Terminated w.graph stride :=
    (MarkingRun.quiet_of_reachable hreach).terminated hv
  have hnone := ht.work_eq_nil hterminated.done
  refine ⟨hnone, ?_⟩
  rw [World.step, World.stepFinishMark, if_pos hnone, hframe.phase_eq, hphase]
  cases cycle <;> exact ⟨_, rfl⟩

-- One worker finds the task of a root in the injector, and the referent of the root.
theorem drain_refines_pair :
    ∃ (w : World) (steps : List Nat) (u : World), w.graph = World.pairWorld.graph ∧
      (controller World.satbConfig).run w (steps.map .mark) = some u ∧ u.work = [] ∧
      u.marks 1 = true := by
  let task : MarkTask := .new 0 false false
  let marks : Nat → Bool := Function.update (fun _ => false) 0 true
  let w : World := { World.pairWorld with
    marks, work := [.push task], phase := .draining .full }
  let s : MarkingRun 1 := ⟨marks, [], [task], fun _ => ⟨⟨[], 0, []⟩, .popLocal, 0⟩, 1, [task], []⟩
  have hrun : ((finishMark 1 32 w.graph).run s
      ([.step 0, .step 0, .take 0 task []] ++ List.replicate 17 (.step 0))).map
        (fun t => ((t.workers 0).phase, t.marks 1)) = some (.stopped, true) := by decide +kernel
  obtain ⟨t, ht, hr⟩ := Option.map_eq_some_iff.mp hrun
  obtain ⟨hstopped, hmarked⟩ := Prod.mk.inj hr
  have hinit : (finishMark 1 32 w.graph).init s := by
    refine ⟨rfl, rfl, rfl, ?_, fun v => ⟨rfl, rfl⟩⟩
    simp [MarkingRun.queued, s, SlotVisitor.queued]
  obtain ⟨steps, u, hsteps, -, hmarks, hdone⟩ := drain_refines (c := World.satbConfig)
    (w := w) rfl hinit rfl (by simp [MarkingRun.queued, s, w, SlotVisitor.queued]) ht
  exact ⟨w, steps, u, rfl, hsteps, (hdone ⟨0, hstopped⟩).1, by rw [hmarks, hmarked]⟩

end Rsgc.Collection
