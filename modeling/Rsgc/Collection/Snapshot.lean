import Rsgc.Collection.Guarded

namespace Rsgc.Collection

open Marking Storage

namespace World

variable {c : Config} {s s' : World} {t : Nat}

-- The condition on the steps. With a store or a dropped root an object that a
-- marked object refers to must not lose its last protection: it is marked, or
-- reached over unmarked objects from a root, a queued task or a buffered object.
-- The marking must not begin an array that it cuts up wrongly.
def Sound (s : World) : Event → Prop
  | .mark i => ∀ op, s.work[i]? = some op → op.Short s.graph
  | .store _ obj slot _ => s.phase = .marking →
      ∀ htraced, (s.writeSlot obj slot htraced none).color.Guarded
  | .drop t obj => s.phase = .marking → ∀ m, s.threads[t]? = some m →
      (s.setThread t { m with roots := m.roots.erase obj }).color.Guarded
  | _ => True

-- What a finished marking leaves: no way out of the marked objects.
structure Closed (s : World) : Prop where
  roots : ∀ r ∈ s.roots, s.marks r = true
  edges : ∀ a b, s.marks a = true → s.graph.Edge a b → s.marks b = true
  weak : ∀ w v, s.marks w = true → s.weak w = some v → s.marks v = true

structure Snapshot (s : World) : Prop where
  steady : s.Steady
  free : ∀ o, o ∉ s.objects → s.graph o = freeObject
  ok : ∀ op ∈ s.work, op.Ok
  guarded : s.phase = .marking ∨ s.phase = .draining .concurrent → s.color.Guarded
  born : s.phase = .marking ∨ s.phase = .draining .concurrent → ∀ o ∈ s.born, s.marks o = true
  roots : s.phase = .draining .concurrent → ∀ r ∈ s.roots, s.marks r = true
  closed : (∃ todo, s.phase = .sweeping .concurrent todo) → s.Closed

theorem Closed.reaches (h : s.Closed) {o : Nat} (ho : s.Reaches o) : s.marks o = true := by
  obtain ⟨r, hr, hpath⟩ := ho
  induction hpath with
  | refl => exact h.roots r hr
  | tail _ hedge ih => exact h.edges _ _ ih hedge

-- Without work every safe object is marked once the final mark is at its end.
theorem marked_of_safe (hsteady : s.Steady) (hmarked : ∀ r ∈ s.roots, s.marks r = true)
    (hphase : s.phase = .draining .concurrent) (hwork : s.work = []) {o : Nat}
    (ho : s.color.Safe o) : s.marks o = true := by
  rcases ho with ho | ⟨x, ⟨op, hop, hx⟩, hwhite, -⟩
  · exact ho
  · refine absurd ?_ hwhite
    rcases hop with hop | ⟨r, hr, rfl⟩ | ⟨m, hm, x', hx', -⟩
    · rw [hwork] at hop
      cases hop
    · rcases hx with hx | ⟨_, _, hcovers, -⟩
      · obtain rfl := Op.visit.inj hx
        exact hmarked r hr
      · cases hcovers
    · have hcalm := hsteady.tidy.threads (Or.inr (Or.inl hphase)) m hm
      rw [hcalm.unflushed] at hx'
      cases hx'

theorem Snapshot.edge_of_done (h : s.Snapshot) (hphase : s.phase = .draining .concurrent)
    (hwork : s.work = []) {a b : Nat} (ha : s.marks a = true) (hab : s.graph.Edge a b) :
    s.marks b = true :=
  marked_of_safe h.steady (h.roots hphase) hphase hwork (h.guarded (Or.inr hphase) a b ha hab)

-- A step of a mutator.
theorem Snapshot.of_running (h : s.Snapshot) (hrun : s.phase.stopped = false) (hsteady : s'.Steady)
    (hphase : s'.phase = s.phase)
    (hfree : ∀ o, o ∉ s'.objects → s'.graph o = freeObject)
    (hwork : ∀ op ∈ s'.work, op ∈ s.work ∨ op.Ok)
    (hguarded : s.phase = .marking → s.color.Guarded → s'.color.Guarded)
    (hborn : ∀ o ∈ s'.born, (o ∈ s.born ∧ (s.marks o = true → s'.marks o = true)) ∨ s'.marks o = true)
    (hclosed : s.Closed → s'.Closed) : s'.Snapshot where
  steady := hsteady
  free := hfree
  ok op hop := (hwork op hop).elim (h.ok op) id
  guarded hp := by
    rw [hphase] at hp
    have hmarking := hp.resolve_right (not_draining hrun _)
    exact hguarded hmarking (h.guarded (Or.inl hmarking))
  born hp o ho := by
    rw [hphase] at hp
    rcases hborn o ho with ⟨hold, hkeep⟩ | hnew
    · exact hkeep (h.born hp o hold)
    · exact hnew
  roots hp := absurd (hphase ▸ hp) (not_draining hrun _)
  closed hp := hclosed (h.closed (hphase ▸ hp))

-- A mutator step that only the thread and its colours see.
theorem Snapshot.setThread (h : s.Snapshot) (hrun : s.phase.stopped = false) {m m' : Mutator}
    (hm : s.threads[t]? = some m) (hsteady : s'.Steady) (hphase : s'.phase = s.phase)
    (hgraph : s'.graph = s.graph)
    (hobjects : s'.objects = s.objects) (hmarks : s'.marks = s.marks) (hweak : s'.weak = s.weak)
    (hborn : s'.born = s.born) (hthreads : s'.threads = s.threads.set t m')
    (hwork : ∀ op ∈ s'.work, op ∈ s.work ∨ op.Ok)
    (hguarded : s.phase = .marking → s.color.Guarded → s'.color.Guarded)
    (hroots : ∀ r ∈ m'.roots, r ∈ m.roots ∨ (s.Closed → s.marks r = true)) : s'.Snapshot := by
  refine h.of_running hrun hsteady hphase ?_ hwork hguarded ?_ ?_
  · rw [hobjects, hgraph]
    exact h.free
  · rw [hborn, hmarks]
    exact fun o ho => Or.inl ⟨ho, id⟩
  · intro hclosed
    refine ⟨fun r hr => ?_, ?_, ?_⟩
    · rw [hmarks]
      rcases roots_of_set hthreads hr with hr | hr
      · exact hclosed.roots r hr
      · rcases hroots r hr with hr | hr
        · exact hclosed.roots r (mem_roots (List.mem_of_getElem? hm) hr)
        · exact hr hclosed
    · rw [hmarks, hgraph]
      exact hclosed.edges
    · rw [hmarks, hweak]
      exact hclosed.weak

theorem Snapshot.stepLoad (h : s.Snapshot) (hsteady : s'.Steady)
    (hguarded : s.phase = .marking → s.color.Guarded → s'.color.Guarded)
    {obj : Nat} {slot : Slot} (hstep : s.stepLoad t obj slot = some s') : s'.Snapshot := by
  obtain ⟨hrun, m, ref, hm, hobj, href, rfl⟩ := stepLoad_cases hstep
  refine h.setThread hrun hm hsteady rfl rfl rfl rfl rfl rfl rfl (fun op hop => Or.inl hop)
    hguarded fun r hr => ?_
  rcases List.mem_cons.mp hr with rfl | hr
  · have hroot := mem_roots (List.mem_of_getElem? hm) hobj
    exact Or.inr fun hclosed => hclosed.edges obj r (hclosed.roots obj hroot) ⟨slot, href⟩
  · exact Or.inl hr

theorem Snapshot.stepUpgrade (h : s.Snapshot) (hsteady : s'.Steady)
    (hguarded : s.phase = .marking → s.color.Guarded → s'.color.Guarded)
    {weak : Nat} (hstep : s.stepUpgrade t weak = some s') : s'.Snapshot := by
  obtain ⟨hrun, m, target, hm, hweak, htarget, rfl⟩ := stepUpgrade_cases hstep
  refine h.setThread hrun hm hsteady rfl rfl rfl rfl rfl rfl rfl (fun op hop => Or.inl hop)
    hguarded fun r hr => ?_
  rcases List.mem_cons.mp hr with rfl | hr
  · have hroot := mem_roots (List.mem_of_getElem? hm) hweak
    exact Or.inr fun hclosed => hclosed.weak weak r (hclosed.roots weak hroot) htarget
  · exact Or.inl hr

theorem Snapshot.stepStore (h : s.Snapshot) (hsteady : s'.Steady)
    (hguarded : s.phase = .marking → s.color.Guarded → s'.color.Guarded)
    {obj : Nat} {slot : Slot} {value : Option Nat} (hstep : s.stepStore t obj slot value = some s') :
    s'.Snapshot := by
  obtain ⟨hrun, m, hm, hplace, hobj, hvalue, htraced, rfl⟩ := stepStore_cases hstep
  have hmem := List.mem_of_getElem? hm
  have hroots : ∀ r ∈ (s.setThread t { m with place := .free }).roots, r ∈ s.roots := by
    intro r hr
    rcases roots_of_set rfl hr with hr | hr
    · exact hr
    · exact mem_roots hmem hr
  refine h.of_running hrun hsteady rfl (fun o ho => ?_) (fun op hop => Or.inl hop) hguarded
    (fun o ho => Or.inl ⟨ho, id⟩) fun hclosed => ?_
  · -- Only an allocated object has slots to store to.
    by_cases heq : o = obj
    · subst heq
      rw [h.free o ho] at htraced
      exact absurd htraced (freeObject_not_traced slot)
    · simpa [heq] using h.free o ho
  · refine ⟨fun r hr => hclosed.roots r (hroots r hr), ?_, hclosed.weak⟩
    rintro a b ha ⟨slot', href⟩
    have href' := (writeSlot_ref htraced value a slot').symm.trans href
    split at href'
    · exact hclosed.roots b (mem_roots hmem (hvalue b href'))
    · exact hclosed.edges a b ha ⟨slot', href'⟩

theorem Snapshot.stepAttach (h : s.Snapshot) (hsteady : s'.Steady)
    (hguarded : s.phase = .marking → s.color.Guarded → s'.color.Guarded)
    (hstep : s.stepAttach = some s') : s'.Snapshot := by
  obtain ⟨hrun, rfl⟩ := guard_not_eq_some.mp hstep
  have hroots : ({ s with threads := s.threads ++ [⟨[], [], s.concurrentMark, .free⟩] } :
      World).roots = s.roots := by
    show (s.threads ++ _).flatMap _ = _
    rw [List.flatMap_append]
    exact List.append_nil _
  exact h.of_running (Bool.eq_false_iff.mpr hrun) hsteady rfl h.free (fun op hop => Or.inl hop)
    hguarded (fun o ho => Or.inl ⟨ho, id⟩) fun hclosed =>
      ⟨fun r hr => hclosed.roots r (hroots ▸ hr), hclosed.edges, hclosed.weak⟩

theorem Snapshot.stepAllocate (h : s.Snapshot) (hbuild : c.build = .satb) (hsteady : s'.Steady)
    (hguarded : s.phase = .marking → s.color.Guarded → s'.color.Guarded)
    {new : NewObject} (hstep : s.stepAllocate c t new = some s') : s'.Snapshot := by
  obtain ⟨hrun, m, regions, hm, hplace, hnew, hrefs, hweak, -, rfl⟩ := stepAllocate_cases hstep
  have hmem := List.mem_of_getElem? hm
  have hmarked (o : Nat) : (if c.build = .satb ∨ new.black then Function.update s.marks new.obj true
      else s.marks) o = true ↔ s.marks o = true ∨ o = new.obj := by
    rw [if_pos (Or.inl hbuild)]
    by_cases ho : o = new.obj
    · simp [ho]
    · simp [ho]
  refine h.of_running hrun hsteady rfl (fun o ho => ?_) (fun op hop => Or.inl hop) hguarded
    (fun o ho => ?_) fun hclosed => ?_
  · obtain ⟨hne, hold⟩ := not_or.mp (List.mem_cons.not.mp ho)
    simpa [hne] using h.free o hold
  · rcases List.mem_cons.mp ho with rfl | ho
    · exact Or.inr ((hmarked _).mpr (Or.inr rfl))
    · exact Or.inl ⟨ho, fun hm => (hmarked o).mpr (Or.inl hm)⟩
  · have hold {r : Nat} (hr : r ∈ m.roots) : s.marks r = true := hclosed.roots r (mem_roots hmem hr)
    refine ⟨fun r hr => (hmarked r).mpr ?_, fun a b ha hab => (hmarked b).mpr (Or.inl ?_),
      fun w v hw hv => (hmarked v).mpr (Or.inl ?_)⟩
    · rcases roots_of_set rfl hr with hr | hr
      · exact Or.inl (hclosed.roots r hr)
      · exact (List.mem_cons.mp hr).symm.imp hold id
    · obtain ⟨slot, href⟩ := hab
      by_cases hne : a = new.obj
      · subst hne
        simp only [Function.update_self] at href
        obtain ⟨entry, hentry, rfl⟩ := Object.ref_mem href
        exact hold (hrefs entry hentry)
      · simp only [Function.update_of_ne hne] at href
        exact hclosed.edges a b (((hmarked a).mp ha).resolve_right hne) ⟨slot, href⟩
    · by_cases hne : w = new.obj
      · subst hne
        simp only [Function.update_self] at hv
        exact hold (hweak v hv)
      · simp only [Function.update_of_ne hne] at hv
        exact hclosed.weak w v (((hmarked w).mp hw).resolve_right hne) hv

theorem Snapshot.stepThread (h : s.Snapshot) (hbuild : c.build = .satb) (hsteady : s'.Steady)
    (hguarded : s.phase = .marking → s.color.Guarded → s'.color.Guarded)
    (hstep : s.stepThread c t = some s') : s'.Snapshot := by
  obtain ⟨hrun, m, hm, hcases⟩ := stepThread_cases hstep
  rcases hcases with ⟨obj, hupdate, -, rfl⟩ | ⟨obj, todo, next, hplace, rfl⟩ |
    ⟨hplace, hroots, rfl⟩ | ⟨obj, todo, next, hplace, rfl⟩ | ⟨obj, hplace, rfl⟩ | ⟨hplace, rfl⟩
  · rw [hbuild] at hupdate
    cases hupdate
  · refine h.setThread hrun hm hsteady rfl rfl rfl rfl rfl rfl rfl (fun op hop => ?_) hguarded
      fun r hr => Or.inl hr
    rcases List.mem_cons.mp hop with rfl | hop
    · exact Or.inr (isFresh_ok obj)
    · exact Or.inl hop
  · have hsub : ∀ r ∈ ({ s with threads := s.threads.eraseIdx t } : World).roots, r ∈ s.roots := by
      intro r hr
      obtain ⟨x, hx, hrx⟩ := List.mem_flatMap.mp hr
      exact mem_roots (List.mem_of_mem_eraseIdx hx) hrx
    exact h.of_running hrun hsteady rfl h.free (fun op hop => Or.inl hop) hguarded
      (fun o ho => Or.inl ⟨ho, id⟩) fun hclosed =>
        ⟨fun r hr => hclosed.roots r (hsub r hr), hclosed.edges, hclosed.weak⟩
  · exact h.setThread hrun hm hsteady rfl rfl rfl rfl rfl rfl rfl (fun op hop => Or.inl hop)
      hguarded fun r hr => Or.inl hr
  · refine h.setThread hrun hm hsteady rfl rfl rfl rfl rfl rfl rfl (fun op hop => Or.inl hop)
      hguarded fun r hr => Or.inl ?_
    rw [Mutator.rawWriteBarrier_roots] at hr
    exact hr
  · exact h.setThread hrun hm hsteady rfl rfl rfl rfl rfl rfl rfl (fun op hop => Or.inl hop)
      hguarded fun r hr => Or.inl hr

-- A step of a mutator.
theorem Snapshot.mutator (h : s.Snapshot) (hbuild : c.build = .satb) (hsteady : s'.Steady)
    {e : Event} (hsound : s.Sound e) (hstep : s.step c e = some s') (he : e.ofMutator = true) :
    s'.Snapshot := by
  have hguarded (hmarking : s.phase = .marking) (hold : s.color.Guarded) : s'.color.Guarded := by
    refine guarded_of_mutator h.free (fun hupdate => ?_) hold ?_ hstep he
    · rw [hbuild] at hupdate
      cases hupdate
    · cases e with
      | store | drop => exact hsound hmarking
      | _ => trivial
  cases e with
  | load t obj slot => exact h.stepLoad hsteady hguarded hstep
  | writeBarrier t obj =>
      obtain ⟨hrun, m, hm, hplace, -, rfl⟩ := stepWriteBarrier_cases hstep
      exact h.setThread hrun hm hsteady rfl rfl rfl rfl rfl rfl rfl (fun op hop => Or.inl hop)
        hguarded fun r hr => Or.inl (Mutator.rawWriteBarrier_roots ▸ hr)
  | store t obj slot value => exact h.stepStore hsteady hguarded hstep
  | allocate t new => exact h.stepAllocate hbuild hsteady hguarded hstep
  | drop t obj =>
      obtain ⟨hrun, m, hm, -, rfl⟩ := stepDrop_cases hstep
      exact h.setThread hrun hm hsteady rfl rfl rfl rfl rfl rfl rfl (fun op hop => Or.inl hop)
        hguarded fun r hr => Or.inl (List.mem_of_mem_erase hr)
  | upgrade t weak => exact h.stepUpgrade hsteady hguarded hstep
  | attach => exact h.stepAttach hsteady hguarded hstep
  | detach t =>
      obtain ⟨hrun, m, hm, -, rfl⟩ := stepDetach_cases hstep
      exact h.setThread hrun hm hsteady rfl rfl rfl rfl rfl rfl rfl (fun op hop => Or.inl hop)
        hguarded fun r hr => Or.inl hr
  | step t => exact h.stepThread hbuild hsteady hguarded hstep
  | _ => cases he

theorem Snapshot.stepMark (h : s.Snapshot) (hsteady : s'.Steady) {i : Nat} (hsound : s.Sound (.mark i))
    (hstep : s.stepMark i = some s') : s'.Snapshot := by
  obtain ⟨hphase, op, marks, ops, hop, hdone, rfl⟩ := stepMark_cases hstep
  have hmem : op ∈ s.work := List.mem_of_getElem? hop
  have hok := h.ok op hmem
  have hshort := hsound op hop
  have hactive : s.phase = .marking ∨ s.phase = .draining .concurrent := by
    refine hphase.imp id fun ⟨cycle, hdraining⟩ => ?_
    rw [hdraining, h.steady.cycle cycle (Or.inl hdraining)]
  have hkeep {o : Nat} (ho : s.marks o = true) : marks o = true :=
    (Op.step_marks hdone o).mpr (Or.inl ho)
  refine ⟨hsteady, h.free, fun o ho => ?_, fun _ => ?_, fun hp o ho => hkeep (h.born hp o ho),
    fun hp r hr => hkeep (h.roots hp r hr), fun ⟨todo, hp⟩ => ?_⟩
  · rcases List.mem_append.mp ho with ho | ho
    · exact Op.step_ok hdone hok hshort o ho
    · exact h.ok o (List.mem_of_mem_eraseIdx ho)
  · refine (h.guarded hactive).sustain (sustains_of_step hdone hok hshort rfl rfl (fun o ho => ?_)
      fun o ho => List.mem_append_left _ ho)
    exact (eq_or_mem_eraseIdx hop ho).imp_right (List.mem_append_right _)
  · simp only at hp
    rcases hactive with hactive | hactive <;> rw [hp] at hactive <;> cases hactive

theorem Snapshot.stepInitMark (h : s.Snapshot) (hsteady : s'.Steady)
    (hstep : s.stepInitMark = some s') : s'.Snapshot := by
  obtain ⟨⟨hphase, -⟩, rfl⟩ := guard_eq_some.mp hstep
  have hwork : s.work = [] := h.steady.work_eq_nil (by simp [hphase]) (by simp [hphase])
  have hguarded : (s.prepareGc.toggleWriteBarrier true).color.Guarded := guarded_unmarked _ _
  refine ⟨hsteady, h.free, ?_, fun _ => ?_, by simp, by simp, by simp⟩
  · refine collectRoots_ok (s := s.prepareGc.toggleWriteBarrier true) fun op hop => ?_
    rw [show (s.prepareGc.toggleWriteBarrier true).work = s.work from rfl, hwork] at hop
    cases hop
  · exact hguarded.sustain (collectRoots_sustains _)

theorem Snapshot.stepFinalMark (h : s.Snapshot) (hsteady : s'.Steady)
    (hstep : s.stepFinalMark c = some s') : s'.Snapshot := by
  obtain ⟨⟨hphase, hparked, -⟩, rfl⟩ := guard_eq_some.mp hstep
  have hroots : (flushThreads c s.collectRoots).roots = s.roots := flushThreads_roots
  refine ⟨hsteady, h.free, fun op hop => ?_, fun _ => ?_, fun _ o ho => ?_, fun _ r hr => ?_,
    by simp⟩
  · rcases List.mem_append.mp hop with hop | hop
    · obtain ⟨x, -, rfl⟩ := List.mem_map.mp hop
      exact isFresh_ok x
    · exact collectRoots_ok h.ok op hop
  · have hparked' : s.collectRoots.Parked := hparked
    have hflushed : s.collectRoots.color.Sustains (flushThreads c s.collectRoots).color :=
      sustains_of_pending rfl rfl (pending_flushThreads hparked')
    exact (h.guarded (Or.inl hphase)).sustain ((collectRoots_sustains s).trans hflushed)
  · exact (s.collectRoots_marks o).mpr (Or.inl (h.born (Or.inl hphase) o ho))
  · exact (s.collectRoots_marks r).mpr (Or.inr (hroots ▸ hr))

theorem Snapshot.stepFinishMark (h : s.Snapshot) (hsteady : s'.Steady)
    (hstep : s.stepFinishMark c = some s') : s'.Snapshot := by
  obtain ⟨hwork, ⟨hphase, rfl⟩ | ⟨cycle, -, hphase, rfl⟩⟩ := stepFinishMark_cases hstep
  · cases h.steady.cycle _ (Or.inl hphase)
  · obtain rfl := h.steady.cycle _ (Or.inl hphase)
    refine ⟨hsteady, h.free, h.ok, by simp, by simp, by simp, fun _ => ?_⟩
    refine ⟨h.roots hphase, fun a b ha hab => h.edge_of_done hphase hwork ha hab, ?_⟩
    intro w v hw hv
    simp only [prepareUnsweptRegions, finalize, processWeak] at hw hv
    rw [if_pos hw] at hv
    exact (Option.filter_eq_some_iff.mp hv).2

theorem frees_marks {r o : Nat} (h : s.frees r o = true) : s.marks o = false := by
  simp only [frees, Bool.and_eq_true, Bool.not_eq_true'] at h
  exact h.2

theorem Snapshot.stepSweep (h : s.Snapshot) (hsteady : s'.Steady) {r : Nat}
    (hstep : s.stepSweep r = some s') : s'.Snapshot := by
  obtain ⟨cycle, todo, hphase, -, rfl⟩ := stepSweep_cases hstep
  obtain rfl := h.steady.cycle _ (Or.inr ⟨todo, hphase⟩)
  have hclosed := h.closed ⟨todo, hphase⟩
  refine ⟨hsteady, fun o ho => ?_, h.ok, by simp, by simp, by simp, fun _ => ?_⟩
  · by_cases hfrees : s.frees r o = true
    · simp [sweepRegion, hfrees]
    · have hold : o ∉ s.objects := fun hmem =>
        ho (List.mem_filter.mpr ⟨hmem, by simpa using hfrees⟩)
      simpa [sweepRegion, hfrees] using h.free o hold
  · refine ⟨hclosed.roots, fun a b ha hab => hclosed.edges a b ha ?_, hclosed.weak⟩
    obtain ⟨slot, href⟩ := hab
    refine ⟨slot, ?_⟩
    have hkept : s.frees r a = false :=
      Bool.eq_false_iff.mpr fun hfrees => absurd ha (by simp [sweepRegion, frees_marks hfrees])
    simpa [sweepRegion, hkept] using href

theorem Snapshot.step (h : s.Snapshot) (hbuild : c.build = .satb) {upgrades : Bool} {e : Event}
    (hsound : s.Sound e) (hstep : (concurrentCycles c upgrades).step s e = some s') :
    s'.Snapshot := by
  have hsteady : s'.Steady := h.steady.step hstep
  obtain ⟨hcycle, hstep⟩ := Option.ite_none_right_eq_some.mp hstep
  cases e with
  | load | writeBarrier | store | allocate | drop | upgrade | attach | detach | step =>
      exact h.mutator hbuild hsteady hsound hstep rfl
  | mark i => exact h.stepMark hsteady hsound hstep
  | initMark => exact h.stepInitMark hsteady hstep
  | finalMark => exact h.stepFinalMark hsteady hstep
  | finishMark => exact h.stepFinishMark hsteady hstep
  | sweep r => exact h.stepSweep hsteady hstep
  | finish =>
      obtain ⟨cycle, hphase, rfl⟩ := stepFinish_cases hstep
      exact ⟨hsteady, h.free, h.ok, by simp, by simp, by simp, by simp⟩
  | cancel | skip | abort | full | degenerate => cases hcycle

theorem snapshot_of_via {bufferSize regions : Nat} {upgrades : Bool}
    (hs : (concurrentCycles ⟨.satb, bufferSize, regions⟩ upgrades).Via Sound s) : s.Snapshot := by
  refine Machine.Via.invariant (P := Snapshot) (fun s h => ?_)
    (fun s e s' h hsound hstep => h.step rfl hsound hstep) hs
  exact ⟨steady_of_fresh h, h.free, by simp [h.work], by simp [h.phase], by simp [h.phase],
    by simp [h.phase], by simp [h.phase]⟩

end World

end Rsgc.Collection
