import Rsgc.Collection.Conservative.Tracing

namespace Rsgc.Collection

open Marking Storage

namespace World

variable {c : Config} {s s' : World} {t : Nat}

-- The sweep of its region will free the object.
def Condemned (s : World) (o : Nat) : Prop :=
  (s.regions (s.home o)).toSweep = true ∧ s.marks o = false

def Kept (s : World) (o : Nat) : Prop := o ∈ s.objects ∧ ¬s.Condemned o

def Clean (s : World) : Prop := ∀ r, (s.regions r).toSweep = false

theorem Clean.kept_iff (h : s.Clean) {o : Nat} : s.Kept o ↔ o ∈ s.objects := by
  refine ⟨fun ho => ho.1, fun ho => ⟨ho, fun hcondemned => ?_⟩⟩
  have hflag := hcondemned.1
  rw [h] at hflag
  cases hflag

-- Regions are left to be swept only by a full collection that sweeps them itself,
-- or with the barriers off while nothing is marked.
def Left (s : World) : Prop :=
  ∀ r, (s.regions r).toSweep = true →
    (∃ todo, s.phase = .sweeping .full todo ∧ r ∈ todo) ∨
      s.concurrentMark = false ∧
        (s.phase = .idle ∨ ∃ cycle todo, s.phase = .sweeping cycle todo ∧ cycle ≠ .full)

-- What the sweep keeps refers to nothing that it frees, whatever part of it has
-- been done, and the threads have nothing else.
structure Sheltered (s : World) : Prop where
  edges : ∀ o x, s.Kept o → s.graph.Edge o x → s.Kept x
  weak : ∀ o x, s.Kept o → s.weak o = some x → s.Kept x
  roots : ∀ r ∈ s.roots, s.Kept r
  left : s.Left
  off : s.phase = .draining .concurrent → s.concurrentMark = false

-- A step that keeps the objects sheltered and gives none of them back that has
-- been condemned.
structure Shelters (s s' : World) : Prop where
  sheltered : s'.Sheltered
  back : ∀ o ∈ s.objects, s'.Kept o → s.Kept o

theorem Left.clean_of_marking (h : s.Left)
    (hphase : s.phase = .marking ∨ ∃ cycle, s.phase = .draining cycle) : s.Clean := by
  refine fun r => Bool.eq_false_iff.mpr fun hr => ?_
  rcases h r hr with ⟨todo, hsweeping, -⟩ | ⟨-, hidle | ⟨_, _, hsweeping, -⟩⟩
  · rcases hphase with hphase | ⟨cycle, hphase⟩ <;> rw [hphase] at hsweeping <;> cases hsweeping
  · rcases hphase with hphase | ⟨cycle, hphase⟩ <;> rw [hphase] at hidle <;> cases hidle
  · rcases hphase with hphase | ⟨cycle, hphase⟩ <;> rw [hphase] at hsweeping <;> cases hsweeping

theorem Left.clean_of_flag (h : s.Left) (hrun : s.phase.stopped = false)
    (hflag : s.concurrentMark = true) : s.Clean := by
  refine fun r => Bool.eq_false_iff.mpr fun hr => ?_
  rcases h r hr with ⟨todo, hsweeping, -⟩ | ⟨hoff, -⟩
  · rw [hsweeping] at hrun
    cases hrun
  · rw [hflag] at hoff
    cases hoff

theorem Clean.left (h : s.Clean) : s.Left := fun r hr => by
  rw [h] at hr
  cases hr

-- A step after which the same objects are kept and refer to nothing that is not.
theorem Sheltered.of_kept (h : s.Sheltered) (hkept : ∀ o, s'.Kept o ↔ s.Kept o)
    (hedge : ∀ o x, s.Kept o → s'.graph.Edge o x → s.graph.Edge o x ∨ s.Kept x)
    (hweak : ∀ o x, s'.weak o = some x → s.weak o = some x) (hroots : ∀ r ∈ s'.roots, s.Kept r)
    (hleft : s'.Left) (hoff : s'.phase = .draining .concurrent → s'.concurrentMark = false) :
    s.Shelters s' := by
  refine ⟨⟨fun o x ho hox => ?_, fun o x ho hox => ?_, fun r hr => ?_, hleft, hoff⟩,
    fun o _ ho => (hkept o).mp ho⟩
  · rw [hkept] at ho ⊢
    exact (hedge o x ho hox).elim (h.edges o x ho) id
  · rw [hkept] at ho ⊢
    exact h.weak o x ho (hweak o x hox)
  · rw [hkept]
    exact hroots r hr

theorem Left.of_beside (h : s.Left) (hbeside : s.Beside s')
    (htoSweep : ∀ r, (s'.regions r).toSweep = true → (s.regions r).toSweep = true) : s'.Left := by
  intro r hr
  rw [hbeside.phase, hbeside.concurrentMark]
  exact h r (htoSweep r hr)

-- A step of a mutator that changes no object and no mark bit.
theorem Sheltered.setThread (h : s.Sheltered) (hbeside : s.Beside s') {m m' : Mutator}
    (hm : s.threads[t]? = some m) (hgraph : s'.graph = s.graph) (hobjects : s'.objects = s.objects)
    (hhome : s'.home = s.home) (hregions : s'.regions = s.regions) (hmarks : s'.marks = s.marks)
    (hweak : s'.weak = s.weak) (hthreads : s'.threads = s.threads.set t m')
    (hroots : ∀ r ∈ m'.roots, r ∈ m.roots ∨ s.Kept r) : s.Shelters s' := by
  refine h.of_kept (fun o => ?_) (fun o x _ hox => Or.inl ?_) (fun o x hox => ?_) (fun r hr => ?_)
    (h.left.of_beside hbeside fun r hr => ?_) fun hdraining => ?_
  · rw [Kept, Kept, Condemned, Condemned, hobjects, hhome, hregions, hmarks]
  · rw [hgraph] at hox
    exact hox
  · rw [hweak] at hox
    exact hox
  · rcases roots_of_set hthreads hr with hr | hr
    · exact h.roots r hr
    · exact (hroots r hr).elim (fun hr => h.roots r (mem_roots (List.mem_of_getElem? hm) hr)) id
  · rw [hregions] at hr
    exact hr
  · rw [hbeside.phase] at hdraining
    exact absurd hdraining (not_draining hbeside.running _)

theorem Sheltered.stepStore (h : s.Sheltered) {obj : Nat} {slot : Slot} {value : Option Nat}
    (hbeside : s.Beside s') (hstep : s.stepStore t obj slot value = some s') : s.Shelters s' := by
  obtain ⟨-, m, hm, -, hobj, hvalue, htraced, rfl⟩ := stepStore_cases hstep
  have hmem := List.mem_of_getElem? hm
  refine h.of_kept (fun o => Iff.rfl) (fun o x ho hox => ?_) (fun o x hox => hox) (fun r hr => ?_)
    (h.left.of_beside hbeside fun r hr => hr) fun hdraining =>
      absurd hdraining (not_draining hbeside.running _)
  · obtain ⟨slot', href⟩ := hox
    have href' := (writeSlot_ref htraced value o slot').symm.trans href
    split at href'
    · exact Or.inr (h.roots x (mem_roots hmem (hvalue x href')))
    · exact Or.inl ⟨slot', href'⟩
  · rcases roots_of_set rfl hr with hr | hr
    · exact h.roots r hr
    · exact h.roots r (mem_roots hmem hr)

-- A new object refers to roots, and its region is not to be swept.
theorem Sheltered.stepAllocate (h : s.Sheltered) (harranged : s.Arranged c) {new : NewObject}
    (hbeside : s.Beside s') (hstep : s.stepAllocate c t new = some s') : s.Shelters s' := by
  obtain ⟨-, m, regions, hm, -, hnew, hrefs, hweak, hplace, heq⟩ := stepAllocate_cases hstep
  have hthreads : s'.threads = s.threads.set t { m with roots := new.obj :: m.roots } := by rw [heq]; rfl
  have hobjects : s'.objects = new.obj :: s.objects := by rw [heq]
  have hregions : s'.regions = regions := by rw [heq]
  have hhome {o : Nat} (ho : o ≠ new.obj) : s'.home o = s.home o := by
    rw [heq]
    exact Function.update_of_ne ho _ _
  have hmarks {o : Nat} (ho : o ≠ new.obj) : s'.marks o = s.marks o := by
    rw [heq]
    show (if _ then Function.update s.marks new.obj true else s.marks) o = s.marks o
    split
    · exact Function.update_of_ne ho true s.marks
    · rfl
  have hroot {r : Nat} (hr : r ∈ m.roots) : s.Kept r :=
    h.roots r (mem_roots (List.mem_of_getElem? hm) hr)
  have hself : s'.Kept new.obj := by
    refine ⟨hobjects ▸ List.mem_cons_self, fun hcondemned => ?_⟩
    have hflag := hcondemned.1
    rw [hregions, show s'.home new.obj = new.region by rw [heq]; exact Function.update_self _ _ _,
      (place_region hplace).2] at hflag
    cases hflag
  have hkeep {o : Nat} (ho : s.Kept o) : s'.Kept o := by
    have hne : o ≠ new.obj := fun heq => hnew (heq ▸ ho.1)
    refine ⟨hobjects ▸ List.mem_cons_of_mem _ ho.1, fun hcondemned => ho.2 ⟨?_, ?_⟩⟩
    · have hflag := hcondemned.1
      rw [hregions, hhome hne] at hflag
      exact place_toSweep hplace hflag
    · rw [← hmarks hne]
      exact hcondemned.2
  have hback {o : Nat} (ho : o ∈ s.objects) (hkept : s'.Kept o) : s.Kept o := by
    have hne : o ≠ new.obj := fun heq => hnew (heq ▸ ho)
    refine ⟨ho, fun hcondemned => hkept.2 ⟨?_, ?_⟩⟩
    · rw [hregions, hhome hne, place_unswept hplace (harranged.home o ho) hcondemned.1]
      exact hcondemned.1
    · rw [hmarks hne]
      exact hcondemned.2
  have hold {o : Nat} (ho : s'.Kept o) (hne : o ≠ new.obj) : s.Kept o := by
    have hmem := ho.1
    rw [hobjects] at hmem
    exact hback ((List.mem_cons.mp hmem).resolve_left hne) ho
  refine ⟨⟨fun o x ho hox => ?_, fun o x ho hox => ?_, fun r hr => ?_, ?_, fun hdraining => ?_⟩,
    fun o ho hkept => hback ho hkept⟩
  · obtain ⟨slot, href⟩ := hox
    by_cases hne : o = new.obj
    · subst hne
      rw [show s'.graph new.obj = new.object by rw [heq]; exact Function.update_self _ _ _] at href
      obtain ⟨entry, hentry, rfl⟩ := Object.ref_mem href
      exact hkeep (hroot (hrefs entry hentry))
    · rw [show s'.graph o = s.graph o by rw [heq]; exact Function.update_of_ne hne _ _] at href
      exact hkeep (h.edges o x (hold ho hne) ⟨slot, href⟩)
  · by_cases hne : o = new.obj
    · subst hne
      rw [show s'.weak new.obj = new.weak by rw [heq]; exact Function.update_self _ _ _] at hox
      exact hkeep (hroot (hweak x hox))
    · rw [show s'.weak o = s.weak o by rw [heq]; exact Function.update_of_ne hne _ _] at hox
      exact hkeep (h.weak o x (hold ho hne) hox)
  · rcases roots_of_set hthreads hr with hr | hr
    · exact hkeep (h.roots r hr)
    · rcases List.mem_cons.mp hr with rfl | hr
      · exact hself
      · exact hkeep (hroot hr)
  · exact h.left.of_beside hbeside fun r hr => place_toSweep hplace (hregions ▸ hr)
  · rw [hbeside.phase] at hdraining
    exact absurd hdraining (not_draining hbeside.running _)

-- Where no region is left to be swept before and after a step, all objects are kept.
theorem Sheltered.of_clean (h : s.Sheltered) (hclean : s.Clean) (hregions : s'.regions = s.regions)
    (hobjects : s'.objects = s.objects) (hgraph : s'.graph = s.graph)
    (hweak : ∀ o x, s'.weak o = some x → s.weak o = some x)
    (hroots : ∀ r ∈ s'.roots, r ∈ s.roots)
    (hoff : s'.phase = .draining .concurrent → s'.concurrentMark = false) : s.Shelters s' := by
  have hclean' : s'.Clean := fun r => by rw [hregions, hclean]
  refine h.of_kept (fun o => ?_) (fun o x _ hox => Or.inl ?_) hweak (fun r hr => h.roots r (hroots r hr))
    hclean'.left hoff
  · rw [hclean'.kept_iff, hclean.kept_iff, hobjects]
  · rw [hgraph] at hox
    exact hox

theorem Sheltered.stepThread (h : s.Sheltered) (htidy : s.Tidy) (hbeside : s.Beside s')
    (hstep : s.stepThread c t = some s') : s.Shelters s' := by
  obtain ⟨hrun, m, hm, hcases⟩ := stepThread_cases hstep
  have hdraining (hp : s'.phase = .draining .concurrent) : s'.concurrentMark = false := by
    rw [hbeside.phase] at hp
    exact absurd hp (not_draining hrun _)
  rcases hcases with ⟨obj, -, hplace, rfl⟩ | ⟨obj, todo, next, -, rfl⟩ | ⟨-, -, rfl⟩ |
    ⟨obj, todo, next, -, rfl⟩ | ⟨obj, -, rfl⟩ | ⟨-, rfl⟩
  · -- A mark bit is only cleared while the barriers are on.
    have hflag : s.concurrentMark = true := by
      by_contra hoff
      have hcalm := htidy.threads (Or.inl (Bool.eq_false_iff.mpr hoff)) m (List.mem_of_getElem? hm)
      have hquiet := hcalm.place
      rw [hplace] at hquiet
      cases hquiet
    refine h.of_clean (h.left.clean_of_flag hrun hflag) rfl rfl rfl (fun o x hox => hox)
      (fun r hr => ?_) hdraining
    rcases roots_of_set rfl hr with hr | hr
    · exact hr
    · rw [Mutator.enqueue_roots] at hr
      exact mem_roots (List.mem_of_getElem? hm) hr
  · exact h.setThread hbeside hm rfl rfl rfl rfl rfl rfl rfl fun r hr => Or.inl hr
  · refine h.of_kept (fun o => Iff.rfl) (fun o x _ hox => Or.inl hox) (fun o x hox => hox)
      (fun r hr => ?_) (h.left.of_beside hbeside fun r hr => hr) hdraining
    obtain ⟨x, hx, hrx⟩ := List.mem_flatMap.mp hr
    exact h.roots r (mem_roots (List.mem_of_mem_eraseIdx hx) hrx)
  · exact h.setThread hbeside hm rfl rfl rfl rfl rfl rfl rfl fun r hr => Or.inl hr
  · refine h.setThread hbeside hm rfl rfl rfl rfl rfl rfl rfl fun r hr => Or.inl ?_
    rw [Mutator.rawWriteBarrier_roots] at hr
    exact hr
  · exact h.setThread hbeside hm rfl rfl rfl rfl rfl rfl rfl fun r hr => Or.inl hr

theorem Sheltered.mutator (h : s.Sheltered) (harranged : s.Arranged c) (htidy : s.Tidy) {e : Event}
    (hstep : s.step c e = some s') (he : e.ofMutator = true) : s.Shelters s' := by
  have hbeside := step_of_mutator hstep he
  cases e with
  | load t obj slot =>
      obtain ⟨-, m, ref, hm, hobj, href, rfl⟩ := stepLoad_cases hstep
      refine h.setThread hbeside hm rfl rfl rfl rfl rfl rfl rfl fun r hr => ?_
      rcases List.mem_cons.mp hr with rfl | hr
      · have hroot := h.roots obj (mem_roots (List.mem_of_getElem? hm) hobj)
        exact Or.inr (h.edges obj r hroot ⟨slot, href⟩)
      · exact Or.inl hr
  | writeBarrier t obj =>
      obtain ⟨-, m, hm, -, -, rfl⟩ := stepWriteBarrier_cases hstep
      refine h.setThread hbeside hm rfl rfl rfl rfl rfl rfl rfl fun r hr => Or.inl ?_
      rw [Mutator.rawWriteBarrier_roots] at hr
      exact hr
  | store t obj slot value => exact h.stepStore hbeside hstep
  | allocate t new => exact h.stepAllocate harranged hbeside hstep
  | drop t obj =>
      obtain ⟨-, m, hm, -, rfl⟩ := stepDrop_cases hstep
      exact h.setThread hbeside hm rfl rfl rfl rfl rfl rfl rfl fun r hr =>
        Or.inl (List.mem_of_mem_erase hr)
  | upgrade t weak =>
      obtain ⟨-, m, target, hm, hweak, htarget, rfl⟩ := stepUpgrade_cases hstep
      refine h.setThread hbeside hm rfl rfl rfl rfl rfl rfl rfl fun r hr => ?_
      rcases List.mem_cons.mp hr with rfl | hr
      · have hroot := h.roots weak (mem_roots (List.mem_of_getElem? hm) hweak)
        exact Or.inr (h.weak weak r hroot htarget)
      · exact Or.inl hr
  | attach =>
      obtain ⟨-, rfl⟩ := guard_not_eq_some.mp hstep
      refine h.of_kept (fun o => Iff.rfl) (fun o x _ hox => Or.inl hox) (fun o x hox => hox)
        (fun r hr => ?_) (h.left.of_beside hbeside fun r hr => hr) fun hdraining =>
          absurd hdraining (not_draining hbeside.running _)
      obtain ⟨x, hx, hrx⟩ := List.mem_flatMap.mp hr
      rcases List.mem_append.mp hx with hx | hx
      · exact h.roots r (mem_roots hx hrx)
      · rw [List.mem_singleton.mp hx] at hrx
        cases hrx
  | detach t =>
      obtain ⟨-, m, hm, -, rfl⟩ := stepDetach_cases hstep
      exact h.setThread hbeside hm rfl rfl rfl rfl rfl rfl rfl fun r hr => Or.inl hr
  | step t => exact h.stepThread htidy hbeside hstep
  | _ => cases he

theorem roots_map {f : Mutator → Mutator} (hroots : ∀ m, (f m).roots = m.roots) :
    ({ s with threads := s.threads.map f } : World).roots = s.roots := by
  simp [roots, List.flatMap_map, hroots]

theorem processWeak_weak {o x : Nat} (h : s.processWeak.weak o = some x) : s.weak o = some x := by
  simp only [processWeak] at h
  split at h
  · exact (Option.filter_eq_some_iff.mp h).1
  · exact h

theorem Clean.prepareUnsweptRegions (h : s.Clean) (r : Nat) :
    (s.prepareUnsweptRegions.regions r).toSweep = true ↔ (s.regions r).holdsObjects = true := by
  unfold World.prepareUnsweptRegions
  by_cases hholds : (s.regions r).holdsObjects = true
  · simp [hholds]
  · simp [hholds, h r]

-- A finished marking condemns what is not marked, and nothing marked refers to it.
theorem Sheltered.stepFinishMark (h : s.Sheltered) (harranged : s.Arranged c) (htracing : s.Tracing)
    (hstep : s.stepFinishMark c = some s') : s.Shelters s' := by
  obtain ⟨hwork, ⟨hphase, rfl⟩ | ⟨cycle, hcycle, hphase, rfl⟩⟩ := stepFinishMark_cases hstep
  · exact h.of_clean (h.left.clean_of_marking (Or.inr ⟨_, hphase⟩)) rfl rfl rfl
      (fun o x hox => processWeak_weak hox) (fun r hr => hr) fun hdraining => by cases hdraining
  · have hclean := h.left.clean_of_marking (Or.inr ⟨_, hphase⟩)
    obtain ⟨hguarded, hroots⟩ := htracing.drained cycle hphase
    have hdone (x : Nat) : ¬s.tasks.source x := by
      rintro ⟨op, hop, -⟩
      simp only [hwork] at hop
      cases hop
    have hedge {a b : Nat} (ha : s.marks a = true) (hab : s.graph.Edge a b) : s.marks b = true :=
      hguarded.marked_of_done hdone (Or.inl ha) (Relation.ReflTransGen.single hab)
    have hflag (r : Nat) : (s.processWeak.finalize.prepareUnsweptRegions.regions r).toSweep = true ↔
        (s.regions r).holdsObjects = true := by
      have hclean' : s.processWeak.finalize.Clean := hclean
      exact hclean'.prepareUnsweptRegions r
    have hkept (o : Nat) : World.Kept { s.processWeak.finalize.prepareUnsweptRegions with
        phase := .sweeping cycle (List.range c.numRegions) } o ↔ o ∈ s.objects ∧ s.marks o = true := by
      refine ⟨fun ho => ⟨ho.1, ?_⟩, fun ho => ⟨ho.1, fun hcondemned => ?_⟩⟩
      · by_contra hmark
        exact ho.2 ⟨(hflag _).mpr (harranged.home o ho.1), Bool.eq_false_iff.mpr hmark⟩
      · exact absurd ho.2 (Bool.eq_false_iff.mp hcondemned.2)
    refine ⟨⟨fun o x ho hox => ?_, fun o x ho hox => ?_, fun r hr => ?_, fun r hr => ?_,
      fun hdraining => by cases hdraining⟩, fun o ho _ => hclean.kept_iff.mpr ho⟩
    · rw [hkept] at ho ⊢
      exact ⟨(h.edges o x (hclean.kept_iff.mpr ho.1) hox).1, hedge ho.2 hox⟩
    · rw [hkept] at ho ⊢
      have hweak : (if s.marks o then (s.weak o).filter s.marks else s.weak o) = some x := hox
      rw [if_pos ho.2] at hweak
      obtain ⟨hold, hmark⟩ := Option.filter_eq_some_iff.mp hweak
      exact ⟨(h.weak o x (hclean.kept_iff.mpr ho.1) hold).1, hmark⟩
    · rw [hkept]
      exact ⟨(h.roots r hr).1, hroots r hr⟩
    · cases cycle with
      | concurrent => exact Or.inr ⟨h.off hphase, Or.inr ⟨_, _, rfl, by simp⟩⟩
      | degenerated => exact absurd rfl hcycle
      | full =>
          have hlt := harranged.inside r ((hflag r).mp hr)
          exact Or.inl ⟨_, rfl, List.mem_range.mpr hlt⟩

theorem Arranged.frees_iff (h : s.Arranged c) {r o : Nat} (ho : o ∈ s.objects) :
    s.frees r o = true ↔ s.home o = r ∧ s.Condemned o := by
  have hholds := h.home o ho
  unfold frees Condemned
  constructor
  · intro hfree
    simp only [Bool.and_eq_true, Bool.not_eq_true', beq_iff_eq] at hfree
    obtain ⟨⟨⟨hflag, -⟩, rfl⟩, hmark⟩ := hfree
    exact ⟨rfl, hflag, hmark⟩
  · rintro ⟨rfl, hflag, hmark⟩
    simp [hflag, hholds, hmark]

-- The sweep of a region frees only what has been condemned.
theorem Sheltered.stepSweep (h : s.Sheltered) (harranged : s.Arranged c) {r : Nat}
    (hstep : s.stepSweep r = some s') : s.Shelters s' := by
  obtain ⟨cycle, todo, hphase, -, rfl⟩ := stepSweep_cases hstep
  have hfrees {o : Nat} (ho : s.Kept o) : s.frees r o = false :=
    Bool.eq_false_iff.mpr fun hfree => ho.2 ((harranged.frees_iff ho.1).mp hfree).2
  refine h.of_kept (fun o => ⟨fun ho => ?_, fun ho => ⟨?_, fun hcondemned => ho.2 ⟨?_, ?_⟩⟩⟩)
    (fun o x ho hox => Or.inl ?_) (fun o x hox => hox) (fun x hx => h.roots x hx) (fun i hi => ?_)
    fun hdraining => by cases hdraining
  · obtain ⟨hmem, hkept⟩ := List.mem_filter.mp ho.1
    refine ⟨hmem, fun hcondemned => ho.2 ⟨sweptRegions_toSweep.mpr ⟨fun hhome => ?_, ?_⟩, ?_⟩⟩
    · -- In its own region it would have been freed.
      have hfree := (harranged.frees_iff hmem).mpr ⟨hhome, hcondemned⟩
      rw [hfree] at hkept
      cases hkept
    · exact hcondemned.1
    · exact hcondemned.2
  · refine List.mem_filter.mpr ⟨ho.1, ?_⟩
    rw [hfrees ho]
    rfl
  · exact (sweptRegions_toSweep.mp hcondemned.1).2
  · exact hcondemned.2
  · obtain ⟨slot, href⟩ := hox
    refine ⟨slot, ?_⟩
    simpa [sweepRegion, hfrees ho] using href
  · obtain ⟨hne, hflag⟩ := sweptRegions_toSweep.mp hi
    rcases h.left i hflag with ⟨todo', hsweeping, hmem⟩ | ⟨hoff, hidle | ⟨cycle', _, hsweeping, hne'⟩⟩
    · rw [hphase] at hsweeping
      obtain ⟨rfl, rfl⟩ := Phase.sweeping.inj hsweeping
      exact Or.inl ⟨_, rfl, (List.mem_erase_of_ne hne).mpr hmem⟩
    · rw [hphase] at hidle
      cases hidle
    · rw [hphase] at hsweeping
      obtain ⟨rfl, -⟩ := Phase.sweeping.inj hsweeping
      exact Or.inr ⟨hoff, Or.inr ⟨_, _, rfl, hne'⟩⟩

-- A step that changes only the phase and the flags of the heap.
theorem Sheltered.of_flags (h : s.Sheltered) (hregions : s'.regions = s.regions)
    (hobjects : s'.objects = s.objects) (hhome : s'.home = s.home) (hmarks : s'.marks = s.marks)
    (hgraph : s'.graph = s.graph) (hthreads : s'.threads = s.threads)
    (hweak : ∀ o x, s'.weak o = some x → s.weak o = some x) (hleft : s'.Left)
    (hoff : s'.phase = .draining .concurrent → s'.concurrentMark = false) : s.Shelters s' := by
  refine h.of_kept (fun o => ?_) (fun o x _ hox => Or.inl ?_) hweak (fun r hr => ?_) hleft hoff
  · rw [Kept, Kept, Condemned, Condemned, hobjects, hhome, hregions, hmarks]
  · rw [hgraph] at hox
    exact hox
  · rw [World.roots, hthreads] at hr
    exact h.roots r hr

theorem Left.of_idle (h : s.Left) (hphase : s.phase = .idle) {r : Nat}
    (hr : (s.regions r).toSweep = true) : s.concurrentMark = false := by
  rcases h r hr with ⟨todo, hsweeping, -⟩ | ⟨hoff, -⟩
  · rw [hphase] at hsweeping
    cases hsweeping
  · exact hoff

theorem Sheltered.stepDegenerate (h : s.Sheltered)
    (hclean : s.visitsStacks .degenerate = true → s.Clean)
    (hstep : s.stepDegenerate c = some s') : s.Shelters s' := by
  obtain ⟨⟨hphase, -⟩, hcases⟩ := stepDegenerate_cases hstep
  rcases hcases with ⟨-, rfl⟩ | ⟨hpoint, rfl⟩ | ⟨⟨hpoint, hflag⟩, rfl⟩ | ⟨-, rfl⟩
  · exact h.of_flags rfl rfl rfl rfl rfl rfl (fun o x hox => hox) h.left h.off
  · refine h.of_clean (hclean (by simp [visitsStacks, hpoint])) rfl rfl rfl (fun o x hox => hox)
      (fun r hr => ?_) fun hdraining => by cases hdraining
    have hsame := roots_map (s := s) (f := fun m =>
      { m with satbMarkQueue := [], cmInProgress := false }) fun _ => rfl
    exact hsame ▸ hr
  · refine h.of_clean (hclean (by simp [visitsStacks, hpoint, hflag])) rfl rfl rfl
      (fun o x hox => hox) (fun r hr => ?_) fun hdraining => by cases hdraining
    have hsame := roots_map (s := s) (f := fun m =>
      { m with satbMarkQueue := [], cmInProgress := false }) fun _ => rfl
    exact hsame ▸ hr
  · refine h.of_flags rfl rfl rfl rfl rfl rfl (fun o x hox => processWeak_weak hox)
      (fun r hr => ?_) fun hdraining => by cases hdraining
    exact Or.inr ⟨h.left.of_idle hphase hr, Or.inr ⟨_, _, rfl, by simp⟩⟩

theorem Orderly.clean {e : Event} (h : s.Orderly c e) (harranged : s.Arranged c)
    (hvisits : s.visitsStacks e = true) : s.Clean := by
  refine fun r => Bool.eq_false_iff.mpr fun hr => ?_
  rw [h.swept hvisits r (harranged.unswept r hr)] at hr
  cases hr

theorem Sheltered.step (h : s.Sheltered) (harranged : s.Arranged c) (htracing : s.Tracing) {e : Event}
    (horderly : s.Orderly c e) (hstep : s.step c e = some s') : s.Shelters s' := by
  have hclean := horderly.clean harranged
  cases e with
  | load | writeBarrier | store | allocate | drop | upgrade | attach | detach | step =>
      exact h.mutator harranged htracing.tidy hstep rfl
  | mark i =>
      obtain ⟨hphase, op, marks, ops, -, -, rfl⟩ := stepMark_cases hstep
      exact h.of_clean (h.left.clean_of_marking hphase) rfl rfl rfl (fun o x hox => hox)
        (fun r hr => hr) h.off
  | initMark =>
      obtain ⟨-, rfl⟩ := guard_eq_some.mp hstep
      refine h.of_clean (hclean rfl) rfl rfl rfl (fun o x hox => hox) (fun r hr => ?_)
        fun hdraining => by cases hdraining
      have hsame := roots_map (s := s) (f := fun m => { m with cmInProgress := true }) fun _ => rfl
      exact hsame ▸ hr
  | finalMark =>
      obtain ⟨⟨hphase, -⟩, rfl⟩ := guard_eq_some.mp hstep
      exact h.of_clean (hclean rfl) rfl rfl rfl (fun o x hox => hox)
        (fun r hr => flushThreads_roots (c := c) (s := s.collectRoots) ▸ hr) fun _ => rfl
  | finishMark => exact h.stepFinishMark harranged htracing hstep
  | sweep r => exact h.stepSweep harranged hstep
  | skip r =>
      obtain ⟨todo, hphase, -, rfl⟩ := stepSkip_cases hstep
      refine h.of_flags rfl rfl rfl rfl rfl rfl (fun o x hox => hox) (fun i hi => ?_)
        fun hdraining => by cases hdraining
      rcases h.left i hi with ⟨_, hsweeping, -⟩ | ⟨hoff, -⟩
      · rw [hphase] at hsweeping
        cases hsweeping
      · exact Or.inr ⟨hoff, Or.inr ⟨_, _, rfl, by simp⟩⟩
  | finish =>
      obtain ⟨cycle, hphase, rfl⟩ := stepFinish_cases hstep
      refine h.of_flags rfl rfl rfl rfl rfl rfl (fun o x hox => hox) (fun i hi => ?_)
        fun hdraining => by cases hdraining
      rcases h.left i hi with ⟨todo, hsweeping, hmem⟩ | ⟨hoff, -⟩
      · rw [hphase] at hsweeping
        obtain ⟨-, rfl⟩ := Phase.sweeping.inj hsweeping
        cases hmem
      · exact Or.inr ⟨hoff, Or.inl rfl⟩
  | cancel =>
      obtain ⟨-, rfl⟩ := guard_not_eq_some.mp hstep
      exact h.of_flags rfl rfl rfl rfl rfl rfl (fun o x hox => hox) h.left h.off
  | abort =>
      obtain ⟨⟨hphase, -, -⟩, rfl⟩ := guard_eq_some.mp hstep
      exact h.of_clean (h.left.clean_of_marking (Or.inl hphase)) rfl rfl rfl (fun o x hox => hox)
        (fun r hr => hr) fun hdraining => by cases hdraining
  | full =>
      obtain ⟨-, rfl⟩ := guard_eq_some.mp hstep
      exact h.of_clean (hclean rfl) rfl rfl rfl (fun o x hox => hox) (fun r hr => hr)
        fun hdraining => by cases hdraining
  | degenerate => exact h.stepDegenerate hclean hstep

end World

end Rsgc.Collection
