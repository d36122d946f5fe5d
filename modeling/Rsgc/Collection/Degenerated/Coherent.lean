import Rsgc.Collection.Degenerated.Sweep

namespace Rsgc.Collection

open Marking Storage

-- An array that the marking cuts up rightly.
def Brief (o : Object) : Prop := o.iterateRange = true → o.length ≤ 2 ^ 30

-- The condition on the steps: no array is allocated that is longer.
def Event.Brief : Event → Prop
  | .allocate _ new => Collection.Brief new.object
  | _ => True

-- A heap from `Heap::new` on, with all that can happen to it.
def lifetime (c : Config) : Machine World Event where
  init := World.Created
  step := World.step c

namespace World

variable {c : Config} {s s' : World}

-- What every state of such a run is.
structure Coherent (c : Config) (s : World) : Prop where
  arranged : s.Arranged c
  filled : s.Filled
  free : ∀ o, o ∉ s.objects → s.graph o = freeObject
  ok : ∀ op ∈ s.work, op.Ok
  brief : ∀ o, Brief (s.graph o)

theorem brief_freeObject : Brief freeObject := fun h => absurd h (by decide)

theorem Coherent.short (h : s.Coherent c) (op : Op) : op.Short s.graph := by
  cases op with
  | push t => exact fun _ hiter => h.brief t.obj hiter
  | scan | visit | spill => trivial

theorem Coherent.of_created (h : s.Created) : s.Coherent c := by
  have hnone {o : Nat} : o ∉ s.objects := by simp [h.objects]
  have hfree (r : Nat) : (s.regions r).isAvailable = true := by
    rcases h.regions r with htyp | htyp <;> simp [Region.isAvailable, htyp]
  have hempty {r : Nat} (hr : (s.regions r).holdsObjects = true) : False :=
    (Region.holdsObjects_iff.mp hr).elim (Region.isAvailable_ne (hfree r)).1
      (Region.isAvailable_ne (hfree r)).2.1
  refine ⟨⟨fun o ho => absurd ho hnone, fun r hr => (hempty hr).elim, fun r hr => ?_,
    fun r hr => ?_⟩, ⟨fun r hr => ?_, fun r hr => (hempty hr).elim⟩, h.fresh.free, ?_, fun o => ?_⟩
  · exact absurd hr (Region.isAvailable_ne (hfree r)).2.1
  · rw [h.toSweep] at hr
    cases hr
  · exact absurd hr (Region.isAvailable_ne (hfree r)).2.1
  · simp [h.fresh.work]
  · rw [h.fresh.free o hnone]
    exact brief_freeObject

theorem brief_step {e : Event} (hbrief : e.Brief) (hstep : s.step c e = some s')
    (h : ∀ o, Brief (s.graph o)) : ∀ o, Brief (s'.graph o) := by
  by_cases he : changesHeap e = false
  · rw [(step_frame hstep he).graph]
    exact h
  · intro o
    cases e with
    | store t obj slot value =>
        obtain ⟨-, m, -, -, -, -, htraced, rfl⟩ := stepStore_cases hstep
        by_cases heq : o = obj
        · subst heq
          simp only [Function.update_self]
          exact h o
        · simpa only [Function.update_of_ne heq] using h o
    | allocate t new =>
        obtain ⟨-, m, regions, -, -, -, -, -, -, rfl⟩ := stepAllocate_cases hstep
        by_cases heq : o = new.obj
        · subst heq
          simp only [Function.update_self]
          exact hbrief
        · simpa only [Function.update_of_ne heq] using h o
    | finishMark =>
        obtain ⟨-, ⟨-, rfl⟩ | ⟨cycle, -, -, rfl⟩⟩ := stepFinishMark_cases hstep <;> exact h o
    | sweep r =>
        obtain ⟨cycle, todo, -, -, rfl⟩ := stepSweep_cases hstep
        simp only [sweepRegion]
        split
        · exact brief_freeObject
        · exact h o
    | _ => exact absurd rfl he

-- A region gets its first object when it begins to hold objects.
theorem Filled.stepAllocate {t : Nat} (h : s.Filled) {new : NewObject}
    (hstep : s.stepAllocate c t new = some s') : s'.Filled := by
  obtain ⟨-, m, regions, -, -, hnew, -, -, hplace, rfl⟩ := stepAllocate_cases hstep
  have hold {r : Nat} (hr : ∃ o ∈ s.objects, s.home o = r) :
      ∃ o ∈ new.obj :: s.objects, Function.update s.home new.obj new.region o = r := by
    obtain ⟨o, ho, rfl⟩ := hr
    have hne : o ≠ new.obj := fun heq => hnew (heq ▸ ho)
    exact ⟨o, List.mem_cons_of_mem _ ho, Function.update_of_ne hne _ _⟩
  have hfirst : ∃ o ∈ new.obj :: s.objects,
      Function.update s.home new.obj new.region o = new.region :=
    ⟨new.obj, List.mem_cons_self, Function.update_self _ _ _⟩
  rcases place_cases hplace with ⟨-, -, -, -, rfl⟩ | ⟨n, -, hpos, -, -, rfl⟩
  · refine ⟨fun r hr => ?_, fun r hr => ?_⟩
    · by_cases heq : r = new.region
      · simp [heq] at hr
      · simp only [Function.update_of_ne heq] at hr ⊢
        exact h.span r hr
    · by_cases heq : r = new.region
      · exact heq ▸ hfirst
      · simp only [Function.update_of_ne heq] at hr
        exact hold (h.object r hr)
  · refine ⟨fun r hr => ?_, fun r hr => ?_⟩
    · by_cases heq : r = new.region
      · simpa only [if_pos heq] using hpos
      · simp only [if_neg heq] at hr ⊢
        split at hr
        · cases hr
        · rename_i hout
          rw [if_neg hout]
          exact h.span r hr
    · by_cases heq : r = new.region
      · exact heq ▸ hfirst
      · simp only [if_neg heq] at hr
        split at hr
        · cases hr
        · exact hold (h.object r hr)

theorem Filled.stepSweep (h : s.Filled) {r : Nat} (hstep : s.stepSweep r = some s') :
    s'.Filled := by
  obtain ⟨cycle, todo, -, -, rfl⟩ := stepSweep_cases hstep
  refine ⟨fun i hi => ?_, fun i hi => ?_⟩
  · change (s.sweptRegions r i).typ = _ at hi
    change 0 < (s.sweptRegions r i).span
    rw [sweptRegions_span]
    exact h.span i ((sweptRegions_kept (by simp [hi])).2.symm.trans hi)
  · change (s.sweptRegions r i).holdsObjects = true at hi
    have htyp : (s.sweptRegions r i).typ ≠ .trash := fun heq => by
      simp [Region.holdsObjects, heq] at hi
    obtain ⟨hout, hsame⟩ := sweptRegions_kept htyp
    have hholds : (s.regions i).holdsObjects = true := by
      rwa [Region.holdsObjects, hsame] at hi
    obtain ⟨o, ho, rfl⟩ := h.object i hholds
    by_cases hfrees : s.frees r o = true
    · -- The sweep has found another object to keep in the region.
      have hparts := hfrees
      unfold frees at hparts
      simp only [Bool.and_eq_true, Bool.not_eq_true', beq_iff_eq] at hparts
      obtain ⟨⟨⟨hflag, -⟩, rfl⟩, -⟩ := hparts
      have hextent := h.extent_pos (s.home o)
      have hoccupied : s.Occupied (s.home o) := by
        by_contra hnone
        exact hout ⟨⟨hflag, hholds, hnone⟩, le_rfl, by omega⟩
      obtain ⟨x, hx, hhome, hmark⟩ := hoccupied
      refine ⟨x, List.mem_filter.mpr ⟨hx, ?_⟩, hhome⟩
      simp [frees, hmark]
    · exact ⟨o, List.mem_filter.mpr ⟨ho, by simpa using hfrees⟩, rfl⟩

theorem Filled.of_same (h : s.Filled) (hobjects : s'.objects = s.objects)
    (hhome : s'.home = s.home) (htyp : ∀ r, (s'.regions r).typ = (s.regions r).typ)
    (hspan : ∀ r, (s'.regions r).span = (s.regions r).span) : s'.Filled where
  span r hr := by
    rw [htyp] at hr
    rw [hspan]
    exact h.span r hr
  object r hr := by
    rw [Region.holdsObjects, htyp] at hr
    rw [hobjects, hhome]
    exact h.object r hr

theorem Filled.step (h : s.Filled) {e : Event} (hstep : s.step c e = some s') :
    s'.Filled := by
  by_cases he : changesHeap e = false
  · have hsame := step_frame hstep he
    exact h.of_same hsame.objects hsame.home (fun r => by rw [hsame.regions])
      fun r => by rw [hsame.regions]
  · cases e with
    | store t obj slot value =>
        obtain ⟨-, m, -, -, -, -, -, rfl⟩ := stepStore_cases hstep
        exact h.of_same rfl rfl (fun r => rfl) fun r => rfl
    | allocate t new => exact h.stepAllocate hstep
    | finishMark =>
        obtain ⟨-, ⟨-, rfl⟩ | ⟨cycle, -, -, rfl⟩⟩ := stepFinishMark_cases hstep
        · exact h.of_same rfl rfl (fun r => rfl) fun r => rfl
        · exact h.of_same rfl rfl (prepared_typ _) (prepared_span _)
    | sweep r => exact h.stepSweep hstep
    | _ => exact absurd rfl he

theorem Coherent.work_step (h : s.Coherent c) {e : Event} (hstep : s.step c e = some s') :
    ∀ op ∈ s'.work, op.Ok := by
  cases e with
  | load | writeBarrier | store | allocate | drop | upgrade | attach | detach | step =>
      intro op hop
      rcases (step_of_mutator hstep rfl).work op hop with hop | ⟨obj, rfl⟩
      · exact h.ok op hop
      · exact isFresh_ok obj
  | mark i =>
      obtain ⟨-, op, marks, ops, hop, hdone, rfl⟩ := stepMark_cases hstep
      intro o ho
      rcases List.mem_append.mp ho with ho | ho
      · exact Op.step_ok hdone (h.ok op (List.mem_of_getElem? hop)) (h.short op) o ho
      · exact h.ok o (List.mem_of_mem_eraseIdx ho)
  | initMark =>
      obtain ⟨-, rfl⟩ := guard_eq_some.mp hstep
      exact collectRoots_ok (s := s.prepareGc.toggleWriteBarrier true) h.ok
  | finalMark =>
      obtain ⟨-, rfl⟩ := guard_eq_some.mp hstep
      exact flushThreads_ok (collectRoots_ok h.ok)
  | full =>
      obtain ⟨-, rfl⟩ := guard_eq_some.mp hstep
      exact collectRoots_ok (s := s.prepareGc) h.ok
  | degenerate =>
      obtain ⟨-, ⟨-, rfl⟩ | ⟨-, rfl⟩ | ⟨-, rfl⟩ | ⟨-, rfl⟩⟩ := stepDegenerate_cases hstep
      · exact h.ok
      · exact collectRoots_ok (s := s.prepareGc.cancelMark) h.ok
      · exact flushThreads_ok (collectRoots_ok h.ok)
      · exact h.ok
  | finishMark =>
      obtain ⟨-, ⟨-, rfl⟩ | ⟨cycle, -, -, rfl⟩⟩ := stepFinishMark_cases hstep <;> exact h.ok
  | sweep r =>
      obtain ⟨cycle, todo, -, -, rfl⟩ := stepSweep_cases hstep
      exact h.ok
  | skip r =>
      obtain ⟨todo, -, -, rfl⟩ := stepSkip_cases hstep
      exact h.ok
  | finish =>
      obtain ⟨cycle, -, rfl⟩ := stepFinish_cases hstep
      exact h.ok
  | cancel =>
      obtain ⟨-, rfl⟩ := guard_not_eq_some.mp hstep
      exact h.ok
  | abort =>
      obtain ⟨-, rfl⟩ := guard_eq_some.mp hstep
      exact h.ok

theorem Coherent.step (h : s.Coherent c) {e : Event} (hbrief : e.Brief)
    (hstep : s.step c e = some s') : s'.Coherent c where
  arranged := h.arranged.step hstep
  filled := h.filled.step hstep
  free := free_step hstep h.free
  ok := h.work_step hstep
  brief := brief_step hbrief hstep h.brief

-- In a pause nothing is allocated.
theorem Coherent.pause (h : s.Coherent c) (hstop : s.phase.stopped = true) {e : Event}
    (hstep : s.step c e = some s') : s'.Coherent c := by
  refine h.step ?_ hstep
  cases e with
  | allocate t new =>
      have hrun := (stepAllocate_cases hstep).1
      rw [hstop] at hrun
      cases hrun
  | _ => trivial

theorem coherent_of_lifetime (hs : (lifetime c).Via (fun _ e => e.Brief) s) : s.Coherent c :=
  Machine.Via.invariant (P := Coherent c) (fun _ hs => .of_created hs)
    (fun _ _ _ h hbrief hstep => h.step hbrief hstep) hs

end World

end Rsgc.Collection
