import Rsgc.Collection.Degenerated

namespace Rsgc.Collection

open Marking Storage

namespace World

variable {c : Config} {s s' : World} {t : Nat} {keep : Nat → Prop}

-- What the threads can come to, also over weak references, is allocated, and no sweep that is
-- under way frees it. Other objects may refer to anything.
structure Keeps (s : World) (keep : Nat → Prop) : Prop where
  objects : ∀ o, keep o → o ∈ s.objects
  roots : ∀ r ∈ s.roots, keep r
  edges : ∀ o x, keep o → s.graph.Edge o x → keep x
  weak : ∀ o x, keep o → s.weak o = some x → keep x
  spared : s.Sweepable → ∀ o, keep o → ¬s.Condemned o

theorem Keeps.reaches (h : s.Keeps keep) {o : Nat} (ho : s.Reaches o) : keep o := by
  obtain ⟨r, hr, hpath⟩ := ho
  induction hpath with
  | refl => exact h.roots r hr
  | tail _ hedge ih => exact h.edges _ _ ih hedge

-- A step that changes no object and no mark bit, and begins no sweep.
theorem Keeps.of_same (h : s.Keeps keep) (hsame : s.SameHeap s') (hmarks : s'.marks = s.marks)
    (hweak : ∀ o x, s'.weak o = some x → s.weak o = some x)
    (hsweep : s'.Sweepable → s.Sweepable) (hroots : ∀ r ∈ s'.roots, keep r) : s'.Keeps keep where
  objects o ho := hsame.objects ▸ h.objects o ho
  roots := hroots
  edges o x ho hox := h.edges o x ho (hsame.graph ▸ hox)
  weak o x ho hox := h.weak o x ho (hweak o x hox)
  spared hs o ho hcondemned := by
    refine h.spared (hsweep hs) o ho ?_
    unfold Condemned at hcondemned ⊢
    rwa [hsame.regions, hsame.home, hmarks] at hcondemned

-- A step into a phase in which nothing is swept.
theorem Keeps.of_unswept (h : s.Keeps keep) (hsame : s.SameHeap s')
    (hweak : ∀ o x, s'.weak o = some x → s.weak o = some x) (hsweep : ¬s'.Sweepable)
    (hroots : ∀ r ∈ s'.roots, keep r) : s'.Keeps keep where
  objects o ho := hsame.objects ▸ h.objects o ho
  roots := hroots
  edges o x ho hox := h.edges o x ho (hsame.graph ▸ hox)
  weak o x ho hox := h.weak o x ho (hweak o x hox)
  spared hs := absurd hs hsweep

theorem Keeps.stepStore (h : s.Keeps keep) {obj : Nat} {slot : Slot} {value : Option Nat}
    (hstep : s.stepStore t obj slot value = some s') : s'.Keeps keep := by
  obtain ⟨-, m, hm, -, hobj, hvalue, htraced, rfl⟩ := stepStore_cases hstep
  have hmem := List.mem_of_getElem? hm
  refine ⟨h.objects, fun r hr => ?_, fun o x ho hox => ?_, h.weak, h.spared⟩
  · rcases roots_of_set rfl hr with hr | hr
    · exact h.roots r hr
    · exact h.roots r (mem_roots hmem hr)
  · obtain ⟨slot', href⟩ := hox
    have href' := (writeSlot_ref htraced value o slot').symm.trans href
    split at href'
    · exact h.roots x (mem_roots hmem (hvalue x href'))
    · exact h.edges o x ho ⟨slot', href'⟩

-- A new object refers to roots, and its region is not to be swept.
theorem Keeps.stepAllocate (h : s.Keeps keep) {new : NewObject}
    (hstep : s.stepAllocate c t new = some s') : s'.Keeps fun o => o = new.obj ∨ keep o := by
  obtain ⟨-, m, regions, hm, -, hnew, hrefs, hweak, hplace, rfl⟩ := stepAllocate_cases hstep
  have hroot {r : Nat} (hr : r ∈ m.roots) : keep r :=
    h.roots r (mem_roots (List.mem_of_getElem? hm) hr)
  have hne {o : Nat} (ho : keep o) : o ≠ new.obj := fun heq => hnew (heq ▸ h.objects o ho)
  refine ⟨fun o ho => ?_, fun r hr => ?_, fun o x ho hox => ?_, fun o x ho hox => ?_,
    fun hs o ho hcondemned => ?_⟩
  · exact List.mem_cons.mpr (ho.imp_right (h.objects o))
  · rcases roots_of_set rfl hr with hr | hr
    · exact Or.inr (h.roots r hr)
    · exact (List.mem_cons.mp hr).imp_right hroot
  · obtain ⟨slot, href⟩ := hox
    rcases ho with rfl | ho
    · simp only [Function.update_self] at href
      obtain ⟨entry, hentry, rfl⟩ := Object.ref_mem href
      exact Or.inr (hroot (hrefs entry hentry))
    · simp only [Function.update_of_ne (hne ho)] at href
      exact Or.inr (h.edges o x ho ⟨slot, href⟩)
  · rcases ho with rfl | ho
    · simp only [Function.update_self] at hox
      exact Or.inr (hroot (hweak x hox))
    · simp only [Function.update_of_ne (hne ho)] at hox
      exact Or.inr (h.weak o x ho hox)
  · obtain ⟨hflag, hmark⟩ := hcondemned
    rcases ho with rfl | ho
    · simp only [Function.update_self] at hflag
      rw [(place_region hplace).2] at hflag
      cases hflag
    · simp only [Function.update_of_ne (hne ho)] at hflag hmark
      refine h.spared (hs.of_same rfl rfl) o ho ⟨place_toSweep hplace hflag, ?_⟩
      split at hmark
      · rwa [Function.update_of_ne (hne ho)] at hmark
      · exact hmark

theorem Keeps.mutator (h : s.Keeps keep) (hflagged : s.Flagged) (htidy : s.Tidy) {e : Event}
    (hstep : s.step c e = some s') (he : e.ofMutator = true) : ∃ keep', s'.Keeps keep' := by
  have hbeside := step_of_mutator hstep he
  have hsweep (hs : s'.Sweepable) : s.Sweepable := hs.of_same hbeside.phase hbeside.degenPoint
  cases e with
  | load t obj slot =>
      have hsame := step_frame hstep rfl
      obtain ⟨-, m, ref, hm, hobj, href, rfl⟩ := stepLoad_cases hstep
      refine ⟨keep, h.of_same hsame rfl (fun o x hox => hox) hsweep fun r hr => ?_⟩
      have hroot := h.roots obj (mem_roots (List.mem_of_getElem? hm) hobj)
      rcases roots_of_set rfl hr with hr | hr
      · exact h.roots r hr
      · rcases List.mem_cons.mp hr with rfl | hr
        · exact h.edges obj r hroot ⟨slot, href⟩
        · exact h.roots r (mem_roots (List.mem_of_getElem? hm) hr)
  | writeBarrier t obj =>
      have hsame := step_frame hstep rfl
      obtain ⟨-, m, hm, -, -, rfl⟩ := stepWriteBarrier_cases hstep
      refine ⟨keep, h.of_same hsame rfl (fun o x hox => hox) hsweep fun r hr => ?_⟩
      rcases roots_of_set rfl hr with hr | hr
      · exact h.roots r hr
      · rw [Mutator.rawWriteBarrier_roots] at hr
        exact h.roots r (mem_roots (List.mem_of_getElem? hm) hr)
  | store t obj slot value => exact ⟨keep, h.stepStore hstep⟩
  | allocate t new => exact ⟨_, h.stepAllocate hstep⟩
  | drop t obj =>
      have hsame := step_frame hstep rfl
      obtain ⟨-, m, hm, -, rfl⟩ := stepDrop_cases hstep
      refine ⟨keep, h.of_same hsame rfl (fun o x hox => hox) hsweep fun r hr => ?_⟩
      rcases roots_of_set rfl hr with hr | hr
      · exact h.roots r hr
      · exact h.roots r (mem_roots (List.mem_of_getElem? hm) (List.mem_of_mem_erase hr))
  | upgrade t weak =>
      have hsame := step_frame hstep rfl
      obtain ⟨-, m, target, hm, hweak, htarget, rfl⟩ := stepUpgrade_cases hstep
      refine ⟨keep, h.of_same hsame rfl (fun o x hox => hox) hsweep fun r hr => ?_⟩
      have hroot := h.roots weak (mem_roots (List.mem_of_getElem? hm) hweak)
      rcases roots_of_set rfl hr with hr | hr
      · exact h.roots r hr
      · rcases List.mem_cons.mp hr with rfl | hr
        · exact h.weak weak r hroot htarget
        · exact h.roots r (mem_roots (List.mem_of_getElem? hm) hr)
  | attach =>
      have hsame := step_frame hstep rfl
      obtain ⟨-, rfl⟩ := guard_not_eq_some.mp hstep
      refine ⟨keep, h.of_same hsame rfl (fun o x hox => hox) hsweep fun r hr => ?_⟩
      obtain ⟨x, hx, hrx⟩ := List.mem_flatMap.mp hr
      rcases List.mem_append.mp hx with hx | hx
      · exact h.roots r (mem_roots hx hrx)
      · rw [List.mem_singleton.mp hx] at hrx
        cases hrx
  | detach t =>
      have hsame := step_frame hstep rfl
      obtain ⟨-, m, hm, -, rfl⟩ := stepDetach_cases hstep
      refine ⟨keep, h.of_same hsame rfl (fun o x hox => hox) hsweep fun r hr => ?_⟩
      rcases roots_of_set rfl hr with hr | hr
      · exact h.roots r hr
      · exact h.roots r (mem_roots (List.mem_of_getElem? hm) hr)
  | step t =>
      have hsame := step_frame hstep rfl
      obtain ⟨hrun, m, hm, hcases⟩ := stepThread_cases hstep
      have hmem := List.mem_of_getElem? hm
      rcases hcases with ⟨obj, -, hplace, rfl⟩ | ⟨obj, todo, next, -, rfl⟩ | ⟨-, -, rfl⟩ |
        ⟨obj, todo, next, -, rfl⟩ | ⟨obj, -, rfl⟩ | ⟨-, rfl⟩
      · -- No mark bit is cleared once the marks are final.
        have hnot (hs : s.Sweepable) : False := by
          have hquiet := (htidy.threads (Or.inl (hflagged.sweepable hs hrun)) m hmem).place
          rw [hplace] at hquiet
          cases hquiet
        refine ⟨keep, h.of_unswept hsame (fun o x hox => hox) (fun hs => hnot (hsweep hs))
          fun r hr => ?_⟩
        rcases roots_of_set rfl hr with hr | hr
        · exact h.roots r hr
        · rw [Mutator.enqueue_roots] at hr
          exact h.roots r (mem_roots hmem hr)
      · refine ⟨keep, h.of_same hsame rfl (fun o x hox => hox) hsweep fun r hr => ?_⟩
        rcases roots_of_set rfl hr with hr | hr
        · exact h.roots r hr
        · exact h.roots r (mem_roots hmem hr)
      · refine ⟨keep, h.of_same hsame rfl (fun o x hox => hox) hsweep fun r hr => ?_⟩
        obtain ⟨x, hx, hrx⟩ := List.mem_flatMap.mp hr
        exact h.roots r (mem_roots (List.mem_of_mem_eraseIdx hx) hrx)
      · refine ⟨keep, h.of_same hsame rfl (fun o x hox => hox) hsweep fun r hr => ?_⟩
        rcases roots_of_set rfl hr with hr | hr
        · exact h.roots r hr
        · exact h.roots r (mem_roots hmem hr)
      · refine ⟨keep, h.of_same hsame rfl (fun o x hox => hox) hsweep fun r hr => ?_⟩
        rcases roots_of_set rfl hr with hr | hr
        · exact h.roots r hr
        · rw [Mutator.rawWriteBarrier_roots] at hr
          exact h.roots r (mem_roots hmem hr)
      · refine ⟨keep, h.of_same hsame rfl (fun o x hox => hox) hsweep fun r hr => ?_⟩
        rcases roots_of_set rfl hr with hr | hr
        · exact h.roots r hr
        · exact h.roots r (mem_roots hmem hr)
  | _ => cases he

theorem unsweepable_of_phase (hidle : s.phase ≠ .idle)
    (hsweep : ∀ cycle todo, s.phase ≠ .sweeping cycle todo) : ¬s.Sweepable := by
  rintro (⟨cycle, todo, hphase⟩ | ⟨hphase, -⟩)
  · exact hsweep cycle todo hphase
  · exact hidle hphase

-- A finished marking has marked all that is kept, but for what only dead objects
-- and cleared weak references lead to.
theorem Keeps.stepFinishMark (h : s.Keeps keep) (htracing : s.Tracing)
    (hstep : s.stepFinishMark c = some s') :
    s'.Keeps fun o => keep o ∧ s.marks o = true := by
  have hdrained : ∃ cycle, s.phase = .draining cycle := by
    obtain ⟨-, ⟨hphase, -⟩ | ⟨cycle, -, hphase, -⟩⟩ := stepFinishMark_cases hstep
    · exact ⟨_, hphase⟩
    · exact ⟨cycle, hphase⟩
  obtain ⟨cycle, hphase⟩ := hdrained
  obtain ⟨hguarded, hroots⟩ := htracing.drained cycle hphase
  have hwork : s.work = [] := (stepFinishMark_cases hstep).1
  have hdone (x : Nat) : ¬s.tasks.source x := by
    rintro ⟨op, hop, -⟩
    simp only [hwork] at hop
    cases hop
  have hedge {a b : Nat} (ha : s.marks a = true) (hab : s.graph.Edge a b) : s.marks b = true :=
    hguarded.marked_of_done hdone (Or.inl ha) (Relation.ReflTransGen.single hab)
  have hweak {o x : Nat} (ho : s.marks o = true)
      (hox : (if s.marks o then (s.weak o).filter s.marks else s.weak o) = some x) :
      s.weak o = some x ∧ s.marks x = true := by
    rw [if_pos ho] at hox
    exact Option.filter_eq_some_iff.mp hox
  have hspared {o : Nat} (ho : s.marks o = true) (hmark : s.marks o = false) : False := by
    rw [ho] at hmark
    cases hmark
  obtain ⟨-, ⟨-, rfl⟩ | ⟨-, -, -, rfl⟩⟩ := stepFinishMark_cases hstep <;>
    exact ⟨fun o ho => h.objects o ho.1, fun r hr => ⟨h.roots r hr, hroots r hr⟩,
      fun o x ho hox => ⟨h.edges o x ho.1 hox, hedge ho.2 hox⟩,
      fun o x ho hox => (hweak ho.2 hox).imp_left (h.weak o x ho.1),
      fun _ o ho hcondemned => hspared ho.2 hcondemned.2⟩

theorem frees_condemned {r o : Nat} (h : s.frees r o = true) : s.home o = r ∧ s.Condemned o := by
  unfold frees at h
  simp only [Bool.and_eq_true, Bool.not_eq_true', beq_iff_eq] at h
  obtain ⟨⟨⟨hflag, -⟩, rfl⟩, hmark⟩ := h
  exact ⟨rfl, hflag, hmark⟩

theorem Keeps.stepSweep (h : s.Keeps keep) {r : Nat} (hstep : s.stepSweep r = some s') :
    s'.Keeps keep := by
  obtain ⟨cycle, todo, hphase, -, rfl⟩ := stepSweep_cases hstep
  have hspared := h.spared (Or.inl ⟨cycle, todo, hphase⟩)
  have hfrees {o : Nat} (ho : keep o) : s.frees r o = false :=
    Bool.eq_false_iff.mpr fun hfree => hspared o ho (frees_condemned hfree).2
  refine ⟨fun o ho => ?_, h.roots, fun o x ho hox => ?_, h.weak, fun _ o ho hcondemned => ?_⟩
  · exact List.mem_filter.mpr ⟨h.objects o ho, by simp [hfrees ho]⟩
  · obtain ⟨slot, href⟩ := hox
    simp only [sweepRegion, hfrees ho] at href
    exact h.edges o x ho ⟨slot, href⟩
  · exact hspared o ho ⟨(sweptRegions_toSweep.mp hcondemned.1).2, hcondemned.2⟩

theorem Keeps.stepDegenerate (h : s.Keeps keep) (hflagged : s.Flagged)
    (hstep : s.step c .degenerate = some s') : s'.Keeps keep := by
  have hsame := step_frame hstep rfl
  have hcancelled : ({ s with threads := s.threads.map fun m =>
      { m with satbMarkQueue := [], cmInProgress := false } } : World).roots = s.roots :=
    roots_map fun _ => rfl
  obtain ⟨⟨hphase, -⟩, ⟨-, rfl⟩ | ⟨-, rfl⟩ | ⟨-, rfl⟩ | ⟨hpoint, rfl⟩⟩ :=
    stepDegenerate_cases hstep
  · refine h.of_unswept hsame (fun o x hox => hox) ?_ h.roots
    rintro (⟨_, _, hsweeping⟩ | ⟨-, hpoint⟩)
    · exact absurd (hphase.symm.trans hsweeping) (by simp)
    · cases hpoint
  · refine h.of_unswept hsame (fun o x hox => hox) (unsweepable_of_phase (by simp) (by simp))
      fun r hr => h.roots r ?_
    exact hcancelled ▸ hr
  · refine h.of_unswept hsame (fun o x hox => hox) (unsweepable_of_phase (by simp) (by simp))
      fun r hr => h.roots r ?_
    exact hcancelled ▸ hr
  · refine h.of_same hsame rfl (fun o x hox => processWeak_weak hox) (fun _ => ?_) h.roots
    -- A concurrent mark that was cancelled has left its flag on.
    have hswept : s.degenPoint = .concurrentSweep := by
      refine hpoint.resolve_left fun hmark => ?_
      rw [hflagged.resumed hmark.1] at hmark
      cases hmark.2
    exact Or.inr ⟨hphase, hswept⟩

theorem Keeps.step (h : s.Keeps keep) (hflagged : s.Flagged) (htracing : s.Tracing) {e : Event}
    (hstep : s.step c e = some s') : ∃ keep', s'.Keeps keep' := by
  cases e with
  | load | writeBarrier | store | allocate | drop | upgrade | attach | detach | step =>
      exact h.mutator hflagged htracing.tidy hstep rfl
  | mark i =>
      have hsame := step_frame hstep rfl
      obtain ⟨hphase, op, marks, ops, -, -, rfl⟩ := stepMark_cases hstep
      refine ⟨keep, h.of_unswept hsame (fun o x hox => hox) (unsweepable_of_phase ?_ ?_) h.roots⟩
      · rcases hphase with hphase | ⟨cycle, hphase⟩ <;> simp [hphase]
      · rcases hphase with hphase | ⟨cycle, hphase⟩ <;> simp [hphase]
  | initMark =>
      have hsame := step_frame hstep rfl
      obtain ⟨-, rfl⟩ := guard_eq_some.mp hstep
      have hroots := roots_map (s := s) (f := fun m => { m with cmInProgress := true }) fun _ => rfl
      refine ⟨keep, h.of_unswept hsame (fun o x hox => hox)
        (unsweepable_of_phase (by simp) (by simp)) fun r hr => h.roots r (hroots ▸ hr)⟩
  | finalMark =>
      have hsame := step_frame hstep rfl
      obtain ⟨-, rfl⟩ := guard_eq_some.mp hstep
      have hroots := flushThreads_roots (c := c) (s := s.collectRoots)
      refine ⟨keep, h.of_unswept hsame (fun o x hox => hox)
        (unsweepable_of_phase (by simp) (by simp)) fun r hr => h.roots r (hroots ▸ hr)⟩
  | full =>
      have hsame := step_frame hstep rfl
      obtain ⟨-, rfl⟩ := guard_eq_some.mp hstep
      exact ⟨keep, h.of_unswept hsame (fun o x hox => hox)
        (unsweepable_of_phase (by simp) (by simp)) h.roots⟩
  | abort =>
      have hsame := step_frame hstep rfl
      obtain ⟨-, rfl⟩ := guard_eq_some.mp hstep
      refine ⟨keep, h.of_unswept hsame (fun o x hox => hox) ?_ h.roots⟩
      rintro (⟨_, _, hsweeping⟩ | ⟨-, hpoint⟩)
      · cases hsweeping
      · cases hpoint
  | finishMark => exact ⟨_, h.stepFinishMark htracing hstep⟩
  | sweep r => exact ⟨keep, h.stepSweep hstep⟩
  | skip r =>
      have hsame := step_frame hstep rfl
      obtain ⟨todo, hphase, -, rfl⟩ := stepSkip_cases hstep
      exact ⟨keep, h.of_same hsame rfl (fun o x hox => hox) (fun _ => Or.inl ⟨_, todo, hphase⟩)
        h.roots⟩
  | finish =>
      have hsame := step_frame hstep rfl
      obtain ⟨cycle, hphase, rfl⟩ := stepFinish_cases hstep
      exact ⟨keep, h.of_same hsame rfl (fun o x hox => hox) (fun _ => Or.inl ⟨_, _, hphase⟩)
        h.roots⟩
  | cancel =>
      have hsame := step_frame hstep rfl
      obtain ⟨-, rfl⟩ := guard_not_eq_some.mp hstep
      exact ⟨keep, h.of_same hsame rfl (fun o x hox => hox) (fun hs => hs) h.roots⟩
  | degenerate => exact ⟨keep, h.stepDegenerate hflagged hstep⟩

end World

end Rsgc.Collection
