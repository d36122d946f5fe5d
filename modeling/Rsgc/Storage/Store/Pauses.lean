import Rsgc.Storage.Store.Layout

namespace Rsgc.Storage

-- The events that stop the world; they close all buffers first.
def StoreEvent.isPause : StoreEvent → Bool
  | .initMark | .finalMark | .stop _ | .degenerate _ => true
  | _ => false

-- The thread that takes the step, if one does.
def StoreEvent.thread : StoreEvent → Option Nat
  | .bump thread _ | .refill thread _ | .retire thread => some thread
  | _ => none

namespace Heap

variable {h h' : Heap}

theorem SameShape.toSweep_eq (hs : h.SameShape h') (i : Nat) :
    (h'.regions i).toSweep = (h.regions i).toSweep :=
  (hs.frame i).toSweep_eq

theorem prepareUnsweptRegions_toSweep {i : Nat} (hi : (h.regions i).toSweep = true) :
    (h.prepareUnsweptRegions.regions i).toSweep = true := by
  obtain ⟨_, _, _, _, hregions, _⟩ := prepareUnswept_foldl h (List.range h.numRegions)
  unfold prepareUnsweptRegions
  rw [hregions]
  split
  · rfl
  · exact hi

end Heap

namespace Store

variable {c : HeapConfig} {mode : BarrierMode} {s t : Store}

theorem retireTlabs_sameShape (hs : s.Offers c) (hok : s.retireTlabs = .ok t) :
    s.heap.SameShape t.heap ∧ t.phase = s.phase := by
  obtain ⟨tlabs, heap, hretire, rfl⟩ := retireTlabs_eq_ok hok
  exact ⟨(retireAll_sound hs.sound hretire).2, rfl⟩

-- A region that waits for the sweep does so until the sweep visits it.
theorem Offers.keeps_toSweep {e : StoreEvent} {i : Nat} (hs : s.Offers c)
    (hstep : s.step mode e = some t) (he : e ≠ .sweep i)
    (hi : (s.heap.regions i).toSweep = true) : (t.heap.regions i).toSweep = true := by
  obtain ⟨henabled, hok⟩ := step_eq_some.mp hstep
  have hmutate : s.heap.SameShape t.heap → (t.heap.regions i).toSweep = true := fun hshape =>
    (hshape.toSweep_eq i).trans hi
  have hfinish : s.finish = .ok t → (t.heap.regions i).toSweep = true := by
    intro hok
    obtain ⟨heap, hrebuild, rfl⟩ := finish_eq_ok hok
    obtain ⟨fs, heq, _⟩ := s.heap.rebuild_eq
    obtain rfl : s.heap.setFreeSet fs = heap := by
      rw [heq] at hrebuild
      exact Except.ok.inj hrebuild
    exact hi
  cases e with
  | register | mark | unmark | skip | cancel | abort =>
      obtain rfl := Except.ok.inj hok
      exact hi
  | bump thread size =>
      simp only [perform] at hok
      split at hok
      · obtain rfl := Except.ok.inj hok
        exact hi
      · rename_i mem tlab heap halloc
        obtain rfl := Except.ok.inj hok
        obtain ⟨hheap, hshape⟩ := ThreadLocalAllocBuffer.allocate_sound hs.sound halloc
        exact hmutate (hshape.trans (place_sound (s := s.setTlab thread tlab heap) hheap).2)
  | refill thread size =>
      simp only [perform, Except.bind_eq_ok] at hok
      obtain ⟨⟨found, heap⟩, hrefill, hok⟩ := hok
      obtain ⟨hheap, hshape⟩ := Heap.refill_sound hs.sound hrefill
      cases found with
      | none =>
          obtain rfl := Except.ok.inj hok
          exact hmutate hshape
      | some found =>
          obtain ⟨mem, tlab⟩ := found
          obtain rfl := Except.ok.inj hok
          exact hmutate (hshape.trans (place_sound (s := s.setTlab thread tlab heap) hheap).2)
  | retire thread =>
      simp only [perform, Except.bind_eq_ok, Except.pure_eq_ok] at hok
      obtain ⟨⟨tlab, heap⟩, hretire, rfl⟩ := hok
      exact hmutate (ThreadLocalAllocBuffer.retire_sound hs.sound hretire).2
  | shared size =>
      simp only [perform, Except.bind_eq_ok] at hok
      obtain ⟨⟨found, heap⟩, hshared, hok⟩ := hok
      obtain ⟨hheap, hshape⟩ := Heap.allocateOutsideTlab_sound hs.sound hshared
      cases found with
      | none =>
          obtain rfl := Except.ok.inj hok
          exact hmutate hshape
      | some mem =>
          obtain rfl := Except.ok.inj hok
          exact hmutate (hshape.trans (place_sound (s := { s with heap := heap }) hheap).2)
  | initMark | degenerate =>
      simp only [perform, Except.bind_eq_ok, Except.pure_eq_ok] at hok
      obtain ⟨u, hretire, rfl⟩ := hok
      exact hmutate (retireTlabs_sameShape hs hretire).1
  | finalMark | stop =>
      simp only [perform, Except.bind_eq_ok, Except.pure_eq_ok] at hok
      obtain ⟨u, hretire, rfl⟩ := hok
      have hu := ((retireTlabs_sameShape hs hretire).1.toSweep_eq i).trans hi
      exact Heap.prepareUnsweptRegions_toSweep hu
  | sweep index =>
      obtain ⟨heap, hsweep, rfl⟩ := sweepIndex_eq_ok hok
      obtain ⟨_, _, _, _, hswept, _⟩ := Heap.sweepRegionDo_effect hsweep
      have hne : i ≠ index := fun heq => he (by rw [heq])
      exact (hswept i).trans (by rw [if_neg hne, hi])
  | finishSweep => exact hfinish hok
  | finishStopped => exact hfinish hok

-- All buffers are closed after a pause has begun.
theorem Tidy.closed_of_pause {e : StoreEvent} (ht : s.Tidy c) (hs : s.heap.Sound)
    (hpause : e.isPause = true) (hstep : s.step mode e = some t) : ∀ tlab ∈ t.tlabs, tlab = .new := by
  obtain ⟨-, hok⟩ := step_eq_some.mp hstep
  cases e with
  | initMark | finalMark | stop | degenerate =>
      simp only [perform, Except.bind_eq_ok, Except.pure_eq_ok] at hok
      obtain ⟨u, hretire, rfl⟩ := hok
      exact (ht.retireTlabs hs hretire).2
  | _ => cases hpause

-- The steps of the mutators do not start a phase.
theorem bump_phase {thread size : Nat} (hok : s.perform mode (.bump thread size) = .ok t) :
    t.phase = s.phase := by
  simp only [perform] at hok
  split at hok <;> obtain rfl := Except.ok.inj hok <;> rfl

theorem refill_phase {thread size : Nat} (hok : s.perform mode (.refill thread size) = .ok t) :
    t.phase = s.phase := by
  simp only [perform, Except.bind_eq_ok] at hok
  obtain ⟨⟨found, heap⟩, _, hok⟩ := hok
  cases found <;> obtain rfl := Except.ok.inj hok <;> rfl

theorem shared_phase {size : Nat} (hok : s.perform mode (.shared size) = .ok t) :
    t.phase = s.phase := by
  simp only [perform, Except.bind_eq_ok] at hok
  obtain ⟨⟨found, heap⟩, _, hok⟩ := hok
  cases found <;> obtain rfl := Except.ok.inj hok <;> rfl

-- They stay closed while the world is stopped.
def Closed (s : Store) : Prop := s.phase = .stopped → ∀ tlab ∈ s.tlabs, tlab = .new

theorem Closed.step {e : StoreEvent} (hclosed : s.Closed) (ht : s.Tidy c) (hs : s.heap.Sound)
    (hstep : s.step mode e = some t) : t.Closed := by
  intro hphase
  by_cases hpause : e.isPause = true
  · exact ht.closed_of_pause hs hpause hstep
  obtain ⟨henabled, hok⟩ := step_eq_some.mp hstep
  cases e with
  | initMark | finalMark | stop | degenerate => exact absurd rfl hpause
  | sweep index =>
      obtain ⟨heap, _, rfl⟩ := sweepIndex_eq_ok hok
      exact hclosed hphase
  | finishSweep | finishStopped =>
      obtain ⟨heap, _, rfl⟩ := finish_eq_ok hok
      cases hphase
  | register | cancel =>
      obtain rfl := Except.ok.inj hok
      simp only [Enabled] at henabled
      contradiction
  | bump => exact absurd ((bump_phase hok).symm.trans hphase) henabled.1
  | refill => exact absurd ((refill_phase hok).symm.trans hphase) henabled.1
  | shared => exact absurd ((shared_phase hok).symm.trans hphase) henabled.1
  | retire thread =>
      simp only [perform, Except.bind_eq_ok, Except.pure_eq_ok] at hok
      obtain ⟨_, _, rfl⟩ := hok
      exact absurd hphase henabled.1
  | mark | unmark =>
      obtain rfl := Except.ok.inj hok
      exact hclosed hphase
  | skip | abort =>
      obtain rfl := Except.ok.inj hok
      first | exact hclosed hphase | cases hphase

theorem closed_of_via (hs : (storeMachine c mode).Via Roomy s) : s.Closed := by
  refine Machine.Via.invariant_of (Q := fun s => s.Offers c ∧ s.Tidy c)
    (fun _ h => ⟨offers_of_reachable h.reachable, tidy_of_via h⟩) (fun s h => ?_)
    (fun s e t hq hclosed _ hstep => hclosed.step hq.2 hq.1.sound hstep) hs
  obtain ⟨fs, _, heq⟩ := newStore_eq c
  have hnew : newStore c = .ok s := h
  rw [heq] at hnew
  obtain rfl := Except.ok.inj hnew
  exact fun hphase => nomatch hphase

end Store

end Rsgc.Storage
