import Rsgc.Storage.Store
import Rsgc.Storage.Sweeper.Steps
import Rsgc.Storage.Tlab.Steps

namespace Rsgc.Storage

namespace Store

variable {c : HeapConfig} {mode : BarrierMode} {s t : Store}

theorem step_eq_some {e : StoreEvent} :
    s.step mode e = some t ↔ s.Enabled mode e ∧ s.perform mode e = .ok t := by
  unfold step
  split
  · rename_i henabled
    simp [Except.toOption_eq_some, henabled]
  · rename_i henabled
    simp [henabled]

-- What the free set promises in every state, and which regions the running
-- sweep must still visit before the next rebuild.
structure Offers (c : HeapConfig) (s : Store) : Prop where
  opts_eq : s.heap.opts = c.opts
  max_eq : s.heap.freeSet.max = c.opts.regionCount
  sound : s.heap.Sound
  visited : (s.phase = .stopped ∨ s.phase = .sweeping ∧ s.cancelled = false) →
    ∀ i, i < c.opts.regionCount → (s.heap.regions i).toSweep = true → i ∈ s.unswept

theorem Offers.mutate (hs : s.Offers c) (hsound : t.heap.Sound) (hshape : s.heap.SameShape t.heap)
    (hphase : t.phase = s.phase) (hcancelled : t.cancelled = s.cancelled)
    (hunswept : t.unswept = s.unswept) : t.Offers c where
  opts_eq := hshape.opts_eq.trans hs.opts_eq
  max_eq := hshape.max_eq.trans hs.max_eq
  sound := hsound
  visited := by
    intro hcycle i hi hsweep
    rw [hphase, hcancelled] at hcycle
    rw [(hshape.frame i).toSweep_eq] at hsweep
    rw [hunswept]
    exact hs.visited hcycle i hi hsweep

theorem place_sound {mem size : Nat} (hs : s.heap.Sound) :
    (place mode s mem size).heap.Sound ∧ s.heap.SameShape (place mode s mem size).heap :=
  Heap.writeHeader_sound hs mem size

theorem retireAll_sound {tlabs tlabs' : List ThreadLocalAllocBuffer} {h h' : Heap} (hs : h.Sound)
    (hok : retireAll tlabs h = .ok (tlabs', h')) : h'.Sound ∧ h.SameShape h' := by
  induction tlabs generalizing h tlabs' with
  | nil =>
      simp only [retireAll, Except.pure_eq_ok, Prod.mk.injEq] at hok
      obtain ⟨_, rfl⟩ := hok
      exact ⟨hs, Heap.SameShape.refl h⟩
  | cons tlab rest ih =>
      simp only [retireAll, Except.bind_eq_ok, Except.pure_eq_ok, Prod.mk.injEq] at hok
      obtain ⟨⟨tlab', mid⟩, hretire, ⟨rest', last⟩, hrest, _, rfl⟩ := hok
      obtain ⟨hmid, hshape⟩ := ThreadLocalAllocBuffer.retire_sound hs hretire
      obtain ⟨hlast, hshape'⟩ := ih hmid hrest
      exact ⟨hlast, hshape.trans hshape'⟩

theorem retireTlabs_eq_ok (hok : s.retireTlabs = .ok t) :
    ∃ tlabs heap, retireAll s.tlabs s.heap = .ok (tlabs, heap) ∧
      t = { s with tlabs := tlabs, heap := heap } := by
  simp only [retireTlabs, Except.bind_eq_ok, Except.pure_eq_ok] at hok
  obtain ⟨⟨tlabs, heap⟩, hretire, rfl⟩ := hok
  exact ⟨tlabs, heap, hretire, rfl⟩

theorem Offers.retireTlabs (hs : s.Offers c) (hok : s.retireTlabs = .ok t) : t.Offers c := by
  obtain ⟨tlabs, heap, hretire, rfl⟩ := retireTlabs_eq_ok hok
  obtain ⟨hsound, hshape⟩ := retireAll_sound hs.sound hretire
  exact hs.mutate hsound hshape rfl rfl rfl

theorem sweepIndex_eq_ok {i : Nat} (hok : s.sweepIndex i = .ok t) :
    ∃ heap, s.heap.sweepRegionDo s.marks i = .ok heap ∧
      t = { s with
        heap := heap
        unswept := s.unswept.erase i
        objects := s.objects.filter fun o => heap.isLive o.addr } := by
  simp only [sweepIndex, Except.bind_eq_ok, Except.pure_eq_ok] at hok
  obtain ⟨heap, hsweep, rfl⟩ := hok
  exact ⟨heap, hsweep, rfl⟩

theorem finish_eq_ok (hok : s.finish = .ok t) :
    ∃ heap, s.heap.rebuild = .ok heap ∧ t = { s with heap := heap, phase := .idle } := by
  simp only [finish, Except.bind_eq_ok, Except.pure_eq_ok] at hok
  obtain ⟨heap, hrebuild, rfl⟩ := hok
  exact ⟨heap, hrebuild, rfl⟩

-- Every region is put on the list, so the sweep that starts here visits all.
theorem Offers.startSweep {phase : GcPhase} (hs : s.Offers c) :
    (s.prepareSweep phase).Offers c := by
  obtain ⟨hopts, _, hmax, _, _, _⟩ :=
    Heap.prepareUnswept_foldl s.heap (List.range s.heap.numRegions)
  refine ⟨hopts.trans hs.opts_eq, hmax.trans hs.max_eq, hs.sound.prepareUnsweptRegions, ?_⟩
  intro _ i hi _
  change i ∈ List.range s.heap.opts.regionCount
  rw [hs.opts_eq]
  exact List.mem_range.mpr hi

theorem Offers.sweepIndex {i : Nat} (hs : s.Offers c) (hok : s.sweepIndex i = .ok t) :
    t.Offers c := by
  obtain ⟨heap, hsweep, rfl⟩ := sweepIndex_eq_ok hok
  obtain ⟨hopts, _, hfreeSet, _, hswept, _⟩ := Heap.sweepRegionDo_effect hsweep
  have hsize : s.heap.opts.regionSizeBytes ≠ 0 := by
    rw [hs.opts_eq]
    exact c.geometry.size_pos.ne'
  refine ⟨hopts.trans hs.opts_eq, ?_, hs.sound.sweepRegionDo hsize hsweep, ?_⟩
  · rw [hfreeSet]
    exact hs.max_eq
  · intro hcycle j hj htrue
    rw [hswept] at htrue
    by_cases hji : j = i
    · simp [hji] at htrue
    · rw [if_neg hji] at htrue
      exact (List.mem_erase_of_ne hji).mpr (hs.visited hcycle j hj htrue)

-- A rebuild only happens after the sweep has visited every region.
theorem Offers.finish (hs : s.Offers c) (hunswept : s.unswept = [])
    (hcycle : s.phase = .stopped ∨ s.phase = .sweeping ∧ s.cancelled = false)
    (hok : s.finish = .ok t) : t.Offers c := by
  obtain ⟨heap, hrebuild, rfl⟩ := finish_eq_ok hok
  have hswept : ∀ i, i < s.heap.numRegions → (s.heap.regions i).toSweep = false := by
    intro i hi
    unfold Heap.numRegions at hi
    rw [hs.opts_eq] at hi
    by_contra htrue
    have hmem := hs.visited hcycle i hi (by simpa using htrue)
    simp [hunswept] at hmem
  have hmax : s.heap.numRegions ≤ s.heap.freeSet.max := by
    unfold Heap.numRegions
    rw [hs.opts_eq, hs.max_eq]
  have hsound := Heap.rebuild_sound hmax hswept hrebuild
  obtain ⟨fs, heq, _, hfsmax, _⟩ := s.heap.rebuild_eq
  obtain rfl : s.heap.setFreeSet fs = heap := by
    rw [heq] at hrebuild
    exact Except.ok.inj hrebuild
  exact ⟨hs.opts_eq, hfsmax.trans hs.max_eq, hsound, by simp⟩

theorem Offers.step {e : StoreEvent} (hs : s.Offers c) (hstep : s.step mode e = some t) :
    t.Offers c := by
  obtain ⟨henabled, hok⟩ := step_eq_some.mp hstep
  cases e with
  | register =>
      obtain rfl := Except.ok.inj hok
      exact hs.mutate hs.sound (Heap.SameShape.refl _) rfl rfl rfl
  | bump thread size =>
      simp only [perform] at hok
      split at hok
      · obtain rfl := Except.ok.inj hok
        exact hs
      · rename_i mem tlab heap halloc
        obtain rfl := Except.ok.inj hok
        obtain ⟨hheap, hshape⟩ := ThreadLocalAllocBuffer.allocate_sound hs.sound halloc
        obtain ⟨hplaced, hshape'⟩ := place_sound (s := s.setTlab thread tlab heap) hheap
        exact hs.mutate hplaced (hshape.trans hshape') rfl rfl rfl
  | refill thread size =>
      simp only [perform, Except.bind_eq_ok] at hok
      obtain ⟨⟨found, heap⟩, hrefill, hok⟩ := hok
      obtain ⟨hheap, hshape⟩ := Heap.refill_sound hs.sound hrefill
      cases found with
      | none =>
          obtain rfl := Except.ok.inj hok
          exact hs.mutate hheap hshape rfl rfl rfl
      | some found =>
          obtain ⟨mem, tlab⟩ := found
          obtain rfl := Except.ok.inj hok
          obtain ⟨hplaced, hshape'⟩ := place_sound (s := s.setTlab thread tlab heap) hheap
          exact hs.mutate hplaced (hshape.trans hshape') rfl rfl rfl
  | retire thread =>
      simp only [perform, Except.bind_eq_ok, Except.pure_eq_ok] at hok
      obtain ⟨⟨tlab, heap⟩, hretire, rfl⟩ := hok
      obtain ⟨hheap, hshape⟩ := ThreadLocalAllocBuffer.retire_sound hs.sound hretire
      exact hs.mutate hheap hshape rfl rfl rfl
  | shared size =>
      simp only [perform, Except.bind_eq_ok] at hok
      obtain ⟨⟨found, heap⟩, hshared, hok⟩ := hok
      obtain ⟨hheap, hshape⟩ := Heap.allocateOutsideTlab_sound hs.sound hshared
      cases found with
      | none =>
          obtain rfl := Except.ok.inj hok
          exact hs.mutate hheap hshape rfl rfl rfl
      | some mem =>
          obtain rfl := Except.ok.inj hok
          obtain ⟨hplaced, hshape'⟩ := place_sound (s := { s with heap := heap }) hheap
          exact hs.mutate hplaced (hshape.trans hshape') rfl rfl rfl
  | initMark =>
      simp only [perform, Except.bind_eq_ok, Except.pure_eq_ok] at hok
      obtain ⟨u, hretire, rfl⟩ := hok
      have hu := hs.retireTlabs hretire
      exact ⟨hu.opts_eq, hu.max_eq, hu.sound, by simp⟩
  | mark addr =>
      obtain rfl := Except.ok.inj hok
      exact hs.mutate hs.sound (Heap.SameShape.refl _) rfl rfl rfl
  | unmark addr =>
      obtain rfl := Except.ok.inj hok
      exact hs.mutate hs.sound (Heap.SameShape.refl _) rfl rfl rfl
  | finalMark =>
      simp only [perform, Except.bind_eq_ok, Except.pure_eq_ok] at hok
      obtain ⟨u, hretire, rfl⟩ := hok
      exact (hs.retireTlabs hretire).startSweep
  | sweep index => exact hs.sweepIndex hok
  | skip index =>
      obtain rfl := Except.ok.inj hok
      obtain ⟨hphase, hcancelled, _⟩ := henabled
      exact ⟨hs.opts_eq, hs.max_eq, hs.sound, by simp [hphase, hcancelled]⟩
  | cancel =>
      obtain rfl := Except.ok.inj hok
      have hphase : s.phase ≠ .stopped := henabled
      exact ⟨hs.opts_eq, hs.max_eq, hs.sound, by simp [hphase]⟩
  | abort =>
      obtain rfl := Except.ok.inj hok
      exact ⟨hs.opts_eq, hs.max_eq, hs.sound, by simp⟩
  | finishSweep => exact hs.finish henabled.2.1 (Or.inr ⟨henabled.1, henabled.2.2⟩) hok
  | stop marks =>
      simp only [perform, Except.bind_eq_ok, Except.pure_eq_ok] at hok
      obtain ⟨u, hretire, rfl⟩ := hok
      have hu := hs.retireTlabs hretire
      obtain ⟨tlabs, heap, _, rfl⟩ := retireTlabs_eq_ok hretire
      apply Offers.startSweep
      have hidle : s.phase = .idle := henabled
      exact ⟨hu.opts_eq, hu.max_eq, hu.sound, by simp [hidle]⟩
  | degenerate marks =>
      simp only [perform, Except.bind_eq_ok, Except.pure_eq_ok] at hok
      obtain ⟨u, hretire, rfl⟩ := hok
      have hu := hs.retireTlabs hretire
      refine ⟨hu.opts_eq, hu.max_eq, hu.sound, fun _ i hi _ => ?_⟩
      change i ∈ List.range u.heap.opts.regionCount
      rw [hu.opts_eq]
      exact List.mem_range.mpr hi
  | finishStopped => exact hs.finish henabled.2 (Or.inl henabled.1) hok

theorem newStore_eq (c : HeapConfig) : ∃ fs, (newHeap c).rebuild = .ok ((newHeap c).setFreeSet fs) ∧
    newStore c = .ok
      ⟨(newHeap c).setFreeSet fs, [], fun _ => false, .idle, false, [], [], []⟩ := by
  obtain ⟨fs, heq, _⟩ := (newHeap c).rebuild_eq
  refine ⟨fs, heq, ?_⟩
  unfold newStore
  rw [heq]
  rfl

theorem newStore_offers (hs : newStore c = .ok s) : s.Offers c := by
  obtain ⟨fs, hrebuild, heq⟩ := newStore_eq c
  rw [heq] at hs
  obtain rfl := Except.ok.inj hs
  have hsound : ((newHeap c).setFreeSet fs).Sound :=
    Heap.rebuild_sound (Nat.le_refl _) (fun i _ => rfl) hrebuild
  obtain ⟨fs', heq', _, hmax, _⟩ := (newHeap c).rebuild_eq
  obtain rfl : fs' = fs := by
    rw [heq'] at hrebuild
    exact congrArg Heap.freeSet (Except.ok.inj hrebuild)
  exact ⟨rfl, hmax, hsound, by simp⟩

theorem offers_of_reachable (hs : (storeMachine c mode).Reachable s) : s.Offers c := by
  refine Machine.Reachable.invariant (P := fun s => s.Offers c) (fun _ h => newStore_offers h) ?_ hs
  intro s e t h hstep
  change s.step mode e = some t at hstep
  exact h.step hstep

-- In every reachable state the bounds enclose the set bits, and a set bit denotes
-- a region that can be allocated from. So the assertions at the head of
-- `try_allocate_in` hold, and a region that waits for the sweep is left alone.
theorem freeSet_offers_allocatable_regions (c : HeapConfig) (mode : BarrierMode) (s : Store)
    (hs : (storeMachine c mode).Reachable s) :
    (∀ i, s.heap.freeSet.isMutatorFree i = true →
      s.heap.freeSet.mutatorLeftmost ≤ i ∧ i ≤ s.heap.freeSet.mutatorRightmost ∧
      ((s.heap.regions i).isAllocAllowed = true ∨ (s.heap.regions i).isTrash = true) ∧
      (s.heap.regions i).toSweep = false ∧ s.heap.allocCapacity i ≠ 0) ∧
    (∀ req p, s.heap.allocate req = .error p → p ≠ .regionToSweep ∧ p ≠ .regionFull) ∧
    (∀ req result heap, s.heap.allocate req = .ok (result, heap) →
      ∀ i, (s.heap.regions i).toSweep = true → heap.regions i = s.heap.regions i) := by
  have hoffers := offers_of_reachable hs
  refine ⟨fun i hi => ?_, fun req p hp => ?_, fun req result heap hok i hsweep => ?_⟩
  · obtain ⟨hlow, hhigh⟩ := hoffers.sound.within i hi
    have ho := hoffers.sound.offered i hi
    exact ⟨hlow, hhigh, ho.allowed, ho.swept, ho.capacity⟩
  · rcases Heap.allocate_error hoffers.sound hp with rfl | rfl | rfl <;> simp
  · obtain ⟨_, htouch⟩ := Heap.allocate_sound hoffers.sound hok
    have hbit : s.heap.freeSet.isMutatorFree i = false := by
      by_contra hbit
      have ho := hoffers.sound.offered i (by simpa using hbit)
      simp [ho.swept] at hsweep
    exact (htouch.others i hbit).1

-- A sweep is cancelled after its first region, and an allocation afterwards moves the
-- bounds over regions that still wait for the sweep.
theorem freeSet_offers_allocatable_regions_small :
    ∃ s, (storeMachine .small .satb).Reachable s ∧ s.cancelled = true ∧
      s.objects = [⟨20480, 32, .object⟩, ⟨16384, 2048, .object⟩, ⟨6144, 2048, .object⟩,
        ⟨4096, 32, .object⟩] ∧
      s.heap.freeSet.mutatorLeftmost = 3 ∧ (s.heap.regions 3).toSweep = true ∧
      s.heap.freeSet.isMutatorFree 4 = true ∧
      (s.heap.freeSet.mutatorLeftmost ≤ 4 ∧ 4 ≤ s.heap.freeSet.mutatorRightmost ∧
        ((s.heap.regions 4).isAllocAllowed = true ∨ (s.heap.regions 4).isTrash = true) ∧
        (s.heap.regions 4).toSweep = false ∧ s.heap.allocCapacity 4 ≠ 0) ∧
      (∀ req p, s.heap.allocate req = .error p → p ≠ .regionToSweep ∧ p ≠ .regionFull) ∧
      ∀ req result heap, s.heap.allocate req = .ok (result, heap) →
        heap.regions 3 = s.heap.regions 3 := by
  have hrun : ((newStore .small).toOption.bind fun s => (storeMachine .small .satb).run s
      ([.register, .refill 0 32, .shared 5008, .shared 2048, .shared 2048, .initMark, .finalMark,
        .sweep 1, .cancel] ++ [0, 2, 3, 4, 5, 6, 7, 8, 9].map StoreEvent.skip ++
          [.abort, .shared 32])).map (fun s => (s.cancelled, s.objects,
        s.heap.freeSet.mutatorLeftmost, (s.heap.regions 3).toSweep,
        s.heap.freeSet.isMutatorFree 4)) =
      some (true, [⟨20480, 32, .object⟩, ⟨16384, 2048, .object⟩, ⟨6144, 2048, .object⟩,
        ⟨4096, 32, .object⟩], 3, true, true) := by decide +kernel
  obtain ⟨s, hs, heq⟩ := Option.map_eq_some_iff.mp hrun
  obtain ⟨start, hnew, hs⟩ := Option.bind_eq_some_iff.mp hs
  simp only [Prod.mk.injEq] at heq
  obtain ⟨hcancelled, hobjects, hleftmost, hsweep, hbit⟩ := heq
  have hreach : (storeMachine .small .satb).Reachable s :=
    Machine.run_reachable (Machine.Via.init (Except.toOption_eq_some.mp hnew)) hs
  obtain ⟨hoffered, hassertions, hleft⟩ :=
    freeSet_offers_allocatable_regions .small .satb s hreach
  exact ⟨s, hreach, hcancelled, hobjects, hleftmost, hsweep, hbit, hoffered 4 hbit,
    hassertions, fun req result heap hok => hleft req result heap hok 3 hsweep⟩

end Store

end Rsgc.Storage
