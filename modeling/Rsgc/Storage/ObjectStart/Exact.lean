import Rsgc.Storage.ObjectStart.Recorded

namespace Rsgc.Storage

namespace Heap

variable {c : HeapConfig} {h h' : Heap} {held objs tails : Nat → List Space} {mem : Option Nat}
  {marks : Nat → Bool}

section Steps

variable {tlab tlab' : ThreadLocalAllocBuffer}

theorem SetsOnly.bump {rest : Nat → List Space} {size addr : Nat} (hok : tlab.Ok h)
    (hp : h.Placed c) (hl : h.Laid fun i => tlab.tail i ++ rest i) (hpos : 0 < size)
    (halloc : tlab.allocate h size = some (addr, tlab', h')) : h.SetsOnly h' (some addr) := by
  have hsize := hl.tail_size hok hp
  obtain ⟨hle, rfl, _, index, hbitmap, rfl⟩ := ThreadLocalAllocBuffer.allocate_cases halloc
  rw [hsize] at hle
  rcases hok with rfl | ⟨i, hi, hbitmap', _⟩
  · simp [ThreadLocalAllocBuffer.new] at hbitmap
  · obtain rfl : i = index := by
      rw [hbitmap] at hbitmap'
      exact (Option.some.inj hbitmap').symm
    have hheld : tlab.tail i ++ rest i = ⟨tlab.top, tlab.limit - tlab.top, .tail⟩ :: rest i := by
      simp [ThreadLocalAllocBuffer.tail, hbitmap, show tlab.top < tlab.limit by omega]
    obtain ⟨_, hindex, _⟩ := hl.regionIndex_tail hp hi hheld
    subst hindex
    exact SetsOnly.setStartBit h

theorem SetsOnly.retire (hok : tlab.retire h = .ok (tlab', h')) : h.SetsOnly h' mem := by
  rcases ThreadLocalAllocBuffer.retire_cases hok with
    ⟨_, _, rfl⟩ | ⟨_, _, ⟨_, rfl⟩ | ⟨_, r, hadd, rfl⟩⟩
  · exact SetsOnly.refl _ mem
  · exact SetsOnly.refl _ mem
  · exact SetsOnly.sameKind (HeapRegion.addFree_bits hadd) (HeapRegion.addFree_sameFrame hadd).2

theorem SetsOnly.retireAll {tlabs tlabs' : List ThreadLocalAllocBuffer}
    (hok : retireAll tlabs h = .ok (tlabs', h')) : h.SetsOnly h' mem := by
  induction tlabs generalizing h tlabs' with
  | nil =>
      simp only [Rsgc.Storage.retireAll, Except.pure_eq_ok, Prod.mk.injEq] at hok
      obtain ⟨_, rfl⟩ := hok
      exact SetsOnly.refl _ mem
  | cons tlab rest ih =>
      simp only [Rsgc.Storage.retireAll, Except.bind_eq_ok, Except.pure_eq_ok,
        Prod.mk.injEq] at hok
      obtain ⟨⟨_, mid⟩, hretire, ⟨_, last⟩, hrest, _, rfl⟩ := hok
      exact (SetsOnly.retire hretire).trans (ih hrest)

theorem SetsOnly.clearToSweep (h : Heap) (i : Nat) : h.SetsOnly (h.clearToSweep i) mem :=
  SetsOnly.sameKind rfl rfl

theorem SetsOnly.prepareUnsweptRegions (h : Heap) : h.SetsOnly h.prepareUnsweptRegions mem := by
  have hone : ∀ (g : Heap) (i : Nat), g.SetsOnly (g.prepareUnsweptRegion i) mem := by
    intro g i
    unfold Heap.prepareUnsweptRegion
    simp only
    split
    · have hflag : g.SetsOnly (g.setRegion i { g.regions i with toSweep := true }) mem :=
        SetsOnly.sameKind rfl rfl
      exact hflag.trans (SetsOnly.of_regions rfl rfl rfl)
    · exact SetsOnly.refl g mem
  have hloop : ∀ (indices : List Nat) (g : Heap),
      g.SetsOnly (indices.foldl Heap.prepareUnsweptRegion g) mem := by
    intro indices
    induction indices with
    | nil => exact fun g => SetsOnly.refl g mem
    | cons i rest ih => exact fun g => (hone g i).trans (ih (g.prepareUnsweptRegion i))
  exact hloop (List.range h.numRegions) h

end Steps

section Sweep

-- With a humongous object all regions of its run go.
theorem Recorded.trashHumongous {i : Nat} (hr : h.Recorded objs) (hl : h.Laid held)
    (hmem : ∀ b ∈ objs i, b ∈ held i) (hi : i < h.numRegions)
    (htyp : (h.regions i).typ = .humongousStart) (hok : h.trashHumongousRegionAt i = .ok h') :
    h'.Recorded (Function.update objs i []) := by
  have hlayout := hl.region i hi
  unfold HeapRegion.Layout at hlayout
  rw [htyp] at hlayout
  obtain ⟨_, hbitmap, size, hheld, _, hwords⟩ := hlayout
  obtain ⟨hle, hconts⟩ := hl.run i hi htyp ⟨(h.regions i).bottom, size, .object⟩ (by simp [hheld])
  simp only at hle hconts
  obtain ⟨_, rfl⟩ := trashHumongousRegionAt_eq hok
  have hsizes : ∀ b ∈ objs i, b.size = size := by
    intro b hb
    have hin := hmem b hb
    rw [hheld] at hin
    rw [List.mem_singleton.mp hin]
  constructor
  · intro j hj a hbit
    simp only [hwords] at hbit
    split at hbit
    · rename_i hin
      have hclear : (h.regions j).objectStartBitmap a = false := by
        rcases Nat.eq_or_lt_of_le hin.1 with rfl | hlt
        · exact hbitmap a
        · have hcont := hl.region j hj
          unfold HeapRegion.Layout at hcont
          rw [hconts j hlt hin.2] at hcont
          exact hcont.2.2 a
      have hset : (h.regions j).objectStartBitmap a = true := hbit
      rw [hclear] at hset
      cases hset
    · rename_i hout
      have hne : j ≠ i := by
        rintro rfl
        rw [hbitmap] at hbit
        cases hbit
      rw [Function.update_of_ne hne]
      exact hr.bits j hj a hbit
  · intro j hj hcont
    simp only [hwords] at hcont ⊢
    split at hcont
    · cases hcont
    · rename_i hout
      obtain ⟨k, hkj, hstart, b, hb, hreach⟩ := hr.owned j hj hcont
      have hne : k ≠ i := by
        rintro rfl
        rw [hsizes b hb] at hreach
        exact hout ⟨by omega, hreach⟩
      -- the run of the other object does not meet this one
      have hapart : ¬(i ≤ k ∧ k < i + h.opts.requiredRegions size) := by
        intro hin
        rw [hconts k (by omega) hin.2] at hstart
        cases hstart
      refine ⟨k, hkj, ?_, b, ?_, hreach⟩
      · rw [if_neg hapart]
        exact hstart
      · rw [Function.update_of_ne hne]
        exact hb

variable (hr : h.Recorded objs) (hl : h.Laid fun j => objs j ++ tails j) (hp : h.Placed c)
  (hobjs : ∀ j, ∀ b ∈ objs j, b.kind = .object) (htails : ∀ j, ∀ b ∈ tails j, b.kind = .tail)

include hr hl hp hobjs htails in
-- The start bits of a swept region are those of its survivors.
theorem Recorded.sweepRegular {i : Nat} {r : HeapRegion} {empty : Bool} (hi : i < h.numRegions)
    (htyp : (h.regions i).typ = .regular) (hsweep : (h.regions i).toSweep = true)
    (hok : sweepRegion h.opts marks { h.regions i with toSweep := false } = .ok (empty, r)) :
    ((h.clearToSweep i).setRegion i (if empty then r.makeTrash else r)).Recorded
      (survivors h marks i objs) := by
  obtain ⟨_, _, hregular, _, hstarted, _⟩ := Laid.sweptBlocks hl hp hobjs htails hi htyp hsweep hok
  have hregion : ∀ j, ((h.clearToSweep i).setRegion i
      (if empty then r.makeTrash else r)).regions j =
      if j = i then (if empty then r.makeTrash else r) else h.regions j := by
    intro j
    rw [setRegion_regions, Function.update_apply]
    split
    · rfl
    · rename_i hj
      rw [clearToSweep_regions, if_neg hj]
  have hsurvivors : ∀ j, j ≠ i → survivors h marks i objs j = objs j := by
    intro j hj
    unfold survivors
    rw [if_neg (fun hcond => hj hcond.1)]
  have htypes : (if empty then r.makeTrash else r).typ ≠ .humongousCont := by
    cases empty with
    | false => simp [hregular]
    | true => simp [HeapRegion.makeTrash]
  constructor
  · intro j hj a hbit
    rw [hregion] at hbit
    by_cases hji : j = i
    · subst hji
      have hset : r.objectStartBitmap a = true := by
        rw [if_pos rfl] at hbit
        split at hbit
        · exact hbit
        · exact hbit
      unfold survivors
      rw [if_pos ⟨rfl, hsweep⟩]
      exact hstarted a hset
    · rw [if_neg hji] at hbit
      rw [hsurvivors j hji]
      exact hr.bits j hj a hbit
  · intro j hj hcont
    rw [hregion] at hcont
    by_cases hji : j = i
    · rw [if_pos hji] at hcont
      exact absurd hcont htypes
    · rw [if_neg hji] at hcont
      obtain ⟨k, hkj, hstart, b, hb, hreach⟩ := hr.owned j hj hcont
      have hne : k ≠ i := by
        rintro rfl
        rw [htyp] at hstart
        cases hstart
      refine ⟨k, hkj, ?_, b, ?_, hreach⟩
      · rw [hregion, if_neg hne]
        exact hstart
      · rw [hsurvivors k hne]
        exact hb

include hr hl hp hobjs htails in
theorem Recorded.sweepRegionDo {i : Nat} (hi : i < h.numRegions)
    (hok : h.sweepRegionDo marks i = .ok h') : h'.Recorded (survivors h marks i objs) := by
  rcases sweepRegionDo_cases hok with ⟨hsweep, rfl⟩ | ⟨hsweep, ⟨htyp, hmark, rfl⟩ |
    ⟨htyp, hmark, htrash⟩ | ⟨htyp, empty, r, hswept, rfl⟩⟩
  · rw [survivors_of_marked (hobjs i) fun htrue => by simp [hsweep] at htrue]
    exact hr
  · -- only a humongous object can be in the region, and it is marked
    rw [survivors_of_marked (hobjs i) fun _ b hb => ?_]
    · exact hr.same (SetsOnly.clearToSweep h i)
    · obtain ⟨_, _, ⟨hregular, _⟩ | ⟨hstart, _, haddr⟩⟩ :=
        hl.mem_region hp hi (List.mem_append_left _ hb)
      · exact absurd hregular htyp
      · rw [haddr]
        exact hmark hstart
  · have htyp' : ((h.clearToSweep i).regions i).typ = .humongousStart := by
      rw [clearToSweep_regions, if_pos rfl]
      exact htyp
    have hcleared : (h.clearToSweep i).Recorded objs := hr.same (SetsOnly.clearToSweep h i)
    refine (hcleared.trashHumongous (clearToSweep_laid hl i)
      (fun b hb => List.mem_append_left _ hb) hi htyp' htrash).of_eq fun j => ?_
    unfold survivors
    by_cases hj : j = i
    · subst hj
      rw [if_pos ⟨rfl, hsweep⟩, Function.update_self, kept, List.filter_eq_nil_iff]
      intro b hb
      obtain ⟨_, _, ⟨hregular, _⟩ | ⟨_, _, haddr⟩⟩ :=
        hl.mem_region hp hi (List.mem_append_left _ hb)
      · rw [htyp] at hregular
        cases hregular
      · simp [haddr, hmark]
    · rw [if_neg (fun hcond => hj hcond.1), Function.update_of_ne hj]
  · exact Recorded.sweepRegular hr hl hp hobjs htails hi htyp hsweep hswept

end Sweep

end Heap

namespace Store

variable {c : HeapConfig} {mode : BarrierMode} {s t : Store}

def Recorded (c : HeapConfig) (s : Store) : Prop := s.heap.Recorded (objectsIn c s.objects)

theorem Recorded.same (hr : s.Recorded c) (hk : s.heap.SetsOnly t.heap none)
    (hobjects : t.objects = s.objects) : t.Recorded c := by
  unfold Recorded
  rw [hobjects]
  exact Heap.Recorded.same hr hk

-- A new object joins those of its region.
theorem Recorded.place {tlabs : List ThreadLocalAllocBuffer} {heap : Heap} {mem size : Nat}
    (hr : heap.Recorded (Heap.withObject (c.regionIndex mem) mem size (objectsIn c s.objects))) :
    (place mode { s with heap := heap, tlabs := tlabs } mem size).Recorded c := by
  unfold Recorded
  refine (hr.same (Heap.SetsOnly.writeHeader heap mem size)).of_eq fun j => ?_
  exact objectsIn_cons mem size _ j rfl

theorem Recorded.placeSet (hr : s.Recorded c) (hp : s.heap.Placed c)
    {tlabs : List ThreadLocalAllocBuffer} {heap : Heap} {mem size : Nat}
    (hk : s.heap.SetsOnly heap (some mem)) :
    (Store.place mode { s with heap := heap, tlabs := tlabs } mem size).Recorded c := by
  apply Recorded.place
  refine Heap.Recorded.keep hr hk (fun i b hb => List.mem_append_right _ hb) fun addr haddr => ?_
  obtain rfl := Option.some.inj haddr
  refine ⟨⟨mem, size, .object⟩, ?_, rfl⟩
  rw [hp.regionIndex_config]
  simp [Heap.withObject]

theorem retireTlabs_setsOnly (hok : s.retireTlabs = .ok t) :
    s.heap.SetsOnly t.heap none ∧ t.objects = s.objects := by
  obtain ⟨tlabs, heap, hretire, rfl⟩ := retireTlabs_eq_ok hok
  exact ⟨Heap.SetsOnly.retireAll hretire, rfl⟩

theorem Recorded.finish (hr : s.Recorded c) (hok : s.finish = .ok t) : t.Recorded c := by
  obtain ⟨heap, hrebuild, rfl⟩ := finish_eq_ok hok
  obtain ⟨fs, heq, _⟩ := s.heap.rebuild_eq
  obtain rfl : s.heap.setFreeSet fs = heap := by
    rw [heq] at hrebuild
    exact Except.ok.inj hrebuild
  have hk : s.heap.SetsOnly (s.heap.setFreeSet fs) none := Heap.SetsOnly.of_regions rfl rfl rfl
  exact hr.same hk rfl

theorem Recorded.sweepIndex (hr : s.Recorded c) (ht : s.Tidy c) {i : Nat} (hi : i ∈ s.unswept)
    (hok : s.sweepIndex i = .ok t) : t.Recorded c := by
  obtain ⟨heap, hsweep, rfl⟩ := sweepIndex_eq_ok hok
  have hlt : i < s.heap.numRegions := by
    rw [ht.placed.numRegions_eq]
    exact ht.pending i hi
  have hswept := Heap.Recorded.sweepRegionDo hr ht.laid ht.placed ht.objects_kind
    (fun j b hb => tailsIn_kind hb) hlt hsweep
  exact hswept.of_eq (ht.objectsIn_swept hlt hsweep)

theorem Recorded.step {e : StoreEvent} (ho : s.Offers c) (ht : s.Tidy c) (hr : s.Recorded c)
    (hroomy : s.Roomy e) (hstep : s.step mode e = some t) : t.Recorded c := by
  obtain ⟨henabled, hok⟩ := step_eq_some.mp hstep
  cases e with
  | register | mark addr | unmark addr | skip index | cancel | abort =>
      obtain rfl := Except.ok.inj hok
      exact hr
  | bump thread size =>
      obtain ⟨_, hlt, hpos, _⟩ := henabled
      simp only [perform] at hok
      split at hok
      · obtain rfl := Except.ok.inj hok
        exact hr
      · rename_i mem tlab heap halloc
        obtain rfl := Except.ok.inj hok
        have hk := Heap.SetsOnly.bump (ht.tlab_ok hlt) ht.placed
          (ht.laid.perm (held_perm hlt)) hpos halloc
        exact hr.placeSet ht.placed hk
  | refill thread size =>
      obtain ⟨_, _, ⟨hpos, _⟩, _, hle⟩ := henabled
      simp only [perform, Except.bind_eq_ok] at hok
      obtain ⟨⟨found, heap⟩, hrefill, hok⟩ := hok
      obtain ⟨haligned, _⟩ := hroomy
      rw [ho.opts_eq] at haligned hle
      have hk := Heap.SetsOnly.refill haligned ht.laid ht.placed ho.sound hpos hle hrefill
      cases found with
      | none =>
          obtain rfl := Except.ok.inj hok
          exact hr.same hk rfl
      | some found =>
          obtain rfl := Except.ok.inj hok
          exact hr.placeSet ht.placed hk
  | retire thread =>
      simp only [perform, Except.bind_eq_ok, Except.pure_eq_ok] at hok
      obtain ⟨⟨tlab, heap⟩, hretire, rfl⟩ := hok
      have hk : s.heap.SetsOnly heap none := Heap.SetsOnly.retire hretire
      exact hr.same hk rfl
  | shared size =>
      obtain ⟨_, hpos, hdvd⟩ := henabled
      simp only [perform, Except.bind_eq_ok] at hok
      obtain ⟨⟨found, heap⟩, hshared, hok⟩ := hok
      obtain ⟨hnone, hsome⟩ := Heap.Recorded.allocateOutsideTlab hr ht.laid ht.placed ho.sound
        hdvd hpos hshared
      cases found with
      | none =>
          obtain rfl := Except.ok.inj hok
          have hrecorded := hnone rfl
          exact hrecorded
      | some mem =>
          obtain rfl := Except.ok.inj hok
          have hrecorded := hsome mem rfl
          rw [ht.placed.regionIndex_config] at hrecorded
          exact Recorded.place hrecorded
  | initMark =>
      simp only [perform, Except.bind_eq_ok, Except.pure_eq_ok] at hok
      obtain ⟨u, hretire, rfl⟩ := hok
      obtain ⟨hk, hobjects⟩ := retireTlabs_setsOnly hretire
      exact hr.same hk hobjects
  | finalMark =>
      simp only [perform, Except.bind_eq_ok, Except.pure_eq_ok] at hok
      obtain ⟨u, hretire, rfl⟩ := hok
      obtain ⟨hk, hobjects⟩ := retireTlabs_setsOnly hretire
      exact hr.same (hk.trans (Heap.SetsOnly.prepareUnsweptRegions u.heap)) hobjects
  | sweep index => exact hr.sweepIndex ht henabled.2 hok
  | stop marks =>
      simp only [perform, Except.bind_eq_ok, Except.pure_eq_ok] at hok
      obtain ⟨u, hretire, rfl⟩ := hok
      obtain ⟨hk, hobjects⟩ := retireTlabs_setsOnly hretire
      exact hr.same (hk.trans (Heap.SetsOnly.prepareUnsweptRegions u.heap)) hobjects
  | degenerate marks =>
      simp only [perform, Except.bind_eq_ok, Except.pure_eq_ok] at hok
      obtain ⟨u, hretire, rfl⟩ := hok
      obtain ⟨hk, hobjects⟩ := retireTlabs_setsOnly hretire
      exact hr.same hk hobjects
  | finishSweep | finishStopped => exact hr.finish hok

-- At first no start bit is set and every region is empty.
theorem newStore_recorded (hs : newStore c = .ok s) : s.Recorded c := by
  obtain ⟨fs, _, heq⟩ := newStore_eq c
  rw [heq] at hs
  obtain rfl := Except.ok.inj hs
  constructor
  · intro i _ a hbit
    cases hbit
  · intro j _ hcont
    have htyp : ((newHeap c).regions j).typ = .humongousCont := hcont
    unfold newHeap HeapRegion.new HeapRegion.recycle HeapRegion.isTrash at htyp
    by_cases hcommited : j < c.commited
    · simp [hcommited] at htyp
    · simp [hcommited] at htyp

theorem recorded_of_via (hs : (storeMachine c mode).Via Roomy s) : s.Recorded c := by
  refine Machine.Via.invariant_of (Q := fun s => s.Offers c ∧ s.Tidy c)
    (fun _ h => ⟨offers_of_reachable h.reachable, tidy_of_via h⟩)
    (fun _ h => newStore_recorded h) (fun u v e hu hr hroomy hstep => ?_) hs
  exact hr.step hu.1 hu.2 hroomy hstep

-- In a run in which every object gets a buffer that can hold it, all addresses of
-- an object lead to its header, and no address leads to anything but the header
-- of an object: it has a start bit, or is the first of a humongous run.
theorem object_start_exact (c : HeapConfig) (mode : BarrierMode) (s : Store)
    (hs : (storeMachine c mode).Via Roomy s) :
    (∀ o ∈ s.objects, ∀ addr, o.addr ≤ addr → addr < o.addr + o.size →
      s.heap.objectStart addr = .ok (some o.addr)) ∧
    ∀ addr, s.heap.objectStart addr = .ok none ∨
      ∃ o ∈ s.objects, s.heap.objectStart addr = .ok (some o.addr) ∧ s.heap.StartsAt o.addr := by
  have ht := tidy_of_via hs
  have hr := recorded_of_via hs
  have htails : ∀ j, ∀ b ∈ tailsIn s.tlabs j, b.kind = .tail := fun j b hb => tailsIn_kind hb
  constructor
  · intro o ho addr hlow hhigh
    have hlt : c.regionIndex o.addr < s.heap.numRegions := by
      rw [ht.placed.numRegions_eq]
      exact (ht.objects o ho).2
    have hin : o ∈ objectsIn c s.objects (c.regionIndex o.addr) :=
      List.mem_filter.mpr ⟨ho, decide_eq_true rfl⟩
    exact Heap.Laid.objectStart_inside ht.laid ht.placed hr ht.objects_kind hlt hin hlow hhigh
  · intro addr
    rcases Heap.Laid.objectStart_cases ht.laid ht.placed hr htails addr with
      hnone | ⟨i, _, o, ho, hfound, hstarts⟩
    · exact Or.inl hnone
    · exact Or.inr ⟨o, (List.mem_filter.mp ho).1, hfound, hstarts⟩

-- The last byte of an object in two regions.
theorem object_start_exact_small : ∃ s, (storeMachine .small .satb).Via Roomy s ∧
    (s.heap.regions 2).typ = .humongousCont ∧ s.heap.regionIndex 12351 = 2 ∧
    s.heap.objectStart 12351 = .ok (some 8192) := by
  have hrun : ((newStore .small).toOption.bind fun s => (storeMachine .small .satb).run s
      [.register, .shared 64, .refill 0 16, .bump 0 32, .shared 4160]).map (fun s =>
        (s.objects.map fun o => (o.addr, o.size), (s.heap.regions 2).typ,
          s.heap.regionIndex 12351)) =
      some ([(8192, 4160), (4176, 32), (4160, 16), (4096, 64)], .humongousCont, 2) := by
    decide +kernel
  obtain ⟨s, hs, hp⟩ := Option.map_eq_some_iff.mp hrun
  obtain ⟨start, hstart, hs⟩ := Option.bind_eq_some_iff.mp hs
  have hreachable : (storeMachine .small .satb).Reachable s :=
    Machine.run_reachable (Machine.Via.init (Except.toOption_eq_some.mp hstart)) hs
  obtain ⟨hobjects, hp⟩ := Prod.mk.inj hp
  obtain ⟨htyp, hindex⟩ := Prod.mk.inj hp
  have hmem : ((8192, 4160) : Nat × Nat) ∈ s.objects.map fun o => (o.addr, o.size) := by
    simp [hobjects]
  obtain ⟨o, ho, heq⟩ := List.mem_map.mp hmem
  obtain ⟨haddr, hsize⟩ := Prod.mk.inj heq
  have hvia := via_of_rigid ⟨by decide, by decide⟩ rfl hreachable
  refine ⟨s, hvia, htyp, hindex, ?_⟩
  rw [← haddr]
  exact (object_start_exact .small .satb s hvia).1 o ho 12351 (by omega) (by omega)

-- Behind the last byte of a humongous object, which has no start bit.
theorem object_start_behind_humongous : ∃ s, (storeMachine .small .satb).Reachable s ∧
    (∀ o ∈ s.objects, ¬(o.addr ≤ 12352 ∧ 12352 < o.addr + o.size)) ∧
    s.heap.memStart ≤ 12352 ∧ 12352 < s.heap.memStart + s.heap.opts.maxHeapSize ∧
    s.heap.objectStart 12352 = .ok (some 8192) ∧
    (s.heap.regions (s.heap.regionIndex 8192)).objectStartBitmap 8192 = false := by
  have hrun : ((newStore .small).toOption.bind fun s => (storeMachine .small .satb).run s
      [.shared 64, .shared 4160]).map (fun s =>
        (decide ((∀ o ∈ s.objects, ¬(o.addr ≤ 12352 ∧ 12352 < o.addr + o.size)) ∧
          s.heap.memStart ≤ 12352 ∧ 12352 < s.heap.memStart + s.heap.opts.maxHeapSize),
          (s.heap.objectStart 12352).toOption,
          (s.heap.regions (s.heap.regionIndex 8192)).objectStartBitmap 8192)) =
      some (true, some (some 8192), false) := by
    decide +kernel
  obtain ⟨s, hs, hp⟩ := Option.map_eq_some_iff.mp hrun
  obtain ⟨start, hstart, hs⟩ := Option.bind_eq_some_iff.mp hs
  have hreachable : (storeMachine .small .satb).Reachable s :=
    Machine.run_reachable (Machine.Via.init (Except.toOption_eq_some.mp hstart)) hs
  obtain ⟨hplace, hp⟩ := Prod.mk.inj hp
  obtain ⟨hfound, hbit⟩ := Prod.mk.inj hp
  obtain ⟨houtside, hlow, hhigh⟩ := of_decide_eq_true hplace
  exact ⟨s, hreachable, houtside, hlow, hhigh, Except.toOption_eq_some.mp hfound, hbit⟩

end Store

end Rsgc.Storage
