import Mathlib.Data.List.GetD
import Mathlib.Data.List.Perm.Basic
import Rsgc.Storage.Layout.Sweep
import Rsgc.Storage.Store.Bounds

namespace Rsgc.Storage

def HeapConfig.regionIndex (c : HeapConfig) (addr : Nat) : Nat :=
  (addr - c.memStart) >>> c.opts.regionSizeBytesShift

def objectsIn (c : HeapConfig) (objects : List Space) (i : Nat) : List Space :=
  objects.filter fun b => c.regionIndex b.addr = i

def tailsIn (tlabs : List ThreadLocalAllocBuffer) (i : Nat) : List Space :=
  tlabs.flatMap fun tlab => tlab.tail i

namespace Heap

variable {c : HeapConfig} {h h' : Heap}

theorem Placed.regionIndex_config (hp : h.Placed c) (addr : Nat) :
    h.regionIndex addr = c.regionIndex addr := by
  unfold regionIndex HeapConfig.regionIndex
  rw [hp.opts_eq, hp.memStart_eq]

theorem Placed.numRegions_eq (hp : h.Placed c) : h.numRegions = c.opts.regionCount := by
  unfold numRegions
  rw [hp.opts_eq]

theorem Placed.writeHeader (hp : h.Placed c) (addr size : Nat) :
    (h.writeHeader addr size).Placed c := by
  have hframe : (h.regions (h.regionIndex addr)).SameFrame
      ((h.regions (h.regionIndex addr)).writeHeader addr size) := ⟨rfl, rfl, rfl, rfl⟩
  exact hp.sameShape (TouchesOnly.setRegion h (h.regionIndex addr) hframe).sameShape

end Heap

theorem ThreadLocalAllocBuffer.Ok.placed {c : HeapConfig} {tlab : ThreadLocalAllocBuffer}
    {h h' : Heap} (hok : tlab.Ok h) (hp : h.Placed c) (hp' : h'.Placed c) : tlab.Ok h' := by
  rcases hok with rfl | ⟨i, hi, hbitmap, hindex, hrest⟩
  · exact Or.inl rfl
  · refine Or.inr ⟨i, ?_, hbitmap, ?_, hrest⟩
    · rw [hp'.numRegions_eq, ← hp.numRegions_eq]
      exact hi
    · rw [hp'.regionIndex_config, ← hp.regionIndex_config]
      exact hindex

section Lists

variable {c : HeapConfig} {objects : List Space} {tlabs : List ThreadLocalAllocBuffer}

theorem objectsIn_cons (mem size i j : Nat) (hindex : c.regionIndex mem = i) :
    objectsIn c (⟨mem, size, .object⟩ :: objects) j =
      (if j = i then [⟨mem, size, .object⟩] else []) ++ objectsIn c objects j := by
  unfold objectsIn
  rw [List.filter_cons]
  by_cases hj : j = i
  · simp [hindex, hj]
  · simp [hindex, hj, Ne.symm hj]

theorem tailsIn_perm {thread : Nat} (hlt : thread < tlabs.length) (i : Nat) :
    (tailsIn tlabs i).Perm
      ((tlabs.getD thread .new).tail i ++ tailsIn (tlabs.eraseIdx thread) i) := by
  have hperm := (List.getElem_cons_eraseIdx_perm hlt).symm.flatMap_right
    fun tlab : ThreadLocalAllocBuffer => tlab.tail i
  rw [List.flatMap_cons] at hperm
  rw [List.getD_eq_getElem tlabs .new hlt]
  exact hperm

theorem tailsIn_set_perm {thread : Nat} (hlt : thread < tlabs.length)
    (tlab : ThreadLocalAllocBuffer) (i : Nat) :
    (tailsIn (tlabs.set thread tlab) i).Perm
      (tlab.tail i ++ tailsIn (tlabs.eraseIdx thread) i) := by
  have hperm := (List.set_perm_cons_eraseIdx hlt tlab).flatMap_right
    fun tlab : ThreadLocalAllocBuffer => tlab.tail i
  rw [List.flatMap_cons] at hperm
  exact hperm

theorem tailsIn_kind {i : Nat} {b : Space} (hb : b ∈ tailsIn tlabs i) : b.kind = .tail := by
  obtain ⟨tlab, _, hb⟩ := List.mem_flatMap.mp hb
  unfold ThreadLocalAllocBuffer.tail at hb
  split at hb
  · obtain rfl := List.mem_singleton.mp hb
    rfl
  · cases hb

theorem tailsIn_eq_nil (hclosed : ∀ tlab ∈ tlabs, tlab = .new) (i : Nat) : tailsIn tlabs i = [] := by
  rw [tailsIn, List.flatMap_eq_nil_iff]
  intro tlab htlab
  rw [hclosed tlab htlab]
  exact ThreadLocalAllocBuffer.tail_new i

end Lists

namespace Store

variable {c : HeapConfig} {mode : BarrierMode} {s t : Store}

-- The blocks of region `i` that are not on its free list.
def held (c : HeapConfig) (s : Store) (i : Nat) : List Space :=
  objectsIn c s.objects i ++ tailsIn s.tlabs i

-- The layout of the whole heap, with every object and every open buffer in it.
structure Tidy (c : HeapConfig) (s : Store) : Prop where
  placed : s.heap.Placed c
  laid : s.heap.Laid (held c s)
  tlabs : ∀ tlab ∈ s.tlabs, tlab.Ok s.heap
  objects : ∀ b ∈ s.objects, b.kind = .object ∧ c.regionIndex b.addr < c.opts.regionCount
  pending : ∀ i ∈ s.unswept, i < c.opts.regionCount

-- What a thread other than `thread` holds, and the objects.
def others (c : HeapConfig) (s : Store) (thread i : Nat) : List Space :=
  objectsIn c s.objects i ++ tailsIn (s.tlabs.eraseIdx thread) i

theorem append_perm_middle (xs ys zs : List Space) : (xs ++ (ys ++ zs)).Perm (ys ++ (xs ++ zs)) := by
  rw [← List.append_assoc, ← List.append_assoc]
  exact List.perm_append_comm.append_right zs

theorem held_perm {thread : Nat} (hlt : thread < s.tlabs.length) (i : Nat) :
    (held c s i).Perm ((s.tlab thread).tail i ++ others c s thread i) :=
  ((tailsIn_perm hlt i).append_left _).trans (append_perm_middle _ _ _)

theorem others_perm {thread : Nat} (hlt : thread < s.tlabs.length) (tlab : ThreadLocalAllocBuffer)
    (i : Nat) : (tlab.tail i ++ others c s thread i).Perm
      (objectsIn c s.objects i ++ tailsIn (s.tlabs.set thread tlab) i) :=
  (append_perm_middle _ _ _).trans ((tailsIn_set_perm hlt tlab i).symm.append_left _)

theorem Tidy.tlab_ok (ht : s.Tidy c) {thread : Nat} (hlt : thread < s.tlabs.length) :
    (s.tlab thread).Ok s.heap := by
  unfold tlab
  rw [List.getD_eq_getElem s.tlabs .new hlt]
  exact ht.tlabs _ (List.getElem_mem hlt)

theorem Tidy.objects_kind (ht : s.Tidy c) (i : Nat) :
    ∀ b ∈ objectsIn c s.objects i, b.kind = .object :=
  fun b hb => (ht.objects b (List.mem_filter.mp hb).1).1

-- The new buffer of one thread is well formed, and so are those of the others.
theorem Tidy.set_ok (ht : s.Tidy c) {heap : Heap} (hp : heap.Placed c) {thread : Nat}
    {tlab : ThreadLocalAllocBuffer} (hok : tlab.Ok heap) :
    ∀ other ∈ s.tlabs.set thread tlab, other.Ok heap := by
  intro other hother
  rcases List.mem_or_eq_of_mem_set hother with hother | rfl
  · exact (ht.tlabs other hother).placed ht.placed hp
  · exact hok

-- A new object joins the blocks of its region.
theorem Tidy.place (ht : s.Tidy c) {heap : Heap} {tlabs : List ThreadLocalAllocBuffer}
    {i mem size : Nat} (hp : heap.Placed c) (hi : i < heap.numRegions)
    (hindex : heap.regionIndex mem = i) (htlabs : ∀ tlab ∈ tlabs, tlab.Ok heap)
    (hl : (heap.writeHeader mem size).Laid (Heap.withObject i mem size fun j =>
      objectsIn c s.objects j ++ tailsIn tlabs j)) :
    (place mode { s with heap := heap, tlabs := tlabs } mem size).Tidy c := by
  have hconfig : c.regionIndex mem = i := by rw [← hp.regionIndex_config, hindex]
  refine ⟨hp.writeHeader mem size, hl.perm fun j => ?_, ?_, ?_, ht.pending⟩
  · have heq : held c (Store.place mode { s with heap := heap, tlabs := tlabs } mem size) j =
        Heap.withObject i mem size (fun j => objectsIn c s.objects j ++ tailsIn tlabs j) j := by
      unfold held Heap.withObject
      rw [← List.append_assoc, ← objectsIn_cons mem size i j hconfig]
      rfl
    rw [heq]
  · intro tlab htlab
    exact (htlabs tlab htlab).placed hp (hp.writeHeader mem size)
  · intro b hb
    rcases List.mem_cons.mp hb with rfl | hb
    · refine ⟨rfl, ?_⟩
      rw [hconfig, ← hp.numRegions_eq]
      exact hi
    · exact ht.objects b hb

theorem withObject_perm {i mem size : Nat} {f g : Nat → List Space} (hperm : ∀ j, (f j).Perm (g j))
    (j : Nat) : (Heap.withObject i mem size f j).Perm (Heap.withObject i mem size g j) :=
  (hperm j).append_left _

-- The collector closes all buffers when it starts, marks or sweeps.
theorem retireAll_laid {tlabs tlabs' : List ThreadLocalAllocBuffer} {h h' : Heap}
    {rest : Nat → List Space} (hl : h.Laid fun i => tailsIn tlabs i ++ rest i) (hp : h.Placed c)
    (hs : h.Sound) (hok : ∀ tlab ∈ tlabs, tlab.Ok h) (hretire : retireAll tlabs h = .ok (tlabs', h')) :
    h'.Laid rest ∧ ∀ tlab ∈ tlabs', tlab = .new := by
  induction tlabs generalizing h tlabs' with
  | nil =>
      simp only [retireAll, Except.pure_eq_ok, Prod.mk.injEq] at hretire
      obtain ⟨rfl, rfl⟩ := hretire
      exact ⟨hl, by simp⟩
  | cons tlab more ih =>
      simp only [retireAll, Except.bind_eq_ok, Except.pure_eq_ok, Prod.mk.injEq] at hretire
      obtain ⟨⟨tlab', mid⟩, hfirst, ⟨more', last⟩, hmore, rfl, rfl⟩ := hretire
      have hfront : h.Laid fun i => tlab.tail i ++ (tailsIn more i ++ rest i) := by
        refine hl.perm fun i => ?_
        rw [tailsIn, List.flatMap_cons, List.append_assoc]
        exact List.Perm.refl _
      obtain ⟨hmid, hclosed⟩ := hfront.retire (hok tlab List.mem_cons_self) hp hfirst
      obtain ⟨hsound, hshape⟩ := ThreadLocalAllocBuffer.retire_sound hs hfirst
      have hpmid := hp.sameShape hshape
      obtain ⟨hlast, hrest⟩ := ih hmid hpmid hsound
        (fun other hother => (hok other (List.mem_cons_of_mem _ hother)).placed hp hpmid) hmore
      refine ⟨hlast, fun other hother => ?_⟩
      rcases List.mem_cons.mp hother with rfl | hother
      · exact hclosed
      · exact hrest other hother

theorem Tidy.retireTlabs (ht : s.Tidy c) (hs : s.heap.Sound) (hok : s.retireTlabs = .ok t) :
    t.Tidy c ∧ ∀ tlab ∈ t.tlabs, tlab = .new := by
  obtain ⟨tlabs, heap, hretire, rfl⟩ := retireTlabs_eq_ok hok
  have hfront : s.heap.Laid fun i => tailsIn s.tlabs i ++ objectsIn c s.objects i :=
    ht.laid.perm fun i => List.perm_append_comm
  obtain ⟨hl, hclosed⟩ := retireAll_laid hfront ht.placed hs ht.tlabs hretire
  have hp := ht.placed.sameShape (retireAll_sound hs hretire).2
  refine ⟨⟨hp, hl.perm fun i => ?_, ?_, ht.objects, ht.pending⟩, hclosed⟩
  · unfold held
    rw [tailsIn_eq_nil hclosed, List.append_nil]
  · intro tlab htlab
    exact Or.inl (hclosed tlab htlab)

theorem Tidy.prepareSweep {phase : GcPhase} (ht : s.Tidy c) (hclosed : ∀ tlab ∈ s.tlabs, tlab = .new) :
    (s.prepareSweep phase).Tidy c := by
  have hno : ∀ j, ∀ b ∈ held c s j, b.kind ≠ .tail := by
    intro j b hb
    unfold held at hb
    rw [tailsIn_eq_nil hclosed, List.append_nil] at hb
    simp [ht.objects_kind j b hb]
  obtain ⟨hp, hl⟩ := ht.laid.prepareUnsweptRegions ht.placed hno
  refine ⟨hp, hl, fun tlab htlab => Or.inl (hclosed tlab htlab), ht.objects, fun i hi => ?_⟩
  rw [← ht.placed.numRegions_eq]
  exact List.mem_range.mp hi

-- After a visit of the sweeper the objects of a region are its survivors.
theorem Tidy.objectsIn_swept (ht : s.Tidy c) {heap : Heap} {i : Nat} (hi : i < s.heap.numRegions)
    (hok : s.heap.sweepRegionDo s.marks i = .ok heap) (j : Nat) :
    objectsIn c (s.objects.filter fun o => heap.isLive o.addr) j =
      Heap.survivors s.heap s.marks i (objectsIn c s.objects) j := by
  have hlive : ∀ b ∈ objectsIn c s.objects j, heap.isLive b.addr = true ↔
      ¬(j = i ∧ (s.heap.regions i).toSweep = true ∧ s.marks b.addr = false) := by
    intro b hb
    obtain ⟨hmem, hindex⟩ := List.mem_filter.mp hb
    obtain ⟨hkind, hj⟩ := ht.objects b hmem
    have hregion : c.regionIndex b.addr = j := of_decide_eq_true hindex
    have hlt : j < s.heap.numRegions := by
      rw [ht.placed.numRegions_eq, ← hregion]
      exact hj
    rw [Heap.Laid.isLive_sweepRegionDo ht.laid ht.placed ht.objects_kind
      (fun j b hb => tailsIn_kind hb) hi hlt hok hb, Heap.mem_survivors hkind]
    exact ⟨fun h => h.2, fun h => ⟨hb, h⟩⟩
  have hcomm : objectsIn c (s.objects.filter fun o => heap.isLive o.addr) j =
      (objectsIn c s.objects j).filter fun o => heap.isLive o.addr := by
    unfold objectsIn
    rw [List.filter_filter, List.filter_filter]
    exact List.filter_congr fun b _ => Bool.and_comm _ _
  rw [hcomm]
  unfold Heap.survivors kept
  split
  · rename_i hcond
    refine List.filter_congr fun b hb => ?_
    rw [Bool.eq_iff_iff, hlive b hb, ht.objects_kind j b hb]
    simp [hcond]
  · rename_i hcond
    rw [List.filter_eq_self]
    intro b hb
    rw [hlive b hb]
    rintro ⟨hj, hsweep, _⟩
    exact hcond ⟨hj, hsweep⟩

theorem Tidy.sweepIndex (ht : s.Tidy c) {i : Nat} (hi : i ∈ s.unswept)
    (hok : s.sweepIndex i = .ok t) : t.Tidy c := by
  obtain ⟨heap, hsweep, rfl⟩ := sweepIndex_eq_ok hok
  have hlt : i < s.heap.numRegions := by
    rw [ht.placed.numRegions_eq]
    exact ht.pending i hi
  have hp := ht.placed.sweepRegionDo hsweep
  obtain ⟨hl, _⟩ := Heap.Laid.sweepRegionDo ht.laid ht.placed ht.objects_kind
    (fun j b hb => tailsIn_kind hb) hlt hsweep
  refine ⟨hp, hl.perm fun j => ?_, ?_, ?_, ?_⟩
  · unfold held
    rw [ht.objectsIn_swept hlt hsweep]
  · intro tlab htlab
    exact (ht.tlabs tlab htlab).placed ht.placed hp
  · intro b hb
    exact ht.objects b (List.mem_filter.mp hb).1
  · intro j hj
    exact ht.pending j (List.mem_of_mem_erase hj)

theorem Tidy.finish (ht : s.Tidy c) (hok : s.finish = .ok t) : t.Tidy c := by
  obtain ⟨heap, hrebuild, rfl⟩ := finish_eq_ok hok
  obtain ⟨fs, heq, _⟩ := s.heap.rebuild_eq
  obtain rfl : s.heap.setFreeSet fs = heap := by
    rw [heq] at hrebuild
    exact Except.ok.inj hrebuild
  have hp : (s.heap.setFreeSet fs).Placed c :=
    ⟨ht.placed.opts_eq, ht.placed.memStart_eq, ht.placed.bottom_eq, ht.placed.limit_eq⟩
  refine ⟨hp, ht.laid.congr rfl rfl, ?_, ht.objects, ht.pending⟩
  intro tlab htlab
  exact (ht.tlabs tlab htlab).placed ht.placed hp

-- A refill is good if its buffer is aligned, comes from a free list and can hold
-- the object. One above the humongous threshold is made of whole regions, elastic or not,
-- and the sweep would free them with its first object. All other steps are good.
def Roomy (s : Store) : StoreEvent → Prop
  | .refill _ size => Heap.AlignedTlabs s.heap.opts ∧ s.heap.HasRoom size
  | _ => True

instance (s : Store) : (e : StoreEvent) → Decidable (s.Roomy e)
  | .refill _ _ => inferInstanceAs (Decidable (_ ∧ _))
  | .register | .bump _ _ | .retire _ | .shared _ | .initMark | .mark _ | .unmark _
  | .finalMark | .sweep _ | .skip _ | .cancel | .abort | .finishSweep | .stop _
  | .degenerate _ | .finishStopped => inferInstanceAs (Decidable True)

theorem Tidy.bump {thread size : Nat} (ho : s.Offers c) (ht : s.Tidy c)
    (henabled : s.Enabled mode (.bump thread size))
    (hok : s.perform mode (.bump thread size) = .ok t) : t.Tidy c := by
  obtain ⟨_, hlt, hpos, hdvd⟩ := henabled
  simp only [perform] at hok
  split at hok
  · obtain rfl := Except.ok.inj hok
    exact ht
  · rename_i mem tlab heap halloc
    obtain rfl := Except.ok.inj hok
    have hp := ht.placed.sameShape
      (ThreadLocalAllocBuffer.allocate_sound ho.sound halloc).2
    obtain ⟨i, hi, hindex, htlab, hl⟩ := (ht.laid.perm (held_perm hlt)).bump
      (ht.tlab_ok hlt) ht.placed hdvd hpos halloc
    refine ht.place hp (i := i) ?_ ?_ (ht.set_ok hp (htlab.placed ht.placed hp)) ?_
    · rw [hp.numRegions_eq, ← ht.placed.numRegions_eq]
      exact hi
    · rw [hp.regionIndex_config, ← ht.placed.regionIndex_config]
      exact hindex
    · exact hl.perm (withObject_perm (others_perm hlt tlab))

theorem Tidy.refill {thread size : Nat} (ho : s.Offers c) (ht : s.Tidy c)
    (hroomy : s.Roomy (.refill thread size)) (henabled : s.Enabled mode (.refill thread size))
    (hok : s.perform mode (.refill thread size) = .ok t) : t.Tidy c := by
  obtain ⟨_, hlt, ⟨hpos, hdvd⟩, hclosed, hle⟩ := henabled
  simp only [perform, Except.bind_eq_ok] at hok
  obtain ⟨⟨found, heap⟩, hrefill, hok⟩ := hok
  have hp := ht.placed.sameShape (Heap.refill_sound ho.sound hrefill).2
  rw [ho.opts_eq] at hle
  -- the old buffer was retired before
  have htlab : s.tlab thread = .new := by
    rcases ht.tlab_ok hlt with hnew | ⟨_, _, _, _, _, _, hlimit⟩
    · exact hnew
    · omega
  have hfront : s.heap.Laid (others c s thread) := by
    refine ht.laid.perm fun i => ?_
    have hperm := held_perm (c := c) hlt i
    rwa [htlab, ThreadLocalAllocBuffer.tail_new, List.nil_append] at hperm
  obtain ⟨haligned, hroom⟩ := hroomy
  rw [ho.opts_eq] at haligned
  rcases hfront.refill haligned ht.placed ho.sound hdvd hpos hle hroom hrefill with
    ⟨hnone, hl⟩ | ⟨mem, tlab, i, hfound, hi, hindex, htlab', hl⟩
  · subst hnone
    obtain rfl := Except.ok.inj hok
    refine ⟨hp, hl.perm fun i => ?_, ?_, ht.objects, ht.pending⟩
    · have hperm := held_perm (c := c) hlt i
      rw [htlab, ThreadLocalAllocBuffer.tail_new, List.nil_append] at hperm
      exact hperm.symm
    · intro tlab htlab
      exact (ht.tlabs tlab htlab).placed ht.placed hp
  · subst hfound
    obtain rfl := Except.ok.inj hok
    exact ht.place hp hi hindex (ht.set_ok hp htlab')
      (hl.perm (withObject_perm (others_perm hlt tlab)))

theorem Tidy.step {e : StoreEvent} (ho : s.Offers c) (ht : s.Tidy c) (hroomy : s.Roomy e)
    (hstep : s.step mode e = some t) : t.Tidy c := by
  obtain ⟨henabled, hok⟩ := step_eq_some.mp hstep
  cases e with
  | register =>
      obtain rfl := Except.ok.inj hok
      refine ⟨ht.placed, ht.laid.perm fun i => ?_, ?_, ht.objects, ht.pending⟩
      · have hnew : tailsIn (s.tlabs ++ [.new]) i = tailsIn s.tlabs i := by
          simp [tailsIn, ThreadLocalAllocBuffer.tail_new]
        unfold held
        rw [hnew]
      · intro tlab htlab
        rcases List.mem_append.mp htlab with htlab | htlab
        · exact ht.tlabs tlab htlab
        · exact Or.inl (List.mem_singleton.mp htlab)
  | bump thread size => exact ht.bump ho henabled hok
  | refill thread size => exact ht.refill ho hroomy henabled hok
  | retire thread =>
      obtain ⟨_, hlt⟩ := henabled
      simp only [perform, Except.bind_eq_ok, Except.pure_eq_ok] at hok
      obtain ⟨⟨tlab, heap⟩, hretire, rfl⟩ := hok
      have hp := ht.placed.sameShape (ThreadLocalAllocBuffer.retire_sound ho.sound hretire).2
      obtain ⟨hl, hnew⟩ := (ht.laid.perm (held_perm hlt)).retire (ht.tlab_ok hlt) ht.placed hretire
      refine ⟨hp, hl.perm fun i => ?_, ht.set_ok hp (Or.inl hnew), ht.objects, ht.pending⟩
      have hperm := others_perm (c := c) hlt tlab i
      rwa [hnew, ThreadLocalAllocBuffer.tail_new, List.nil_append, ← hnew] at hperm
  | shared size =>
      obtain ⟨_, hpos, hdvd⟩ := henabled
      simp only [perform, Except.bind_eq_ok] at hok
      obtain ⟨⟨found, heap⟩, hshared, hok⟩ := hok
      have hp := ht.placed.sameShape (Heap.allocateOutsideTlab_sound ho.sound hshared).2
      have htlabs : ∀ tlab ∈ s.tlabs, tlab.Ok heap :=
        fun tlab htlab => (ht.tlabs tlab htlab).placed ht.placed hp
      rcases ht.laid.allocateOutsideTlab ht.placed ho.sound hdvd hpos hshared with
        ⟨hnone, hl⟩ | ⟨mem, i, hfound, hi, hindex, hl⟩
      · subst hnone
        obtain rfl := Except.ok.inj hok
        exact ⟨hp, hl, htlabs, ht.objects, ht.pending⟩
      · subst hfound
        obtain rfl := Except.ok.inj hok
        exact ht.place hp hi hindex htlabs hl
  | initMark =>
      simp only [perform, Except.bind_eq_ok, Except.pure_eq_ok] at hok
      obtain ⟨u, hretire, rfl⟩ := hok
      obtain ⟨hu, _⟩ := ht.retireTlabs ho.sound hretire
      exact ⟨hu.placed, hu.laid, hu.tlabs, hu.objects, hu.pending⟩
  | mark addr | unmark addr | cancel | abort =>
      obtain rfl := Except.ok.inj hok
      exact ⟨ht.placed, ht.laid, ht.tlabs, ht.objects, ht.pending⟩
  | finalMark =>
      simp only [perform, Except.bind_eq_ok, Except.pure_eq_ok] at hok
      obtain ⟨u, hretire, rfl⟩ := hok
      obtain ⟨hu, hclosed⟩ := ht.retireTlabs ho.sound hretire
      exact hu.prepareSweep hclosed
  | sweep index => exact ht.sweepIndex henabled.2 hok
  | skip index =>
      obtain rfl := Except.ok.inj hok
      exact ⟨ht.placed, ht.laid, ht.tlabs, ht.objects,
        fun i hi => ht.pending i (List.mem_of_mem_erase hi)⟩
  | finishSweep => exact ht.finish hok
  | stop marks =>
      simp only [perform, Except.bind_eq_ok, Except.pure_eq_ok] at hok
      obtain ⟨u, hretire, rfl⟩ := hok
      obtain ⟨hu, hclosed⟩ := ht.retireTlabs ho.sound hretire
      exact Tidy.prepareSweep ⟨hu.placed, hu.laid, hu.tlabs, hu.objects, hu.pending⟩ hclosed
  | degenerate marks =>
      simp only [perform, Except.bind_eq_ok, Except.pure_eq_ok] at hok
      obtain ⟨u, hretire, rfl⟩ := hok
      obtain ⟨hu, _⟩ := ht.retireTlabs ho.sound hretire
      refine ⟨hu.placed, hu.laid, hu.tlabs, hu.objects, fun i hi => ?_⟩
      rw [← hu.placed.numRegions_eq]
      exact List.mem_range.mp hi
  | finishStopped => exact ht.finish hok

-- At first every region is empty.
theorem newStore_tidy (hs : newStore c = .ok s) : s.Tidy c := by
  obtain ⟨fs, _, heq⟩ := newStore_eq c
  rw [heq] at hs
  obtain rfl := Except.ok.inj hs
  have hregion : ∀ i, ((newHeap c).regions i).isEmpty = true ∧
      ((newHeap c).regions i).Layout [] := by
    intro i
    unfold newHeap HeapRegion.new HeapRegion.recycle HeapRegion.isTrash HeapRegion.Layout
      HeapRegion.isEmpty
    by_cases hcommited : i < c.commited
    · simp [hcommited]
    · simp [hcommited]
  refine ⟨⟨rfl, rfl, fun _ => rfl, fun _ => rfl⟩, ⟨fun i _ => (hregion i).2, ?_, ?_⟩,
    by simp, by simp, by simp⟩
  · intro i _ hstart
    have hempty := (hregion i).1
    have htyp : ((newHeap c).regions i).typ = .humongousStart := hstart
    simp [HeapRegion.isEmpty, htyp] at hempty
  · intro i _ hsweep
    cases hsweep

-- A run in which every object gets a buffer that can hold it keeps the heap tidy.
theorem tidy_of_via (hs : (storeMachine c mode).Via Roomy s) : s.Tidy c :=
  Machine.Via.invariant_of (fun _ h => offers_of_reachable h.reachable)
    (fun _ h => newStore_tidy h)
    (fun _ _ _ ho ht hroomy hstep => ht.step ho hroomy hstep) hs

-- Without elastic buffers every run is such a run.
theorem via_of_rigid (haligned : Heap.AlignedTlabs c.opts) (hrigid : c.opts.elasticTlab = false)
    (hs : (storeMachine c mode).Reachable s) : (storeMachine c mode).Via Roomy s := by
  refine hs.via fun u e hu => ?_
  cases e with
  | refill thread size =>
      have hopts := (offers_of_reachable hu).opts_eq
      refine ⟨hopts ▸ haligned, fun helastic => ?_⟩
      rw [hopts, hrigid] at helastic
      cases helastic
  | _ => trivial

end Store

end Rsgc.Storage
