import Rsgc.Storage.Store.States

namespace Rsgc.Storage

namespace FreeList

theorem buckets_of_add {l l' : FreeList} {addr size : Nat} (h : l.add addr size = .ok l') :
    l'.1.buckets = l.1.buckets := by
  obtain ⟨-, ⟨-, heq⟩ | ⟨-, -, heq⟩⟩ := RawFreeList.add_cases (add_raw h)
  · rw [heq]
  · rw [heq]
    rfl

theorem buckets_of_allocate (l : FreeList) (size : Nat) :
    (l.allocate size).2.1.buckets = l.1.buckets := by
  rcases RawFreeList.allocate_cases l.2 size with ⟨i, entry, rest, -, -, -, heq⟩ | ⟨i, -, heq⟩
  · simp only [allocate, heq, RawFreeList.unlink]
  · simp only [allocate, heq]

theorem peekFree_eq_zero {l : FreeList} (h : l.entries = []) : l.peekFree = 0 := by
  unfold peekFree RawFreeList.peekFree
  split
  · cases hhead : l.1.heads l.1.biggest with
    | nil => rfl
    | cons entry rest =>
        have hmem : entry ∈ l.entries :=
          (RawFreeList.mem_entries_iff l.2 entry).mpr ⟨_, hhead ▸ List.mem_cons_self⟩
        rw [h] at hmem
        cases hmem
  · rfl

-- The list has what it shows.
theorem allocate_of_le_peekFree {l : FreeList} {size : Nat} (hpos : 0 < size)
    (hle : size ≤ l.peekFree) : (l.allocate size).1 ≠ none := by
  unfold peekFree RawFreeList.peekFree at hle
  change (l.1.allocateFrom size l.1.biggest).1 ≠ none
  cases hbiggest : l.1.biggest with
  | zero =>
      rw [hbiggest, if_neg (Nat.lt_irrefl _)] at hle
      omega
  | succ index =>
      rw [hbiggest, if_pos (Nat.succ_pos _)] at hle
      cases hhead : l.1.heads (index + 1) with
      | nil =>
          simp only [hhead] at hle
          omega
      | cons entry rest =>
          simp only [hhead] at hle
          simp only [RawFreeList.allocateFrom, hhead]
          rw [if_neg fun hsmall => Nat.not_lt.mpr hle hsmall.2]
          exact Option.some_ne_none _

end FreeList

namespace HeapRegion

variable {c : HeapConfig} {r r' : HeapRegion} {held : List Space} {addr size : Nat}

-- The free list has a bucket for each power of two up to the size of the region.
def Bucketed (c : HeapConfig) (r : HeapRegion) : Prop :=
  r.freeList.1.buckets = c.opts.regionSizeLog2 + 1

section Buckets

theorem Bucketed.addFree (hb : r.Bucketed c) (h : r.addFree addr size = .ok r') :
    r'.Bucketed c := by
  obtain ⟨l, hl, rfl⟩ := addFree_eq_ok h
  exact (FreeList.buckets_of_add hl).trans hb

theorem Bucketed.makeRegularAllocation (hb : r.Bucketed c) (h : r.makeRegularAllocation = .ok r') :
    r'.Bucketed c := by
  rcases makeRegularAllocation_cases h with ⟨-, rfl⟩ | ⟨-, filled, hadd, rfl⟩
  · exact hb
  · have hfilled := hb.addFree hadd
    exact hfilled

theorem Bucketed.allocate {mem : Option Nat} (hb : r.Bucketed c)
    (h : r.allocate size = .ok (mem, r')) : r'.Bucketed c := by
  obtain ⟨base, hbase, hcases⟩ := allocate_cases h
  have hbase := hb.makeRegularAllocation hbase
  have htaken : Bucketed c { base with freeList := (base.freeList.allocate size).2 } :=
    (FreeList.buckets_of_allocate base.freeList size).trans hbase
  rcases hcases with ⟨-, -, rfl⟩ | ⟨entry, -, -, -, ⟨-, rfl⟩ | ⟨-, filled, hadd, rfl⟩⟩
  · exact htaken
  · exact htaken
  · have hfilled := htaken.addFree hadd
    exact hfilled

theorem Bucketed.sweepRegion {opts : HeapOptions} {marks : Nat → Bool} {blocks : List Space}
    {empty : Bool} (hb : r.Bucketed c) (hparses : r.Parses opts blocks)
    (h : sweepRegion opts marks r = .ok (empty, r')) : r'.Bucketed c := by
  simp only [Storage.sweepRegion, Except.bind_eq_ok, Except.pure_eq_ok, Prod.mk.injEq] at h
  obtain ⟨s, hblocks, closed, hclose, -, -, -, rfl⟩ := h
  exact (hparses.sweepBlocks_adds hblocks hclose).1.buckets_eq.trans hb

end Buckets

section Returns

variable (hsmall : c.opts.regionSizeLog2 < 32)

theorem log_eq (c : HeapConfig) : c.opts.regionSizeBytes = 2 ^ c.opts.regionSizeLog2 := by
  rw [c.geometry.size_eq, c.geometry.log_eq]

include hsmall in
-- Below 4 GiB the cast to `u32` makes no size zero.
theorem not_dvd_of_le (hpos : 0 < size) (hle : size ≤ c.opts.regionSizeBytes) : ¬2 ^ 32 ∣ size := by
  intro hdvd
  have hlt : 2 ^ c.opts.regionSizeLog2 < 2 ^ 32 := Nat.pow_lt_pow_right (by omega) hsmall
  rw [log_eq] at hle
  have hge := Nat.le_of_dvd hpos hdvd
  omega

include hsmall in
theorem Bucketed.addFree_ok (hb : r.Bucketed c) (addr : Nat) (hpos : 0 < size)
    (hle : size ≤ c.opts.regionSizeBytes) : ∃ r', r.addFree addr size = .ok r' := by
  have hindex : bucketIndexForSize size < r.freeList.1.buckets := by
    rw [hb, bucketIndexForSize_lt_iff (log_eq c ▸ hle) (by omega)]
    exact not_dvd_of_le hsmall hpos hle
  exact Except.exists_bind_eq_ok (FreeList.add_ok addr hpos hindex) fun _ _ => ⟨_, rfl⟩

include hsmall in
theorem Bucketed.makeRegularAllocation_ok (hb : r.Bucketed c)
    (hsize : r.size = c.opts.regionSizeBytes) : ∃ r', r.makeRegularAllocation = .ok r' := by
  unfold HeapRegion.makeRegularAllocation
  cases r.isEmpty with
  | false => exact ⟨{ r with typ := .regular }, rfl⟩
  | true =>
      have hadd := hb.addFree_ok hsmall r.bottom (hsize ▸ c.geometry.size_pos) (Nat.le_of_eq hsize)
      exact Except.exists_bind_eq_ok hadd fun _ _ => ⟨_, rfl⟩

include hsmall in
-- What is left of a block that is taken goes back, and there is a bucket for it.
theorem Layout.allocate_ok (h : r.Layout held) (hb : r.Bucketed c)
    (hallowed : r.isAllocAllowed = true) (hsize : r.size = c.opts.regionSizeBytes)
    (hlt : r.bottom < r.limit) (size : Nat) : ∃ result, r.allocate size = .ok result := by
  refine Except.exists_bind_eq_ok (hb.makeRegularAllocation_ok hsmall hsize) fun base hbase => ?_
  have hfilled := h.makeRegular hallowed (hsize ▸ c.geometry.dvd_size) hlt hbase
  have hframe := (makeRegularAllocation_sameFrame hbase).1
  cases hfound : (base.freeList.allocate size).1 with
  | none =>
      simp only [hfound]
      exact ⟨_, rfl⟩
  | some entry =>
      have hmem : (⟨entry.addr, entry.size, .tail⟩ : Space) ∈ ⟨entry.addr, entry.size, .tail⟩ ::
          (held ++ (base.freeList.allocate size).2.entries.map Entry.space) := List.mem_cons_self
      obtain ⟨hlow, hhigh⟩ := (hfilled.take hfound).covers.within hmem
      have hwithin : entry.size ≤ c.opts.regionSizeBytes := by
        simp only [Block.stop, hframe.bottom_eq, hframe.limit_eq] at hlow hhigh
        unfold HeapRegion.size at hsize
        omega
      simp only [hfound, splitEntry]
      split
      · have htaken : Bucketed c { base with freeList := (base.freeList.allocate size).2 } :=
          (FreeList.buckets_of_allocate base.freeList size).trans (hb.makeRegularAllocation hbase)
        exact Except.exists_bind_eq_ok (htaken.addFree_ok hsmall _ (by omega) (by omega))
          fun _ _ => ⟨_, rfl⟩
      · exact ⟨_, rfl⟩

end Returns

-- A region gives what its free list shows. An empty region shows nothing.
theorem Layout.allocate_ne_none {mem : Option Nat} (h : r.Layout held) (hpos : 0 < size)
    (hle : size ≤ r.peekFree) (hok : r.allocate size = .ok (mem, r')) : mem ≠ none := by
  obtain ⟨base, hbase, ⟨hnone, -, -⟩ | ⟨entry, -, rfl, -⟩⟩ := allocate_cases hok
  · rcases makeRegularAllocation_cases hbase with ⟨-, rfl⟩ | ⟨hempty, -⟩
    · exact absurd hnone (FreeList.allocate_of_le_peekFree hpos hle)
    · have hentries : r.freeList.entries = [] := by
        unfold Layout at h
        unfold isEmpty at hempty
        rcases htyp : r.typ <;> simp [htyp] at h hempty
        · exact h.2.1
        · exact h.2.1
      rw [peekFree, FreeList.peekFree_eq_zero hentries] at hle
      omega
  · exact Option.some_ne_none _

end HeapRegion

namespace Heap

variable {c : HeapConfig} {h h' : Heap} {held rest : Nat → List Space} {req : AllocRequest}
  {result : AllocResult}

def Bucketed (c : HeapConfig) (h : Heap) : Prop := ∀ i, (h.regions i).Bucketed c

section Buckets

theorem Bucketed.setRegion (hb : h.Bucketed c) {i : Nat} {r : HeapRegion} (hr : r.Bucketed c) :
    (h.setRegion i r).Bucketed c := by
  intro j
  by_cases hj : j = i
  · subst hj
    simpa using hr
  · simpa [hj] using hb j

theorem Bucketed.setStartBit (hb : h.Bucketed c) (i addr : Nat) :
    (h.setStartBit i addr).Bucketed c :=
  Bucketed.setRegion hb (hb i)

theorem Bucketed.writeHeader (hb : h.Bucketed c) (addr size : Nat) :
    (h.writeHeader addr size).Bucketed c :=
  Bucketed.setRegion hb (hb (h.regionIndex addr))

theorem Bucketed.zeroFill (hb : h.Bucketed c) (addr size : Nat) :
    (h.zeroFill addr size).Bucketed c :=
  Bucketed.setRegion hb (hb (h.regionIndex addr))

theorem Bucketed.markLive (hb : h.Bucketed c) (addr : Nat) : (h.markLive addr).Bucketed c := by
  unfold Heap.markLive
  simp only
  split
  · exact hb
  · exact hb.setStartBit _ _

theorem Bucketed.tryRecycleTrashed (hb : h.Bucketed c) (i : Nat) :
    (h.tryRecycleTrashed i).Bucketed c := by
  unfold Heap.tryRecycleTrashed
  split
  · exact Bucketed.setRegion hb (hb i)
  · exact hb

theorem Bucketed.allocateIn {i size : Nat} {mem : Option Nat} (hb : h.Bucketed c)
    (hok : h.allocateIn i req = .ok (size, mem, h')) : h'.Bucketed c := by
  obtain ⟨-, ⟨-, -, rfl⟩ | ⟨-, ⟨r, hr, rfl⟩, -⟩⟩ := allocateIn_cases hok
  · exact hb
  · have hcommit : (h.commitIfNeeded i).Bucketed c := by
      unfold Bucketed
      rw [commitIfNeeded_regions]
      exact hb
    exact hcommit.setRegion ((hb i).allocate hr)

theorem Bucketed.recordAllocation (hb : h.Bucketed c) (i : Nat) (req : AllocRequest)
    (size mem : Nat) : (h.recordAllocation i req size mem).Bucketed c := by
  have hused : (h.setFreeSet (h.freeSet.increaseUsed size)).Bucketed c := hb
  unfold Heap.recordAllocation
  simp only
  split
  · exact hused
  · exact hused.setStartBit i mem

theorem Bucketed.retireRegion (hb : h.Bucketed c) (i : Nat) : (h.retireRegion i).Bucketed c := by
  unfold Bucketed
  rw [retireRegion_regions]
  exact hb

theorem Bucketed.tryAllocateIn {i : Nat} (hb : h.Bucketed c)
    (hok : h.tryAllocateIn i req = .ok (result, h')) : h'.Bucketed c := by
  obtain ⟨size, mid, halloc, ⟨-, -, rfl⟩ | ⟨mem, -, -, rfl⟩⟩ := tryAllocateIn_cases hok
  · exact ((hb.tryRecycleTrashed i).allocateIn halloc).retireRegion i
  · have hrecord := ((hb.tryRecycleTrashed i).allocateIn halloc).recordAllocation i req size mem
    split
    · exact hrecord.retireRegion i
    · exact hrecord

theorem Bucketed.allocateSingleLoop {indices : List Nat} {inNewRegion : Bool} (hb : h.Bucketed c)
    (hok : h.allocateSingleLoop req inNewRegion indices = .ok (result, h')) : h'.Bucketed c := by
  induction indices generalizing h inNewRegion with
  | nil =>
      simp only [Heap.allocateSingleLoop, Except.pure_eq_ok, Prod.mk.injEq] at hok
      obtain ⟨-, rfl⟩ := hok
      exact hb
  | cons i rest ih =>
      unfold Heap.allocateSingleLoop at hok
      by_cases hbit : h.freeSet.isMutatorFree i = true
      · rw [if_pos hbit] at hok
        simp only [Except.bind_eq_ok] at hok
        obtain ⟨⟨tried, mid⟩, htry, hrest⟩ := hok
        have hmid := hb.tryAllocateIn htry
        cases hmem : tried.mem with
        | some mem =>
            simp only [hmem, Except.pure_eq_ok, Prod.mk.injEq] at hrest
            obtain ⟨-, rfl⟩ := hrest
            exact hmid
        | none =>
            simp only [hmem] at hrest
            exact ih hmid hrest
      · rw [if_neg hbit] at hok
        exact ih hb hok

theorem Bucketed.allocateContiguous (hb : h.Bucketed c) (req : AllocRequest) :
    (h.allocateContiguous req).2.Bucketed c := by
  rcases allocateContiguous_cases h req with heq | ⟨beg, -, heq⟩
  · rw [heq]
    exact hb
  · obtain ⟨-, -, hregions, -⟩ := finishContiguous_eq
      (h.claimRun beg (h.opts.requiredRegions req.size)) req beg (h.opts.requiredRegions req.size)
    rw [heq]
    intro j
    rw [hregions, (claimRun_regions h beg _ j).2]
    split
    · unfold claimHumongous
      simp only [setFreeSet_regions, setRegion_regions, Function.update_self]
      split
      · exact (hb.tryRecycleTrashed j) j
      · exact (hb.tryRecycleTrashed j) j
    · exact hb j

theorem Bucketed.allocate (hb : h.Bucketed c) (hok : h.allocate req = .ok (result, h')) :
    h'.Bucketed c := by
  unfold Heap.allocate at hok
  split at hok
  · rw [Except.pure_eq_ok] at hok
    have hcontiguous := hb.allocateContiguous req
    rwa [hok] at hcontiguous
  · exact hb.allocateSingleLoop hok

theorem Bucketed.refill {size : Nat} {found : Option (Nat × ThreadLocalAllocBuffer)}
    (hb : h.Bucketed c) (hok : h.refill size = .ok (found, h')) : h'.Bucketed c := by
  obtain ⟨result, mid, halloc, ⟨-, -, rfl⟩ | ⟨mem, -, -, rfl⟩⟩ := refill_cases hok
  · exact hb.allocate halloc
  · exact ((hb.allocate halloc).zeroFill _ _).setStartBit _ _

theorem Bucketed.allocateOutsideTlab {size : Nat} {found : Option Nat} (hb : h.Bucketed c)
    (hok : h.allocateOutsideTlab size = .ok (found, h')) : h'.Bucketed c := by
  obtain ⟨result, mid, halloc, -, ⟨-, rfl⟩ | ⟨mem, -, rfl⟩⟩ := allocateOutsideTlab_cases hok
  · exact hb.allocate halloc
  · exact (hb.allocate halloc).markLive mem

theorem Bucketed.retire {tlab tlab' : ThreadLocalAllocBuffer} (hb : h.Bucketed c)
    (hok : tlab.retire h = .ok (tlab', h')) : h'.Bucketed c := by
  rcases ThreadLocalAllocBuffer.retire_cases hok with
    ⟨-, -, rfl⟩ | ⟨-, -, ⟨-, rfl⟩ | ⟨-, r, hadd, rfl⟩⟩
  · exact hb
  · exact hb
  · exact hb.setRegion ((hb _).addFree hadd)

theorem Bucketed.retireAll {tlabs tlabs' : List ThreadLocalAllocBuffer} (hb : h.Bucketed c)
    (hok : retireAll tlabs h = .ok (tlabs', h')) : h'.Bucketed c := by
  induction tlabs generalizing h tlabs' with
  | nil =>
      simp only [Storage.retireAll, Except.pure_eq_ok, Prod.mk.injEq] at hok
      obtain ⟨-, rfl⟩ := hok
      exact hb
  | cons tlab rest ih =>
      simp only [Storage.retireAll, Except.bind_eq_ok, Except.pure_eq_ok, Prod.mk.injEq] at hok
      obtain ⟨⟨tlab', mid⟩, hretire, ⟨rest', last⟩, hrest, -, rfl⟩ := hok
      exact ih (hb.retire hretire) hrest

theorem Bucketed.prepareUnsweptRegions (hb : h.Bucketed c) :
    h.prepareUnsweptRegions.Bucketed c := by
  obtain ⟨-, -, -, -, hregions, -⟩ := prepareUnswept_foldl h (List.range h.numRegions)
  intro j
  unfold Heap.prepareUnsweptRegions
  rw [hregions]
  split
  · exact hb j
  · exact hb j

theorem Bucketed.clearToSweep (hb : h.Bucketed c) (i : Nat) : (h.clearToSweep i).Bucketed c :=
  Bucketed.setRegion hb (hb i)

end Buckets

section Sweep

variable {marks : Nat → Bool}

-- What the sweep reads in a region that waits for it. No buffer is open there.
theorem Laid.parses {i : Nat} (hl : h.Laid held) (hp : h.Placed c) (hi : i < h.numRegions)
    (htyp : (h.regions i).typ = .regular) (hsweep : (h.regions i).toSweep = true) :
    ∃ tiles, HeapRegion.Parses h.opts { h.regions i with toSweep := false } tiles := by
  have hlayout := (clearToSweep_laid hl i).region i hi
  rw [clearToSweep_regions, if_pos rfl] at hlayout
  have hlimit : (h.regions i).limit = (h.regions i).bottom + h.opts.regionSizeBytes := by
    rw [hp.limit_eq, hp.opts_eq]
  have hnotTail : ∀ b ∈ held i ++ (h.regions i).freeBlocks, b.kind ≠ .tail := by
    intro b hb
    rcases List.mem_append.mp hb with hb | hb
    · exact hl.idle i hi hsweep b hb
    · obtain ⟨e, -, rfl⟩ := List.mem_map.mp hb
      simp [Entry.space]
  obtain ⟨tiles, -, hparses⟩ := (hlayout.filled htyp).parses hlimit hnotTail
  exact ⟨tiles, hparses⟩

end Sweep

section Returns

variable (hsmall : c.opts.regionSizeLog2 < 32)

include hsmall in
theorem Laid.allocateIn_ok {i : Nat} (hlayout : (h.regions i).Layout (held i)) (hp : h.Placed c)
    (hb : h.Bucketed c) (hallowed : (h.regions i).isAllocAllowed = true) (hmin : 0 < req.minSize) :
    ∃ found, h.allocateIn i req = .ok found := by
  have hregion (size : Nat) : ∃ found, (h.regions i).allocate size = .ok found :=
    hlayout.allocate_ok hsmall (hb i) hallowed (hp.size_eq i) (hp.lt_limit i) size
  have hallocate (size : Nat) : ∃ found, h.regionAllocate i size = .ok found :=
    Except.exists_bind_eq_ok (hregion size) fun _ _ => ⟨_, rfl⟩
  unfold allocateIn
  split
  · unfold elasticAllocate
    simp only
    split
    · rename_i hfits
      refine Except.exists_bind_eq_ok (hallocate _) fun found hfound => ?_
      obtain ⟨r, hr, -⟩ := regionAllocate_eq_ok hfound
      have hdown : alignDown (h.regions i).peekFree 16 ≤ (h.regions i).peekFree :=
        Nat.div_mul_le_self _ _
      have hsome := hlayout.allocate_ne_none (by omega) (by omega) hr
      exact Except.exists_bind_eq_ok ⟨(), Except.ensure_eq_ok.mpr hsome⟩ fun _ _ => ⟨_, rfl⟩
    · exact ⟨_, rfl⟩
  · exact Except.exists_bind_eq_ok (hallocate _) fun _ _ => ⟨_, rfl⟩

include hsmall in
theorem Laid.tryAllocateIn_ok {i : Nat} (hl : h.Laid held) (hp : h.Placed c) (hs : h.Sound)
    (hb : h.Bucketed c) (hbit : h.freeSet.isMutatorFree i = true) (hmin : 0 < req.minSize) :
    ∃ result h', h.tryAllocateIn i req = .ok (result, h') := by
  have ho := hs.offered i hbit
  obtain ⟨hlayout, hallowed⟩ := hl.tryRecycleTrashed ho
  have hp' := hp.sameShape (TouchesOnly.tryRecycleTrashed h i).sameShape
  obtain ⟨⟨size, mem, mid⟩, hfound⟩ :=
    Laid.allocateIn_ok hsmall hlayout hp' (hb.tryRecycleTrashed i) hallowed hmin
  unfold Heap.tryAllocateIn
  rw [ensure_bind ho.swept, ensure_bind ho.capacity]
  simp only [hfound, Except.ok_bind]
  cases mem with
  | none => exact ⟨_, _, rfl⟩
  | some mem => exact ⟨_, _, rfl⟩

include hsmall in
-- By induction on the regions that are left; the ones that were tried keep the
-- layout and the buckets.
theorem Laid.allocateSingleLoop_ok (hl : h.Laid held) (hp : h.Placed c) (hs : h.Sound)
    (hb : h.Bucketed c) (hdvd : 16 ∣ req.size) (hpos : 0 < req.size) (hmin : 0 < req.minSize)
    (indices : List Nat) (inNewRegion : Bool) :
    ∃ found, h.allocateSingleLoop req inNewRegion indices = .ok found := by
  induction indices generalizing h inNewRegion with
  | nil => exact ⟨_, rfl⟩
  | cons i rest ih =>
      unfold Heap.allocateSingleLoop
      by_cases hbit : h.freeSet.isMutatorFree i = true
      · obtain ⟨tried, mid, htry⟩ := hl.tryAllocateIn_ok hsmall hp hs hb hbit hmin
        rw [if_pos hbit, htry, Except.ok_bind]
        cases hmem : tried.mem with
        | some mem => exact ⟨_, rfl⟩
        | none =>
            obtain ⟨size, hmid, -⟩ := hl.tryAllocateIn hp hs hbit hdvd hpos hmin htry
            have hsame : Function.update held i (handedOut none size ++ held i) = held := by
              simp [handedOut]
            rw [hmem, hsame] at hmid
            have hp' := hp.sameShape (TouchesOnly.tryAllocateIn htry).sameShape
            exact ih hmid hp' (hs.tryAllocateIn hbit htry) (hb.tryAllocateIn htry) _
      · rw [if_neg hbit]
        exact ih hl hp hs hb _

include hsmall in
theorem Laid.allocate_ok (hl : h.Laid held) (hp : h.Placed c) (hs : h.Sound) (hb : h.Bucketed c)
    (hdvd : 16 ∣ req.size) (hpos : 0 < req.size) (hmin : 0 < req.minSize) :
    ∃ found, h.allocate req = .ok found := by
  unfold allocate
  split
  · exact ⟨_, rfl⟩
  · exact hl.allocateSingleLoop_ok hsmall hp hs hb hdvd hpos hmin _ _

end Returns

end Heap

namespace Store

variable {c : HeapConfig} {mode : BarrierMode} {s t : Store}

section Buckets

end Buckets

section Returns

variable (hsmall : c.opts.regionSizeLog2 < 32)

end Returns

end Store

end Rsgc.Storage
