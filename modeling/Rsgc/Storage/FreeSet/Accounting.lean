import Mathlib.Data.List.Find
import Rsgc.Storage.FreeSet.Bounds
import Rsgc.Storage.Store

namespace Rsgc.Storage

namespace HeapRegion

variable {r r' : HeapRegion}

-- The block that `allocate` takes from the free list.
def firstFit (r : HeapRegion) (size : Nat) : Option Entry :=
  match r.makeRegularAllocation with
  | .ok base => (base.freeList.allocate size).1
  | .error _ => none

-- An empty region has nothing on its free list.
def Vacant (r : HeapRegion) : Prop := r.isEmpty = true → 16 ≤ r.size ∧ r.freeList.free = 0

theorem makeRegularAllocation_free (hvacant : r.Vacant) (h : r.makeRegularAllocation = .ok r') :
    r'.freeList.free = r.free := by
  rcases makeRegularAllocation_cases h with ⟨hempty, rfl⟩ | ⟨hempty, filled, hadd, rfl⟩
  · simp [free, hempty]
  · obtain ⟨hsize, hzero⟩ := hvacant hempty
    obtain ⟨l, hl, rfl⟩ := addFree_eq_ok hadd
    rcases FreeList.add_cases hl with ⟨_, ⟨hsmall, _⟩ | ⟨_, hfree, _⟩⟩
    · unfold ENTRY_SIZE at hsmall
      omega
    · simp only [free, hempty, if_true]
      omega

-- What an allocation takes from the free bytes of a region: the bytes it hands
-- out, and a tail that is too short for the free list.
theorem allocate_free {size : Nat} {mem : Option Nat} (hvacant : r.Vacant)
    (h : r.allocate size = .ok (mem, r')) :
    r'.isTrash = false ∧ ((mem = none ∧ r.firstFit size = none ∧ r'.free = r.free) ∨
      ∃ entry, r.firstFit size = some entry ∧ mem = some entry.addr ∧ size ≤ entry.size ∧
        r'.free + size + (if entry.size - size < 16 then entry.size - size else 0) = r.free) := by
  have hregular : r'.isTrash = false ∧ r'.free = r'.freeList.free := by
    obtain ⟨_, htyp⟩ := allocate_sameFrame h
    simp [isTrash, free, isEmpty, htyp]
  refine ⟨hregular.1, ?_⟩
  rw [hregular.2]
  obtain ⟨base, hbase, hcases⟩ := allocate_cases h
  have hfree := makeRegularAllocation_free hvacant hbase
  have hfit : r.firstFit size = (base.freeList.allocate size).1 := by
    unfold firstFit
    rw [hbase]
  rw [hfit]
  rcases hcases with ⟨hnone, rfl, rfl⟩ | ⟨entry, hfound, rfl, hle, hrest⟩
  · obtain ⟨hsame, _⟩ := FreeList.allocate_none hnone
    exact Or.inl ⟨rfl, hnone, hsame.trans hfree⟩
  · obtain ⟨_, htaken, _⟩ := FreeList.allocate_some hfound
    refine Or.inr ⟨entry, hfound, rfl, hle, ?_⟩
    rcases hrest with ⟨heq, rfl⟩ | ⟨hlt, filled, hadd, rfl⟩
    · simp only
      split <;> omega
    · obtain ⟨l, hl, rfl⟩ := addFree_eq_ok hadd
      simp only
      rcases FreeList.add_cases hl with ⟨_, ⟨hsmall, heq⟩ | ⟨hlarge, hadded, _⟩⟩
      · unfold ENTRY_SIZE at hsmall
        rw [if_pos hsmall, heq]
        simp only
        omega
      · unfold ENTRY_SIZE at hlarge
        rw [if_neg (by omega), hadded]
        simp only
        omega

end HeapRegion

theorem sum_range_exchange {f g : Nat → Nat} {i n : Nat} (hi : i < n)
    (hother : ∀ j, j ≠ i → g j = f j) :
    ((List.range n).map g).sum + f i = ((List.range n).map f).sum + g i := by
  induction n with
  | zero => omega
  | succ n ih =>
      simp only [List.range_succ, List.map_append, List.sum_append, List.map_cons, List.map_nil,
        List.sum_singleton]
      by_cases hn : n = i
      · subst hn
        have hbelow : (List.range n).map g = (List.range n).map f := by
          refine List.map_congr_left fun j hj => hother j ?_
          have hlt := List.mem_range.mp hj
          omega
        rw [hbelow]
        omega
      · have hsum := ih (by omega)
        have hlast := hother n hn
        omega

namespace Heap

variable {h h' : Heap} {req : AllocRequest} {result : AllocResult}

-- The bytes that the free set offers in region `i`, and in all regions.
def share (h : Heap) (i : Nat) : Nat := if h.freeSet.isMutatorFree i then h.allocCapacity i else 0

def offeredBytes (h : Heap) : Nat := ((List.range h.numRegions).map h.share).sum

-- The regions that the free set offers have the size that the options say, and
-- nothing is on the free list of an empty one.
structure Measured (h : Heap) : Prop where
  lt : ∀ i, h.freeSet.isMutatorFree i = true → i < h.numRegions
  size_ge : 16 ≤ h.opts.regionSizeBytes
  size_eq : ∀ i, h.freeSet.isMutatorFree i = true → (h.regions i).size = h.opts.regionSizeBytes
  empty : ∀ i, h.freeSet.isMutatorFree i = true → (h.regions i).isEmpty = true →
    (h.regions i).freeList.free = 0

theorem share_of_bit {i : Nat} (hbit : h.freeSet.isMutatorFree i = true) :
    h.share i = h.allocCapacity i := if_pos hbit

theorem share_of_not_bit {i : Nat} (hbit : h.freeSet.isMutatorFree i = false) : h.share i = 0 := by
  simp [share, hbit]

theorem TouchesOnly.share_eq {i j : Nat} (ht : h.TouchesOnly h' i) (hj : j ≠ i) :
    h'.share j = h.share j := by
  obtain ⟨hregion, hbit⟩ := ht.others j hj
  unfold share allocCapacity
  rw [hregion, hbit, ht.opts_eq]

theorem TouchesOnly.offeredBytes_eq {i : Nat} (ht : h.TouchesOnly h' i) (hi : i < h.numRegions) :
    h'.offeredBytes + h.share i = h.offeredBytes + h'.share i := by
  have hn : h'.numRegions = h.numRegions := by
    unfold numRegions
    rw [ht.opts_eq]
  unfold offeredBytes
  rw [hn]
  exact sum_range_exchange hi fun j hj => ht.share_eq hj

-- The region a request is tried in, after the recycling.
theorem Measured.tryRecycleTrashed (hm : h.Measured) {i : Nat}
    (hbit : h.freeSet.isMutatorFree i = true) :
    ((h.tryRecycleTrashed i).regions i).Vacant ∧
      ((h.tryRecycleTrashed i).regions i).free = h.allocCapacity i := by
  have hsize := hm.size_eq i hbit
  have hge := hm.size_ge
  unfold Heap.tryRecycleTrashed allocCapacity HeapRegion.allocCapacity HeapRegion.Vacant
  by_cases htrash : (h.regions i).isTrash = true
  · rw [if_pos htrash, if_pos htrash, setRegion_regions, Function.update_self]
    have hrecycled : (h.regions i).recycle.size = (h.regions i).size := rfl
    refine ⟨fun _ => ⟨by omega, rfl⟩, ?_⟩
    have hempty : (h.regions i).recycle.isEmpty = true := by
      simp [HeapRegion.recycle, HeapRegion.isEmpty, htrash]
    unfold HeapRegion.free
    rw [if_pos hempty]
    omega
  · rw [if_neg htrash, if_neg htrash]
    exact ⟨fun hempty => ⟨by omega, hm.empty i hbit hempty⟩, rfl⟩

-- The block that region `i` hands out for the request.
def granted (h : Heap) (req : AllocRequest) (i : Nat) : Option Entry :=
  let h := h.tryRecycleTrashed i
  if (h.opts.elasticTlab = true ∧ req.forLab = true) ∧ h.requestSize i req < req.minSize then none
  else (h.regions i).firstFit (h.requestSize i req)

-- What is left of that block and is too short for a free list.
def sliver (h : Heap) (req : AllocRequest) (i : Nat) : Nat :=
  match h.granted req i with
  | none => 0
  | some entry =>
      let rest := entry.size - (h.tryRecycleTrashed i).requestSize i req
      if rest < 16 then rest else 0

theorem retireRegion_share (h : Heap) (i : Nat) : (h.retireRegion i).share i = 0 := by
  apply share_of_not_bit
  rw [retireRegion_isMutatorFree, if_pos rfl]

theorem recordAllocation_used (h : Heap) (i size mem : Nat) (req : AllocRequest) :
    (h.recordAllocation i req size mem).freeSet.used = h.freeSet.used + size := by
  unfold recordAllocation
  simp only
  split <;> rfl

theorem recordAllocation_isMutatorFree (h : Heap) (i size mem j : Nat) (req : AllocRequest) :
    (h.recordAllocation i req size mem).freeSet.isMutatorFree j = h.freeSet.isMutatorFree j := by
  unfold recordAllocation
  simp only
  split <;> rfl

-- Recording an allocation changes no free byte.
theorem recordAllocation_capacity (h : Heap) (i size mem : Nat) (req : AllocRequest)
    (hnotTrash : (h.regions i).isTrash = false) :
    (h.recordAllocation i req size mem).allocCapacity i = (h.regions i).free ∧
      ((h.recordAllocation i req size mem).regions i).free = (h.regions i).free := by
  have hbit : ∀ (opts : HeapOptions) (r : HeapRegion),
      (r.setStartBit mem).allocCapacity opts = r.allocCapacity opts ∧
        (r.setStartBit mem).free = r.free := fun _ _ => ⟨rfl, rfl⟩
  unfold allocCapacity
  rcases recordAllocation_region h i req size mem with heq | heq
  · rw [heq]
    simp [HeapRegion.allocCapacity, hnotTrash]
  · rw [heq, (hbit _ _).1, (hbit h.opts _).2]
    simp [HeapRegion.allocCapacity, hnotTrash]

-- The heart of the accounting: what a region loses goes to `used`, but for the sliver.
theorem tryAllocateIn_used {i : Nat} (hm : h.Measured) (hbit : h.freeSet.isMutatorFree i = true)
    (hok : h.tryAllocateIn i req = .ok (result, h')) :
    (result.mem = none ↔ h.granted req i = none) ∧
      h'.freeSet.used + h'.share i + h.sliver req i = h.freeSet.used + h.share i := by
  obtain ⟨size, mid, halloc, hcases⟩ := tryAllocateIn_cases hok
  obtain ⟨hvacant, hfree⟩ := hm.tryRecycleTrashed hbit
  obtain ⟨hsize, hstep⟩ := allocateIn_cases halloc
  have hrecycledSet : (h.tryRecycleTrashed i).freeSet = h.freeSet := by
    unfold Heap.tryRecycleTrashed
    split <;> rfl
  rw [share_of_bit hbit, ← hfree]
  rcases hstep with ⟨hrefuses, hnone, rfl⟩ | ⟨haccepts, ⟨r, hr, rfl⟩, _⟩
  · have hgranted : h.granted req i = none := if_pos hrefuses
    refine ⟨iff_of_true hnone hgranted, ?_⟩
    rcases hcases with ⟨_, _, rfl⟩ | ⟨_, hsome, _⟩
    · have hsliver : h.sliver req i = 0 := by
        unfold sliver
        rw [hgranted]
      rw [hsliver, retireRegion_used, retireRegion_share, hrecycledSet]
      omega
    · rw [hnone] at hsome
      cases hsome
  · have hgranted : h.granted req i = ((h.tryRecycleTrashed i).regions i).firstFit size := by
      rw [hsize]
      exact if_neg haccepts
    obtain ⟨hnotTrash, hregion⟩ := HeapRegion.allocate_free hvacant hr
    have hmidRegion : (((h.tryRecycleTrashed i).commitIfNeeded i).setRegion i r).regions i = r := by
      simp
    have hmidUsed : (((h.tryRecycleTrashed i).commitIfNeeded i).setRegion i r).freeSet =
        h.freeSet := by
      rw [setRegion_freeSet, commitIfNeeded_freeSet, hrecycledSet]
    rcases hregion with ⟨hnone, hfit, hsame⟩ | ⟨entry, hfit, hmem, hle, hsum⟩
    · refine ⟨iff_of_true hnone (hgranted.trans hfit), ?_⟩
      rcases hcases with ⟨_, _, rfl⟩ | ⟨_, hsome, _⟩
      · have hsliver : h.sliver req i = 0 := by
          unfold sliver
          rw [hgranted, hfit]
        rw [hsliver, retireRegion_used, retireRegion_share, hmidRegion, hmidUsed]
        omega
      · rw [hnone] at hsome
        cases hsome
    · have hsliver : h.sliver req i =
          if entry.size - size < 16 then entry.size - size else 0 := by
        unfold sliver
        rw [hgranted, hfit, hsize]
      refine ⟨iff_of_false (by simp [hmem]) (by simp [hgranted, hfit]), ?_⟩
      rcases hcases with ⟨hnone, _, _⟩ | ⟨mem, _, _, rfl⟩
      · rw [hmem] at hnone
        cases hnone
      · have hmidTrash : ((((h.tryRecycleTrashed i).commitIfNeeded i).setRegion i
            r).regions i).isTrash = false := by
          rw [hmidRegion, hnotTrash]
        have hused := recordAllocation_used
          (((h.tryRecycleTrashed i).commitIfNeeded i).setRegion i r) i size mem req
        obtain ⟨hcapacity, hfreeBytes⟩ := recordAllocation_capacity
          (((h.tryRecycleTrashed i).commitIfNeeded i).setRegion i r) i size mem req hmidTrash
        have hbits : ((((h.tryRecycleTrashed i).commitIfNeeded i).setRegion i
            r).recordAllocation i req size mem).freeSet.isMutatorFree i = true := by
          rw [recordAllocation_isMutatorFree, hmidUsed, hbit]
        rw [hmidUsed] at hused
        rw [hmidRegion] at hcapacity hfreeBytes
        rw [hsliver]
        by_cases hzero : r.free = 0
        · rw [hcapacity, if_pos hzero, retireRegion_used, retireRegion_share, hused, hfreeBytes]
          omega
        · rw [hcapacity, if_neg hzero, hused, share_of_bit hbits, hcapacity]
          omega

theorem Measured.touch (hm : h.Measured) {i : Nat} (ht : h.TouchesOnly h' i)
    (hempty : h'.freeSet.isMutatorFree i = true → (h'.regions i).isEmpty = true →
      (h'.regions i).freeList.free = 0) : h'.Measured where
  lt := by
    intro j hj
    unfold numRegions
    rw [ht.opts_eq]
    by_cases hji : j = i
    · subst hji
      exact hm.lt j (ht.bit hj)
    · rw [(ht.others j hji).2] at hj
      exact hm.lt j hj
  size_ge := by
    rw [ht.opts_eq]
    exact hm.size_ge
  size_eq := by
    intro j hj
    rw [ht.opts_eq]
    by_cases hji : j = i
    · subst hji
      unfold HeapRegion.size
      rw [ht.frame.limit_eq, ht.frame.bottom_eq]
      exact hm.size_eq j (ht.bit hj)
    · obtain ⟨hregion, hbit⟩ := ht.others j hji
      rw [hregion]
      exact hm.size_eq j (hbit ▸ hj)
  empty := by
    intro j hj
    by_cases hji : j = i
    · subst hji
      exact hempty hj
    · obtain ⟨hregion, hbit⟩ := ht.others j hji
      rw [hregion]
      exact hm.empty j (hbit ▸ hj)

theorem Measured.tryAllocateIn (hm : h.Measured) {i : Nat}
    (hok : h.tryAllocateIn i req = .ok (result, h')) : h'.Measured := by
  refine hm.touch (TouchesOnly.tryAllocateIn hok) fun hbit hempty => ?_
  obtain ⟨size, mid, halloc, hcases⟩ := tryAllocateIn_cases hok
  obtain ⟨_, ⟨_, hnone, _⟩ | ⟨_, ⟨r, hr, rfl⟩, _⟩⟩ := allocateIn_cases halloc
  · rcases hcases with ⟨_, _, rfl⟩ | ⟨_, hsome, _⟩
    · rw [retireRegion_isMutatorFree, if_pos rfl] at hbit
      cases hbit
    · rw [hnone] at hsome
      cases hsome
  · -- an allocation leaves a regular region
    have htyp := (HeapRegion.allocate_sameFrame hr).2
    have hmid : (((h.tryRecycleTrashed i).commitIfNeeded i).setRegion i r).regions i = r := by
      simp
    rcases hcases with ⟨_, _, rfl⟩ | ⟨mem, _, _, rfl⟩
    · rw [retireRegion_isMutatorFree, if_pos rfl] at hbit
      cases hbit
    · have hregular : ((((h.tryRecycleTrashed i).commitIfNeeded i).setRegion i
          r).recordAllocation i req size mem).regions i = r ∨
          ((((h.tryRecycleTrashed i).commitIfNeeded i).setRegion i
          r).recordAllocation i req size mem).regions i = r.setStartBit mem := by
        have hrecord := recordAllocation_region
          (((h.tryRecycleTrashed i).commitIfNeeded i).setRegion i r) i req size mem
        rwa [hmid] at hrecord
      split at hempty
      · rw [retireRegion_regions] at hempty
        rcases hregular with heq | heq <;> rw [heq] at hempty <;>
          simp [HeapRegion.isEmpty, HeapRegion.setStartBit, htyp] at hempty
      · rcases hregular with heq | heq <;> rw [heq] at hempty <;>
          simp [HeapRegion.isEmpty, HeapRegion.setStartBit, htyp] at hempty

def grants (h : Heap) (req : AllocRequest) (i : Nat) : Bool :=
  h.freeSet.isMutatorFree i && (h.granted req i).isSome

theorem TouchesOnly.grants_eq {i j : Nat} (ht : h.TouchesOnly h' i) (hj : j ≠ i) :
    h'.sliver req j = h.sliver req j ∧ h'.grants req j = h.grants req j := by
  obtain ⟨hregion, hbit⟩ := ht.others j hj
  have hrecycled : (h'.tryRecycleTrashed j).regions j = (h.tryRecycleTrashed j).regions j ∧
      (h'.tryRecycleTrashed j).opts = (h.tryRecycleTrashed j).opts := by
    unfold Heap.tryRecycleTrashed
    rw [hregion]
    split
    · exact ⟨by simp, ht.opts_eq⟩
    · exact ⟨hregion, ht.opts_eq⟩
  have hsize : (h'.tryRecycleTrashed j).requestSize j req =
      (h.tryRecycleTrashed j).requestSize j req := by
    unfold requestSize
    rw [hrecycled.1, hrecycled.2]
  have hgranted : h'.granted req j = h.granted req j := by
    unfold granted
    simp only [hsize, hrecycled.1, hrecycled.2]
  unfold sliver grants
  rw [hgranted, hsize, hbit]
  exact ⟨rfl, rfl⟩

-- The sliver that the scan of `indices` leaves behind.
def lostBytes (h : Heap) (req : AllocRequest) (indices : List Nat) : Nat :=
  match indices.find? (h.grants req) with
  | none => 0
  | some i => h.sliver req i

-- The sum of what is used and what is offered only loses the sliver of the
-- region that serves the request.
theorem allocateSingleLoop_used {indices : List Nat} {inNewRegion : Bool} (hm : h.Measured)
    (hnodup : indices.Nodup)
    (hok : h.allocateSingleLoop req inNewRegion indices = .ok (result, h')) :
    h'.Measured ∧ h'.freeSet.capacity = h.freeSet.capacity ∧ h'.opts = h.opts ∧
      h'.freeSet.used + h'.offeredBytes + h.lostBytes req indices =
        h.freeSet.used + h.offeredBytes := by
  induction indices generalizing h inNewRegion with
  | nil =>
      simp only [Heap.allocateSingleLoop, Except.pure_eq_ok, Prod.mk.injEq] at hok
      obtain ⟨rfl, rfl⟩ := hok
      exact ⟨hm, rfl, rfl, rfl⟩
  | cons i rest ih =>
      obtain ⟨hnot, hrest⟩ := List.nodup_cons.mp hnodup
      unfold Heap.allocateSingleLoop at hok
      by_cases hbit : h.freeSet.isMutatorFree i = true
      · rw [if_pos hbit] at hok
        simp only [Except.bind_eq_ok] at hok
        obtain ⟨⟨tried, mid⟩, htry, hok⟩ := hok
        have ht := TouchesOnly.tryAllocateIn htry
        obtain ⟨hnone, hused⟩ := tryAllocateIn_used hm hbit htry
        have hbytes := ht.offeredBytes_eq (hm.lt i hbit)
        have hmid := hm.tryAllocateIn htry
        cases htried : tried.mem with
        | some mem =>
            simp only [htried, Except.pure_eq_ok, Prod.mk.injEq] at hok
            obtain ⟨rfl, rfl⟩ := hok
            have hgrants : h.grants req i = true := by
              have hsome : h.granted req i ≠ none := fun hno => by
                rw [hnone.mpr hno] at htried
                cases htried
              simp [grants, hbit, Option.isSome_iff_ne_none, hsome]
            have hlost : h.lostBytes req (i :: rest) = h.sliver req i := by
              unfold lostBytes
              rw [List.find?_cons_of_pos hgrants]
            exact ⟨hmid, ht.capacity_eq, ht.opts_eq, by rw [hlost]; omega⟩
        | none =>
            simp only [htried] at hok
            obtain ⟨hlast, hcapacity, hopts, hsum⟩ := ih hmid hrest hok
            have hrefuses : h.grants req i = false := by
              simp [grants, hnone.mp htried]
            have hsliver : h.sliver req i = 0 := by
              unfold sliver
              rw [hnone.mp htried]
            have hsame : ∀ k ∈ rest, mid.sliver req k = h.sliver req k ∧
                mid.grants req k = h.grants req k := by
              intro k hk
              refine ht.grants_eq fun heq => ?_
              rw [heq] at hk
              exact hnot hk
            refine ⟨hlast, hcapacity.trans ht.capacity_eq, hopts.trans ht.opts_eq, ?_⟩
            have hlost : mid.lostBytes req rest = h.lostBytes req (i :: rest) := by
              unfold lostBytes
              rw [List.find?_cons_of_neg (by simp [hrefuses]),
                List.find?_congr fun k hk => (hsame k hk).2]
              cases hfound : rest.find? (h.grants req) with
              | none => rfl
              | some k => exact (hsame k (List.mem_of_find?_eq_some hfound)).1
            omega
      · rw [if_neg hbit] at hok
        have hlost : h.lostBytes req (i :: rest) = h.lostBytes req rest := by
          unfold lostBytes
          rw [List.find?_cons_of_neg (by simp [grants, hbit])]
        rw [hlost]
        exact ih hm hrest hok

-- A contiguous request takes its regions from the offer and adds nothing to `used`.
theorem claimRun_used (hm : h.Measured) (beg num : Nat)
    (hbits : ∀ j, beg ≤ j → j < beg + num → h.freeSet.isMutatorFree j = true) :
    (h.claimRun beg num).Measured ∧ (h.claimRun beg num).opts = h.opts ∧
      (h.claimRun beg num).freeSet.capacity = h.freeSet.capacity ∧
      (h.claimRun beg num).freeSet.used = h.freeSet.used ∧
      (h.claimRun beg num).offeredBytes ≤ h.offeredBytes := by
  have hused : ∀ (g : Heap) (i : Nat), (g.claimHumongous beg i).freeSet.used = g.freeSet.used := by
    intro g i
    have hset : ((g.tryRecycleTrashed i).commitIfNeeded i).freeSet = g.freeSet := by
      rw [commitIfNeeded_freeSet]
      unfold Heap.tryRecycleTrashed
      split <;> rfl
    unfold claimHumongous
    simp [RegionFreeSet.setBit, hset]
  have hloop : ∀ (indices : List Nat) (g : Heap), g.Measured → (∀ j ∈ indices, j < g.numRegions) →
      (indices.foldl (fun h i => h.claimHumongous beg i) g).Measured ∧
      (indices.foldl (fun h i => h.claimHumongous beg i) g).opts = g.opts ∧
      (indices.foldl (fun h i => h.claimHumongous beg i) g).freeSet.capacity = g.freeSet.capacity ∧
      (indices.foldl (fun h i => h.claimHumongous beg i) g).freeSet.used = g.freeSet.used ∧
      (indices.foldl (fun h i => h.claimHumongous beg i) g).offeredBytes ≤ g.offeredBytes := by
    intro indices
    induction indices with
    | nil => exact fun g hg _ => ⟨hg, rfl, rfl, rfl, Nat.le_refl _⟩
    | cons i rest ih =>
        intro g hg hlt
        have ht := claimHumongous_touchesOnly g beg i
        have hcleared : (g.claimHumongous beg i).freeSet.isMutatorFree i = false := by
          simp [claimHumongous_isMutatorFree]
        have hbytes := ht.offeredBytes_eq (hlt i List.mem_cons_self)
        rw [share_of_not_bit hcleared] at hbytes
        have hmid := hg.touch ht fun hbit => by
          rw [hcleared] at hbit
          cases hbit
        obtain ⟨hlast, hopts, hcapacity, hused', hle⟩ :=
          ih (g.claimHumongous beg i) hmid fun j hj => by
            unfold numRegions
            rw [ht.opts_eq]
            exact hlt j (List.mem_cons_of_mem i hj)
        refine ⟨hlast, hopts.trans ht.opts_eq, hcapacity.trans ht.capacity_eq,
          hused'.trans (hused g i), ?_⟩
        rw [List.foldl_cons]
        omega
  refine hloop (List.range' beg num) h hm fun j hj => ?_
  obtain ⟨hle, hlt⟩ := List.mem_range'_1.mp hj
  exact hm.lt j (hbits j hle hlt)

-- The regions and the bits decide what is offered.
theorem offeredBytes_congr (hopts : h'.opts = h.opts) (hregions : h'.regions = h.regions)
    (hbits : ∀ j, h'.freeSet.isMutatorFree j = h.freeSet.isMutatorFree j) :
    h'.offeredBytes = h.offeredBytes := by
  have hshare : h'.share = h.share := by
    funext j
    unfold share allocCapacity
    rw [hbits, hregions, hopts]
  unfold offeredBytes numRegions
  rw [hshare, hopts]

theorem Measured.congr (hm : h.Measured) (hopts : h'.opts = h.opts)
    (hregions : h'.regions = h.regions)
    (hbits : ∀ j, h'.freeSet.isMutatorFree j = h.freeSet.isMutatorFree j) : h'.Measured := by
  refine ⟨fun j hj => ?_, ?_, fun j hj => ?_, fun j hj => ?_⟩
  · rw [hbits] at hj
    unfold numRegions
    rw [hopts]
    exact hm.lt j hj
  · rw [hopts]
    exact hm.size_ge
  · rw [hbits] at hj
    rw [hopts, hregions]
    exact hm.size_eq j hj
  · rw [hbits] at hj
    rw [hregions]
    exact hm.empty j hj

-- The request leaves no sliver behind and takes no run of regions.
def Exact (h : Heap) (req : AllocRequest) : Prop :=
  if h.opts.humongousThresholdBytes < req.size then
    h.freeSet.mutatorCount < h.opts.requiredRegions req.size ∨
      h.findRun (h.opts.requiredRegions req.size) (h.freeSet.max + 1) h.freeSet.mutatorLeftmost
        h.freeSet.mutatorLeftmost = none
  else h.lostBytes req (boundsRange h.freeSet) = 0

instance (h : Heap) (req : AllocRequest) : Decidable (h.Exact req) := by
  unfold Exact
  infer_instance

theorem allocateContiguous_exact (hbig : h.opts.humongousThresholdBytes < req.size)
    (hexact : h.Exact req) : (h.allocateContiguous req).2 = h := by
  unfold Exact at hexact
  rw [if_pos hbig] at hexact
  unfold allocateContiguous
  simp only
  split
  · rfl
  · rename_i hcount
    rw [hexact.resolve_left hcount]

-- What a request may do to the counters, whatever its size.
theorem allocate_used (hm : h.Measured) (hpayload : h.opts.regionPayloadSizeBytes = 0)
    (hok : h.allocate req = .ok (result, h')) :
    h'.Measured ∧ h'.freeSet.capacity = h.freeSet.capacity ∧ h'.opts = h.opts ∧
      h'.freeSet.used + h'.offeredBytes ≤ h.freeSet.used + h.offeredBytes ∧
      (h.Exact req → h'.freeSet.used + h'.offeredBytes = h.freeSet.used + h.offeredBytes) := by
  unfold Heap.allocate at hok
  by_cases hbig : h.opts.humongousThresholdBytes < req.size
  · rw [if_pos hbig, Except.pure_eq_ok] at hok
    have hsame : h.Exact req → h' = h := by
      intro hexact
      rw [← allocateContiguous_exact hbig hexact, hok]
    rcases allocateContiguous_cases h req with heq | ⟨beg, hfound, heq⟩
    · rw [hok] at heq
      obtain ⟨_, rfl⟩ := Prod.mk.inj heq
      exact ⟨hm, rfl, rfl, Nat.le_refl _, fun _ => rfl⟩
    · obtain ⟨hnum, hrun⟩ := findRun_spec (Nat.le_refl _) (fun j hl hr => by omega) hfound
      obtain ⟨hclaimed, hclaimOpts, hcapacity, hused, hle⟩ :=
        claimRun_used hm beg _ fun j hl hr => (hrun j hl hr).2.1
      obtain ⟨hopts, _, hregions, _, hcapacity', hused', hbits, _⟩ := finishContiguous_eq
        (h.claimRun beg (h.opts.requiredRegions req.size)) req beg (h.opts.requiredRegions req.size)
      have hlast : ((h.claimRun beg (h.opts.requiredRegions req.size)).finishContiguous req beg
          (h.opts.requiredRegions req.size)).2 = h' := by rw [← heq, hok]
      rw [hlast] at hopts hregions hcapacity' hused' hbits
      have hbytes := offeredBytes_congr hopts hregions hbits
      rw [hclaimOpts, hpayload, Nat.zero_mul, Nat.add_zero] at hused'
      refine ⟨hclaimed.congr hopts hregions hbits, hcapacity'.trans hcapacity,
        hopts.trans hclaimOpts, by omega, fun hexact => ?_⟩
      rw [hsame hexact]
  · rw [if_neg hbig] at hok
    have hnodup : (boundsRange h.freeSet).Nodup := List.nodup_range'
    obtain ⟨hmeasured, hcapacity, hopts, hsum⟩ := allocateSingleLoop_used hm hnodup hok
    refine ⟨hmeasured, hcapacity, hopts, by omega, fun hexact => ?_⟩
    unfold Exact at hexact
    rw [if_neg hbig] at hexact
    omega

-- The regions before a rebuild: as large as the options say, and with nothing on
-- the free list of an empty one.
structure Sized (c : HeapConfig) (h : Heap) : Prop where
  opts_eq : h.opts = c.opts
  size_eq : ∀ i, i < c.opts.regionCount → (h.regions i).size = c.opts.regionSizeBytes
  empty : ∀ i, i < c.opts.regionCount → (h.regions i).isEmpty = true →
    (h.regions i).freeList.free = 0

theorem Sized.rebuild {c : HeapConfig} (hs : h.Sized c) (hok : h.rebuild = .ok h') :
    h'.Measured ∧ h'.opts = c.opts ∧ h'.freeSet.used = 0 ∧
      h'.freeSet.capacity = h'.offeredBytes := by
  obtain ⟨fs, heq, hzero, _, hbits, hcapacity, _⟩ := h.rebuild_eq
  obtain rfl : h.setFreeSet fs = h' := by
    rw [heq] at hok
    exact Except.ok.inj hok
  have hlt : ∀ i, fs.isMutatorFree i = true → i < c.opts.regionCount := by
    intro i hi
    rw [← hs.opts_eq]
    exact ((hbits i).mp hi).1
  refine ⟨⟨fun i hi => ((hbits i).mp hi).1, ?_, fun i hi => ?_, fun i hi => hs.empty i (hlt i hi)⟩,
    hs.opts_eq, hzero, ?_⟩
  · have hge : 2 ^ 4 ≤ c.opts.regionSizeBytes := by
      rw [c.geometry.size_eq]
      exact Nat.pow_le_pow_right (by omega) c.geometry.shift_ge
    rw [setFreeSet_opts, hs.opts_eq]
    omega
  · rw [setFreeSet_opts, hs.opts_eq]
    exact hs.size_eq i (hlt i hi)
  · rw [setFreeSet_freeSet, hcapacity]
    unfold offeredBytes
    congr 1
    refine List.map_congr_left fun i hi => ?_
    have hbit : (h.setFreeSet fs).share i = if fs.isMutatorFree i then h.allocCapacity i else 0 := rfl
    rw [hbit]
    have hiff := hbits i
    by_cases heligible : h.Eligible i
    · rw [if_pos heligible, if_pos (hiff.mpr ⟨List.mem_range.mp hi, heligible⟩)]
    · rw [if_neg heligible, if_neg fun hset => heligible (hiff.mp hset).2]

end Heap

-- Any sequence of requests to the free set after a rebuild.
def requestMachine (c : HeapConfig) : Machine Heap AllocRequest where
  init := fun h => ∃ before : Heap, before.Sized c ∧ before.rebuild = .ok h
  step := fun h req => (h.allocate req).toOption.map Prod.snd

namespace RegionFreeSet

variable {c : HeapConfig} {h : Heap}

theorem measured_of_via (hs : (requestMachine c).Via Heap.Exact h) :
    h.Measured ∧ h.opts = c.opts ∧ h.freeSet.used + h.offeredBytes = h.freeSet.capacity := by
  refine Machine.Via.invariant (P := fun h => h.Measured ∧ h.opts = c.opts ∧
    h.freeSet.used + h.offeredBytes = h.freeSet.capacity) ?_ ?_ hs
  · rintro h ⟨before, hsized, hrebuild⟩
    obtain ⟨hm, hopts, hused, hcapacity⟩ := hsized.rebuild hrebuild
    exact ⟨hm, hopts, by omega⟩
  · rintro h req h' ⟨hm, hopts, hsum⟩ hexact hstep
    obtain ⟨⟨result, last⟩, hok, rfl⟩ := Option.map_eq_some_iff.mp hstep
    have hpayload : h.opts.regionPayloadSizeBytes = 0 := by
      rw [hopts]
      exact c.geometry.payload_eq
    obtain ⟨hm', hcapacity, hopts', _, heq⟩ :=
      Heap.allocate_used hm hpayload (Except.toOption_eq_some.mp hok)
    have hkept := heq hexact
    exact ⟨hm', hopts'.trans hopts, by simp only; omega⟩

-- While no request takes a run of regions or leaves a sliver, the free set knows
-- how much it can offer.
theorem available_eq_offeredBytes (c : HeapConfig) (h : Heap)
    (hs : (requestMachine c).Via Heap.Exact h) : h.freeSet.available = h.offeredBytes := by
  obtain ⟨_, _, hsum⟩ := measured_of_via hs
  unfold available
  omega

theorem newHeap_sized (c : HeapConfig) : (newHeap c).Sized c where
  opts_eq := rfl
  size_eq := by
    intro i _
    simp [newHeap, HeapRegion.new, HeapRegion.recycle, HeapRegion.size]
  empty := fun _ _ _ => rfl

theorem available_eq_offeredBytes_small : ∃ h, (requestMachine .small).Via Heap.Exact h ∧
    h.freeSet.used = 64 ∧ h.freeSet.available = h.offeredBytes := by
  have hrun : ((newHeap .small).rebuild.toOption.bind fun h =>
      (requestMachine .small).runVia Heap.Exact h [sharedRequest 64]).map
        (fun h => h.freeSet.used) = some 64 := by decide +kernel
  obtain ⟨h, hs, hused⟩ := Option.map_eq_some_iff.mp hrun
  obtain ⟨start, hstart, hs⟩ := Option.bind_eq_some_iff.mp hs
  have hinit : (requestMachine .small).init start :=
    ⟨newHeap .small, newHeap_sized .small, Except.toOption_eq_some.mp hstart⟩
  have hvia := Machine.via_of_runVia (Machine.Via.init hinit) hs
  exact ⟨h, hvia, hused, available_eq_offeredBytes .small h hvia⟩

-- The payload size of a region is never set, so a humongous object uses nothing.
theorem humongous_request_not_counted : ∃ h, (requestMachine .small).Reachable h ∧
    h.freeSet.available ≠ h.offeredBytes := by
  have hrun : ((newHeap .small).rebuild.toOption.bind fun h =>
      (requestMachine .small).run h [sharedRequest 4096]).map (fun h =>
        decide (h.freeSet.available = 40960 ∧ h.offeredBytes = 36864)) = some true := by
    decide +kernel
  obtain ⟨h, hs, hcounters⟩ := Option.map_eq_some_iff.mp hrun
  obtain ⟨start, hstart, hs⟩ := Option.bind_eq_some_iff.mp hs
  obtain ⟨havailable, hoffered⟩ := of_decide_eq_true hcounters
  have hinit : (requestMachine .small).init start :=
    ⟨newHeap .small, newHeap_sized .small, Except.toOption_eq_some.mp hstart⟩
  refine ⟨h, Machine.run_reachable (Machine.Via.init hinit) hs, ?_⟩
  rw [havailable, hoffered]
  decide

end RegionFreeSet

end Rsgc.Storage
