import Rsgc.Storage.Store.Layout

namespace Rsgc.Storage

-- The part of a buffer that holds no object.
def ThreadLocalAllocBuffer.openTail (tlab : ThreadLocalAllocBuffer) : List Space :=
  if tlab.top < tlab.limit then [⟨tlab.top, tlab.limit - tlab.top, .tail⟩] else []

namespace HeapRegion

variable {r : HeapRegion} {held : List Space}

theorem Layout.pairwise_apart (h : r.Layout held) : (held ++ r.freeBlocks).Pairwise Block.Apart := by
  unfold Layout at h
  cases htyp : r.typ with
  | regular =>
      rw [htyp] at h
      exact h.covers.pairwise_apart
  | humongousStart =>
      rw [htyp] at h
      obtain ⟨hentries, _, size, rfl, _⟩ := h
      simp [freeBlocks, hentries]
  | humongousCont | emptyUncommited | emptyCommited =>
      rw [htyp] at h
      simp [freeBlocks, h.1, h.2.1]
  | trash =>
      rw [htyp] at h
      obtain ⟨rfl, hfree | hfree, _⟩ := h <;> simp [hfree]

theorem Layout.within (h : r.Layout held) (hlt : r.bottom < r.limit) {b : Space}
    (hb : b ∈ held ++ r.freeBlocks) :
    0 < b.size ∧ (b.Within r.bottom r.limit ∨
      r.typ = .humongousStart ∧ held = [b] ∧ b.addr = r.bottom) := by
  unfold Layout at h
  cases htyp : r.typ with
  | regular =>
      rw [htyp] at h
      exact ⟨h.covers.size_pos hb, Or.inl (h.covers.within hb)⟩
  | humongousStart =>
      rw [htyp] at h
      obtain ⟨hentries, _, size, rfl, hpos, _⟩ := h
      rw [freeBlocks, hentries] at hb
      obtain rfl := List.mem_singleton.mp hb
      exact ⟨hpos, Or.inr ⟨rfl, rfl, rfl⟩⟩
  | humongousCont | emptyUncommited | emptyCommited =>
      rw [htyp] at h
      simp [freeBlocks, h.1, h.2.1] at hb
  | trash =>
      rw [htyp] at h
      obtain ⟨rfl, hfree | hfree, _⟩ := h
      · simp [hfree] at hb
      · rw [hfree] at hb
        obtain rfl := List.mem_singleton.mp hb
        unfold whole Block.Within Block.stop
        simp only
        omega

end HeapRegion

namespace Heap

variable {c : HeapConfig} {h : Heap} {held : Nat → List Space}

-- A block reaches over as many regions as its run has, and no other block
-- lies in the regions behind the first one.
theorem Laid.span (hl : h.Laid held) (hp : h.Placed c) {i : Nat} (hi : i < h.numRegions) {b : Space}
    (hb : b ∈ held i ++ (h.regions i).freeBlocks) :
    ∃ num, 0 < num ∧ i + num ≤ h.numRegions ∧
      b.Within (h.regions i).bottom ((h.regions i).bottom + c.opts.regionSizeBytes * num) ∧
      ∀ j, i < j → j < i + num →
        (h.regions j).typ = .humongousCont ∧ held j ++ (h.regions j).freeBlocks = [] := by
  obtain ⟨hpos, hwithin | ⟨htyp, hheld, haddr⟩⟩ := (hl.region i hi).within (hp.lt_limit i) hb
  · refine ⟨1, by omega, by omega, ?_, fun j hij hj => by omega⟩
    rw [Nat.mul_one, ← hp.limit_eq]
    exact hwithin
  · obtain ⟨hle, hrun⟩ := hl.run i hi htyp b (by simp [hheld])
    refine ⟨h.opts.requiredRegions b.size, ?_, hle, ?_, fun j hij hj => ⟨hrun j hij hj, ?_⟩⟩
    · rw [hp.opts_eq]
      exact c.geometry.requiredRegions_pos hpos
    · have hsize := c.geometry.le_requiredRegions b.size
      rw [hp.opts_eq]
      unfold Block.Within Block.stop
      omega
    · have hlayout := hl.region j (by omega)
      unfold HeapRegion.Layout at hlayout
      rw [hrun j hij hj] at hlayout
      simp [HeapRegion.freeBlocks, hlayout.1, hlayout.2.1]

-- Blocks of different regions do not overlap.
theorem Laid.apart (hl : h.Laid held) (hp : h.Placed c) {i j : Nat} (hij : i < j)
    (hj : j < h.numRegions) {b b' : Space} (hb : b ∈ held i ++ (h.regions i).freeBlocks)
    (hb' : b' ∈ held j ++ (h.regions j).freeBlocks) : b.Apart b' := by
  obtain ⟨num, _, _, hwithin, hvacant⟩ := hl.span hp (by omega) hb
  obtain ⟨num', _, _, hwithin', _⟩ := hl.span hp hj hb'
  have hbeyond : i + num ≤ j := by
    by_contra hinside
    rw [(hvacant j hij (by omega)).2] at hb'
    cases hb'
  refine Block.apart_of_within hwithin hwithin' ?_
  rw [hp.bottom_eq, hp.bottom_eq]
  have hmul := Nat.mul_le_mul_left c.opts.regionSizeBytes hbeyond
  rw [Nat.mul_add] at hmul
  omega

theorem Laid.regionIndex_eq (hl : h.Laid held) (hp : h.Placed c) {i : Nat} (hi : i < h.numRegions)
    {b : Space} (hb : b ∈ held i ++ (h.regions i).freeBlocks) : c.regionIndex b.addr = i := by
  rw [← hp.regionIndex_config]
  have hlt := hp.lt_limit i
  obtain ⟨hpos, hwithin | ⟨_, _, haddr⟩⟩ := (hl.region i hi).within hlt hb
  · unfold Block.Within Block.stop at hwithin
    exact hp.regionIndex_eq (by omega) (by omega)
  · exact hp.regionIndex_eq (by omega) (by omega)

end Heap

namespace Store

variable {c : HeapConfig} {mode : BarrierMode} {s : Store}

def tails (s : Store) : List Space := s.tlabs.flatMap ThreadLocalAllocBuffer.openTail

def freeBlocks (s : Store) : List Space :=
  (List.range s.heap.numRegions).flatMap fun i => (s.heap.regions i).freeBlocks

-- The objects, the open buffers and the free blocks of the heap.
def blocks (s : Store) : List Space := s.objects ++ s.tails ++ s.freeBlocks

-- An open tail is a block of the region its buffer points to.
theorem Tidy.openTail_eq (ht : s.Tidy c) {tlab : ThreadLocalAllocBuffer} (htlab : tlab ∈ s.tlabs) :
    tlab.openTail = [] ∨ ∃ i, i < s.heap.numRegions ∧ tlab.tail i = tlab.openTail ∧
      (∀ j, j ≠ i → tlab.tail j = []) ∧ ∀ b ∈ tlab.openTail, b ∈ held c s i := by
  rcases ht.tlabs tlab htlab with rfl | ⟨i, hi, hbitmap, _⟩
  · exact Or.inl rfl
  · have htail : tlab.tail i = tlab.openTail := by
      simp [ThreadLocalAllocBuffer.tail, ThreadLocalAllocBuffer.openTail, hbitmap]
    refine Or.inr ⟨i, hi, htail, fun j hj => ThreadLocalAllocBuffer.tail_of_ne hbitmap hj, ?_⟩
    intro b hb
    exact List.mem_append_right _ (List.mem_flatMap.mpr ⟨tlab, htlab, htail ▸ hb⟩)

theorem Tidy.tails_filter (ht : s.Tidy c) (k : Nat) :
    (s.tails.filter fun b => c.regionIndex b.addr = k) = tailsIn s.tlabs k := by
  unfold tails tailsIn
  rw [List.filter_flatMap]
  refine List.flatMap_congr fun tlab htlab => ?_
  rcases ht.openTail_eq htlab with hnil | ⟨i, hi, htail, hother, hheld⟩
  · have htail : tlab.tail k = [] := by
      unfold ThreadLocalAllocBuffer.openTail at hnil
      unfold ThreadLocalAllocBuffer.tail
      split at hnil
      · cases hnil
      · rename_i hlt
        rw [if_neg fun h => hlt h.2]
    rw [hnil, htail]
    rfl
  · have hindex : ∀ b ∈ tlab.openTail, c.regionIndex b.addr = i := fun b hb =>
      ht.laid.regionIndex_eq ht.placed hi (List.mem_append_left _ (hheld b hb))
    by_cases hk : k = i
    · subst hk
      rw [htail, List.filter_eq_self]
      intro b hb
      simpa using hindex b hb
    · rw [hother k hk, List.filter_eq_nil_iff]
      intro b hb
      rw [hindex b hb]
      simpa using Ne.symm hk

theorem Tidy.freeBlocks_filter (ht : s.Tidy c) (k : Nat) :
    (s.freeBlocks.filter fun b => c.regionIndex b.addr = k) =
      if k < s.heap.numRegions then (s.heap.regions k).freeBlocks else [] := by
  unfold freeBlocks
  rw [List.filter_flatMap, ← flatMap_range_ite fun i => (s.heap.regions i).freeBlocks]
  refine List.flatMap_congr fun i hi => ?_
  have hindex : ∀ b ∈ (s.heap.regions i).freeBlocks, c.regionIndex b.addr = i := fun b hb =>
    ht.laid.regionIndex_eq ht.placed (List.mem_range.mp hi) (List.mem_append_right _ hb)
  split
  · rename_i hk
    rw [List.filter_eq_self]
    intro b hb
    rw [hindex b hb]
    simpa using hk
  · rename_i hk
    rw [List.filter_eq_nil_iff]
    intro b hb
    rw [hindex b hb]
    simpa using hk

-- Every block belongs to one region, and the blocks of a region are known.
theorem Tidy.mem_blocks (ht : s.Tidy c) {b : Space} (hb : b ∈ s.blocks) :
    c.regionIndex b.addr < s.heap.numRegions ∧ b ∈ held c s (c.regionIndex b.addr) ++
      (s.heap.regions (c.regionIndex b.addr)).freeBlocks := by
  rcases List.mem_append.mp hb with hb | hb
  · rcases List.mem_append.mp hb with hb | hb
    · refine ⟨?_, List.mem_append_left _ (List.mem_append_left _ ?_)⟩
      · rw [ht.placed.numRegions_eq]
        exact (ht.objects b hb).2
      · exact List.mem_filter.mpr ⟨hb, by simp⟩
    · obtain ⟨tlab, htlab, hb⟩ := List.mem_flatMap.mp hb
      rcases ht.openTail_eq htlab with hnil | ⟨i, hi, _, _, hheld⟩
      · rw [hnil] at hb
        cases hb
      · have hmem := List.mem_append_left (s.heap.regions i).freeBlocks (hheld b hb)
        rw [ht.laid.regionIndex_eq ht.placed hi hmem]
        exact ⟨hi, hmem⟩
  · obtain ⟨i, hi, hb⟩ := List.mem_flatMap.mp hb
    have hmem := List.mem_append_right (held c s i) hb
    rw [ht.laid.regionIndex_eq ht.placed (List.mem_range.mp hi) hmem]
    exact ⟨List.mem_range.mp hi, hmem⟩

theorem Tidy.blocks_pairwise (ht : s.Tidy c) : s.blocks.Pairwise Block.Apart := by
  refine pairwise_of_key (fun b : Space => c.regionIndex b.addr) (fun k => ?_) fun b hb b' hb' hne => ?_
  · by_cases hk : k < s.heap.numRegions
    · have hblocks : (s.blocks.filter fun b => c.regionIndex b.addr = k) =
          held c s k ++ (s.heap.regions k).freeBlocks := by
        unfold blocks
        rw [List.filter_append, List.filter_append, ht.tails_filter, ht.freeBlocks_filter,
          if_pos hk]
        rfl
      rw [hblocks]
      exact (ht.laid.region k hk).pairwise_apart
    · have hblocks : (s.blocks.filter fun b => c.regionIndex b.addr = k) = [] := by
        rw [List.filter_eq_nil_iff]
        intro b hb hkey
        have hlt := (ht.mem_blocks hb).1
        simp only [decide_eq_true_eq] at hkey
        omega
      rw [hblocks]
      exact List.Pairwise.nil
  · obtain ⟨hlt, hmem⟩ := ht.mem_blocks hb
    obtain ⟨hlt', hmem'⟩ := ht.mem_blocks hb'
    rcases Nat.lt_or_gt_of_ne hne with hbefore | hafter
    · exact ht.laid.apart ht.placed hbefore hlt' hmem hmem'
    · exact (ht.laid.apart ht.placed hafter hlt hmem' hmem).symm

-- The walk of the sweeper over a region without open buffers meets its objects
-- and its free blocks, and ends at the end of the region.
theorem Tidy.walk_region (ht : s.Tidy c) (hclosed : ∀ tlab ∈ s.tlabs, tlab.limit = 0) {i : Nat}
    (hi : i < s.heap.numRegions) (htyp : (s.heap.regions i).typ = .regular) :
    ∃ addrs, walk (fun addr => ((s.heap.regions i).words addr).size) (s.heap.regions i).size
        (s.heap.regions i).bottom (s.heap.regions i).limit = some addrs ∧
      addrs.Perm ((objectsIn c s.objects i ++ (s.heap.regions i).freeBlocks).map Block.addr) := by
  have hnil : tailsIn s.tlabs i = [] := by
    refine tailsIn_eq_nil (fun tlab htlab => ?_) i
    rcases ht.tlabs tlab htlab with hnew | ⟨_, _, _, _, _, _, hlimit⟩
    · exact hnew
    · have hzero := hclosed tlab htlab
      omega
  have hfilled := (ht.laid.region i hi).filled htyp
  unfold held at hfilled
  rw [hnil, List.append_nil] at hfilled
  obtain ⟨tiles, htiled, hperm⟩ := hfilled.covers
  refine ⟨tiles.map Block.addr, walk_tiled _ htiled (fun b hb => ?_) htiled.length_le,
    hperm.map Block.addr⟩
  have hb' := hperm.mem_iff.mp hb
  obtain ⟨_, hkind⟩ := hfilled.described b hb'
  have hnotTail : b.kind ≠ .tail := by
    rcases List.mem_append.mp hb' with hb | hb
    · simp [ht.objects_kind i b hb]
    · obtain ⟨entry, _, rfl⟩ := List.mem_map.mp hb
      simp [Entry.space]
  cases hk : b.kind with
  | object =>
      rw [hk] at hkind
      simp [hkind.1]
  | free =>
      rw [hk] at hkind
      simp [hkind]
  | tail => exact absurd hk hnotTail

-- A block lies inside its region, or inside the run of a humongous object.
def Houses (s : Store) (b : Space) : Prop :=
  ∃ i last, s.heap.regionIndex b.addr = i ∧ i ≤ last ∧ last < s.heap.numRegions ∧
    b.Within (s.heap.regions i).bottom (s.heap.regions last).limit ∧
    (i < last → (s.heap.regions i).typ = .humongousStart ∧
      ∀ j, i < j → j ≤ last → (s.heap.regions j).typ = .humongousCont)

theorem Tidy.houses (ht : s.Tidy c) {b : Space} (hb : b ∈ s.blocks) : s.Houses b := by
  obtain ⟨hlt, hmem⟩ := ht.mem_blocks hb
  rw [← ht.placed.regionIndex_config] at hlt hmem
  have hlimit := ht.placed.limit_eq
  have hbottom := ht.placed.bottom_eq
  obtain ⟨_, hwithin | ⟨hstart, _, _⟩⟩ :=
    (ht.laid.region _ hlt).within (ht.placed.lt_limit _) hmem
  · exact ⟨_, _, rfl, Nat.le_refl _, hlt, hwithin, fun h => absurd h (Nat.lt_irrefl _)⟩
  · obtain ⟨num, hnum, hle, hwithin, hconts⟩ := ht.laid.span ht.placed hlt hmem
    refine ⟨s.heap.regionIndex b.addr, s.heap.regionIndex b.addr + num - 1, rfl, by omega, by omega,
      ?_, fun _ => ⟨hstart, fun j hij hj => (hconts j hij (by omega)).1⟩⟩
    have hend : (s.heap.regions (s.heap.regionIndex b.addr)).bottom +
        c.opts.regionSizeBytes * num =
          (s.heap.regions (s.heap.regionIndex b.addr + num - 1)).limit := by
      have hsucc : s.heap.regionIndex b.addr + num - 1 + 1 = s.heap.regionIndex b.addr + num := by
        omega
      rw [hlimit, hbottom, hbottom, Nat.add_assoc, Nat.add_assoc, ← Nat.mul_add, ← Nat.mul_succ,
        Nat.succ_eq_add_one, hsucc]
    rwa [hend] at hwithin

-- Without elastic buffers no two blocks of the heap share memory, every block is
-- inside its region, and a region without open buffers can be walked.
theorem live_storage_disjoint (c : HeapConfig) (mode : BarrierMode) (s : Store)
    (haligned : Heap.AlignedTlabs c.opts) (hrigid : c.opts.elasticTlab = false)
    (hs : (storeMachine c mode).Reachable s) :
    s.blocks.Pairwise Block.Apart ∧ (∀ b ∈ s.blocks, s.Houses b) ∧
      ((∀ tlab ∈ s.tlabs, tlab.limit = 0) → ∀ i, i < s.heap.numRegions →
        (s.heap.regions i).typ = .regular →
        ∃ addrs, walk (fun addr => ((s.heap.regions i).words addr).size) (s.heap.regions i).size
            (s.heap.regions i).bottom (s.heap.regions i).limit = some addrs ∧
          addrs.Perm ((objectsIn c s.objects i ++ (s.heap.regions i).freeBlocks).map
            Block.addr)) := by
  have ht := tidy_of_via (via_of_rigid haligned hrigid hs)
  exact ⟨ht.blocks_pairwise, fun b hb => ht.houses hb,
    fun hclosed i hi htyp => ht.walk_region hclosed hi htyp⟩

theorem live_storage_disjoint_small : ∃ s, (storeMachine .small .satb).Reachable s ∧
    s.blocks.length = 6 ∧ s.blocks.Pairwise Block.Apart := by
  have hrun : ((newStore .small).toOption.bind fun s => (storeMachine .small .satb).run s
      [.register, .shared 64, .refill 0 16, .bump 0 32, .shared 4096]).map (fun s =>
        s.blocks.length) = some 6 := by decide +kernel
  obtain ⟨s, hs, hlength⟩ := Option.map_eq_some_iff.mp hrun
  obtain ⟨start, hstart, hs⟩ := Option.bind_eq_some_iff.mp hs
  have hreachable : (storeMachine .small .satb).Reachable s :=
    Machine.run_reachable (Machine.Via.init (Except.toOption_eq_some.mp hstart)) hs
  exact ⟨s, hreachable, hlength,
    (live_storage_disjoint .small .satb s ⟨by decide, by decide⟩ rfl hreachable).1⟩

end Store

end Rsgc.Storage
