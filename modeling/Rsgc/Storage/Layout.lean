import Rsgc.Storage.Store
import Rsgc.Storage.Sweeper.Layout
import Rsgc.Storage.Sweeper.Steps
import Rsgc.Storage.Tlab.Steps

namespace Rsgc.Storage

namespace Heap

variable {c : HeapConfig} {h h' : Heap} {held : Nat → List Space}

-- The regions lie side by side in the heap memory.
structure Placed (c : HeapConfig) (h : Heap) : Prop where
  opts_eq : h.opts = c.opts
  memStart_eq : h.memStart = c.memStart
  bottom_eq : ∀ i, (h.regions i).bottom = c.memStart + c.opts.regionSizeBytes * i
  limit_eq : ∀ i, (h.regions i).limit = (h.regions i).bottom + c.opts.regionSizeBytes

theorem Placed.sameShape (hp : h.Placed c) (hs : h.SameShape h') : h'.Placed c where
  opts_eq := hs.opts_eq.trans hp.opts_eq
  memStart_eq := hs.memStart_eq.trans hp.memStart_eq
  bottom_eq := fun i => (hs.frame i).bottom_eq.trans (hp.bottom_eq i)
  limit_eq := by
    intro i
    rw [(hs.frame i).limit_eq, (hs.frame i).bottom_eq]
    exact hp.limit_eq i

theorem Placed.lt_limit (hp : h.Placed c) (i : Nat) : (h.regions i).bottom < (h.regions i).limit := by
  have hpos := c.geometry.size_pos
  rw [hp.limit_eq]
  omega

theorem Placed.size_eq (hp : h.Placed c) (i : Nat) :
    (h.regions i).size = c.opts.regionSizeBytes := by
  unfold HeapRegion.size
  rw [hp.limit_eq]
  omega

theorem Placed.regionIndex_eq (hp : h.Placed c) {i addr : Nat} (hlow : (h.regions i).bottom ≤ addr)
    (hhigh : addr < (h.regions i).limit) : h.regionIndex addr = i := by
  rw [hp.limit_eq, hp.bottom_eq] at hhigh
  rw [hp.bottom_eq] at hlow
  unfold regionIndex
  rw [hp.memStart_eq, hp.opts_eq, Nat.shiftRight_eq_div_pow, ← c.geometry.size_eq]
  have hrest : addr - c.memStart = (addr - c.memStart - c.opts.regionSizeBytes * i) +
      c.opts.regionSizeBytes * i := by omega
  have hsmall : addr - c.memStart - c.opts.regionSizeBytes * i < c.opts.regionSizeBytes := by omega
  rw [hrest, Nat.add_mul_div_left _ _ c.geometry.size_pos, Nat.div_eq_of_lt hsmall, Nat.zero_add]

-- Every region has the layout of its state with respect to the blocks in
-- `held`, and a humongous object owns the regions behind its first one.
structure Laid (h : Heap) (held : Nat → List Space) : Prop where
  region : ∀ i, i < h.numRegions → (h.regions i).Layout (held i)
  run : ∀ i, i < h.numRegions → (h.regions i).typ = .humongousStart → ∀ b ∈ held i,
    i + h.opts.requiredRegions b.size ≤ h.numRegions ∧
      ∀ j, i < j → j < i + h.opts.requiredRegions b.size → (h.regions j).typ = .humongousCont
  idle : ∀ i, i < h.numRegions → (h.regions i).toSweep = true → ∀ b ∈ held i, b.kind ≠ .tail

theorem Laid.perm {held' : Nat → List Space} (hl : h.Laid held)
    (hperm : ∀ i, (held i).Perm (held' i)) : h.Laid held' where
  region := fun i hi => (hl.region i hi).perm (hperm i)
  run := fun i hi htyp b hb => hl.run i hi htyp b ((hperm i).mem_iff.mpr hb)
  idle := fun i hi hsweep b hb => hl.idle i hi hsweep b ((hperm i).mem_iff.mpr hb)

theorem Laid.congr (hl : h.Laid held) (hopts : h'.opts = h.opts) (hregions : h'.regions = h.regions) :
    h'.Laid held := by
  have hn : h'.numRegions = h.numRegions := by
    unfold numRegions
    rw [hopts]
  refine ⟨?_, ?_, ?_⟩
  · intro i hi
    rw [hregions]
    exact hl.region i (hn ▸ hi)
  · intro i hi htyp
    rw [hregions] at htyp ⊢
    rw [hopts, hn]
    exact hl.run i (hn ▸ hi) htyp
  · intro i hi hsweep
    rw [hregions] at hsweep
    exact hl.idle i (hn ▸ hi) hsweep

-- The blocks of region `i` may change as long as no humongous run is concerned.
theorem Laid.touch {i : Nat} (hl : h.Laid held) (blocks : List Space) (ht : h.TouchesOnly h' i)
    (hlayout : i < h.numRegions → (h'.regions i).Layout blocks)
    (hcont : (h.regions i).typ ≠ .humongousCont) (hstart : (h'.regions i).typ ≠ .humongousStart)
    (hidle : (h'.regions i).toSweep = true → ∀ b ∈ blocks, b.kind ≠ .tail) :
    h'.Laid (Function.update held i blocks) := by
  have hn : h'.numRegions = h.numRegions := by
    unfold numRegions
    rw [ht.opts_eq]
  refine ⟨?_, ?_, ?_⟩
  · intro j hj
    rw [hn] at hj
    by_cases heq : j = i
    · subst heq
      rw [Function.update_self]
      exact hlayout hj
    · rw [Function.update_of_ne heq, (ht.others j heq).1]
      exact hl.region j hj
  · intro j hj htyp
    rw [hn] at hj
    have heq : j ≠ i := by
      rintro rfl
      exact hstart htyp
    rw [(ht.others j heq).1] at htyp
    rw [Function.update_of_ne heq, ht.opts_eq, hn]
    intro b hb
    obtain ⟨hle, hrun⟩ := hl.run j hj htyp b hb
    refine ⟨hle, fun k hjk hk => ?_⟩
    have hki : k ≠ i := by
      rintro rfl
      exact hcont (hrun k hjk hk)
    rw [(ht.others k hki).1]
    exact hrun k hjk hk
  · intro j hj hsweep
    rw [hn] at hj
    by_cases heq : j = i
    · subst heq
      rw [Function.update_self]
      exact hidle hsweep
    · rw [Function.update_of_ne heq]
      rw [(ht.others j heq).1] at hsweep
      exact hl.idle j hj hsweep

end Heap

namespace HeapRegion

variable {r : HeapRegion} {blocks : List Space}

theorem Filled.setStartBit (h : r.Filled blocks) (addr : Nat) :
    (r.setStartBit addr).Filled blocks where
  covers := h.covers
  described := by
    intro b hb
    obtain ⟨hsize, hkind⟩ := h.described b hb
    refine ⟨hsize, ?_⟩
    cases hk : b.kind with
    | object =>
        rw [hk] at hkind
        refine ⟨hkind.1, ?_⟩
        by_cases heq : b.addr = addr
        · simp [HeapRegion.setStartBit, heq]
        · simpa [HeapRegion.setStartBit, Function.update_of_ne heq] using hkind.2
    | free =>
        rw [hk] at hkind
        exact hkind
    | tail => trivial

end HeapRegion

namespace Heap

variable {c : HeapConfig} {h h' : Heap} {held : Nat → List Space}

section Single

variable {req : AllocRequest} {result : AllocResult}

def handedOut (mem : Option Nat) (size : Nat) : List Space :=
  mem.toList.map fun addr => ⟨addr, size, .tail⟩

-- The size that is asked of the region is a multiple of 16, like the request.
theorem requestSize_dvd {i : Nat} (hdvd : 16 ∣ req.size) : 16 ∣ h.requestSize i req := by
  unfold requestSize
  split
  · rcases Nat.le_total req.size (alignDown (h.regions i).peekFree 16) with hle | hle
    · rw [Nat.min_eq_left hle]
      exact hdvd
    · rw [Nat.min_eq_right hle]
      exact Nat.dvd_mul_left _ _
  · exact hdvd

theorem requestSize_pos {i : Nat} (hpos : 0 < req.size) (hmin : 0 < req.minSize)
    (hrefuses : ¬h.Refuses i req) : 0 < h.requestSize i req := by
  by_cases helastic : h.opts.elasticTlab = true ∧ req.forLab = true
  · by_contra hzero
    exact hrefuses ⟨helastic, by omega⟩
  · unfold requestSize
    rw [if_neg helastic]
    exact hpos

-- A region that can be allocated from is empty or regular after the recycling.
theorem Laid.tryRecycleTrashed {i : Nat} (hl : h.Laid held) (ho : h.Offered i) :
    ((h.tryRecycleTrashed i).regions i).Layout (held i) ∧
      ((h.tryRecycleTrashed i).regions i).isAllocAllowed = true := by
  unfold Heap.tryRecycleTrashed
  by_cases htrash : (h.regions i).isTrash = true
  · rw [if_pos htrash]
    obtain ⟨hnil, hlayout⟩ := (hl.region i ho.lt).recycle htrash
    rw [hnil]
    refine ⟨by simpa using hlayout, ?_⟩
    simp [HeapRegion.recycle, htrash, HeapRegion.isAllocAllowed, HeapRegion.isEmpty]
  · rw [if_neg htrash]
    exact ⟨hl.region i ho.lt, ho.allowed.resolve_right htrash⟩

-- In a region that can be allocated from, a failed request changes no block
-- and a successful one hands out as many bytes as it reports.
theorem Laid.tryAllocateIn {i : Nat} (hl : h.Laid held) (hp : h.Placed c) (hs : h.Sound)
    (hbit : h.freeSet.isMutatorFree i = true) (hdvd : 16 ∣ req.size) (hpos : 0 < req.size)
    (hmin : 0 < req.minSize) (hok : h.tryAllocateIn i req = .ok (result, h')) :
    ∃ size, h'.Laid (Function.update held i (handedOut result.mem size ++ held i)) ∧
      ∀ mem, result.mem = some mem → result.req.actualSize = size ∧ 16 ∣ size ∧ 0 < size ∧
        (¬(c.opts.elasticTlab = true ∧ req.forLab = true) → size = req.size) ∧
        (h'.regions i).typ = .regular := by
  have ht := TouchesOnly.tryAllocateIn hok
  have ho := hs.offered i hbit
  obtain ⟨size, mid, halloc, hcases⟩ := tryAllocateIn_cases hok
  have hrecycled := TouchesOnly.tryRecycleTrashed h i
  obtain ⟨hsize, hstep⟩ := allocateIn_cases halloc
  obtain ⟨hlayout, hallowed⟩ := hl.tryRecycleTrashed ho
  have hnotCont : (h.regions i).typ ≠ .humongousCont := by
    intro htyp
    have hallowed := ho.allowed
    simp [HeapRegion.isAllocAllowed, HeapRegion.isEmpty, HeapRegion.isTrash, htyp] at hallowed
  have hnotSwept : (h'.regions i).toSweep = false := by
    rw [ht.frame.toSweep_eq]
    exact ho.swept
  refine ⟨size, ?_⟩
  rcases hstep with ⟨_, hnone, rfl⟩ | ⟨haccepts, ⟨r, hr, hmid⟩, _⟩
  · -- the elastic branch leaves the region alone
    rcases hcases with ⟨_, _, rfl⟩ | ⟨mem, hsome, _⟩
    · rw [hnone]
      refine ⟨hl.touch _ ht (fun _ => ?_) hnotCont ?_ (fun hsweep => ?_), by simp⟩
      · rw [retireRegion_regions]
        exact hlayout
      · rw [retireRegion_regions]
        intro htyp
        simp [HeapRegion.isAllocAllowed, HeapRegion.isEmpty, htyp] at hallowed
      · rw [hnotSwept] at hsweep
        cases hsweep
    · rw [hnone] at hsome
      cases hsome
  · have hdvdSize : 16 ∣ size := hsize ▸ requestSize_dvd hdvd
    have hposSize : 0 < size := hsize ▸ requestSize_pos hpos hmin haccepts
    have hdvdRegion : 16 ∣ ((h.tryRecycleTrashed i).regions i).size := by
      unfold HeapRegion.size
      rw [hrecycled.frame.limit_eq, hrecycled.frame.bottom_eq, ← HeapRegion.size, hp.size_eq]
      exact c.geometry.dvd_size
    have hltRegion : ((h.tryRecycleTrashed i).regions i).bottom <
        ((h.tryRecycleTrashed i).regions i).limit := by
      rw [hrecycled.frame.limit_eq, hrecycled.frame.bottom_eq]
      exact hp.lt_limit i
    have hfilled := hlayout.allocate hallowed hdvdRegion hltRegion hdvdSize hposSize hr
    obtain ⟨_, htyp⟩ := HeapRegion.allocate_sameFrame hr
    have hmidRegion : mid.regions i = r := by
      rw [hmid]
      simp
    -- recording the allocation only sets a start bit
    have hfinal : ∃ addr, h'.regions i = r ∨ h'.regions i = r.setStartBit addr := by
      rcases hcases with ⟨_, _, rfl⟩ | ⟨mem, _, _, rfl⟩
      · exact ⟨0, Or.inl (by rw [retireRegion_regions, hmidRegion])⟩
      · refine ⟨mem, ?_⟩
        have hrecord := recordAllocation_region mid i req size mem
        rw [hmidRegion] at hrecord
        split
        · rwa [retireRegion_regions]
        · exact hrecord
    have hregular : (h'.regions i).typ = .regular ∧
        (h'.regions i).Filled (handedOut result.mem size ++ held i ++
          (h'.regions i).freeBlocks) := by
      obtain ⟨addr, heq | heq⟩ := hfinal
      · rw [heq]
        exact ⟨htyp, hfilled⟩
      · rw [heq]
        exact ⟨htyp, hfilled.setStartBit addr⟩
    refine ⟨hl.touch _ ht ?_ hnotCont ?_ ?_, fun mem hmem => ?_⟩
    · exact fun _ => HeapRegion.layout_of_filled hregular.1 hregular.2
    · simp [hregular.1]
    · simp [hnotSwept]
    · refine ⟨?_, hdvdSize, hposSize, fun hrigid => ?_, hregular.1⟩
      · rcases hcases with ⟨hnone, _, _⟩ | ⟨_, _, hreq, _⟩
        · simp [hnone] at hmem
        · rw [hreq]
          rfl
      · rw [hsize]
        unfold requestSize
        rw [hrecycled.opts_eq, hp.opts_eq, if_neg hrigid]

theorem Laid.allocateSingleLoop {indices : List Nat} {inNewRegion : Bool} (hl : h.Laid held)
    (hp : h.Placed c) (hs : h.Sound) (hdvd : 16 ∣ req.size) (hpos : 0 < req.size)
    (hmin : 0 < req.minSize)
    (hok : h.allocateSingleLoop req inNewRegion indices = .ok (result, h')) :
    (result.mem = none ∧ h'.Laid held) ∨
      ∃ mem i size, result.mem = some mem ∧ result.req.actualSize = size ∧ 16 ∣ size ∧ 0 < size ∧
        (¬(c.opts.elasticTlab = true ∧ req.forLab = true) → size = req.size) ∧
        i < h'.numRegions ∧ (h'.regions i).typ = .regular ∧
        h'.Laid (Function.update held i (⟨mem, size, .tail⟩ :: held i)) := by
  induction indices generalizing h inNewRegion with
  | nil =>
      simp only [Heap.allocateSingleLoop, Except.pure_eq_ok, Prod.mk.injEq] at hok
      obtain ⟨rfl, rfl⟩ := hok
      exact Or.inl ⟨rfl, hl⟩
  | cons i rest ih =>
      unfold Heap.allocateSingleLoop at hok
      by_cases hbit : h.freeSet.isMutatorFree i = true
      · rw [if_pos hbit] at hok
        simp only [Except.bind_eq_ok] at hok
        obtain ⟨⟨tried, mid⟩, htry, hrest⟩ := hok
        have ht := TouchesOnly.tryAllocateIn htry
        have ho := hs.offered i hbit
        obtain ⟨size, hmid, hsome⟩ := hl.tryAllocateIn hp hs hbit hdvd hpos hmin htry
        cases hmem : tried.mem with
        | some mem =>
            simp only [hmem, Except.pure_eq_ok, Prod.mk.injEq] at hrest
            obtain ⟨rfl, rfl⟩ := hrest
            obtain ⟨hactual, hdvdSize, hposSize, hrigid, htyp⟩ := hsome mem hmem
            refine Or.inr ⟨mem, i, size, hmem, hactual, hdvdSize, hposSize, hrigid, ?_, htyp, ?_⟩
            · unfold numRegions
              rw [ht.opts_eq]
              exact ho.lt
            · rw [hmem] at hmid
              exact hmid
        | none =>
            simp only [hmem] at hrest
            rw [hmem] at hmid
            have hsame : Function.update held i (handedOut none size ++ held i) = held := by
              simp [handedOut]
            rw [hsame] at hmid
            exact ih hmid (hp.sameShape ht.sameShape) (hs.tryAllocateIn hbit htry) hrest
      · rw [if_neg hbit] at hok
        exact ih hl hp hs hok

end Single

section Contiguous

theorem claimHumongous_region (h : Heap) (beg i : Nat) :
    ((h.claimHumongous beg i).regions i).typ =
        (if i = beg then .humongousStart else .humongousCont) ∧
      ((h.claimHumongous beg i).regions i).freeList.entries = [] ∧
      ((h.claimHumongous beg i).regions i).objectStartBitmap =
        if (h.regions i).isTrash then fun _ => false else (h.regions i).objectStartBitmap := by
  unfold claimHumongous tryRecycleTrashed
  simp only
  split <;> split <;>
    simp_all [HeapRegion.makeHumongousStart, HeapRegion.makeHumongousCont, HeapRegion.recycle]

theorem claimRun_regions (h : Heap) (beg num j : Nat) :
    (h.claimRun beg num).opts = h.opts ∧
    (h.claimRun beg num).regions j =
      if beg ≤ j ∧ j < beg + num then (h.claimHumongous beg j).regions j else h.regions j := by
  have hstep : ∀ (g g' : Heap), g.regions j = g'.regions j → g.opts = g'.opts →
      (g.claimHumongous beg j).regions j = (g'.claimHumongous beg j).regions j := by
    intro g g' hregion hopts
    unfold claimHumongous tryRecycleTrashed
    rw [hregion]
    simp only
    split <;> simp [hregion, hopts]
  have hloop : ∀ (indices : List Nat) (g : Heap), indices.Nodup →
      (indices.foldl (fun h i => h.claimHumongous beg i) g).opts = g.opts ∧
      (indices.foldl (fun h i => h.claimHumongous beg i) g).regions j =
        if j ∈ indices then (g.claimHumongous beg j).regions j else g.regions j := by
    intro indices
    induction indices with
    | nil => exact fun g _ => ⟨rfl, rfl⟩
    | cons i rest ih =>
        intro g hnodup
        obtain ⟨hnot, hrest⟩ := List.nodup_cons.mp hnodup
        have ht := claimHumongous_touchesOnly g beg i
        obtain ⟨hopts, hregion⟩ := ih (g.claimHumongous beg i) hrest
        refine ⟨hopts.trans ht.opts_eq, ?_⟩
        rw [List.foldl_cons, hregion]
        by_cases hj : j = i
        · subst hj
          simp [hnot]
        · have hother := (ht.others j hj).1
          simp only [List.mem_cons, hj, false_or, hother]
          rw [hstep _ g hother ht.opts_eq]
  obtain ⟨hopts, hregion⟩ := hloop (List.range' beg num) h List.nodup_range'
  exact ⟨hopts, by simpa [claimRun, List.mem_range'_1] using hregion⟩

-- A region that a contiguous request may take holds no block.
theorem Laid.vacant {i : Nat} (hl : h.Laid held) (hi : i < h.numRegions)
    (hcan : h.canAllocateFrom i = true) :
    held i = [] ∧ ((h.regions i).isTrash = false → ∀ a, (h.regions i).objectStartBitmap a = false) ∧
      (h.regions i).typ ≠ .humongousCont ∧ (h.regions i).typ ≠ .humongousStart := by
  have hlayout := hl.region i hi
  unfold HeapRegion.Layout at hlayout
  simp only [canAllocateFrom, HeapRegion.isEmpty, HeapRegion.isTrash] at hcan ⊢
  cases htyp : (h.regions i).typ with
  | emptyUncommited | emptyCommited =>
      rw [htyp] at hlayout
      exact ⟨hlayout.1, fun _ => hlayout.2.2.2, by simp, by simp⟩
  | trash =>
      rw [htyp] at hlayout
      exact ⟨hlayout.1, by simp, by simp, by simp⟩
  | regular | humongousStart | humongousCont => simp [htyp] at hcan

-- Where the run of an object is claimed and its header is written.
structure HoldsRun (h h' : Heap) (beg size : Nat) : Prop where
  opts_eq : h'.opts = h.opts
  outside : ∀ j, ¬(beg ≤ j ∧ j < beg + h.opts.requiredRegions size) → h'.regions j = h.regions j
  typ_eq : ∀ j, beg ≤ j → j < beg + h.opts.requiredRegions size →
    (h'.regions j).typ = if j = beg then .humongousStart else .humongousCont
  unused : ∀ j, beg ≤ j → j < beg + h.opts.requiredRegions size →
    (h'.regions j).freeList.entries = [] ∧ ∀ a, (h'.regions j).objectStartBitmap a = false
  bottom_eq : (h'.regions beg).bottom = (h.regions beg).bottom
  header : (h'.regions beg).words (h.regions beg).bottom = ⟨size, false⟩

section ClaimRun

variable {beg size : Nat}

theorem Laid.holdsRun (hl : h.Laid held) (hp : h.Placed c) (hdvd : 16 ∣ size)
    (hrun : ∀ j, beg ≤ j → j < beg + h.opts.requiredRegions size →
      j < h.numRegions ∧ h.canAllocateFrom j = true)
    (hnum : 0 < h.opts.requiredRegions size) (hp' : h'.Placed c)
    (hframe : h'.regions = (h.claimRun beg (h.opts.requiredRegions size)).regions) :
    h.HoldsRun (h'.writeHeader (h.regions beg).bottom size) beg size := by
  have hbottom : (h'.regions beg).bottom = (h.regions beg).bottom := by
    rw [hp'.bottom_eq, hp.bottom_eq]
  have hindex : h'.regionIndex (h.regions beg).bottom = beg := by
    apply hp'.regionIndex_eq
    · rw [hbottom]
    · rw [← hbottom]
      exact hp'.lt_limit beg
  have hregion : ∀ j, h'.regions j = if beg ≤ j ∧ j < beg + h.opts.requiredRegions size then
      (h.claimHumongous beg j).regions j else h.regions j := by
    intro j
    rw [hframe]
    exact (claimRun_regions h beg _ j).2
  have hwrite : ∀ j, (h'.writeHeader (h.regions beg).bottom size).regions j =
      if j = beg then (h'.regions beg).writeHeader (h.regions beg).bottom size
      else h'.regions j := by
    intro j
    simp only [writeHeader, hindex, setRegion_regions, Function.update_apply]
  -- the header changes neither the state of its region nor what is free there
  have hsame : ∀ j, ((h'.writeHeader (h.regions beg).bottom size).regions j).typ =
        (h'.regions j).typ ∧
      ((h'.writeHeader (h.regions beg).bottom size).regions j).freeList =
        (h'.regions j).freeList ∧
      ((h'.writeHeader (h.regions beg).bottom size).regions j).objectStartBitmap =
        (h'.regions j).objectStartBitmap := by
    intro j
    rw [hwrite]
    split
    · rename_i hj
      rw [hj]
      exact ⟨rfl, rfl, rfl⟩
    · exact ⟨rfl, rfl, rfl⟩
  refine ⟨hp'.opts_eq.trans hp.opts_eq.symm, fun j hout => ?_, fun j hlow hhigh => ?_,
    fun j hlow hhigh => ?_, ?_, ?_⟩
  · have hne : j ≠ beg := by
      rintro rfl
      exact hout ⟨Nat.le_refl _, by omega⟩
    rw [hwrite, if_neg hne, hregion, if_neg hout]
  · obtain ⟨htyp, _⟩ := claimHumongous_region h beg j
    rw [(hsame j).1, hregion, if_pos ⟨hlow, hhigh⟩]
    exact htyp
  · obtain ⟨_, hentries, hbitmap⟩ := claimHumongous_region h beg j
    obtain ⟨hlt, hcan⟩ := hrun j hlow hhigh
    obtain ⟨_, hbits, _⟩ := hl.vacant hlt hcan
    rw [(hsame j).2.1, (hsame j).2.2, hregion, if_pos ⟨hlow, hhigh⟩]
    refine ⟨hentries, ?_⟩
    rw [hbitmap]
    intro a
    split
    · rfl
    · rename_i htrash
      exact hbits (by simpa using htrash) a
  · rw [hwrite, if_pos rfl]
    exact hbottom
  · rw [hwrite, if_pos rfl]
    simp [HeapRegion.writeHeader, storedSize_of_dvd hdvd]

variable (hr : h.HoldsRun h' beg size) (hl : h.Laid held)
  (hrun : ∀ j, beg ≤ j → j < beg + h.opts.requiredRegions size →
    j < h.numRegions ∧ h.canAllocateFrom j = true)

include hr hl hrun

theorem HoldsRun.layout (hpos : 0 < size) (hnum : 0 < h.opts.requiredRegions size) {j : Nat}
    (hj : j < h.numRegions) :
    (h'.regions j).Layout (Function.update held beg
      (⟨(h.regions beg).bottom, size, .object⟩ :: held beg) j) := by
  by_cases hin : beg ≤ j ∧ j < beg + h.opts.requiredRegions size
  · obtain ⟨hlt, hcan⟩ := hrun j hin.1 hin.2
    obtain ⟨hnil, _⟩ := hl.vacant hlt hcan
    obtain ⟨hentries, hbitmap⟩ := hr.unused j hin.1 hin.2
    unfold HeapRegion.Layout
    rw [hr.typ_eq j hin.1 hin.2]
    by_cases heq : j = beg
    · subst heq
      rw [Function.update_self, hnil, if_pos rfl]
      refine ⟨hentries, hbitmap, size, ?_, hpos, ?_⟩
      · rw [hr.bottom_eq]
      · rw [hr.bottom_eq]
        exact hr.header
    · rw [Function.update_of_ne heq, if_neg heq]
      exact ⟨hnil, hentries, hbitmap⟩
  · have hne : j ≠ beg := by
      rintro rfl
      exact hin ⟨Nat.le_refl _, by omega⟩
    rw [Function.update_of_ne hne, hr.outside j hin]
    exact hl.region j hj

theorem HoldsRun.run (hnum : 0 < h.opts.requiredRegions size) {j : Nat} (hj : j < h.numRegions)
    (htyp : (h'.regions j).typ = .humongousStart) {b : Space}
    (hb : b ∈ Function.update held beg (⟨(h.regions beg).bottom, size, .object⟩ :: held beg) j) :
    j + h.opts.requiredRegions b.size ≤ h.numRegions ∧
      ∀ k, j < k → k < j + h.opts.requiredRegions b.size →
        (h'.regions k).typ = .humongousCont := by
  by_cases heq : j = beg
  · subst heq
    obtain ⟨hlt, hcan⟩ := hrun j (Nat.le_refl _) (by omega)
    rw [Function.update_self, (hl.vacant hlt hcan).1] at hb
    obtain rfl := List.mem_singleton.mp hb
    obtain ⟨hlast, _⟩ := hrun (j + h.opts.requiredRegions size - 1) (by omega) (by omega)
    refine ⟨by simp only; omega, fun k hjk hk => ?_⟩
    rw [hr.typ_eq k (by omega) hk, if_neg (by omega)]
  · rw [Function.update_of_ne heq] at hb
    have hout : ¬(beg ≤ j ∧ j < beg + h.opts.requiredRegions size) := by
      intro hin
      rw [hr.typ_eq j hin.1 hin.2, if_neg heq] at htyp
      cases htyp
    rw [hr.outside j hout] at htyp
    obtain ⟨hle, hconts⟩ := hl.run j hj htyp b hb
    refine ⟨hle, fun k hjk hk => ?_⟩
    -- the run of an older object does not reach into the new one
    have hkout : ¬(beg ≤ k ∧ k < beg + h.opts.requiredRegions size) := by
      intro hin
      obtain ⟨hlt, hcan⟩ := hrun k hin.1 hin.2
      exact (hl.vacant hlt hcan).2.2.1 (hconts k hjk hk)
    rw [hr.outside k hkout]
    exact hconts k hjk hk

theorem HoldsRun.idle (hnum : 0 < h.opts.requiredRegions size) {j : Nat} (hj : j < h.numRegions)
    (hsweep : (h'.regions j).toSweep = true) {b : Space}
    (hb : b ∈ Function.update held beg (⟨(h.regions beg).bottom, size, .object⟩ :: held beg) j) :
    b.kind ≠ .tail := by
  by_cases heq : j = beg
  · subst heq
    obtain ⟨hlt, hcan⟩ := hrun j (Nat.le_refl _) (by omega)
    rw [Function.update_self, (hl.vacant hlt hcan).1] at hb
    obtain rfl := List.mem_singleton.mp hb
    simp
  · rw [Function.update_of_ne heq] at hb
    by_cases hin : beg ≤ j ∧ j < beg + h.opts.requiredRegions size
    · obtain ⟨hlt, hcan⟩ := hrun j hin.1 hin.2
      rw [(hl.vacant hlt hcan).1] at hb
      cases hb
    · rw [hr.outside j hin] at hsweep
      exact hl.idle j hj hsweep b hb

end ClaimRun

-- The run that a contiguous request claims, with the header of its object.
theorem Laid.claimRun {beg size : Nat} (hl : h.Laid held) (hp : h.Placed c)
    (hpos : 0 < size) (hdvd : 16 ∣ size)
    (hrun : ∀ j, beg ≤ j → j < beg + h.opts.requiredRegions size →
      j < h.numRegions ∧ h.canAllocateFrom j = true)
    (hnum : 0 < h.opts.requiredRegions size) (hp' : h'.Placed c)
    (hframe : h'.regions = (h.claimRun beg (h.opts.requiredRegions size)).regions) :
    (h'.writeHeader (h.regions beg).bottom size).Laid (Function.update held beg
      (⟨(h.regions beg).bottom, size, .object⟩ :: held beg)) := by
  have hr := hl.holdsRun hp hdvd hrun hnum hp' hframe
  have hn : (h'.writeHeader (h.regions beg).bottom size).numRegions = h.numRegions := by
    unfold numRegions
    rw [hr.opts_eq]
  refine ⟨fun j hj => ?_, fun j hj htyp b hb => ?_, fun j hj hsweep b hb => ?_⟩
  · exact hr.layout hl hrun hpos hnum (hn ▸ hj)
  · rw [hr.opts_eq, hn]
    exact hr.run hl hrun hnum (hn ▸ hj) htyp hb
  · exact hr.idle hl hrun hnum (hn ▸ hj) hsweep hb

end Contiguous

end Heap

end Rsgc.Storage
