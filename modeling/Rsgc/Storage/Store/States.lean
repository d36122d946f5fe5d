import Rsgc.Storage.Store.Accounting
import Rsgc.Storage.Store.Layout
import Rsgc.Storage.Sweeper.Exact

namespace Rsgc.Storage

namespace RegionState

-- A region that holds no block.
def isVacant : RegionState → Bool
  | emptyUncommited | emptyCommited | trash => true
  | _ => false

-- What a request makes of a region that it looks at.
def Opens (a b : RegionState) : Prop :=
  b = a ∨ a.isVacant = true ∧ (b = .emptyCommited ∨ b = .regular)

theorem Opens.refl (a : RegionState) : a.Opens a := Or.inl rfl

theorem Opens.trans {a b d : RegionState} (h : a.Opens b) (h' : b.Opens d) : a.Opens d := by
  rcases h with rfl | ⟨hvacant, hb⟩
  · exact h'
  · refine Or.inr ⟨hvacant, ?_⟩
    rcases h' with rfl | ⟨-, hd⟩
    · exact hb
    · exact hd

end RegionState

namespace Heap

variable {c : HeapConfig} {h h' h'' : Heap} {held rest : Nat → List Space}

def SameStates (h h' : Heap) : Prop := ∀ i, (h'.regions i).typ = (h.regions i).typ

def Opens (h h' : Heap) : Prop := ∀ i, (h.regions i).typ.Opens (h'.regions i).typ

-- Memory was taken from region `i`, which serves many requests.
structure OpensAt (h h' : Heap) (i : Nat) : Prop where
  opens : h.Opens h'
  regular : (h'.regions i).typ = .regular
  swept : (h.regions i).toSweep = false

-- A humongous object took the `num` regions from `beg` on.
structure Spans (h h' : Heap) (beg num : Nat) : Prop where
  pos : 0 < num
  run : ∀ j, beg ≤ j → j < beg + num →
    j < h.numRegions ∧ (h.regions j).typ.isVacant = true ∧ (h.regions j).toSweep = false
  typ : ∀ j, (h'.regions j).typ =
    if beg ≤ j ∧ j < beg + num then if j = beg then .humongousStart else .humongousCont
    else (h.regions j).typ

theorem SameStates.opens (hsame : h.SameStates h') : h.Opens h' := fun i => Or.inl (hsame i)

theorem SameStates.trans (a : h.SameStates h') (b : h'.SameStates h'') : h.SameStates h'' :=
  fun i => (b i).trans (a i)

theorem Opens.trans (a : h.Opens h') (b : h'.Opens h'') : h.Opens h'' := fun i => (a i).trans (b i)

theorem OpensAt.sameStates {i : Nat} (a : h.OpensAt h' i) (b : h'.SameStates h'') :
    h.OpensAt h'' i :=
  ⟨a.opens.trans b.opens, (b i).trans a.regular, a.swept⟩

theorem Spans.sameStates {beg num : Nat} (a : h.Spans h' beg num) (b : h'.SameStates h'') :
    h.Spans h'' beg num :=
  ⟨a.pos, a.run, fun j => (b j).trans (a.typ j)⟩

theorem sameStates_setRegion {i : Nat} {r : HeapRegion} (htyp : r.typ = (h.regions i).typ) :
    h.SameStates (h.setRegion i r) := by
  intro j
  by_cases hj : j = i
  · subst hj
    simpa using htyp
  · simp [hj]

theorem setStartBit_sameStates (h : Heap) (i addr : Nat) : h.SameStates (h.setStartBit i addr) :=
  sameStates_setRegion rfl

theorem writeHeader_sameStates (h : Heap) (addr size : Nat) :
    h.SameStates (h.writeHeader addr size) :=
  sameStates_setRegion rfl

theorem zeroFill_sameStates (h : Heap) (addr size : Nat) : h.SameStates (h.zeroFill addr size) :=
  sameStates_setRegion rfl

theorem markLive_sameStates (h : Heap) (addr : Nat) : h.SameStates (h.markLive addr) := by
  unfold markLive
  simp only
  split
  · exact fun _ => rfl
  · exact setStartBit_sameStates h _ _

theorem addFree_sameStates {i addr size : Nat} {r : HeapRegion}
    (hadd : (h.regions i).addFree addr size = .ok r) : h.SameStates (h.setRegion i r) :=
  sameStates_setRegion (HeapRegion.addFree_sameFrame hadd).2

theorem retire_sameStates {tlab tlab' : ThreadLocalAllocBuffer}
    (hok : tlab.retire h = .ok (tlab', h')) : h.SameStates h' := by
  rcases ThreadLocalAllocBuffer.retire_cases hok with ⟨_, _, rfl⟩ | ⟨_, _, ⟨_, rfl⟩ | ⟨_, r, hr, rfl⟩⟩
  · exact fun _ => rfl
  · exact fun _ => rfl
  · exact addFree_sameStates hr

section Single

variable {req : AllocRequest} {result : AllocResult}

theorem tryRecycleTrashed_opens (h : Heap) (i : Nat) : h.Opens (h.tryRecycleTrashed i) := by
  unfold tryRecycleTrashed
  split
  · rename_i htrash
    intro j
    by_cases hj : j = i
    · subst hj
      have htyp : (h.regions j).typ = .trash := by simpa [HeapRegion.isTrash] using htrash
      exact Or.inr ⟨by simp [htyp, RegionState.isVacant], by simp [HeapRegion.recycle, htrash]⟩
    · simp [hj, RegionState.Opens]
  · exact fun _ => .refl _

theorem recordAllocation_sameStates (h : Heap) (i : Nat) (req : AllocRequest) (size mem : Nat) :
    h.SameStates (h.recordAllocation i req size mem) := by
  unfold recordAllocation
  simp only
  split
  · exact fun _ => rfl
  · exact sameStates_setRegion (h := h.setFreeSet (h.freeSet.increaseUsed size)) rfl

-- A region from which memory can be taken becomes regular, or stays as it is.
theorem allocateIn_opens {i size : Nat} {mem : Option Nat}
    (hallowed : (h.regions i).isAllocAllowed = true)
    (hok : h.allocateIn i req = .ok (size, mem, h')) : h.Opens h' := by
  obtain ⟨_, ⟨_, _, rfl⟩ | ⟨_, ⟨r, hr, rfl⟩, _⟩⟩ := allocateIn_cases hok
  · exact fun _ => .refl _
  · obtain ⟨_, htyp⟩ := HeapRegion.allocate_sameFrame hr
    intro j
    rw [setRegion_regions, commitIfNeeded_regions]
    by_cases hj : j = i
    · subst hj
      rw [Function.update_self, htyp]
      cases hstate : (h.regions j).typ <;>
        simp_all [RegionState.Opens, RegionState.isVacant, HeapRegion.isAllocAllowed,
          HeapRegion.isEmpty]
    · rw [Function.update_of_ne hj]
      exact .refl _

theorem tryAllocateIn_opens {i : Nat} (ho : h.Offered i)
    (hok : h.tryAllocateIn i req = .ok (result, h')) : h.Opens h' := by
  obtain ⟨size, mid, halloc, hcases⟩ := tryAllocateIn_cases hok
  have hallowed : ((h.tryRecycleTrashed i).regions i).isAllocAllowed = true := by
    unfold tryRecycleTrashed
    split
    · rename_i htrash
      simp [HeapRegion.recycle, htrash, HeapRegion.isAllocAllowed, HeapRegion.isEmpty]
    · rename_i htrash
      exact ho.allowed.resolve_right htrash
  have hmid := (tryRecycleTrashed_opens h i).trans (allocateIn_opens hallowed halloc)
  have hretire : ∀ g : Heap, g.SameStates (g.retireRegion i) := by
    intro g j
    rw [retireRegion_regions]
  rcases hcases with ⟨_, _, rfl⟩ | ⟨mem, _, _, rfl⟩
  · exact hmid.trans (hretire mid).opens
  · have hrecord := hmid.trans (recordAllocation_sameStates mid i req size mem).opens
    split
    · exact hrecord.trans (hretire _).opens
    · exact hrecord

theorem allocateSingleLoop_opens {indices : List Nat} {inNewRegion : Bool} (hs : h.Sound)
    (hok : h.allocateSingleLoop req inNewRegion indices = .ok (result, h')) : h.Opens h' := by
  induction indices generalizing h inNewRegion with
  | nil =>
      simp only [allocateSingleLoop, Except.pure_eq_ok, Prod.mk.injEq] at hok
      obtain ⟨_, rfl⟩ := hok
      exact fun _ => .refl _
  | cons i rest ih =>
      unfold allocateSingleLoop at hok
      by_cases hbit : h.freeSet.isMutatorFree i = true
      · rw [if_pos hbit] at hok
        simp only [Except.bind_eq_ok] at hok
        obtain ⟨⟨tried, mid⟩, htry, hrest⟩ := hok
        have hopens := tryAllocateIn_opens (hs.offered i hbit) htry
        cases hmem : tried.mem with
        | some mem =>
            simp only [hmem, Except.pure_eq_ok, Prod.mk.injEq] at hrest
            obtain ⟨_, rfl⟩ := hrest
            exact hopens
        | none =>
            simp only [hmem] at hrest
            exact hopens.trans (ih (hs.tryAllocateIn hbit htry) hrest)
      · rw [if_neg hbit] at hok
        exact ih hs hok

-- The memory that a single region gives.
theorem Laid.allocateSingleLoop_opensAt {indices : List Nat} {inNewRegion : Bool} {mem : Nat}
    (hl : h.Laid held) (hp : h.Placed c) (hs : h.Sound) (hdvd : 16 ∣ req.size)
    (hpos : 0 < req.size) (hmin : 0 < req.minSize)
    (hok : h.allocateSingleLoop req inNewRegion indices = .ok (result, h'))
    (hmem : result.mem = some mem) : h.OpensAt h' (c.regionIndex mem) := by
  have hshape := (allocateSingleLoop_sound hs hok).2.sameShape
  have hp' := hp.sameShape hshape
  rcases hl.allocateSingleLoop hp hs hdvd hpos hmin hok with ⟨hnone, _⟩ |
    ⟨mem', i, size, hmem', _, _, _, _, hi, _, hlaid⟩
  · simp [hnone] at hmem
  · obtain rfl : mem = mem' := by
      rw [hmem] at hmem'
      exact Option.some.inj hmem'
    obtain ⟨htyp, hindex, hswept, _⟩ := hlaid.regionIndex_tail hp' hi (Function.update_self ..)
    rw [hp'.regionIndex_config] at hindex
    rw [hindex]
    refine ⟨allocateSingleLoop_opens hs hok, htyp, ?_⟩
    rw [← (hshape.frame i).toSweep_eq]
    exact hswept

end Single

section Contiguous

-- The run of regions that a humongous request claims.
theorem allocateContiguous_claims {req : AllocRequest} {result : AllocResult} {mem : Nat}
    (hp : h.Placed c) (hs : h.Sound) (hok : h.allocateContiguous req = (result, h'))
    (hmem : result.mem = some mem) :
    h.Spans h' (c.regionIndex mem) (h.opts.requiredRegions req.size) := by
  rcases allocateContiguous_cases h req with heq | ⟨beg, hfound, heq⟩
  · rw [hok] at heq
    obtain ⟨rfl, -⟩ := Prod.mk.inj heq
    cases hmem
  · rw [hok] at heq
    obtain ⟨hnum, hrun⟩ := findRun_spec (Nat.le_refl _) (fun j hl hr => by omega) hfound
    obtain ⟨-, -, hregions, -⟩ := finishContiguous_eq
      (h.claimRun beg (h.opts.requiredRegions req.size)) req beg (h.opts.requiredRegions req.size)
    rw [← heq] at hregions
    have hshape := (claimRun_sound hs fun j hl hr => (hrun j hl hr).2.1).2.sameShape
    have hbottom : mem = (h.regions beg).bottom := by
      have hfst := congrArg (fun x => x.1.mem) heq
      rw [finishContiguous_result, hmem, (hshape.frame beg).bottom_eq] at hfst
      exact Option.some.inj hfst
    have hindex : c.regionIndex mem = beg := by
      rw [← hp.regionIndex_config, hbottom]
      exact hp.regionIndex_eq (Nat.le_refl _) (hp.lt_limit beg)
    rw [hindex]
    refine ⟨hnum, fun j hl hr => ?_, fun j => ?_⟩
    · obtain ⟨-, hbit, hcan⟩ := hrun j hl hr
      have ho := hs.offered j hbit
      refine ⟨ho.lt, ?_, ho.swept⟩
      simp only [canAllocateFrom, HeapRegion.isEmpty, HeapRegion.isTrash] at hcan
      cases htyp : (h.regions j).typ <;> simp_all [RegionState.isVacant]
    · rw [hregions, (claimRun_regions h beg _ j).2]
      split
      · exact (claimHumongous_region h beg j).1
      · rfl

end Contiguous

section Requests

-- A request that fails opens regions at most.
theorem allocate_opens {req : AllocRequest} {result : AllocResult} (hs : h.Sound)
    (hok : h.allocate req = .ok (result, h')) (hnone : result.mem = none) : h.Opens h' := by
  unfold allocate at hok
  split at hok
  · rw [Except.pure_eq_ok] at hok
    rcases allocateContiguous_cases h req with heq | ⟨beg, -, heq⟩
    · rw [hok] at heq
      obtain ⟨-, rfl⟩ := Prod.mk.inj heq
      exact fun _ => .refl _
    · rw [hok] at heq
      have hfst := congrArg (fun x => x.1.mem) heq
      rw [finishContiguous_result, hnone] at hfst
      cases hfst
  · exact allocateSingleLoop_opens hs hok

theorem refill_opens {size : Nat} (hs : h.Sound) (hok : h.refill size = .ok (none, h')) :
    h.Opens h' := by
  obtain ⟨result, mid, halloc, ⟨hnone, -, rfl⟩ | ⟨mem, -, hfound, -⟩⟩ := refill_cases hok
  · exact allocate_opens hs halloc hnone
  · cases hfound

theorem allocateOutsideTlab_opens {size : Nat} (hs : h.Sound)
    (hok : h.allocateOutsideTlab size = .ok (none, h')) : h.Opens h' := by
  obtain ⟨result, mid, halloc, hfound, ⟨-, rfl⟩ | ⟨mem, hmem, -⟩⟩ := allocateOutsideTlab_cases hok
  · exact allocate_opens hs halloc hfound.symm
  · rw [← hfound] at hmem
    cases hmem

theorem Laid.refill_opensAt {size mem : Nat} {tlab : ThreadLocalAllocBuffer}
    (haligned : AlignedTlabs c.opts) (hl : h.Laid held) (hp : h.Placed c) (hs : h.Sound)
    (hpos : 0 < threadTlabSize c.opts) (hok : h.refill size = .ok (some (mem, tlab), h')) :
    h.OpensAt h' (c.regionIndex mem) := by
  obtain ⟨result, mid, halloc, ⟨-, hnone, -⟩ | ⟨mem', hmem, hfound, rfl⟩⟩ := refill_cases hok
  · cases hnone
  · obtain ⟨rfl, -⟩ := Prod.mk.inj (Option.some.inj hfound)
    have hreq : (labRequest h.opts).size = threadTlabSize c.opts := by
      rw [hp.opts_eq]
      rfl
    have hmin : 0 < (labRequest h.opts).minSize := by
      have hge := c.geometry.minTlab_ge
      rw [hp.opts_eq]
      exact Nat.lt_of_lt_of_le (by omega) hge
    unfold Heap.allocate at halloc
    rw [if_neg (by rw [hreq, hp.opts_eq]; exact Nat.not_lt.mpr haligned.tlab_le)] at halloc
    have hopens := hl.allocateSingleLoop_opensAt hp hs (by rw [hreq]; exact haligned.tlab_dvd)
      (by rw [hreq]; exact hpos) hmin halloc hmem
    exact (hopens.sameStates (zeroFill_sameStates _ _ _)).sameStates (setStartBit_sameStates _ _ _)

theorem Laid.allocateOutsideTlab_takes {size mem : Nat} (hl : h.Laid held) (hp : h.Placed c)
    (hs : h.Sound) (hdvd : 16 ∣ size) (hpos : 0 < size)
    (hok : h.allocateOutsideTlab size = .ok (some mem, h')) :
    h.OpensAt h' (c.regionIndex mem) ∨
      h.Spans h' (c.regionIndex mem) (h.opts.requiredRegions size) := by
  obtain ⟨result, mid, halloc, hfound, ⟨hnone, -⟩ | ⟨mem', hmem, rfl⟩⟩ :=
    allocateOutsideTlab_cases hok
  · rw [hnone] at hfound
    cases hfound
  · obtain rfl : mem = mem' := Option.some.inj (hfound.trans hmem)
    have hlive := markLive_sameStates mid mem
    have hreq : (sharedRequest size).size = size := rfl
    unfold Heap.allocate at halloc
    split at halloc
    · rw [Except.pure_eq_ok] at halloc
      exact Or.inr ((allocateContiguous_claims hp hs halloc hmem).sameStates hlive)
    · have hopens := hl.allocateSingleLoop_opensAt hp hs (by rw [hreq]; exact hdvd)
        (by rw [hreq]; exact hpos) (by exact hpos) halloc hmem
      exact Or.inl (hopens.sameStates hlive)

-- An object in a buffer lies in the region of the buffer.
theorem Laid.bump_opensAt {tlab tlab' : ThreadLocalAllocBuffer} {size mem : Nat}
    (hok : tlab.Ok h) (hp : h.Placed c) (hl : h.Laid fun i => tlab.tail i ++ rest i)
    (hpos : 0 < size) (halloc : tlab.allocate h size = some (mem, tlab', h')) :
    h.OpensAt h' (c.regionIndex mem) := by
  have hsize := hl.tail_size hok hp
  obtain ⟨hle, rfl, -, index, hbitmap, rfl⟩ := ThreadLocalAllocBuffer.allocate_cases halloc
  rw [hsize] at hle
  rcases hok with rfl | ⟨i, hi, hbitmap', -⟩
  · simp [ThreadLocalAllocBuffer.new] at hbitmap
  · have hheld : tlab.tail i ++ rest i = ⟨tlab.top, tlab.limit - tlab.top, .tail⟩ :: rest i := by
      simp [ThreadLocalAllocBuffer.tail, hbitmap', show tlab.top < tlab.limit by omega]
    obtain ⟨htyp, hindex, hswept, -⟩ := hl.regionIndex_tail hp hi hheld
    rw [hp.regionIndex_config] at hindex
    rw [hindex]
    have hsame := setStartBit_sameStates h index tlab.top
    exact ⟨hsame.opens, (hsame i).trans htyp, hswept⟩

end Requests

end Heap

-- The blocks of a region in the order of their addresses.
theorem HeapRegion.Filled.parses {opts : HeapOptions} {r : HeapRegion} {blocks : List Space}
    (h : r.Filled blocks) (hlimit : r.limit = r.bottom + opts.regionSizeBytes)
    (hnotTail : ∀ b ∈ blocks, b.kind ≠ .tail) :
    ∃ tiles, tiles.Perm blocks ∧ r.Parses opts tiles := by
  obtain ⟨tiles, htiled, hperm⟩ := h.covers
  rw [hlimit] at htiled
  refine ⟨tiles, hperm, htiled, fun b hb => ?_, fun b hb => ?_, fun b hb => ?_⟩
  · have hmem := hperm.mem_iff.mp hb
    obtain ⟨-, hkind⟩ := h.described b hmem
    cases hk : b.kind with
    | object =>
        rw [hk] at hkind
        simpa using hkind.1
    | free =>
        rw [hk] at hkind
        simpa using hkind
    | tail => exact absurd hk (hnotTail b hmem)
  · exact (h.described b (hperm.mem_iff.mp hb)).1
  · exact hnotTail b (hperm.mem_iff.mp hb)

namespace Heap

section Sweep

variable {c : HeapConfig} {h h' : Heap} {objs tails : Nat → List Space} {marks : Nat → Bool}

-- What the sweeper makes of region `i`: its regions become trash when nothing in it is
-- marked, and no other state changes.
def SweptStates (h h' : Heap) (marks : Nat → Bool) (i : Nat) (objs : List Space) : Prop :=
  if (h.regions i).toSweep = true ∧ needsSweep (h.regions i) = true ∧
      ∀ b ∈ objs, marks b.addr = false then
    ∃ num, ((h.regions i).typ = .regular → num = 1) ∧
      ((h.regions i).typ = .humongousStart → ∀ b ∈ objs, num = h.opts.requiredRegions b.size) ∧
      ∀ j, (h'.regions j).typ = if i ≤ j ∧ j < i + num then .trash else (h.regions j).typ
  else h.SameStates h'

variable (hl : h.Laid fun j => objs j ++ tails j) (hp : h.Placed c)
  (hobjs : ∀ j, ∀ b ∈ objs j, b.kind = .object) (htails : ∀ j, ∀ b ∈ tails j, b.kind = .tail)

include hl hp hobjs htails in
theorem Laid.swept_empty_iff {i : Nat} {r : HeapRegion} {empty : Bool} (hi : i < h.numRegions)
    (htyp : (h.regions i).typ = .regular) (hsweep : (h.regions i).toSweep = true)
    (hok : sweepRegion h.opts marks { h.regions i with toSweep := false } = .ok (empty, r)) :
    empty = true ↔ ∀ b ∈ objs i, marks b.addr = false := by
  obtain ⟨hnoTails, -⟩ := Laid.sweptBlocks hl hp hobjs htails hi htyp hsweep hok
  have hlayout := (clearToSweep_laid hl i).region i hi
  rw [clearToSweep_regions, if_pos rfl, hnoTails, List.append_nil] at hlayout
  have hlimit : (h.regions i).limit = (h.regions i).bottom + h.opts.regionSizeBytes := by
    rw [hp.limit_eq, hp.opts_eq]
  have hfree : ∀ b ∈ (h.regions i).freeBlocks, b.kind = .free := by
    intro b hb
    obtain ⟨e, -, rfl⟩ := List.mem_map.mp hb
    rfl
  have hnotTail : ∀ b ∈ objs i ++ (h.regions i).freeBlocks, b.kind ≠ .tail := by
    intro b hb
    rcases List.mem_append.mp hb with hobj | hb
    · simp [hobjs i b hobj]
    · simp [hfree b hb]
  obtain ⟨tiles, hperm, hparses⟩ := (hlayout.filled htyp).parses hlimit hnotTail
  rw [(hparses.sweptExactly hok).empty_iff]
  constructor
  · intro hnone b hb
    exact hnone b (hperm.mem_iff.mpr (List.mem_append_left _ hb)) (hobjs i b hb)
  · intro hnone b hb hobject
    rcases List.mem_append.mp (hperm.mem_iff.mp hb) with hb | hb
    · exact hnone b hb
    · rw [hfree b hb] at hobject
      cases hobject

include hl htails in
-- The object of a humongous region
theorem Laid.humongous {i : Nat} (hi : i < h.numRegions)
    (htyp : (h.regions i).typ = .humongousStart) :
    ∃ size, objs i = [⟨(h.regions i).bottom, size, .object⟩] ∧
      (h.regions i).words (h.regions i).bottom = ⟨size, false⟩ := by
  have hlayout := hl.region i hi
  unfold HeapRegion.Layout at hlayout
  rw [htyp] at hlayout
  obtain ⟨-, -, size, hheld, -, hwords⟩ := hlayout
  refine ⟨size, ?_, hwords⟩
  rcases List.append_eq_singleton_iff.mp hheld with ⟨-, htail⟩ | ⟨hobj, -⟩
  · have hkind := htails i _ (htail ▸ List.mem_singleton_self _)
    cases hkind
  · exact hobj

theorem clearToSweep_sameStates (h : Heap) (i : Nat) : h.SameStates (h.clearToSweep i) :=
  sameStates_setRegion rfl

include hl hp hobjs htails in
theorem Laid.sweepRegionDo_states {i : Nat} (hi : i < h.numRegions)
    (hok : h.sweepRegionDo marks i = .ok h') : h.SweptStates h' marks i (objs i) := by
  have hneeds : needsSweep (h.regions i) = true ↔
      (h.regions i).typ = .regular ∨ (h.regions i).typ = .humongousStart := by
    simp [needsSweep, HeapRegion.isRegular, HeapRegion.isHumongousStart]
  unfold SweptStates
  rcases sweepRegionDo_cases hok with ⟨hsweep, rfl⟩ | ⟨hsweep, ⟨htyp, hmark, rfl⟩ |
    ⟨htyp, hmark, htrash⟩ | ⟨htyp, empty, r, hr, rfl⟩⟩
  · rw [if_neg (by simp [hsweep])]
    exact fun _ => rfl
  · -- a humongous object that is marked is in the region
    rw [if_neg]
    · exact clearToSweep_sameStates h i
    · rintro ⟨-, hstart, hnone⟩
      have hstart := (hneeds.mp hstart).resolve_left htyp
      obtain ⟨size, hobj, -⟩ := Laid.humongous hl htails hi hstart
      have hunmarked := hnone _ (hobj ▸ List.mem_singleton_self _)
      simp [hmark hstart] at hunmarked
  · obtain ⟨-, rfl⟩ := trashHumongousRegionAt_eq htrash
    obtain ⟨size, hobj, hwords⟩ := Laid.humongous hl htails hi htyp
    have hclear := clearToSweep_sameStates h i
    have hsize : ((h.clearToSweep i).regions i).words ((h.clearToSweep i).regions i).bottom =
        ⟨size, false⟩ := by
      rw [clearToSweep_regions, if_pos rfl]
      exact hwords
    have hdead : ∀ b ∈ objs i, marks b.addr = false := by
      intro b hb
      rw [hobj] at hb
      rw [List.mem_singleton.mp hb]
      exact hmark
    rw [if_pos ⟨hsweep, hneeds.mpr (Or.inr htyp), hdead⟩]
    refine ⟨h.opts.requiredRegions size, by simp [htyp], fun _ b hb => ?_, fun j => ?_⟩
    · rw [hobj] at hb
      rw [List.mem_singleton.mp hb]
    · simp only [hsize]
      change (if i ≤ j ∧ j < i + h.opts.requiredRegions size then
        ((h.clearToSweep i).regions j).makeTrash else (h.clearToSweep i).regions j).typ = _
      split
      · rfl
      · exact hclear j
  · have hempty := Laid.swept_empty_iff hl hp hobjs htails hi htyp hsweep hr
    have hregular := (sweepRegion_sameFrame hr).2
    have htypes : ∀ j, (((h.clearToSweep i).setRegion i
        (if empty = true then r.makeTrash else r)).regions j).typ =
          if j = i ∧ empty = true then .trash else (h.regions j).typ := by
      intro j
      by_cases hj : j = i
      · subst hj
        cases empty with
        | true => simp [HeapRegion.makeTrash]
        | false => simpa using hregular
      · simp [hj, clearToSweep_regions]
    by_cases hdead : empty = true
    · rw [if_pos ⟨hsweep, hneeds.mpr (Or.inl htyp), hempty.mp hdead⟩]
      refine ⟨1, fun _ => rfl, by simp [htyp], fun j => ?_⟩
      rw [htypes]
      have hiff : (j = i ∧ empty = true) ↔ i ≤ j ∧ j < i + 1 := by
        rw [and_iff_left hdead]
        omega
      simp only [hiff]
    · rw [if_neg fun hcond => hdead (hempty.mpr hcond.2.2)]
      intro j
      rw [htypes, if_neg fun hcond => hdead hcond.2]

end Sweep

end Heap

namespace Store

variable {c : HeapConfig} {mode : BarrierMode} {s t : Store}

-- The object `b` is new, and the regions changed for it.
def Gains (c : HeapConfig) (s t : Store) (b : Space) : Prop :=
  t.objects = b :: s.objects ∧
    (s.heap.OpensAt t.heap (c.regionIndex b.addr) ∨
      s.heap.Spans t.heap (c.regionIndex b.addr) (c.opts.requiredRegions b.size))

theorem gains_place {mem size : Nat} {heap : Heap} {tlabs : List ThreadLocalAllocBuffer}
    (h : s.heap.OpensAt heap (c.regionIndex mem) ∨
      s.heap.Spans heap (c.regionIndex mem) (c.opts.requiredRegions size)) :
    Gains c s (place mode { s with heap := heap, tlabs := tlabs } mem size) ⟨mem, size, .object⟩ :=
  ⟨rfl, h.imp (fun hopens => hopens.sameStates (Heap.writeHeader_sameStates _ _ _))
    fun hclaims => hclaims.sameStates (Heap.writeHeader_sameStates _ _ _)⟩

-- What a step of a mutator does to the objects and to the states of the regions.
theorem mutator_cases {e : StoreEvent} (ho : s.Offers c) (ht : s.Tidy c)
    (hmutator : e.isMutator = true) (hroomy : s.Roomy e) (hstep : s.step mode e = some t) :
    s.heap.SameShape t.heap ∧
      ((t.objects = s.objects ∧ s.heap.Opens t.heap) ∨ ∃ b, Gains c s t b) := by
  obtain ⟨henabled, hok⟩ := step_eq_some.mp hstep
  cases e with
  | register =>
      obtain rfl := Except.ok.inj hok
      exact ⟨Heap.SameShape.refl _, Or.inl ⟨rfl, fun _ => .refl _⟩⟩
  | bump thread size =>
      obtain ⟨_, hlt, hpos, _⟩ := henabled
      simp only [perform] at hok
      split at hok
      · obtain rfl := Except.ok.inj hok
        exact ⟨Heap.SameShape.refl _, Or.inl ⟨rfl, fun _ => .refl _⟩⟩
      · rename_i mem tlab heap halloc
        obtain rfl := Except.ok.inj hok
        obtain ⟨hheap, hshape⟩ := ThreadLocalAllocBuffer.allocate_sound ho.sound halloc
        have hplaced : heap.SameShape (place mode (s.setTlab thread tlab heap) mem size).heap :=
          (place_sound (s := s.setTlab thread tlab heap) hheap).2
        have hopens := Heap.Laid.bump_opensAt (ht.tlab_ok hlt) ht.placed
          (ht.laid.perm (held_perm hlt)) hpos halloc
        exact ⟨hshape.trans hplaced, Or.inr ⟨_, gains_place (Or.inl hopens)⟩⟩
  | refill thread size =>
      obtain ⟨_, hlt, ⟨hpos, _⟩, hclosed, hle⟩ := henabled
      simp only [perform, Except.bind_eq_ok] at hok
      obtain ⟨⟨found, heap⟩, hrefill, hok⟩ := hok
      obtain ⟨hheap, hshape⟩ := Heap.refill_sound ho.sound hrefill
      cases found with
      | none =>
          obtain rfl := Except.ok.inj hok
          exact ⟨hshape, Or.inl ⟨rfl, Heap.refill_opens ho.sound hrefill⟩⟩
      | some found =>
          obtain ⟨mem, tlab⟩ := found
          obtain rfl := Except.ok.inj hok
          have hplaced : heap.SameShape (place mode (s.setTlab thread tlab heap) mem size).heap :=
            (place_sound (s := s.setTlab thread tlab heap) hheap).2
          have haligned := hroomy.1
          rw [ho.opts_eq] at haligned hle
          have hopens := ht.laid.refill_opensAt haligned ht.placed ho.sound (by omega) hrefill
          exact ⟨hshape.trans hplaced, Or.inr ⟨_, gains_place (Or.inl hopens)⟩⟩
  | retire thread =>
      simp only [perform, Except.bind_eq_ok, Except.pure_eq_ok] at hok
      obtain ⟨⟨tlab, heap⟩, hretire, rfl⟩ := hok
      exact ⟨(ThreadLocalAllocBuffer.retire_sound ho.sound hretire).2,
        Or.inl ⟨rfl, (Heap.retire_sameStates hretire).opens⟩⟩
  | shared size =>
      obtain ⟨_, hpos, hdvd⟩ := henabled
      simp only [perform, Except.bind_eq_ok] at hok
      obtain ⟨⟨found, heap⟩, hshared, hok⟩ := hok
      obtain ⟨hheap, hshape⟩ := Heap.allocateOutsideTlab_sound ho.sound hshared
      cases found with
      | none =>
          obtain rfl := Except.ok.inj hok
          exact ⟨hshape, Or.inl ⟨rfl, Heap.allocateOutsideTlab_opens ho.sound hshared⟩⟩
      | some mem =>
          obtain rfl := Except.ok.inj hok
          have hplaced : heap.SameShape (place mode { s with heap := heap } mem size).heap :=
            (place_sound (s := { s with heap := heap }) hheap).2
          have htakes := ht.laid.allocateOutsideTlab_takes ht.placed ho.sound hdvd hpos hshared
          rw [ho.opts_eq] at htakes
          exact ⟨hshape.trans hplaced, Or.inr ⟨_, gains_place htakes⟩⟩
  | _ => cases hmutator

theorem retireAll_sameStates {tlabs tlabs' : List ThreadLocalAllocBuffer} {h h' : Heap}
    (hok : retireAll tlabs h = .ok (tlabs', h')) : h.SameStates h' := by
  induction tlabs generalizing h tlabs' with
  | nil =>
      simp only [retireAll, Except.pure_eq_ok, Prod.mk.injEq] at hok
      obtain ⟨_, rfl⟩ := hok
      exact fun _ => rfl
  | cons tlab rest ih =>
      simp only [retireAll, Except.bind_eq_ok, Except.pure_eq_ok, Prod.mk.injEq] at hok
      obtain ⟨⟨tlab', mid⟩, hretire, ⟨rest', last⟩, hrest, _, rfl⟩ := hok
      exact (Heap.retire_sameStates hretire).trans (ih hrest)

end Store

end Rsgc.Storage
