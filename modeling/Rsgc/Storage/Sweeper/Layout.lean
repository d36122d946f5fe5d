import Rsgc.Storage.Region.Layout
import Rsgc.Storage.Sweeper

namespace Rsgc.Storage

-- The objects that a sweep with these marks keeps.
def kept (marks : Nat → Bool) (blocks : List Space) : List Space :=
  blocks.filter fun b => decide (b.kind = .object) && marks b.addr

namespace SweepState

variable {r : HeapRegion} {s s' : SweepState} {survivors : List Space} {upto : Nat}

-- The state of a sweep of `r` below `upto`: the survivors found so far and the
-- gaps that were closed fill the region up to there.
structure SweptTo (r : HeapRegion) (s : SweepState) (survivors : List Space) (upto : Nat) :
    Prop where
  frame : r.SameFrame s.region
  typ_eq : s.region.typ = r.typ
  covers : Covers r.bottom upto (survivors ++ s.region.freeBlocks)
  described : ∀ b ∈ survivors ++ s.region.freeBlocks, s.region.Described b
  started : ∀ a, s.region.objectStartBitmap a = true → ∃ b ∈ survivors, b.addr = a
  objects : ∀ b ∈ survivors, b.kind = .object
  ahead : ∀ a, upto ≤ a → s.region.words a = r.words a
  le : r.bottom ≤ upto

theorem sweepStart_sweptTo (r : HeapRegion) : (sweepStart r).SweptTo r [] r.bottom where
  frame := ⟨rfl, rfl, rfl, rfl⟩
  typ_eq := rfl
  covers := by
    simp only [sweepStart, HeapRegion.freeBlocks, FreeList.entries_clear]
    exact Covers.of_tiled rfl
  described := by simp [sweepStart, HeapRegion.freeBlocks]
  started := by simp [sweepStart]
  objects := by simp
  ahead := fun _ _ => rfl
  le := Nat.le_refl _

-- Closing a gap turns everything between the last survivor and `stop` into one
-- free block.
theorem SweptTo.closeGap {stop : Nat} (h : s.SweptTo r survivors s.startOfGap)
    (hle : s.startOfGap ≤ stop) (hdvd : 16 ∣ stop - s.startOfGap)
    (hok : s.closeGap stop = .ok s') :
    s'.SweptTo r survivors stop ∧ s'.startOfGap = s.startOfGap ∧ s'.used = s.used := by
  unfold SweepState.closeGap at hok
  by_cases hgap : s.startOfGap ≠ stop
  · simp only [if_pos hgap, Except.bind_eq_ok, Except.pure_eq_ok] at hok
    obtain ⟨filled, hadd, rfl⟩ := hok
    obtain ⟨hframe, htyp⟩ := HeapRegion.addFree_sameFrame hadd
    obtain ⟨l, hl, rfl⟩ := HeapRegion.addFree_eq_ok hadd
    have hperm := (HeapRegion.freeBlocks_add hl hdvd).append_left survivors
    have hblocks : (survivors ++ l.entries.map Entry.space).Perm
        ((survivors ++ s.region.freeBlocks) ++
          [⟨s.startOfGap, stop - s.startOfGap, .free⟩]) :=
      hperm.trans (List.perm_middle.trans (List.perm_append_singleton _ _).symm)
    refine ⟨⟨?_, htyp.trans h.typ_eq, ?_, ?_, h.started, h.objects, ?_, h.le.trans hle⟩, rfl, rfl⟩
    · exact h.frame.trans ⟨rfl, rfl, rfl, rfl⟩
    · have hstop : s.startOfGap + (stop - s.startOfGap) = stop := by omega
      have hgapCover : Covers s.startOfGap stop
          [(⟨s.startOfGap, stop - s.startOfGap, .free⟩ : Space)] :=
        Covers.of_tiled ⟨rfl, by simp only; omega, hstop⟩
      exact (h.covers.append hgapCover).perm hblocks.symm
    · intro b hb
      rcases List.mem_append.mp (hblocks.mem_iff.mp hb) with hb | hb
      · have hin := h.covers.within hb
        have hpos := h.covers.size_pos hb
        have hne : b.addr ≠ s.startOfGap := by
          unfold Block.Within Block.stop at hin
          omega
        have hold := h.described b hb
        unfold HeapRegion.Described at hold ⊢
        simpa only [Function.update_of_ne hne] using hold
      · obtain rfl := List.mem_singleton.mp hb
        exact ⟨hdvd, by simp [storedSize_of_dvd hdvd]⟩
    · intro a ha
      have hne : a ≠ s.startOfGap := by omega
      simp only [Function.update_of_ne hne]
      exact h.ahead a (by omega)
  · simp only [if_neg hgap, Except.pure_eq_ok] at hok
    subst hok
    have heq : s.startOfGap = stop := by simpa using hgap
    rw [← heq]
    exact ⟨h, rfl, rfl⟩

theorem SweptTo.keep {addr size : Nat} (h : s.SweptTo r survivors addr)
    (hdvd : 16 ∣ size) (hpos : 0 < size) (hheader : r.words addr = ⟨size, false⟩) :
    (s.keep addr size).SweptTo r (survivors ++ [⟨addr, size, .object⟩]) (addr + size) where
  frame := h.frame.trans ⟨rfl, rfl, rfl, rfl⟩
  typ_eq := h.typ_eq
  covers := by
    have hobject : Covers addr (addr + size) [(⟨addr, size, .object⟩ : Space)] :=
      Covers.of_tiled ⟨rfl, hpos, rfl⟩
    refine (h.covers.append hobject).perm ?_
    rw [List.append_assoc, List.append_assoc]
    exact List.perm_append_comm.append_left survivors
  described := by
    intro b hb
    have hbits : ∀ a, s.region.objectStartBitmap a = true →
        (s.keep addr size).region.objectStartBitmap a = true := by
      intro a ha
      by_cases heq : a = addr
      · simp [SweepState.keep, HeapRegion.setStartBit, heq]
      · simpa [SweepState.keep, HeapRegion.setStartBit, Function.update_of_ne heq] using ha
    have hold : b ∈ survivors ++ s.region.freeBlocks ∨ b = ⟨addr, size, .object⟩ := by
      simp only [List.mem_append, List.mem_singleton] at hb ⊢
      rcases hb with (hb | hb) | hb
      · exact Or.inl (Or.inl hb)
      · exact Or.inr hb
      · exact Or.inl (Or.inr hb)
    rcases hold with hb | rfl
    · obtain ⟨hsize, hkind⟩ := h.described b hb
      refine ⟨hsize, ?_⟩
      cases hk : b.kind with
      | object =>
          rw [hk] at hkind
          exact ⟨hkind.1, hbits _ hkind.2⟩
      | free =>
          rw [hk] at hkind
          exact hkind
      | tail => trivial
    · refine ⟨hdvd, ?_, ?_⟩
      · exact (h.ahead addr (Nat.le_refl _)).trans hheader
      · simp [SweepState.keep, HeapRegion.setStartBit]
  started := by
    intro a ha
    by_cases heq : a = addr
    · exact ⟨⟨addr, size, .object⟩, by simp, heq.symm⟩
    · have hold : s.region.objectStartBitmap a = true := by
        simpa [SweepState.keep, HeapRegion.setStartBit, Function.update_of_ne heq] using ha
      obtain ⟨b, hb, haddr⟩ := h.started a hold
      exact ⟨b, List.mem_append_left _ hb, haddr⟩
  objects := by
    intro b hb
    rcases List.mem_append.mp hb with hb | hb
    · exact h.objects b hb
    · obtain rfl := List.mem_singleton.mp hb
      rfl
  ahead := fun a ha => h.ahead a (by omega)
  le := by
    have hle := h.le
    omega

-- The first gap of a region that has no survivor becomes its only free block.
theorem closeGap_freeBlocks {stop : Nat} (hempty : s.region.freeBlocks = [])
    (hlt : s.startOfGap < stop) (hdvd : 16 ∣ stop - s.startOfGap)
    (hok : s.closeGap stop = .ok s') :
    s'.region.freeBlocks = [⟨s.startOfGap, stop - s.startOfGap, .free⟩] := by
  unfold SweepState.closeGap at hok
  simp only [if_pos (Nat.ne_of_lt hlt), Except.bind_eq_ok, Except.pure_eq_ok] at hok
  obtain ⟨filled, hadd, rfl⟩ := hok
  obtain ⟨l, hl, rfl⟩ := HeapRegion.addFree_eq_ok hadd
  have hperm := HeapRegion.freeBlocks_add hl hdvd
  rw [hempty] at hperm
  exact List.perm_singleton.mp hperm

end SweepState

section Loop

variable {r : HeapRegion} {s s' : SweepState} {survivors tiles : List Space} {marks : Nat → Bool}

-- By induction on the tiles ahead of the walk: what is below the gap is swept,
-- and the gap reaches up to the walk.
theorem sweepLoop_sweptTo {stop addr fuel : Nat} (htiled : Tiled addr stop tiles)
    (htiles : ∀ b ∈ tiles, r.Described b ∧ b.kind ≠ .tail)
    (h : s.SweptTo r survivors s.startOfGap) (hle : s.startOfGap ≤ addr)
    (hdvd : 16 ∣ addr - s.startOfGap)
    (hok : sweepLoop r.words marks stop fuel addr s = .ok s') :
    s'.SweptTo r (survivors ++ kept marks tiles) s'.startOfGap ∧ s'.startOfGap ≤ stop ∧
      16 ∣ stop - s'.startOfGap := by
  induction tiles generalizing addr s survivors fuel with
  | nil =>
      have heq : addr = stop := htiled
      unfold sweepLoop at hok
      rw [if_pos heq, Except.pure_eq_ok] at hok
      subst hok heq
      exact ⟨by simpa [kept] using h, hle, hdvd⟩
  | cons b rest ih =>
      obtain ⟨rfl, hpos, hrest⟩ := htiled
      obtain ⟨⟨hsize, hheader⟩, hkind⟩ := htiles b List.mem_cons_self
      have hrestTiles : ∀ c ∈ rest, r.Described c ∧ c.kind ≠ .tail :=
        fun c hc => htiles c (List.mem_cons_of_mem _ hc)
      have hlt := hrest.le
      have hne : b.addr ≠ stop := by
        unfold Block.stop at hlt
        omega
      unfold sweepLoop at hok
      rw [if_neg hne] at hok
      cases fuel with
      | zero => simp at hok
      | succ fuel =>
          have hwords : r.words b.addr = ⟨b.size, decide (b.kind = .free)⟩ := by
            cases hk : b.kind with
            | object =>
                rw [hk] at hheader
                simpa using hheader.1
            | free =>
                rw [hk] at hheader
                simpa using hheader
            | tail => exact absurd hk hkind
          simp only [hwords] at hok
          by_cases hskip : decide (b.kind = .free) = true ∨ marks b.addr = false
          · -- the block joins the gap
            rw [if_pos hskip] at hok
            have hkept : kept marks (b :: rest) = kept marks rest := by
              unfold kept
              rw [List.filter_cons_of_neg]
              rcases hskip with hfree | hmark
              · simp [of_decide_eq_true hfree]
              · simp [hmark]
            rw [hkept]
            have hgap : 16 ∣ b.stop - s.startOfGap := by
              have hsum : b.stop - s.startOfGap = (b.addr - s.startOfGap) + b.size := by
                unfold Block.stop
                omega
              rw [hsum]
              exact Nat.dvd_add hdvd hsize
            exact ih hrest hrestTiles h (hle.trans (Nat.le_add_right _ _)) hgap hok
          · -- the block survives and ends the gap
            rw [if_neg hskip, Except.bind_eq_ok] at hok
            obtain ⟨closed, hclose, hloop⟩ := hok
            have hobject : b.kind = .object := by
              cases hk : b.kind with
              | object => rfl
              | free => simp [hk] at hskip
              | tail => exact absurd hk hkind
            have hmark : marks b.addr = true := by
              simpa using fun hf => hskip (Or.inr hf)
            obtain ⟨hclosed, _, _⟩ := h.closeGap hle hdvd hclose
            have hkeep := hclosed.keep hsize hpos (by simpa [hobject] using hwords)
            have hb : (⟨b.addr, b.size, .object⟩ : Space) = b := by
              cases b
              simp_all
            rw [hb] at hkeep
            have hkept : kept marks (b :: rest) = b :: kept marks rest := by
              unfold kept
              rw [List.filter_cons_of_pos]
              simp [hobject, hmark]
            have hnext := ih hrest hrestTiles hkeep (Nat.le_refl _)
              (by simp [SweepState.keep, Block.stop]) hloop
            rw [hkept]
            simpa using hnext

theorem kept_perm {blocks blocks' : List Space} (h : blocks.Perm blocks') :
    (kept marks blocks).Perm (kept marks blocks') := h.filter _

theorem kept_freeBlocks (blocks : List Space) :
    kept marks (blocks ++ r.freeBlocks) = kept marks blocks := by
  have hfree : kept marks r.freeBlocks = [] := by
    unfold kept HeapRegion.freeBlocks
    rw [List.filter_eq_nil_iff]
    intro b hb
    obtain ⟨e, _, rfl⟩ := List.mem_map.mp hb
    simp [Entry.space]
  unfold kept at hfree ⊢
  rw [List.filter_append, hfree, List.append_nil]

-- A range without marks has no marked block.
theorem kept_of_not_marked {blocks : List Space} {size : Nat}
    (hcovers : Covers r.bottom (r.bottom + size) blocks) (hdvd : ∀ b ∈ blocks, 16 ∣ b.size)
    (hmarked : isMarkedRange marks r.bottom (r.bottom + size) = false) : kept marks blocks = [] := by
  unfold kept
  rw [List.filter_eq_nil_iff]
  intro b hb
  obtain ⟨hlow, hhigh⟩ := hcovers.within hb
  have hsize := hdvd b hb
  have hpos := hcovers.size_pos hb
  have haddr := hcovers.dvd_addr hdvd hb
  obtain ⟨k, hk⟩ := haddr
  have hrange : k < (r.bottom + size - r.bottom) / 16 := by
    unfold Block.stop at hhigh
    obtain ⟨j, hj⟩ := hsize
    omega
  have hunmarked : marks (r.bottom + 16 * k) = false := by
    unfold isMarkedRange at hmarked
    rw [List.any_eq_false] at hmarked
    simpa using hmarked k (List.mem_range.mpr hrange)
  have heq : r.bottom + 16 * k = b.addr := by omega
  rw [heq] at hunmarked
  simp [hunmarked]

-- `sweep_region` keeps exactly the marked objects, and makes everything else
-- in the region free.
theorem sweepRegion_layout {opts : HeapOptions} {r' : HeapRegion} {objs : List Space} {empty : Bool}
    (htyp : r.typ = .regular) (h : r.Filled (objs ++ r.freeBlocks))
    (hobjs : ∀ b ∈ objs, b.kind = .object) (hlimit : r.limit = r.bottom + opts.regionSizeBytes)
    (hpos : 0 < opts.regionSizeBytes) (hdvd : 16 ∣ opts.regionSizeBytes)
    (hok : sweepRegion opts marks r = .ok (empty, r')) :
    r.SameFrame r' ∧ r'.typ = .regular ∧ r'.Filled (kept marks objs ++ r'.freeBlocks) ∧
      (∀ a, r'.objectStartBitmap a = true → ∃ b ∈ kept marks objs, b.addr = a) ∧
      (empty = true → kept marks objs = [] ∧ r'.freeBlocks = [r'.whole]) := by
  simp only [sweepRegion, Except.bind_eq_ok, Except.pure_eq_ok, Prod.mk.injEq] at hok
  obtain ⟨s, hloop, closed, hclose, _, _, hempty, rfl⟩ := hok
  obtain ⟨tiles, htiled, hperm⟩ := h.covers
  rw [hlimit] at htiled
  have htiles : ∀ b ∈ tiles, r.Described b ∧ b.kind ≠ .tail := by
    intro b hb
    have hmem := hperm.mem_iff.mp hb
    refine ⟨h.described b hmem, ?_⟩
    rcases List.mem_append.mp hmem with hobj | hfree
    · simp [hobjs b hobj]
    · obtain ⟨e, _, rfl⟩ := List.mem_map.mp hfree
      simp [Entry.space]
  have hkept : (kept marks tiles).Perm (kept marks objs) := by
    rw [← kept_freeBlocks (r := r) objs]
    exact kept_perm hperm
  unfold sweepBlocks at hloop
  have hwalked : s.SweptTo r (kept marks tiles) s.startOfGap ∧
      s.startOfGap ≤ r.bottom + opts.regionSizeBytes ∧
      16 ∣ r.bottom + opts.regionSizeBytes - s.startOfGap := by
    by_cases hmarked : isMarkedRange marks r.bottom (r.bottom + opts.regionSizeBytes) = true
    · rw [if_pos hmarked] at hloop
      have hstart := SweepState.sweepStart_sweptTo r
      exact sweepLoop_sweptTo htiled htiles hstart (Nat.le_refl _) (by simp [sweepStart]) hloop
    · rw [if_neg hmarked, Except.pure_eq_ok] at hloop
      subst hloop
      have hnone : kept marks tiles = [] := by
        refine kept_of_not_marked (r := r) (Covers.of_tiled htiled) ?_ (by simpa using hmarked)
        exact fun b hb => (htiles b hb).1.1
      rw [hnone]
      refine ⟨SweepState.sweepStart_sweptTo r, ?_, ?_⟩
      · simp [sweepStart]
      · simpa [sweepStart] using hdvd
  obtain ⟨hswept, hle, hgap⟩ := hwalked
  obtain ⟨hdone, hgapStart, _⟩ := hswept.closeGap hle hgap hclose
  have hblocks := hkept.append_right closed.region.freeBlocks
  refine ⟨hdone.frame.trans ⟨rfl, rfl, rfl, rfl⟩, hdone.typ_eq.trans htyp, ⟨?_, ?_⟩, ?_, ?_⟩
  · change Covers closed.region.bottom closed.region.limit _
    rw [hdone.frame.bottom_eq, hdone.frame.limit_eq, hlimit]
    exact hdone.covers.perm hblocks
  · intro b hb
    exact hdone.described b (hblocks.mem_iff.mpr hb)
  · intro a ha
    obtain ⟨b, hb, haddr⟩ := hdone.started a ha
    exact ⟨b, hkept.mem_iff.mp hb, haddr⟩
  · intro htrue
    have hbottom : s.startOfGap = r.bottom := by
      rw [htrue] at hempty
      simpa [hgapStart] using hempty
    have hnone := hbottom ▸ hswept.covers
    obtain ⟨hsurvivors, hfree⟩ := List.append_eq_nil_iff.mp hnone.eq_nil
    refine ⟨by rw [hsurvivors] at hkept; exact hkept.symm.eq_nil, ?_⟩
    have hone := SweepState.closeGap_freeBlocks hfree (by omega) hgap hclose
    change closed.region.freeBlocks = _
    rw [hone, HeapRegion.whole, hbottom]
    simp only
    rw [hdone.frame.bottom_eq, hdone.frame.limit_eq, hlimit]

end Loop

end Rsgc.Storage
