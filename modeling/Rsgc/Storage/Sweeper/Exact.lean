import Mathlib.Algebra.BigOperators.Group.List.Basic
import Rsgc.Lib.Runs
import Rsgc.Storage.Sweeper.Layout

namespace Rsgc.Storage

open Runs

-- The memory of a region, read from one header to the next, is these blocks.
structure HeapRegion.Parses (opts : HeapOptions) (r : HeapRegion) (blocks : List Space) : Prop where
  tiled : Tiled r.bottom (r.bottom + opts.regionSizeBytes) blocks
  header : ∀ b ∈ blocks, r.words b.addr = ⟨b.size, decide (b.kind = .free)⟩
  dvd : ∀ b ∈ blocks, 16 ∣ b.size
  notTail : ∀ b ∈ blocks, b.kind ≠ .tail

-- What a sweep takes for free: the free blocks and the objects without a mark.
def dead (marks : Nat → Bool) (b : Space) : Bool := !(decide (b.kind = .object) && marks b.addr)

-- the test that the walk makes
theorem dead_iff (marks : Nat → Bool) {b : Space} (hb : b.kind ≠ .tail) :
    dead marks b = true ↔ decide (b.kind = .free) = true ∨ marks b.addr = false := by
  cases hk : b.kind with
  | object => simp [dead, hk]
  | free => simp [dead, hk]
  | tail => exact absurd hk hb

def totalSize (blocks : List Space) : Nat := (blocks.map Block.size).sum

-- The entry for a run of blocks that are free together.
def gapEntry (run : List Space) : Entry := ⟨(run.map Block.addr).headD 0, totalSize run⟩

@[simp] theorem totalSize_nil : totalSize [] = 0 := rfl

@[simp] theorem totalSize_cons (b : Space) (rest : List Space) :
    totalSize (b :: rest) = b.size + totalSize rest := rfl

@[simp] theorem totalSize_append (xs ys : List Space) :
    totalSize (xs ++ ys) = totalSize xs + totalSize ys := by
  simp [totalSize]

theorem totalSize_perm {xs ys : List Space} (h : xs.Perm ys) : totalSize xs = totalSize ys :=
  (h.map Block.size).sum_eq

theorem totalSize_flatten (runs : List (List Space)) :
    totalSize runs.flatten = (runs.map totalSize).sum := by
  induction runs with
  | nil => rfl
  | cons run rest ih => simp [ih]

theorem totalSize_tiled {start stop : Nat} {tiles : List Space} (h : Tiled start stop tiles) :
    start + totalSize tiles = stop := by
  induction tiles generalizing start with
  | nil => exact h
  | cons b rest ih =>
      obtain ⟨rfl, _, hrest⟩ := h
      have hsum := ih hrest
      unfold Block.stop at hsum
      rw [totalSize_cons]
      omega

theorem dvd_totalSize {blocks : List Space} (h : ∀ b ∈ blocks, 16 ∣ b.size) :
    16 ∣ totalSize blocks := by
  induction blocks with
  | nil => simp
  | cons b rest ih =>
      exact Nat.dvd_add (h b List.mem_cons_self) (ih fun c hc => h c (List.mem_cons_of_mem b hc))

-- The objects that stay and the blocks that go are all the blocks.
theorem totalSize_kept (marks : Nat → Bool) (blocks : List Space) :
    totalSize (kept marks blocks) + totalSize (blocks.filter (dead marks)) = totalSize blocks := by
  rw [← totalSize_append]
  exact totalSize_perm (List.filter_append_perm _ blocks)

namespace SweepState

variable {s s' s'' : SweepState} {runs runs' : List (List Space)}
  {survivors survivors' run : List Space}

-- What a part of the sweep adds to its state: the gaps that it closed and the
-- objects that it kept.
structure Adds (s s' : SweepState) (runs : List (List Space)) (survivors : List Space) : Prop where
  entries_perm : s'.region.freeList.entries.Perm
    (runs.map gapEntry ++ s.region.freeList.entries)
  free_eq : s'.region.freeList.free = s.region.freeList.free + (runs.map totalSize).sum
  largest_eq : s'.region.largestFreeListEntry =
    (runs.map totalSize).foldl max s.region.largestFreeListEntry
  gaps_eq : s'.free = s.free + (runs.map totalSize).sum
  used_eq : s'.used = s.used + totalSize survivors
  starts_iff : ∀ a, s'.region.objectStartBitmap a = true ↔
    s.region.objectStartBitmap a = true ∨ ∃ b ∈ survivors, b.addr = a
  buckets_eq : s'.region.freeList.1.buckets = s.region.freeList.1.buckets
  fits : ∀ run ∈ runs, bucketIndexForSize (totalSize run) < s.region.freeList.1.buckets

theorem Adds.refl (s : SweepState) : s.Adds s [] [] :=
  ⟨List.Perm.refl _, rfl, rfl, rfl, rfl, fun a => by simp, rfl, by simp⟩

theorem Adds.trans (h : s.Adds s' runs survivors) (h' : s'.Adds s'' runs' survivors') :
    s.Adds s'' (runs ++ runs') (survivors ++ survivors') where
  entries_perm := by
    have hperm := h'.entries_perm.trans (h.entries_perm.append_left (runs'.map gapEntry))
    rw [List.map_append, List.append_assoc]
    refine hperm.trans ?_
    rw [← List.append_assoc, ← List.append_assoc]
    exact List.perm_append_comm.append_right _
  free_eq := by
    rw [h'.free_eq, h.free_eq, List.map_append, List.sum_append, Nat.add_assoc]
  largest_eq := by
    rw [h'.largest_eq, h.largest_eq, List.map_append, List.foldl_append]
  gaps_eq := by
    rw [h'.gaps_eq, h.gaps_eq, List.map_append, List.sum_append, Nat.add_assoc]
  used_eq := by
    rw [h'.used_eq, h.used_eq, totalSize_append, Nat.add_assoc]
  starts_iff := by
    intro a
    rw [h'.starts_iff, h.starts_iff, or_assoc]
    simp only [List.mem_append, or_and_right, exists_or]
  buckets_eq := h'.buckets_eq.trans h.buckets_eq
  fits := by
    intro run hrun
    rcases List.mem_append.mp hrun with hrun | hrun
    · exact h.fits run hrun
    · exact h.buckets_eq ▸ h'.fits run hrun

-- The run of blocks between the start of the gap and `stop` becomes one entry.
theorem closeGap_adds {stop : Nat} (hrun : Tiled s.startOfGap stop run)
    (hdvd : ∀ b ∈ run, 16 ∣ b.size) (hok : s.closeGap stop = .ok s') :
    s.Adds s' (close run) [] ∧ s'.startOfGap = s.startOfGap := by
  have htotal := totalSize_tiled hrun
  unfold SweepState.closeGap at hok
  cases run with
  | nil =>
      have heq : s.startOfGap = stop := hrun
      simp only [heq, ne_eq, not_true_eq_false, if_false, Except.pure_eq_ok] at hok
      subst hok
      exact ⟨Adds.refl s, rfl⟩
  | cons b rest =>
      obtain ⟨haddr, hpos, _⟩ := hrun
      rw [totalSize_cons] at htotal
      have hsize : stop - s.startOfGap = totalSize (b :: rest) := by
        rw [totalSize_cons]
        omega
      have hsizeDvd := dvd_totalSize hdvd
      rw [if_pos (by omega), hsize] at hok
      simp only [Except.bind_eq_ok, Except.pure_eq_ok] at hok
      obtain ⟨filled, hadd, rfl⟩ := hok
      obtain ⟨l, hl, rfl⟩ := HeapRegion.addFree_eq_ok hadd
      have hbig : ¬totalSize (b :: rest) < ENTRY_SIZE := by
        have hle := Nat.le_of_dvd (by rw [totalSize_cons]; omega) hsizeDvd
        unfold ENTRY_SIZE
        omega
      obtain ⟨_, ⟨hsmall, _⟩ | ⟨_, hfree, hperm⟩⟩ := FreeList.add_cases hl
      · exact absurd hsmall hbig
      · obtain ⟨hindex, hbuckets⟩ := FreeList.add_buckets hl (by omega)
        rw [storedSize_of_dvd hsizeDvd] at hperm
        refine ⟨⟨?_, ?_, ?_, ?_, rfl, by simp, hbuckets, ?_⟩, rfl⟩
        · simpa [close, gapEntry, haddr] using hperm
        · simpa [close] using hfree
        · simp [close]
        · simp [close]
        · simpa [close] using hindex

theorem keep_adds (s : SweepState) (b : Space) : s.Adds (s.keep b.addr b.size) [] [b] where
  entries_perm := List.Perm.refl _
  free_eq := rfl
  largest_eq := rfl
  gaps_eq := rfl
  used_eq := by simp [SweepState.keep]
  starts_iff := by
    intro a
    by_cases heq : a = b.addr
    · simp [SweepState.keep, HeapRegion.setStartBit, heq]
    · simp [SweepState.keep, HeapRegion.setStartBit, Function.update_of_ne heq, Ne.symm heq]
  buckets_eq := rfl
  fits := by simp

theorem closeGap_ok {stop : Nat} (hrun : Tiled s.startOfGap stop run)
    (hfits : ∀ gap ∈ close run, bucketIndexForSize (totalSize gap) < s.region.freeList.1.buckets) :
    ∃ s', s.closeGap stop = .ok s' := by
  have htotal := totalSize_tiled hrun
  unfold SweepState.closeGap
  by_cases hgap : s.startOfGap = stop
  · rw [if_neg (by simpa using hgap)]
    exact ⟨s, rfl⟩
  · have hne : run ≠ [] := by
      rintro rfl
      exact hgap hrun
    have hsize : stop - s.startOfGap = totalSize run := by omega
    have hindex := hfits run (mem_close.mpr ⟨rfl, hne⟩)
    obtain ⟨l, hl⟩ := FreeList.add_ok s.startOfGap (by omega) hindex
    rw [if_pos hgap, hsize]
    simp only [HeapRegion.addFree, hl, Except.ok_bind, Except.pure_bind']
    exact ⟨_, rfl⟩

end SweepState

section Loop

variable {r : HeapRegion} {s s' s'' : SweepState} {tiles opened : List Space}
  {marks : Nat → Bool} {stop addr fuel : Nat}

-- By induction on the blocks ahead of the walk. `opened` are the blocks that it
-- passed since the start of the gap.
theorem sweepLoop_adds (htiled : Tiled addr stop tiles)
    (hheader : ∀ b ∈ tiles, r.words b.addr = ⟨b.size, decide (b.kind = .free)⟩)
    (hkind : ∀ b ∈ tiles, b.kind ≠ .tail) (hdvd : ∀ b ∈ opened ++ tiles, 16 ∣ b.size)
    (hopened : Tiled s.startOfGap addr opened)
    (hloop : sweepLoop r.words marks stop fuel addr s = .ok s')
    (hclose : s'.closeGap stop = .ok s'') :
    s.Adds s'' (runsFrom (dead marks) opened tiles) (kept marks tiles) ∧
      s''.startOfGap = s'.startOfGap ∧
      (kept marks tiles = [] ∧ s'.startOfGap = s.startOfGap ∨
        kept marks tiles ≠ [] ∧ addr < s'.startOfGap) := by
  induction tiles generalizing addr s opened fuel with
  | nil =>
      obtain rfl : addr = stop := htiled
      unfold sweepLoop at hloop
      rw [if_pos rfl, Except.pure_eq_ok] at hloop
      subst hloop
      obtain ⟨hadds, hgap⟩ := SweepState.closeGap_adds hopened
        (fun b hb => hdvd b (List.mem_append_left _ hb)) hclose
      exact ⟨hadds, hgap, Or.inl ⟨rfl, rfl⟩⟩
  | cons b rest ih =>
      obtain ⟨rfl, hpos, hrest⟩ := htiled
      have hle := hrest.le
      have hne : b.addr ≠ stop := by
        unfold Block.stop at hle
        omega
      unfold sweepLoop at hloop
      rw [if_neg hne] at hloop
      cases fuel with
      | zero => simp at hloop
      | succ fuel =>
          simp only [hheader b List.mem_cons_self] at hloop
          have hrestHeader : ∀ c ∈ rest, r.words c.addr = ⟨c.size, decide (c.kind = .free)⟩ :=
            fun c hc => hheader c (List.mem_cons_of_mem b hc)
          have hrestKind : ∀ c ∈ rest, c.kind ≠ .tail :=
            fun c hc => hkind c (List.mem_cons_of_mem b hc)
          have hdead := dead_iff marks (hkind b List.mem_cons_self)
          by_cases hskip : dead marks b = true
          · -- the block joins the gap
            have hkept : kept marks (b :: rest) = kept marks rest :=
              List.filter_cons_of_neg (by simpa [dead, imp_iff_not_or] using hskip)
            have hlonger : Tiled s.startOfGap b.stop (opened ++ [b]) :=
              (Tiled.append_iff _ _).mpr ⟨b.addr, hopened, rfl, hpos, rfl⟩
            rw [if_pos (hdead.mp hskip)] at hloop
            obtain ⟨hadds, hgap, hstart⟩ := ih hrest hrestHeader hrestKind
              (by simpa using hdvd) hlonger hloop
            rw [runsFrom, if_pos hskip, hkept]
            refine ⟨hadds, hgap, hstart.imp_right fun hs => ⟨hs.1, ?_⟩⟩
            exact Nat.lt_trans (Nat.lt_add_of_pos_right hpos) hs.2
          · -- the block survives and ends the gap
            have hkept : kept marks (b :: rest) = b :: kept marks rest :=
              List.filter_cons_of_pos (by simpa [dead] using hskip)
            rw [if_neg (fun h => hskip (hdead.mpr h)), Except.bind_eq_ok] at hloop
            obtain ⟨closed, hclosed, hloop⟩ := hloop
            obtain ⟨hgapAdds, _⟩ := SweepState.closeGap_adds hopened
              (fun c hc => hdvd c (List.mem_append_left _ hc)) hclosed
            have hkeepAdds := hgapAdds.trans (closed.keep_adds b)
            have hfresh : Tiled (closed.keep b.addr b.size).startOfGap b.stop
                ([] : List Space) := rfl
            have hrestDvd : ∀ c ∈ ([] : List Space) ++ rest, 16 ∣ c.size := by
              intro c hc
              apply hdvd c
              exact List.mem_append_right _ (List.mem_cons_of_mem b hc)
            obtain ⟨hadds, hgap, hstart⟩ :=
              ih hrest hrestHeader hrestKind hrestDvd hfresh hloop
            rw [runsFrom, if_neg hskip, hkept]
            refine ⟨?_, hgap, Or.inr ⟨by simp, ?_⟩⟩
            · simpa using hkeepAdds.trans hadds
            · have hafter : b.addr < b.addr + b.size := Nat.lt_add_of_pos_right hpos
              rcases hstart with ⟨_, hsame⟩ | ⟨_, hlater⟩
              · rw [hsame]
                exact hafter
              · exact Nat.lt_trans hafter hlater

-- The walk is over before its fuel is, and it goes through when there is a
-- bucket for every gap.
theorem sweepLoop_ok (htiled : Tiled addr stop tiles)
    (hheader : ∀ b ∈ tiles, r.words b.addr = ⟨b.size, decide (b.kind = .free)⟩)
    (hkind : ∀ b ∈ tiles, b.kind ≠ .tail) (hdvd : ∀ b ∈ opened ++ tiles, 16 ∣ b.size)
    (hopened : Tiled s.startOfGap addr opened) (hfuel : tiles.length ≤ fuel)
    (hfits : ∀ run ∈ runsFrom (dead marks) opened tiles,
      bucketIndexForSize (totalSize run) < s.region.freeList.1.buckets) :
    ∃ s' s'', sweepLoop r.words marks stop fuel addr s = .ok s' ∧ s'.closeGap stop = .ok s'' := by
  induction tiles generalizing addr s opened fuel with
  | nil =>
      obtain rfl : addr = stop := htiled
      obtain ⟨s', hs'⟩ := SweepState.closeGap_ok hopened hfits
      refine ⟨s, s', ?_, hs'⟩
      unfold sweepLoop
      rw [if_pos rfl]
      rfl
  | cons b rest ih =>
      obtain ⟨rfl, hpos, hrest⟩ := htiled
      have hle := hrest.le
      have hne : b.addr ≠ stop := by
        unfold Block.stop at hle
        omega
      have hrestHeader : ∀ c ∈ rest, r.words c.addr = ⟨c.size, decide (c.kind = .free)⟩ :=
        fun c hc => hheader c (List.mem_cons_of_mem b hc)
      have hrestKind : ∀ c ∈ rest, c.kind ≠ .tail :=
        fun c hc => hkind c (List.mem_cons_of_mem b hc)
      unfold sweepLoop
      rw [if_neg hne]
      cases fuel with
      | zero => simp at hfuel
      | succ fuel =>
          have hrestFuel : rest.length ≤ fuel := by simpa using hfuel
          have hdead := dead_iff marks (hkind b List.mem_cons_self)
          simp only [hheader b List.mem_cons_self]
          unfold runsFrom at hfits
          by_cases hskip : dead marks b = true
          · have hlonger : Tiled s.startOfGap b.stop (opened ++ [b]) :=
              (Tiled.append_iff _ _).mpr ⟨b.addr, hopened, rfl, hpos, rfl⟩
            rw [if_pos hskip] at hfits
            rw [if_pos (hdead.mp hskip)]
            exact ih hrest hrestHeader hrestKind (by simpa using hdvd) hlonger hrestFuel hfits
          · rw [if_neg hskip] at hfits
            obtain ⟨closed, hclosed⟩ := SweepState.closeGap_ok hopened
              fun run hrun => hfits run (List.mem_append_left _ hrun)
            obtain ⟨hadds, _⟩ := SweepState.closeGap_adds hopened
              (fun c hc => hdvd c (List.mem_append_left _ hc)) hclosed
            have hfresh : Tiled (closed.keep b.addr b.size).startOfGap b.stop
                ([] : List Space) := rfl
            have hrestDvd : ∀ c ∈ ([] : List Space) ++ rest, 16 ∣ c.size := by
              intro c hc
              apply hdvd c
              exact List.mem_append_right _ (List.mem_cons_of_mem b hc)
            rw [if_neg (fun h => hskip (hdead.mpr h)), hclosed, Except.ok_bind]
            apply ih hrest hrestHeader hrestKind hrestDvd hfresh hrestFuel
            intro run hrun
            change _ < closed.region.freeList.1.buckets
            rw [hadds.buckets_eq]
            exact hfits run (List.mem_append_right _ hrun)

end Loop

-- Different runs start at different blocks.
theorem nodup_gapEntry {start stop : Nat} {blocks : List Space} (p : Space → Bool)
    (htiled : Tiled start stop blocks) : ((runsFrom p [] blocks).map gapEntry).Nodup := by
  have hsorted : (runsFrom p [] blocks).flatten.Pairwise fun b c => b.addr < c.addr := by
    rw [flatten_runsFrom]
    exact htiled.pairwise_addr_lt.filter p
  have hruns := (List.pairwise_flatten.mp hsorted).2
  apply List.pairwise_map.mpr
  refine hruns.imp_of_mem fun {run run'} hrun hrun' hlt heq => ?_
  obtain ⟨b, _, rfl⟩ := List.exists_cons_of_ne_nil ((mem_runsFrom (by simp)).mp hrun).1
  obtain ⟨c, _, rfl⟩ := List.exists_cons_of_ne_nil ((mem_runsFrom (by simp)).mp hrun').1
  have haddr : b.addr = c.addr := congrArg Entry.addr heq
  have hbefore := hlt b List.mem_cons_self c List.mem_cons_self
  omega

-- `empty` is what the sweep of a region with these blocks and marks should
-- return, and `r` how it should leave the region.
structure HeapRegion.SweptExactly (opts : HeapOptions) (marks : Nat → Bool) (blocks : List Space)
    (r : HeapRegion) (empty : Bool) : Prop where
  entries_iff : ∀ e, e ∈ r.freeList.entries ↔
    ∃ run, IsRun (dead marks) blocks run ∧ e = gapEntry run
  entries_nodup : r.freeList.entries.Nodup
  starts_iff : ∀ a, r.objectStartBitmap a = true ↔ ∃ b ∈ kept marks blocks, b.addr = a
  used_eq : r.used = totalSize (kept marks blocks)
  free_eq : r.freeList.free = (r.freeList.entries.map Entry.size).sum
  used_add_free : r.used + r.freeList.free = opts.regionSizeBytes
  largest_ge : ∀ e ∈ r.freeList.entries, e.size ≤ r.largestFreeListEntry
  largest_mem : r.freeList.entries ≠ [] → ∃ e ∈ r.freeList.entries, e.size = r.largestFreeListEntry
  largest_zero : r.freeList.entries = [] → r.largestFreeListEntry = 0
  empty_iff : empty = true ↔ ∀ b ∈ blocks, b.kind = .object → marks b.addr = false

theorem foldl_max_spec (sizes : List Nat) (first : Nat) :
    first ≤ sizes.foldl max first ∧ (∀ n ∈ sizes, n ≤ sizes.foldl max first) ∧
      (sizes.foldl max first = first ∨ sizes.foldl max first ∈ sizes) := by
  induction sizes generalizing first with
  | nil => simp
  | cons n rest ih =>
      obtain ⟨hfirst, hrest, hmem⟩ := ih (max first n)
      simp only [List.foldl_cons, List.mem_cons, forall_eq_or_imp]
      refine ⟨by omega, ⟨by omega, hrest⟩, ?_⟩
      rcases hmem with heq | hmem
      · rcases max_choice first n with hmax | hmax
        · exact Or.inl (heq.trans hmax)
        · exact Or.inr (Or.inl (heq.trans hmax))
      · exact Or.inr (Or.inr hmem)

section Region

variable {opts : HeapOptions} {r r' : HeapRegion} {s s' : SweepState} {blocks : List Space}
  {marks : Nat → Bool} {empty : Bool}

theorem HeapRegion.Parses.dead_of_not_marked (h : r.Parses opts blocks)
    (hmarked : ¬isMarkedRange marks r.bottom (r.bottom + opts.regionSizeBytes) = true) :
    ∀ b ∈ blocks, dead marks b = true := by
  intro b hb
  have hnone : kept marks blocks = [] :=
    kept_of_not_marked (Covers.of_tiled h.tiled) h.dvd (by simpa using hmarked)
  have hlive := List.filter_eq_nil_iff.mp hnone b hb
  simpa [dead, imp_iff_not_or] using hlive

-- Whether or not the walk is left out, all the gaps and survivors are recorded.
theorem HeapRegion.Parses.sweepBlocks_adds (h : r.Parses opts blocks)
    (hblocks : sweepBlocks opts marks r = .ok s)
    (hclose : s.closeGap (r.bottom + opts.regionSizeBytes) = .ok s') :
    (sweepStart r).Adds s' (runsFrom (dead marks) [] blocks) (kept marks blocks) ∧
      s'.startOfGap = s.startOfGap ∧
      (kept marks blocks = [] ∧ s.startOfGap = r.bottom ∨
        kept marks blocks ≠ [] ∧ r.bottom < s.startOfGap) := by
  unfold sweepBlocks at hblocks
  by_cases hmarked : isMarkedRange marks r.bottom (r.bottom + opts.regionSizeBytes) = true
  · rw [if_pos hmarked] at hblocks
    have hfresh : Tiled (sweepStart r).startOfGap r.bottom ([] : List Space) := rfl
    exact sweepLoop_adds h.tiled h.header h.notTail (by simpa using h.dvd) hfresh hblocks hclose
  · rw [if_neg hmarked, Except.pure_eq_ok] at hblocks
    subst hblocks
    have hnone : kept marks blocks = [] :=
      kept_of_not_marked (Covers.of_tiled h.tiled) h.dvd (by simpa using hmarked)
    obtain ⟨hadds, hgap⟩ := SweepState.closeGap_adds (s := sweepStart r) h.tiled h.dvd hclose
    rw [runsFrom_of_forall (h.dead_of_not_marked hmarked), List.nil_append, hnone]
    exact ⟨hadds, hgap, Or.inl ⟨rfl, rfl⟩⟩

theorem HeapRegion.Parses.sweptExactly (h : r.Parses opts blocks)
    (hok : sweepRegion opts marks r = .ok (empty, r')) :
    r'.SweptExactly opts marks blocks empty := by
  simp only [sweepRegion, Except.bind_eq_ok, Except.pure_eq_ok, Prod.mk.injEq] at hok
  obtain ⟨s, hblocks, closed, hclose, _, _, rfl, rfl⟩ := hok
  obtain ⟨hadds, hgap, hstart⟩ := h.sweepBlocks_adds hblocks hclose
  have hentries : closed.region.freeList.entries.Perm
      ((runsFrom (dead marks) [] blocks).map gapEntry) := by
    simpa [sweepStart] using hadds.entries_perm
  have hsizes : (closed.region.freeList.entries.map Entry.size).Perm
      ((runsFrom (dead marks) [] blocks).map totalSize) := by
    simpa [gapEntry, Function.comp_def] using hentries.map Entry.size
  have hfree : closed.region.freeList.free =
      ((runsFrom (dead marks) [] blocks).map totalSize).sum := by
    simpa [sweepStart] using hadds.free_eq
  have hused : closed.used = totalSize (kept marks blocks) := by
    simpa [sweepStart] using hadds.used_eq
  have hlargest : closed.region.largestFreeListEntry =
      ((runsFrom (dead marks) [] blocks).map totalSize).foldl max 0 := by
    simpa [sweepStart] using hadds.largest_eq
  obtain ⟨_, hge, hmax⟩ := foldl_max_spec ((runsFrom (dead marks) [] blocks).map totalSize) 0
  rw [← hlargest] at hge hmax
  exact {
    entries_iff := by
      intro e
      rw [hentries.mem_iff, List.mem_map]
      constructor
      · rintro ⟨run, hrun, rfl⟩
        exact ⟨run, (mem_runsFrom (by simp)).mp hrun, rfl⟩
      · rintro ⟨run, hrun, rfl⟩
        exact ⟨run, (mem_runsFrom (by simp)).mpr hrun, rfl⟩
    entries_nodup := hentries.nodup_iff.mpr (nodup_gapEntry _ h.tiled)
    starts_iff := by
      intro a
      simpa [sweepStart] using hadds.starts_iff a
    used_eq := hused
    free_eq := hfree.trans hsizes.sum_eq.symm
    used_add_free := by
      have htotal := totalSize_tiled h.tiled
      have hparts := totalSize_kept marks blocks
      change closed.used + closed.region.freeList.free = _
      rw [hused, hfree, ← totalSize_flatten, flatten_runsFrom, List.nil_append]
      omega
    largest_ge := by
      intro e he
      exact hge e.size (hsizes.mem_iff.mp (List.mem_map_of_mem he))
    largest_mem := by
      intro hne
      change closed.region.freeList.entries ≠ [] at hne
      rcases hmax with hzero | hmem
      · obtain ⟨e, rest, heq⟩ := List.exists_cons_of_ne_nil hne
        have he : e ∈ closed.region.freeList.entries := by simp [heq]
        have hle := hge e.size (hsizes.mem_iff.mp (List.mem_map_of_mem he))
        exact ⟨e, he, by simp only; omega⟩
      · obtain ⟨e, he, hsize⟩ := List.mem_map.mp (hsizes.mem_iff.mpr hmem)
        exact ⟨e, he, hsize⟩
    largest_zero := by
      intro hnil
      change closed.region.freeList.entries = [] at hnil
      rw [hnil] at hsizes
      change closed.region.largestFreeListEntry = 0
      rw [hlargest, ← hsizes.nil_eq]
      rfl
    empty_iff := by
      have hnone : kept marks blocks = [] ↔
          ∀ b ∈ blocks, b.kind = .object → marks b.addr = false := by
        simp [kept, List.filter_eq_nil_iff]
      rw [decide_eq_true_iff, hgap, ← hnone]
      rcases hstart with ⟨hkept, hsame⟩ | ⟨hkept, hlater⟩
      · exact iff_of_true hsame hkept
      · exact iff_of_false (Nat.ne_of_gt hlater) hkept }

theorem HeapRegion.Parses.sweepRegion_ok (h : r.Parses opts blocks)
    (hpos : 0 < opts.regionSizeBytes)
    (hfits : ∀ run ∈ runsFrom (dead marks) [] blocks,
      bucketIndexForSize (totalSize run) < r.freeList.1.buckets) :
    ∃ empty r', sweepRegion opts marks r = .ok (empty, r') := by
  have hblocks : ∃ s s', sweepBlocks opts marks r = .ok s ∧
      s.closeGap (r.bottom + opts.regionSizeBytes) = .ok s' := by
    have hfresh : Tiled (sweepStart r).startOfGap r.bottom ([] : List Space) := rfl
    unfold sweepBlocks
    by_cases hmarked : isMarkedRange marks r.bottom (r.bottom + opts.regionSizeBytes) = true
    · rw [if_pos hmarked]
      have hfuel : blocks.length ≤ opts.regionSizeBytes := by
        have hlength := h.tiled.length_le
        omega
      exact sweepLoop_ok h.tiled h.header h.notTail (by simpa using h.dvd) hfresh hfuel hfits
    · rw [if_neg hmarked]
      rw [runsFrom_of_forall (h.dead_of_not_marked hmarked), List.nil_append] at hfits
      obtain ⟨s', hs'⟩ := SweepState.closeGap_ok (s := sweepStart r) h.tiled hfits
      exact ⟨sweepStart r, s', rfl, hs'⟩
  obtain ⟨s, closed, hs, hclose⟩ := hblocks
  obtain ⟨hadds, _, _⟩ := h.sweepBlocks_adds hs hclose
  have hsome : closed.used ≠ 0 ∨ closed.free ≠ 0 := by
    have htotal := totalSize_tiled h.tiled
    have hparts := totalSize_kept marks blocks
    rw [hadds.used_eq, hadds.gaps_eq, ← totalSize_flatten, flatten_runsFrom, List.nil_append]
    omega
  unfold sweepRegion
  rw [hs, Except.ok_bind, hclose, Except.ok_bind, ensure, if_pos hsome]
  exact ⟨_, _, rfl⟩

theorem HeapRegion.Parses.size_run_le (h : r.Parses opts blocks) {run : List Space}
    (hrun : IsRun (dead marks) blocks run) :
    0 < totalSize run ∧ totalSize run ≤ opts.regionSizeBytes := by
  obtain ⟨hne, _, before, after, rfl, _⟩ := hrun
  obtain ⟨b, rest, rfl⟩ := List.exists_cons_of_ne_nil hne
  have hpos := h.tiled.size_pos (b := b) (by simp)
  have htotal := totalSize_tiled h.tiled
  simp only [totalSize_append, totalSize_cons] at htotal ⊢
  omega

-- The only way for the sweep to stop is a gap whose size the cast to `u32`
-- turns into zero.
theorem HeapRegion.Parses.sweepRegion_ok_iff (h : r.Parses opts blocks)
    (hsize : opts.regionSizeBytes = 2 ^ opts.regionSizeLog2)
    (hbuckets : r.freeList.1.buckets = opts.regionSizeLog2 + 1) :
    (∃ empty r', sweepRegion opts marks r = .ok (empty, r')) ↔
      ∀ run, IsRun (dead marks) blocks run → ¬2 ^ 32 ∣ totalSize run := by
  have hlog : opts.regionSizeLog2 < 64 := by
    have hle := r.freeList.2.buckets_le
    omega
  have hfits : ∀ run, IsRun (dead marks) blocks run →
      (bucketIndexForSize (totalSize run) < r.freeList.1.buckets ↔ ¬2 ^ 32 ∣ totalSize run) := by
    intro run hrun
    have hle := (h.size_run_le hrun).2
    rw [hsize] at hle
    rw [hbuckets]
    exact bucketIndexForSize_lt_iff hle hlog
  constructor
  · rintro ⟨empty, r', hok⟩ run hrun
    simp only [sweepRegion, Except.bind_eq_ok] at hok
    obtain ⟨s, hblocks, closed, hclose, _⟩ := hok
    obtain ⟨hadds, _⟩ := h.sweepBlocks_adds hblocks hclose
    exact (hfits run hrun).mp (hadds.fits run ((mem_runsFrom (by simp)).mpr hrun))
  · intro hgaps
    have hpos : 0 < opts.regionSizeBytes := hsize ▸ Nat.two_pow_pos _
    apply h.sweepRegion_ok hpos
    intro run hrun
    have hrun := (mem_runsFrom (by simp)).mp hrun
    exact (hfits run hrun).mpr (hgaps run hrun)

-- A region of 4 GiB or more is never opened for allocation, as its free list has
-- no bucket for the whole of it.
theorem HeapRegion.lt_of_makeRegularAllocation (hempty : r.isEmpty = true)
    (hwhole : r.size = 2 ^ opts.regionSizeLog2)
    (hbuckets : r.freeList.1.buckets = opts.regionSizeLog2 + 1) (hge : 4 ≤ opts.regionSizeLog2)
    (hok : r.makeRegularAllocation = .ok r') : r.size < 2 ^ 32 := by
  simp only [HeapRegion.makeRegularAllocation, hempty, if_true, Except.bind_eq_ok] at hok
  obtain ⟨filled, hadd, _⟩ := hok
  obtain ⟨l, hl, _⟩ := HeapRegion.addFree_eq_ok hadd
  have hlog : opts.regionSizeLog2 < 64 := by
    have hle := r.freeList.2.buckets_le
    omega
  have hbig : ENTRY_SIZE ≤ r.size := by
    have hpow := Nat.pow_le_pow_right Nat.two_pos hge
    unfold ENTRY_SIZE
    omega
  have hindex := (FreeList.add_buckets hl hbig).1
  rw [hbuckets, bucketIndexForSize_lt_iff (Nat.le_of_eq hwhole) hlog, hwhole] at hindex
  have hsmall : opts.regionSizeLog2 < 32 := by
    by_contra hlarge
    exact hindex (Nat.pow_dvd_pow 2 (Nat.le_of_not_lt hlarge))
  rw [hwhole]
  exact Nat.pow_lt_pow_right (by decide) hsmall

-- `sweep_region` frees exactly the runs of dead blocks and keeps exactly the
-- marked objects, for every layout of the region and every set of marks.
theorem sweepRegion_exact (h : r.Parses opts blocks)
    (hsize : opts.regionSizeBytes = 2 ^ opts.regionSizeLog2)
    (hbuckets : r.freeList.1.buckets = opts.regionSizeLog2 + 1) (marks : Nat → Bool) :
    (∀ empty r', sweepRegion opts marks r = .ok (empty, r') →
      r'.SweptExactly opts marks blocks empty) ∧
    ((∃ empty r', sweepRegion opts marks r = .ok (empty, r')) ↔
      ∀ run, IsRun (dead marks) blocks run → ¬2 ^ 32 ∣ totalSize run) :=
  ⟨fun _ _ hok => h.sweptExactly hok, h.sweepRegion_ok_iff hsize hbuckets⟩

end Region

def smallOptions : HeapOptions := { regionSizeBytes := 128, regionSizeLog2 := 7 }

def smallBlocks : List Space :=
  [⟨4096, 32, .object⟩, ⟨4128, 16, .free⟩, ⟨4144, 16, .object⟩, ⟨4160, 48, .object⟩,
    ⟨4208, 16, .free⟩]

def smallRegion : HeapRegion :=
  { HeapRegion.new smallOptions (by decide) 0 4096 true with
    words := fun a => if a = 4096 then ⟨32, false⟩ else if a = 4144 then ⟨16, false⟩
      else if a = 4160 then ⟨48, false⟩ else ⟨16, true⟩ }

-- Of the three objects the one in the middle has no mark.
theorem sweepRegion_exact_small :
    ((sweepRegion smallOptions (fun a => a == 4096 || a == 4160) smallRegion).toOption.map
      fun out => (out.1, out.2.freeList.entries, out.2.used)) =
        some (false, [⟨4208, 16⟩, ⟨4128, 32⟩], 80) ∧
    ∃ empty r', sweepRegion smallOptions (fun a => a == 4096 || a == 4160) smallRegion =
        .ok (empty, r') ∧
      r'.SweptExactly smallOptions (fun a => a == 4096 || a == 4160) smallBlocks empty := by
  have hparses : smallRegion.Parses smallOptions smallBlocks :=
    ⟨by simp [Tiled, smallBlocks, smallRegion, smallOptions, HeapRegion.new, HeapRegion.recycle,
      Block.stop], by decide, by decide, by decide⟩
  obtain ⟨hexact, hreturns⟩ :=
    sweepRegion_exact hparses (by decide) rfl fun a => a == 4096 || a == 4160
  refine ⟨by decide +kernel, ?_⟩
  have hok : ∃ empty r', sweepRegion smallOptions (fun a => a == 4096 || a == 4160) smallRegion =
      .ok (empty, r') := by
    apply hreturns.mpr
    intro run hrun
    have hbounds := hparses.size_run_le hrun
    simp only [smallOptions] at hbounds
    omega
  obtain ⟨empty, r', hok⟩ := hok
  exact ⟨empty, r', hok, hexact empty r' hok⟩

end Rsgc.Storage
