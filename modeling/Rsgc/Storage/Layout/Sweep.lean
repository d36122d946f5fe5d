import Rsgc.Storage.Layout.Mutator

namespace Rsgc.Storage

namespace Heap

variable {c : HeapConfig} {h h' : Heap} {held objs tails : Nat → List Space}
  {marks : Nat → Bool}

-- The heap memory contains every region.
theorem Placed.contains (hp : h.Placed c) {j addr : Nat} (hj : j < h.numRegions)
    (hlow : (h.regions j).bottom ≤ addr) (hhigh : addr < (h.regions j).limit) :
    h.memStart ≤ addr ∧ addr < h.memStart + h.opts.maxHeapSize := by
  have hbottom := hp.bottom_eq j
  have hlimit := hp.limit_eq j
  unfold numRegions at hj
  rw [hp.opts_eq] at hj ⊢
  have hmul : c.opts.regionSizeBytes * (j + 1) ≤ c.opts.regionSizeBytes * c.opts.regionCount :=
    Nat.mul_le_mul_left _ hj
  rw [hp.memStart_eq, c.geometry.heap_eq, Nat.mul_comm c.opts.regionCount]
  rw [Nat.mul_succ] at hmul
  omega

theorem Placed.isLive_eq (hp : h.Placed c) {j addr : Nat} (hj : j < h.numRegions)
    (hlow : (h.regions j).bottom ≤ addr) (hhigh : addr < (h.regions j).limit) :
    h.isLive addr = ((h.regions j).isHumongousStart || (h.regions j).isHumongousCont ||
      (h.regions j).objectStartBitmap addr) := by
  have hindex := hp.regionIndex_eq hlow hhigh
  unfold isLive
  rw [if_pos (hp.contains hj hlow hhigh)]
  simp only [hindex]

theorem Laid.mem_region {j : Nat} {b : Space} (hl : h.Laid held) (hp : h.Placed c)
    (hj : j < h.numRegions) (hb : b ∈ held j) :
    (h.regions j).bottom ≤ b.addr ∧ b.addr < (h.regions j).limit ∧
      ((h.regions j).typ = .regular ∧ (h.regions j).Described b ∨
        (h.regions j).typ = .humongousStart ∧ b.kind = .object ∧ b.addr = (h.regions j).bottom) := by
  have hlayout := hl.region j hj
  unfold HeapRegion.Layout at hlayout
  cases htyp : (h.regions j).typ with
  | regular =>
      rw [htyp] at hlayout
      have hmem := List.mem_append_left (h.regions j).freeBlocks hb
      obtain ⟨hlow, hhigh⟩ := hlayout.covers.within hmem
      have hpos := hlayout.covers.size_pos hmem
      unfold Block.stop at hhigh
      exact ⟨hlow, by omega, Or.inl ⟨rfl, hlayout.described b hmem⟩⟩
  | humongousStart =>
      rw [htyp] at hlayout
      obtain ⟨_, _, size, hheld, _⟩ := hlayout
      rw [hheld] at hb
      obtain rfl := List.mem_singleton.mp hb
      exact ⟨Nat.le_refl _, hp.lt_limit j, Or.inr ⟨rfl, rfl, rfl⟩⟩
  | humongousCont | emptyUncommited | emptyCommited | trash =>
      rw [htyp] at hlayout
      rw [hlayout.1] at hb
      cases hb

-- What is laid out as an object is live for the heap.
theorem Laid.isLive {j : Nat} {b : Space} (hl : h.Laid held) (hp : h.Placed c)
    (hj : j < h.numRegions) (hb : b ∈ held j) (hkind : b.kind = .object) :
    h.isLive b.addr = true := by
  obtain ⟨hlow, hhigh, hcases⟩ := hl.mem_region hp hj hb
  rw [hp.isLive_eq hj hlow hhigh]
  rcases hcases with ⟨_, _, hdescribed⟩ | ⟨htyp, _, _⟩
  · rw [hkind] at hdescribed
    simp [hdescribed.2]
  · simp [HeapRegion.isHumongousStart, htyp]

-- Setting or clearing the flags of the regions changes no block.
theorem Laid.flagged (hl : h.Laid held) (hopts : h'.opts = h.opts)
    (hregions : ∀ j, ∃ flag, h'.regions j = { h.regions j with toSweep := flag })
    (hidle : ∀ j, (h'.regions j).toSweep = true → (h.regions j).toSweep = true ∨
      ∀ b ∈ held j, b.kind ≠ .tail) : h'.Laid held := by
  have hn : h'.numRegions = h.numRegions := by
    unfold numRegions
    rw [hopts]
  have htyp : ∀ j, (h'.regions j).typ = (h.regions j).typ := by
    intro j
    obtain ⟨flag, heq⟩ := hregions j
    rw [heq]
  refine ⟨fun j hj => ?_, fun j hj htypj b hb => ?_, fun j hj hsweep => ?_⟩
  · obtain ⟨flag, heq⟩ := hregions j
    have hlayout := hl.region j (hn ▸ hj)
    rw [heq]
    unfold HeapRegion.Layout at hlayout ⊢
    simp only
    cases htyp : (h.regions j).typ with
    | regular =>
        rw [htyp] at hlayout
        exact ⟨hlayout.covers, hlayout.described⟩
    | humongousStart | humongousCont | emptyUncommited | emptyCommited | trash =>
        rw [htyp] at hlayout
        exact hlayout
  · rw [htyp] at htypj
    obtain ⟨hle, hrun⟩ := hl.run j (hn ▸ hj) htypj b hb
    rw [hopts, hn]
    exact ⟨hle, fun k hjk hk => (htyp k).trans (hrun k hjk hk)⟩
  · rcases hidle j hsweep with htrue | hno
    · exact hl.idle j (hn ▸ hj) htrue
    · exact hno

theorem clearToSweep_laid (hl : h.Laid held) (i : Nat) : (h.clearToSweep i).Laid held := by
  refine hl.flagged rfl (fun j => ?_) fun j hsweep => Or.inl ?_
  · rw [clearToSweep_regions]
    split
    · rename_i hj
      exact ⟨false, by rw [hj]⟩
    · exact ⟨(h.regions j).toSweep, rfl⟩
  · rw [clearToSweep_regions] at hsweep
    split at hsweep
    · cases hsweep
    · exact hsweep

-- No buffer may be open when the regions are handed to the sweeper.
theorem Laid.prepareUnsweptRegions (hl : h.Laid held) (hp : h.Placed c)
    (hclosed : ∀ j, ∀ b ∈ held j, b.kind ≠ .tail) :
    h.prepareUnsweptRegions.Placed c ∧ h.prepareUnsweptRegions.Laid held := by
  obtain ⟨hopts, hmem, _, _, hregions, _⟩ := prepareUnswept_foldl h (List.range h.numRegions)
  have hflag : ∀ j, ∃ flag,
      h.prepareUnsweptRegions.regions j = { h.regions j with toSweep := flag } := by
    intro j
    unfold Heap.prepareUnsweptRegions
    rw [hregions]
    split
    · exact ⟨true, rfl⟩
    · exact ⟨(h.regions j).toSweep, rfl⟩
  refine ⟨⟨hopts.trans hp.opts_eq, hmem.trans hp.memStart_eq, fun j => ?_, fun j => ?_⟩,
    hl.flagged hopts hflag fun j _ => Or.inr (hclosed j)⟩
  · obtain ⟨flag, heq⟩ := hflag j
    rw [heq]
    exact hp.bottom_eq j
  · obtain ⟨flag, heq⟩ := hflag j
    rw [heq]
    exact hp.limit_eq j

-- Trashing the run of a humongous object takes away this object and no other.
theorem Laid.trashHumongous {i : Nat} (hl : h.Laid held) (hp : h.Placed c) (hi : i < h.numRegions)
    (htyp : (h.regions i).typ = .humongousStart)
    (hok : h.trashHumongousRegionAt i = .ok h') :
    h'.Laid (Function.update held i []) ∧ (h'.regions i).typ = .trash ∧
      (∀ a, (h'.regions i).objectStartBitmap a = false) ∧
      (∀ j, j ≠ i → held j ≠ [] → h'.regions j = h.regions j) := by
  have hlayout := hl.region i hi
  unfold HeapRegion.Layout at hlayout
  rw [htyp] at hlayout
  obtain ⟨hentries, hbitmap, size, hheld, hpos, hwords⟩ := hlayout
  obtain ⟨hle, hrun⟩ := hl.run i hi htyp ⟨(h.regions i).bottom, size, .object⟩ (by simp [hheld])
  simp only at hle hrun
  obtain ⟨_, heq⟩ := trashHumongousRegionAt_eq hok
  rw [hwords] at heq
  simp only at heq
  have hregion : ∀ j, h'.regions j =
      if i ≤ j ∧ j < i + h.opts.requiredRegions size then (h.regions j).makeTrash
      else h.regions j := by
    intro j
    rw [heq]
  have hopts : h'.opts = h.opts := by rw [heq]
  have hn : h'.numRegions = h.numRegions := by
    unfold numRegions
    rw [hopts]
  have hnum : 0 < h.opts.requiredRegions size := by
    rw [hp.opts_eq]
    exact c.geometry.requiredRegions_pos hpos
  have htrash : h'.regions i = (h.regions i).makeTrash := by
    rw [hregion, if_pos (by omega)]
  -- the regions behind the first one hold no block
  have hvacant : ∀ j, i < j → j < i + h.opts.requiredRegions size →
      held j = [] ∧ (h.regions j).freeList.entries = [] ∧
        ∀ a, (h.regions j).objectStartBitmap a = false := by
    intro j hij hj
    have hcont := hl.region j (by omega)
    unfold HeapRegion.Layout at hcont
    rw [hrun j hij hj] at hcont
    exact hcont
  have hother : ∀ j, j ≠ i → held j ≠ [] → h'.regions j = h.regions j := by
    intro j hji hne
    rw [hregion, if_neg]
    rintro ⟨hij, hj⟩
    exact hne (hvacant j (by omega) hj).1
  refine ⟨⟨?_, ?_, ?_⟩, by rw [htrash]; rfl, by rw [htrash]; exact hbitmap, hother⟩
  · intro j hj
    rw [hn] at hj
    by_cases hji : j = i
    · subst hji
      rw [Function.update_self, htrash]
      exact ⟨rfl, Or.inl (by simp [HeapRegion.freeBlocks, HeapRegion.makeTrash, hentries]), hbitmap⟩
    · rw [Function.update_of_ne hji]
      by_cases hin : i ≤ j ∧ j < i + h.opts.requiredRegions size
      · obtain ⟨hnil, hfree, hbits⟩ := hvacant j (by omega) hin.2
        rw [hregion, if_pos hin]
        exact ⟨hnil, Or.inl (by simp [HeapRegion.freeBlocks, HeapRegion.makeTrash, hfree]), hbits⟩
      · rw [hregion, if_neg hin]
        exact hl.region j hj
  · intro j hj htypj b hb
    rw [hn] at hj ⊢
    rw [hopts]
    have hji : j ≠ i := by
      rintro rfl
      rw [Function.update_self] at hb
      cases hb
    rw [Function.update_of_ne hji] at hb
    rw [hother j hji (List.ne_nil_of_mem hb)] at htypj
    obtain ⟨hle', hrun'⟩ := hl.run j hj htypj b hb
    refine ⟨hle', fun k hjk hk => ?_⟩
    -- two runs have no region in common
    rw [hregion, if_neg]
    · exact hrun' k hjk hk
    · rintro ⟨hik, hki⟩
      rcases Nat.lt_trichotomy i j with hij | rfl | hij
      · have hcont := hrun j hij (by omega)
        rw [htypj] at hcont
        cases hcont
      · exact hji rfl
      · have hcont := hrun' i hij (by omega)
        rw [htyp] at hcont
        cases hcont
  · intro j hj hsweep b hb
    rw [hn] at hj
    have hji : j ≠ i := by
      rintro rfl
      rw [Function.update_self] at hb
      cases hb
    rw [Function.update_of_ne hji] at hb
    rw [hother j hji (List.ne_nil_of_mem hb)] at hsweep
    exact hl.idle j hj hsweep b hb

-- The objects that are left in region `j` when `i` was swept.
def survivors (h : Heap) (marks : Nat → Bool) (i : Nat) (objs : Nat → List Space) (j : Nat) :
    List Space :=
  if j = i ∧ (h.regions i).toSweep = true then kept marks (objs j) else objs j

theorem mem_survivors {i j : Nat} {b : Space} (hb : b.kind = .object) :
    b ∈ survivors h marks i objs j ↔
      b ∈ objs j ∧ ¬(j = i ∧ (h.regions i).toSweep = true ∧ marks b.addr = false) := by
  unfold survivors kept
  split
  · rename_i hcond
    simp [hb, hcond]
  · rename_i hcond
    simp only [iff_self_and]
    rintro _ ⟨hj, hsweep, _⟩
    exact hcond ⟨hj, hsweep⟩

theorem survivors_of_marked {i : Nat} (hobjs : ∀ b ∈ objs i, b.kind = .object)
    (hmarked : (h.regions i).toSweep = true → ∀ b ∈ objs i, marks b.addr = true) :
    survivors h marks i objs = objs := by
  funext j
  unfold survivors kept
  split
  · rename_i hcond
    obtain ⟨rfl, hsweep⟩ := hcond
    rw [List.filter_eq_self]
    intro b hb
    simp [hobjs b hb, hmarked hsweep b hb]
  · rfl

section SweepRegion

variable (hl : h.Laid fun j => objs j ++ tails j) (hp : h.Placed c)
  (hobjs : ∀ j, ∀ b ∈ objs j, b.kind = .object) (htails : ∀ j, ∀ b ∈ tails j, b.kind = .tail)

include hl hp hobjs htails in
-- The region that a sweep block by block leaves. No buffer was open in it.
theorem Laid.sweptBlocks {i : Nat} {r : HeapRegion} {empty : Bool} (hi : i < h.numRegions)
    (htyp : (h.regions i).typ = .regular) (hsweep : (h.regions i).toSweep = true)
    (hok : sweepRegion h.opts marks { h.regions i with toSweep := false } = .ok (empty, r)) :
    tails i = [] ∧ HeapRegion.SameFrame { h.regions i with toSweep := false } r ∧
      r.typ = .regular ∧ r.Filled (kept marks (objs i) ++ r.freeBlocks) ∧
      (∀ a, r.objectStartBitmap a = true → ∃ b ∈ kept marks (objs i), b.addr = a) ∧
      (empty = true → kept marks (objs i) = [] ∧ r.freeBlocks = [r.whole]) := by
  have hnoTails : tails i = [] := by
    rw [List.eq_nil_iff_forall_not_mem]
    intro b hb
    exact hl.idle i hi hsweep b (List.mem_append_right _ hb) (htails i b hb)
  have hlayout := (clearToSweep_laid hl i).region i hi
  rw [clearToSweep_regions, if_pos rfl, hnoTails, List.append_nil] at hlayout
  have hlimit : (h.regions i).limit = (h.regions i).bottom + h.opts.regionSizeBytes := by
    rw [hp.limit_eq, hp.opts_eq]
  exact ⟨hnoTails, sweepRegion_layout
    (r := { h.regions i with toSweep := false }) htyp (hlayout.filled htyp) (hobjs i) hlimit
    (by rw [hp.opts_eq]; exact c.geometry.size_pos)
    (by rw [hp.opts_eq]; exact c.geometry.dvd_size) hok⟩

include hl hp hobjs htails in
-- A region that is swept block by block.
theorem Laid.sweepRegular {i : Nat} {r : HeapRegion} {empty : Bool} (hi : i < h.numRegions)
    (htyp : (h.regions i).typ = .regular) (hsweep : (h.regions i).toSweep = true)
    (hok : sweepRegion h.opts marks { h.regions i with toSweep := false } = .ok (empty, r)) :
    ((h.clearToSweep i).setRegion i (if empty then r.makeTrash else r)).Laid
        (fun j => survivors h marks i objs j ++ tails j) ∧
      (if empty then r.makeTrash else r).isHumongousStart = false ∧
      (if empty then r.makeTrash else r).isHumongousCont = false ∧
      ∀ b ∈ objs i, marks b.addr = false →
        (if empty then r.makeTrash else r).objectStartBitmap b.addr = false := by
  have hclear := clearToSweep_regions h i
  obtain ⟨hnoTails, hframe, hregular, hfilled, hstarted, hempty⟩ :=
    Laid.sweptBlocks hl hp hobjs htails hi htyp hsweep hok
  have hbits : ∀ a, (if empty then r.makeTrash else r).objectStartBitmap a =
      r.objectStartBitmap a := by
    intro a
    split <;> rfl
  have hfinal : (if empty then r.makeTrash else r).Layout (kept marks (objs i)) ∧
      (if empty then r.makeTrash else r).typ ≠ .humongousStart ∧
      (if empty then r.makeTrash else r).typ ≠ .humongousCont := by
    cases empty with
    | false =>
        simp only [Bool.false_eq_true, if_false]
        exact ⟨HeapRegion.layout_of_filled hregular hfilled, by simp [hregular], by simp [hregular]⟩
    | true =>
        obtain ⟨hnil, hwhole⟩ := hempty rfl
        simp only [if_true]
        refine ⟨⟨hnil, Or.inr hwhole, fun a => ?_⟩, by simp [HeapRegion.makeTrash],
          by simp [HeapRegion.makeTrash]⟩
        by_contra hbit
        obtain ⟨b, hb, _⟩ := hstarted a (by simpa [HeapRegion.makeTrash] using hbit)
        rw [hnil] at hb
        cases hb
  have hframe' : ((h.clearToSweep i).regions i).SameFrame (if empty then r.makeTrash else r) := by
    rw [hclear, if_pos rfl]
    split
    · exact hframe.trans ⟨rfl, rfl, rfl, rfl⟩
    · exact hframe
  have htouched := (clearToSweep_laid hl i).touch (i := i) (kept marks (objs i))
    (TouchesOnly.setRegion (h.clearToSweep i) i hframe') (fun _ => ?_) ?_ ?_ ?_
  · refine ⟨?_, ?_, ?_, fun b hb hmark => ?_⟩
    · have heq : Function.update (fun j => objs j ++ tails j) i (kept marks (objs i)) =
          fun j => survivors h marks i objs j ++ tails j := by
        funext j
        unfold survivors
        by_cases hj : j = i
        · subst hj
          rw [Function.update_self, if_pos ⟨rfl, hsweep⟩, hnoTails, List.append_nil]
        · rw [Function.update_of_ne hj, if_neg (fun hcond => hj hcond.1)]
      rwa [heq] at htouched
    · simpa [HeapRegion.isHumongousStart] using hfinal.2.1
    · simpa [HeapRegion.isHumongousCont] using hfinal.2.2
    · rw [hbits]
      by_contra hbit
      obtain ⟨b', hb', haddr⟩ := hstarted b.addr (by simpa using hbit)
      have hmark' := (List.mem_filter.mp hb').2
      simp [haddr, hmark] at hmark'
  · rw [setRegion_regions, Function.update_self]
    exact hfinal.1
  · rw [hclear, if_pos rfl]
    simp [htyp]
  · rw [setRegion_regions, Function.update_self]
    exact hfinal.2.1
  · rw [setRegion_regions, Function.update_self, hframe'.toSweep_eq, hclear, if_pos rfl]
    simp

theorem Placed.sweepRegionDo {i : Nat} (hp : h.Placed c) (hok : h.sweepRegionDo marks i = .ok h') :
    h'.Placed c := by
  obtain ⟨hopts, hmem, _, hframe, _, _⟩ := sweepRegionDo_effect hok
  refine ⟨hopts.trans hp.opts_eq, hmem.trans hp.memStart_eq, fun j => ?_, fun j => ?_⟩
  · rw [← (hframe j).1]
    exact hp.bottom_eq j
  · rw [← (hframe j).1, ← (hframe j).2.1]
    exact hp.limit_eq j

include hl hp hobjs htails in
-- One visit of the sweeper frees the unmarked objects of the region, and these only.
theorem Laid.sweepRegionDo {i : Nat} (hi : i < h.numRegions)
    (hok : h.sweepRegionDo marks i = .ok h') :
    h'.Laid (fun j => survivors h marks i objs j ++ tails j) ∧
      ((h.regions i).toSweep = true → ∀ b ∈ objs i, marks b.addr = false →
        h'.isLive b.addr = false) := by
  have hp' := hp.sweepRegionDo hok
  have hsame : h'.numRegions = h.numRegions := by
    unfold numRegions
    rw [hp'.opts_eq, hp.opts_eq]
  have hdead : (h'.regions i).isHumongousStart = false → (h'.regions i).isHumongousCont = false →
      ∀ b ∈ objs i, (h'.regions i).objectStartBitmap b.addr = false →
        h'.isLive b.addr = false := by
    intro hstart hcont b hb hbit
    obtain ⟨hlow, hhigh, _⟩ := hl.mem_region hp hi (List.mem_append_left _ hb)
    have hbottom : (h'.regions i).bottom = (h.regions i).bottom := by
      rw [hp'.bottom_eq, hp.bottom_eq]
    have hlimit : (h'.regions i).limit = (h.regions i).limit := by
      rw [hp'.limit_eq, hp.limit_eq, hbottom]
    rw [hp'.isLive_eq (hsame ▸ hi) (hbottom ▸ hlow) (hlimit ▸ hhigh), hstart, hcont, hbit]
    rfl
  rcases sweepRegionDo_cases hok with ⟨hsweep, rfl⟩ | ⟨hsweep, ⟨htyp, hmark, rfl⟩ |
    ⟨htyp, hmark, htrash⟩ | ⟨htyp, empty, r, hr, rfl⟩⟩
  · refine ⟨?_, fun htrue => by simp [hsweep] at htrue⟩
    rw [survivors_of_marked (hobjs i) fun htrue => by simp [hsweep] at htrue]
    exact hl
  · -- a humongous object that is marked stays, and no other region has objects
    have hmarked : ∀ b ∈ objs i, marks b.addr = true := by
      intro b hb
      obtain ⟨_, _, ⟨hregular, _⟩ | ⟨hstart, _, haddr⟩⟩ :=
        hl.mem_region hp hi (List.mem_append_left _ hb)
      · exact absurd hregular htyp
      · rw [haddr]
        exact hmark hstart
    rw [survivors_of_marked (hobjs i) fun _ => hmarked]
    refine ⟨clearToSweep_laid hl i, fun _ b hb hfalse => ?_⟩
    simp [hmarked b hb] at hfalse
  · have htyp' : ((h.clearToSweep i).regions i).typ = .humongousStart := by
      rw [clearToSweep_regions, if_pos rfl]
      exact htyp
    have hclear : (h.clearToSweep i).Placed c := by
      refine ⟨hp.opts_eq, hp.memStart_eq, fun j => ?_, fun j => ?_⟩ <;>
        rw [clearToSweep_regions] <;> split
      · rename_i hj
        exact hj ▸ hp.bottom_eq i
      · exact hp.bottom_eq j
      · rename_i hj
        exact hp.limit_eq i
      · exact hp.limit_eq j
    obtain ⟨hlaid, htyped, hbits, _⟩ :=
      (clearToSweep_laid hl i).trashHumongous hclear hi htyp' htrash
    have hnone : kept marks (objs i) = [] ∧ tails i = [] := by
      refine ⟨?_, ?_⟩
      · rw [kept, List.filter_eq_nil_iff]
        intro b hb
        obtain ⟨_, _, ⟨hregular, _⟩ | ⟨_, _, haddr⟩⟩ :=
          hl.mem_region hp hi (List.mem_append_left _ hb)
        · simp [htyp] at hregular
        · simp [hobjs i b hb, haddr, hmark]
      · rw [List.eq_nil_iff_forall_not_mem]
        intro b hb
        exact hl.idle i hi hsweep b (List.mem_append_right _ hb) (htails i b hb)
    refine ⟨?_, fun _ b hb _ => hdead ?_ ?_ b hb (hbits _)⟩
    · refine hlaid.ofUpdate ?_ fun j hj => ?_
      · simp [survivors, hsweep, hnone.1, hnone.2]
      · simp [survivors, hj]
    · simp [HeapRegion.isHumongousStart, htyped]
    · simp [HeapRegion.isHumongousCont, htyped]
  · obtain ⟨hlaid, hstart, hcont, hbits⟩ := Laid.sweepRegular hl hp hobjs htails hi htyp hsweep hr
    refine ⟨hlaid, fun _ b hb hmark => hdead ?_ ?_ b hb ?_⟩
    · rw [setRegion_regions, Function.update_self]
      exact hstart
    · rw [setRegion_regions, Function.update_self]
      exact hcont
    · rw [setRegion_regions, Function.update_self]
      exact hbits b hb hmark

include hl hp hobjs htails in
-- So the objects that stay are those the heap still calls live.
theorem Laid.isLive_sweepRegionDo {i j : Nat} {b : Space} (hi : i < h.numRegions)
    (hj : j < h.numRegions) (hok : h.sweepRegionDo marks i = .ok h') (hb : b ∈ objs j) :
    h'.isLive b.addr = true ↔ b ∈ survivors h marks i objs j := by
  obtain ⟨hlaid, hdead⟩ := Laid.sweepRegionDo hl hp hobjs htails hi hok
  have hp' := hp.sweepRegionDo hok
  have hsame : h'.numRegions = h.numRegions := by
    unfold numRegions
    rw [hp'.opts_eq, hp.opts_eq]
  constructor
  · intro hlive
    rw [mem_survivors (hobjs j b hb)]
    refine ⟨hb, ?_⟩
    rintro ⟨rfl, hsweep, hmark⟩
    rw [hdead hsweep b hb hmark] at hlive
    cases hlive
  · intro hsurvives
    exact hlaid.isLive hp' (hsame ▸ hj) (List.mem_append_left _ hsurvives) (hobjs j b hb)

end SweepRegion

end Heap

end Rsgc.Storage
