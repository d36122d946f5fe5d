import Rsgc.Collection.Runtime
import Rsgc.Storage.Store.Disjoint

namespace Rsgc.Collection

open Marking Storage

section Regions

variable {c : HeapConfig} {objs : List Space} {w w' : Region} {h h' : HeapRegion}

-- A region of the memory is what the collector takes it for. A request that finds
-- nothing in the region can leave it regular and empty.
inductive Shows (c : HeapConfig) (objs : List Space) (w : Region) (h : HeapRegion) : Prop
  | regular (hw : w.typ = .regular) (hh : h.typ = .regular) (hflag : h.toSweep = w.toSweep)
  | start (hw : w.typ = .humongousStart) (hh : h.typ = .humongousStart)
      (hflag : h.toSweep = w.toSweep) (hspan : ∀ b ∈ objs, w.span = c.opts.requiredRegions b.size)
  | cont (hw : w.typ = .humongousCont) (hh : h.typ = .humongousCont) (hflag : w.toSweep = false)
  | vacant (hw : w.typ.isVacant = true) (hflag : w.toSweep = false)
      (hh : h.typ.isVacant = true ∨ h.typ = .regular ∧ objs = [])

theorem isAvailable_of_isVacant (h : w.typ.isVacant = true) : w.isAvailable = true := by
  unfold Region.isAvailable
  cases htyp : w.typ <;> simp_all [RegionState.isVacant]

theorem not_holdsObjects_of_isVacant (h : w.typ.isVacant = true) : w.holdsObjects = false := by
  unfold Region.holdsObjects
  cases htyp : w.typ <;> simp_all [RegionState.isVacant]

theorem holds_of_layout {held : List Space} {b : Space} (hl : h.Layout held) (hb : b ∈ held) :
    h.typ = .regular ∨ h.typ = .humongousStart := by
  unfold HeapRegion.Layout at hl
  cases htyp : h.typ with
  | regular => exact Or.inl rfl
  | humongousStart => exact Or.inr rfl
  | humongousCont | emptyUncommited | emptyCommited | trash =>
      rw [htyp] at hl
      rw [hl.1] at hb
      cases hb

theorem needsSweep_iff : Heap.needsSweep h = true ↔ h.typ = .regular ∨ h.typ = .humongousStart := by
  simp [Heap.needsSweep, HeapRegion.isRegular, HeapRegion.isHumongousStart]

theorem Shows.of_same (hs : Shows c objs w h) (htyp : h'.typ = h.typ)
    (hflag : h'.toSweep = h.toSweep) : Shows c objs w h' := by
  cases hs with
  | regular hw hh hf => exact .regular hw (htyp.trans hh) (hflag.trans hf)
  | start hw hh hf hspan => exact .start hw (htyp.trans hh) (hflag.trans hf) hspan
  | cont hw hh hf => exact .cont hw (htyp.trans hh) hf
  | vacant hw hf hh => exact .vacant hw hf (by rwa [htyp])

-- A request looks at the region.
theorem Shows.opens (hs : Shows c objs w h) (hopens : h.typ.Opens h'.typ)
    (hflag : h'.toSweep = h.toSweep) (hnone : h.typ.isVacant = true → objs = []) :
    Shows c objs w h' := by
  rcases hopens with hsame | ⟨hvacant, hopened⟩
  · exact hs.of_same hsame hflag
  · cases hs with
    | regular _ hh | start _ hh | cont _ hh =>
        rw [hh] at hvacant
        cases hvacant
    | vacant hw hf _ =>
        refine .vacant hw hf ?_
        rcases hopened with hopened | hopened
        · exact Or.inl (by rw [hopened]; rfl)
        · exact Or.inr ⟨hopened, hnone hvacant⟩

-- The memory prepares just the regions that the collector prepares, but for
-- regular regions that are empty.
theorem Shows.prepare (hs : Shows c objs w h) :
    Shows c objs (if w.holdsObjects then { w with toSweep := true } else w)
      (if Heap.needsSweep h = true then { h with toSweep := true } else h) := by
  cases hs with
  | regular hw hh hf =>
      rw [if_pos (Region.holdsObjects_iff.mpr (Or.inl hw)), if_pos (needsSweep_iff.mpr (Or.inl hh))]
      exact .regular hw hh rfl
  | start hw hh hf hspan =>
      rw [if_pos (Region.holdsObjects_iff.mpr (Or.inr hw)), if_pos (needsSweep_iff.mpr (Or.inr hh))]
      exact .start hw hh rfl hspan
  | cont hw hh hf =>
      rw [if_neg (by simp [Region.holdsObjects, hw]), if_neg (by simp [needsSweep_iff, hh])]
      exact .cont hw hh hf
  | vacant hw hf hh =>
      rw [if_neg (by simp [not_holdsObjects_of_isVacant hw])]
      refine .vacant hw hf ?_
      split
      · exact hh
      · exact hh

-- The sweeper has visited the region and left it what it was.
theorem Shows.clear {objs' : List Space} (hs : Shows c objs w h) (hsub : objs' ⊆ objs)
    (htyp : h'.typ = h.typ) (hflag : h'.toSweep = false) :
    Shows c objs' { w with toSweep := false } h' := by
  cases hs with
  | regular hw hh _ => exact .regular hw (htyp.trans hh) hflag
  | start hw hh _ hspan => exact .start hw (htyp.trans hh) hflag fun b hb => hspan b (hsub hb)
  | cont hw hh _ => exact .cont hw (htyp.trans hh) rfl
  | vacant hw _ hh =>
      refine .vacant hw rfl ?_
      rw [htyp]
      refine hh.imp id fun hempty => ⟨hempty.1, ?_⟩
      exact List.subset_nil.mp (hempty.2 ▸ hsub)

end Regions

namespace Runtime

variable {c : HeapConfig} {build : Build} {r r' : Runtime}

-- The collector and the memory know the same objects, in the same regions.
structure Agrees (c : HeapConfig) (r : Runtime) : Prop where
  objects : ∀ o, o ∈ r.world.objects ↔ ∃ b ∈ r.blocks, b.addr = o
  home : ∀ b ∈ r.blocks, r.world.home b.addr = c.regionIndex b.addr
  regions : ∀ i, i < c.opts.regionCount →
    Shows c (objectsIn c r.blocks i) (r.world.regions i) (r.heap.regions i)

theorem Agrees.of_same (h : r.Agrees c) (hobjects : r'.world.objects = r.world.objects)
    (hhome : r'.world.home = r.world.home) (hregions : r'.world.regions = r.world.regions)
    (hblocks : r'.blocks = r.blocks) (hstates : r.heap.SameStates r'.heap)
    (hflags : ∀ i, (r'.heap.regions i).toSweep = (r.heap.regions i).toSweep) : r'.Agrees c where
  objects := by
    rw [hobjects, hblocks]
    exact h.objects
  home := by
    rw [hhome, hblocks]
    exact h.home
  regions i hi := by
    rw [hregions, hblocks]
    exact (h.regions i hi).of_same (hstates i) (hflags i)

-- A region without blocks has no objects.
theorem objectsIn_of_isVacant (ht : r.store.Tidy c) {i : Nat} (hi : i < c.opts.regionCount)
    (hvacant : (r.heap.regions i).typ.isVacant = true) : objectsIn c r.blocks i = [] := by
  rw [List.eq_nil_iff_forall_not_mem]
  intro b hb
  have hlayout := ht.laid.region i (by rw [ht.placed.numRegions_eq]; exact hi)
  have hheld : b ∈ Store.held c r.store i := List.mem_append_left _ hb
  rcases holds_of_layout hlayout hheld with htyp | htyp <;>
    · change (r.heap.regions i).typ = _ at htyp
      rw [htyp] at hvacant
      cases hvacant

-- Requests that give nothing.
theorem Agrees.opens (h : r.Agrees c) (ht : r.store.Tidy c)
    (hobjects : r'.world.objects = r.world.objects) (hhome : r'.world.home = r.world.home)
    (hregions : r'.world.regions = r.world.regions) (hblocks : r'.blocks = r.blocks)
    (hopens : r.heap.Opens r'.heap) (hshape : r.heap.SameShape r'.heap) : r'.Agrees c where
  objects := by
    rw [hobjects, hblocks]
    exact h.objects
  home := by
    rw [hhome, hblocks]
    exact h.home
  regions i hi := by
    rw [hregions, hblocks]
    exact (h.regions i hi).opens (hopens i) (hshape.frame i).toSweep_eq
      (objectsIn_of_isVacant ht hi)

theorem Agrees.prepare (h : r.Agrees c) (ht : r.store.Tidy c) {world : World} {s : Store}
    (hobjects : world.objects = r.world.objects) (hhome : world.home = r.world.home)
    (hregions : world.regions = r.world.prepareUnsweptRegions.regions)
    (hheap : s.heap = r.heap.prepareUnsweptRegions) (hblocks : s.objects = r.blocks) :
    (update world s).Agrees c where
  objects o := by
    change o ∈ world.objects ↔ ∃ b ∈ s.objects, b.addr = o
    rw [hobjects, hblocks]
    exact h.objects o
  home b hb := by
    change b ∈ s.objects at hb
    rw [hblocks] at hb
    change world.home b.addr = _
    rw [hhome]
    exact h.home b hb
  regions i hi := by
    obtain ⟨-, -, -, -, hprepared, -⟩ :=
      Heap.prepareUnswept_foldl r.heap (List.range r.heap.numRegions)
    have hmem : i ∈ List.range r.heap.numRegions := by
      have hnum : r.heap.numRegions = c.opts.regionCount := ht.placed.numRegions_eq
      rw [hnum]
      exact List.mem_range.mpr hi
    change Shows c (objectsIn c s.objects i) (world.regions i) (s.heap.regions i)
    rw [hblocks, hregions, hheap]
    unfold Heap.prepareUnsweptRegions
    rw [hprepared]
    simp only [hmem, true_and]
    exact (h.regions i hi).prepare

section Sweep

variable {i : Nat} (h : r.Agrees c) (ht : r.store.Tidy c)

include h ht in
-- Where an object lies, the collector and the memory sweep alike.
theorem Agrees.shows_of_mem (hi : i < c.opts.regionCount) {b : Space}
    (hb : b ∈ objectsIn c r.blocks i) :
    (r.world.regions i).holdsObjects = true ∧
      (r.heap.regions i).toSweep = (r.world.regions i).toSweep := by
  have hlayout := ht.laid.region i (by rw [ht.placed.numRegions_eq]; exact hi)
  have hheld : b ∈ Store.held c r.store i := List.mem_append_left _ hb
  have htyp : (r.heap.regions i).typ = .regular ∨ (r.heap.regions i).typ = .humongousStart :=
    holds_of_layout hlayout hheld
  cases h.regions i hi with
  | regular hw _ hf => exact ⟨Region.holdsObjects_iff.mpr (Or.inl hw), hf⟩
  | start hw _ hf _ => exact ⟨Region.holdsObjects_iff.mpr (Or.inr hw), hf⟩
  | cont _ hh _ => rcases htyp with htyp | htyp <;> rw [htyp] at hh <;> cases hh
  | vacant _ _ hh =>
      rcases hh with hvacant | ⟨-, hnil⟩
      · rcases htyp with htyp | htyp <;> rw [htyp] at hvacant <;> cases hvacant
      · rw [hnil] at hb
        cases hb

include h ht in
theorem Agrees.frees_iff (hi : i < c.opts.regionCount) {b : Space} (hb : b ∈ r.blocks) :
    r.world.frees i b.addr = true ↔ c.regionIndex b.addr = i ∧
      (r.heap.regions i).toSweep = true ∧ r.world.marks b.addr = false := by
  have hhome := h.home b hb
  unfold World.frees
  rw [hhome]
  by_cases hindex : c.regionIndex b.addr = i
  · have hmem : b ∈ objectsIn c r.blocks i := List.mem_filter.mpr ⟨hb, by simpa using hindex⟩
    obtain ⟨hholds, hflag⟩ := h.shows_of_mem ht hi hmem
    simp [hholds, hflag, hindex]
  · simp [hindex]

include h ht in
theorem Agrees.mem_swept {heap : Heap} (hi : i < c.opts.regionCount)
    (hok : r.heap.sweepRegionDo r.world.marks i = .ok heap) {b : Space} :
    b ∈ r.blocks.filter (fun b => heap.isLive b.addr) ↔
      b ∈ r.blocks ∧ r.world.frees i b.addr = false := by
  have hnum : i < r.store.heap.numRegions := by
    rw [ht.placed.numRegions_eq]
    exact hi
  have hswept := ht.objectsIn_swept hnum hok (c.regionIndex b.addr)
  have hin {objects : List Space} : b ∈ objectsIn c objects (c.regionIndex b.addr) ↔ b ∈ objects := by
    simp [objectsIn]
  rw [← hin, show r.blocks = r.store.objects from rfl, hswept]
  by_cases hb : b ∈ r.blocks
  · have hkind := (ht.objects b hb).1
    have hfrees := h.frees_iff ht hi hb
    rw [Heap.mem_survivors hkind, hin]
    refine and_congr_right fun _ => ?_
    rw [← Bool.not_eq_true (r.world.frees i b.addr), hfrees]
    exact Iff.rfl
  · constructor
    · intro hmem
      have hsub : b ∈ objectsIn c r.blocks (c.regionIndex b.addr) := by
        rw [← hswept] at hmem
        exact hin.mpr (List.mem_filter.mp (hin.mp hmem)).1
      exact absurd (hin.mp hsub) hb
    · exact fun hmem => absurd hmem.1 hb

include h in
-- The collector makes a region trash where the memory does, if it takes it for one
-- that holds objects.
theorem Agrees.trashes_iff
    (hflag : (r.heap.regions i).toSweep = (r.world.regions i).toSweep)
    (hholds : (r.world.regions i).holdsObjects = true) :
    r.world.Trashes i ↔ (r.heap.regions i).toSweep = true ∧
      ∀ b ∈ objectsIn c r.blocks i, r.world.marks b.addr = false := by
  unfold World.Trashes
  rw [← hflag]
  simp only [hholds, true_and]
  refine and_congr_right fun _ => ⟨fun hnone b hb => ?_, ?_⟩
  · obtain ⟨hmem, hindex⟩ := List.mem_filter.mp hb
    by_contra hmark
    refine hnone ⟨b.addr, (h.objects b.addr).mpr ⟨b, hmem, rfl⟩, ?_, by simpa using hmark⟩
    rw [h.home b hmem]
    simpa using hindex
  · rintro hall ⟨o, ho, hhome, hmark⟩
    obtain ⟨b, hb, rfl⟩ := (h.objects o).mp ho
    rw [h.home b hb] at hhome
    rw [hall b (List.mem_filter.mpr ⟨hb, by simpa using hhome⟩)] at hmark
    cases hmark

include h ht in
-- What of the regions the visit makes trash, for both.
theorem Agrees.sweep_states {heap : Heap} (hi : i < c.opts.regionCount)
    (hok : r.heap.sweepRegionDo r.world.marks i = .ok heap) :
    (∃ num, 0 < num ∧ (∀ j, i < j → j < i + num → (r.heap.regions j).typ = .humongousCont) ∧
        (∀ j, (heap.regions j).typ =
          if i ≤ j ∧ j < i + num then .trash else (r.heap.regions j).typ) ∧
        ∀ j, (i ≤ j ∧ j < i + num → (r.world.sweptRegions i j).typ.isVacant = true) ∧
          (¬(i ≤ j ∧ j < i + num) → (r.world.sweptRegions i j) = r.world.unflagged i j)) ∨
      r.heap.SameStates heap ∧ ∀ j, r.world.sweptRegions i j = r.world.unflagged i j := by
  have hnum : i < r.heap.numRegions := by
    have heq : r.heap.numRegions = c.opts.regionCount := ht.placed.numRegions_eq
    rw [heq]
    exact hi
  have hstates : r.heap.SweptStates heap r.world.marks i (objectsIn c r.blocks i) :=
    ht.laid.sweepRegionDo_states ht.placed ht.objects_kind (fun _ _ hb => tailsIn_kind hb) hnum hok
  have hkept (hno : ¬r.world.Trashes i) (j : Nat) :
      r.world.sweptRegions i j = r.world.unflagged i j := by
    rcases r.world.sweptRegions_cases i j with ⟨-, heq⟩ | ⟨hin, -⟩
    · exact heq
    · exact absurd hin.1 hno
  unfold Heap.SweptStates at hstates
  split at hstates
  · rename_i hdead
    obtain ⟨hflagged, hneeds, hnone⟩ := hdead
    obtain ⟨num, hone, hhumongous, htyps⟩ := hstates
    refine Or.inl ⟨num, ?_⟩
    have htrash (hextent : (r.world.regions i).extent = num) (htrashes : r.world.Trashes i) (j : Nat) :
        (i ≤ j ∧ j < i + num → (r.world.sweptRegions i j).typ.isVacant = true) ∧
          (¬(i ≤ j ∧ j < i + num) → (r.world.sweptRegions i j) = r.world.unflagged i j) := by
      rcases r.world.sweptRegions_cases i j with ⟨hout, heq⟩ | ⟨hin, heq⟩
      · rw [hextent] at hout
        exact ⟨fun hin => absurd ⟨htrashes, hin⟩ hout, fun _ => heq⟩
      · rw [hextent] at hin
        exact ⟨fun _ => by rw [heq]; rfl, fun hout => absurd hin.2 hout⟩
    cases h.regions i hi with
    | regular hw hh hf =>
        obtain rfl := hone hh
        have hextent : (r.world.regions i).extent = 1 := by simp [Region.extent, hw]
        have htrashes := (h.trashes_iff hf (Region.holdsObjects_iff.mpr (Or.inl hw))).mpr
          ⟨hflagged, hnone⟩
        exact ⟨by omega, fun j _ _ => by omega, htyps, htrash hextent htrashes⟩
    | start hw hh hf hspan =>
        obtain ⟨size, hobjs, -⟩ := Heap.Laid.humongous ht.laid (fun _ _ hb => tailsIn_kind hb) hnum hh
        have hmem : _ ∈ objectsIn c r.blocks i := hobjs ▸ List.mem_singleton_self _
        obtain rfl := hhumongous hh _ hmem
        have hextent : (r.world.regions i).extent = r.heap.opts.requiredRegions size := by
          rw [show r.heap.opts = c.opts from ht.placed.opts_eq]
          simp only [Region.extent, hw, if_true]
          exact hspan _ hmem
        have htrashes := (h.trashes_iff hf (Region.holdsObjects_iff.mpr (Or.inr hw))).mpr
          ⟨hflagged, hnone⟩
        have hheld : _ ∈ Store.held c r.store i := List.mem_append_left _ hmem
        obtain ⟨-, hconts⟩ := ht.laid.run i hnum hh _ hheld
        have hpos := (ht.laid.region i hnum).within (ht.placed.lt_limit i)
          (List.mem_append_left _ hheld)
        refine ⟨?_, hconts, htyps, htrash hextent htrashes⟩
        rw [show r.heap.opts = c.opts from ht.placed.opts_eq]
        exact c.geometry.requiredRegions_pos hpos.1
    | cont _ hh _ =>
        rcases needsSweep_iff.mp hneeds with htyp | htyp <;> rw [htyp] at hh <;> cases hh
    | vacant hw hf hh =>
        have hregular : (r.heap.regions i).typ = .regular := by
          rcases needsSweep_iff.mp hneeds with htyp | htyp
          · exact htyp
          · rcases hh with hvacant | ⟨hreg, -⟩
            · rw [htyp] at hvacant
              cases hvacant
            · exact hreg
        obtain rfl := hone hregular
        have hno : ¬r.world.Trashes i := fun htrashes => by
          simp [not_holdsObjects_of_isVacant hw, World.Trashes] at htrashes
        refine ⟨by omega, fun j _ _ => by omega, htyps, fun j => ⟨fun hin => ?_, fun _ => hkept hno j⟩⟩
        obtain rfl : j = i := by omega
        rw [hkept hno, World.unflagged_typ]
        exact hw
  · rename_i hlive
    refine Or.inr ⟨hstates, hkept fun htrashes => hlive ?_⟩
    cases h.regions i hi with
    | regular hw hh hf =>
        obtain ⟨hflagged, hnone⟩ :=
          (h.trashes_iff hf (Region.holdsObjects_iff.mpr (Or.inl hw))).mp htrashes
        exact ⟨hflagged, needsSweep_iff.mpr (Or.inl hh), hnone⟩
    | start hw hh hf _ =>
        obtain ⟨hflagged, hnone⟩ :=
          (h.trashes_iff hf (Region.holdsObjects_iff.mpr (Or.inr hw))).mp htrashes
        exact ⟨hflagged, needsSweep_iff.mpr (Or.inr hh), hnone⟩
    | cont hw _ _ => simp [World.Trashes, Region.holdsObjects, hw] at htrashes
    | vacant hw _ _ => simp [not_holdsObjects_of_isVacant hw, World.Trashes] at htrashes

include h ht in
theorem Agrees.sweep {s : Store} {world : World} (hi : i < c.opts.regionCount)
    (hok : r.store.sweepIndex i = .ok s)
    (hobjects : world.objects = (r.world.sweepRegion i).objects)
    (hhome : world.home = r.world.home) (hregions : world.regions = r.world.sweptRegions i) :
    (update world s).Agrees c := by
  obtain ⟨heap, hsweep, rfl⟩ := Store.sweepIndex_eq_ok hok
  have hswept {b : Space} := h.mem_swept ht hi hsweep (b := b)
  obtain ⟨-, -, -, -, hflags, -⟩ := Heap.sweepRegionDo_effect hsweep
  refine ⟨fun o => ?_, fun b hb => ?_, fun j hj => ?_⟩
  · change o ∈ world.objects ↔ ∃ b ∈ r.blocks.filter _, b.addr = o
    rw [hobjects]
    constructor
    · intro ho
      obtain ⟨hmem, hfrees⟩ := List.mem_filter.mp ho
      obtain ⟨b, hb, rfl⟩ := (h.objects o).mp hmem
      exact ⟨b, hswept.mpr ⟨hb, by simpa using hfrees⟩, rfl⟩
    · rintro ⟨b, hb, rfl⟩
      obtain ⟨hmem, hfrees⟩ := hswept.mp hb
      exact List.mem_filter.mpr ⟨(h.objects b.addr).mpr ⟨b, hmem, rfl⟩, by simpa using hfrees⟩
  · change world.home b.addr = _
    rw [hhome]
    exact h.home b (hswept.mp hb).1
  · change Shows c (objectsIn c (r.blocks.filter _) j) (world.regions j) (heap.regions j)
    rw [hregions]
    have hsub : objectsIn c (r.blocks.filter fun b => heap.isLive b.addr) j ⊆
        objectsIn c r.blocks j := by
      intro b hb
      obtain ⟨hmem, hindex⟩ := List.mem_filter.mp hb
      exact List.mem_filter.mpr ⟨(List.mem_filter.mp hmem).1, hindex⟩
    have hsame (htyp : (heap.regions j).typ = (r.heap.regions j).typ)
        (hworld : r.world.sweptRegions i j = r.world.unflagged i j) :
        Shows c (objectsIn c (r.blocks.filter fun b => heap.isLive b.addr) j)
          (r.world.sweptRegions i j) (heap.regions j) := by
      rw [hworld]
      unfold World.unflagged
      split
      · rename_i hji
        refine (h.regions j hj).clear hsub htyp ?_
        rw [hflags, if_pos hji]
      · rename_i hji
        have hobjs : objectsIn c (r.blocks.filter fun b => heap.isLive b.addr) j =
            objectsIn c r.blocks j := by
          have hsurvivors := ht.objectsIn_swept (by rw [ht.placed.numRegions_eq]; exact hi) hsweep j
          unfold Heap.survivors at hsurvivors
          rw [if_neg fun hin => hji hin.1] at hsurvivors
          exact hsurvivors
        rw [hobjs]
        refine (h.regions j hj).of_same htyp ?_
        rw [hflags, if_neg hji]
        rfl
    rcases h.sweep_states ht hi hsweep with ⟨num, hpos, hconts, htyps, hworld⟩ | ⟨hstates, hworld⟩
    · obtain ⟨htrash, hout⟩ := hworld j
      by_cases hin : i ≤ j ∧ j < i + num
      · refine .vacant (htrash hin) ?_ (Or.inl (by rw [htyps, if_pos hin]; rfl))
        rw [← Bool.not_eq_true, World.sweptRegions_toSweep]
        rintro ⟨hji, hflag⟩
        have hcont := hconts j (by omega) hin.2
        cases h.regions j hj with
        | regular _ hh _ | start _ hh _ _ =>
            rw [hcont] at hh
            cases hh
        | cont _ _ hf | vacant _ hf _ =>
            rw [hf] at hflag
            cases hflag
      · exact hsame (by rw [htyps, if_neg hin]) (hout hin)
    · exact hsame (hstates j) (hworld j)

end Sweep

section Place

variable {s : Store} {b : Space} (h : r.Agrees c) (ht : r.store.Tidy c) (hts : s.Tidy c)
  (hgains : Store.Gains c r.store s b)

include hts hgains in
-- A new block begins nowhere where another one does.
theorem fresh_block {b' : Space} (hb : b' ∈ r.blocks) : b'.addr ≠ b.addr := by
  have hobjects : s.objects = b :: r.blocks := hgains.1
  have hmem : b ∈ s.blocks :=
    List.mem_append_left _ (List.mem_append_left _ (hobjects ▸ List.mem_cons_self))
  have hmem' : b' ∈ s.blocks :=
    List.mem_append_left _ (List.mem_append_left _ (hobjects ▸ List.mem_cons_of_mem _ hb))
  have hpos {x : Space} (hx : x ∈ s.blocks) : 0 < x.size := by
    obtain ⟨hlt, hin⟩ := hts.mem_blocks hx
    have hlayout := hts.laid.region _ hlt
    exact (HeapRegion.Layout.within hlayout (hts.placed.lt_limit _) hin).1
  have hapart : b.Apart b' := by
    have hpairs : s.objects.Pairwise Block.Apart :=
      (List.pairwise_append.mp (List.pairwise_append.mp hts.blocks_pairwise).1).1
    rw [hobjects] at hpairs
    exact (List.pairwise_cons.mp hpairs).1 b' hb
  have hsize := hpos hmem
  have hsize' := hpos hmem'
  unfold Block.Apart Block.stop at hapart
  omega

theorem objectsIn_cons_of_ne {objects : List Space} {j : Nat} (hne : c.regionIndex b.addr ≠ j) :
    objectsIn c (b :: objects) j = objectsIn c objects j := by
  unfold objectsIn
  rw [List.filter_cons_of_neg (by simpa using hne)]

include h ht hts hgains in
-- The collector finds room in every region that the free set takes memory from, and
-- it takes the same regions for what they are now.
theorem Agrees.place (build : Build) (hshape : r.heap.SameShape s.heap) (new : NewObject) :
    ∃ regions, World.place (configOf c build) r.world.regions (new.at c s.heap b).region
        (new.at c s.heap b).span = some regions ∧
      ∀ j, j < c.opts.regionCount →
        Shows c (objectsIn c s.objects j) (regions j) (s.heap.regions j) := by
  have hobjects : s.objects = b :: r.blocks := hgains.1
  have hlt : c.regionIndex b.addr < c.opts.regionCount :=
    (hts.objects b (hobjects ▸ List.mem_cons_self)).2
  have hnum : r.heap.numRegions = c.opts.regionCount := ht.placed.numRegions_eq
  have hflags (j : Nat) : (s.heap.regions j).toSweep = (r.heap.regions j).toSweep :=
    (hshape.frame j).toSweep_eq
  have hothers {j : Nat} (hj : j < c.opts.regionCount) (hne : c.regionIndex b.addr ≠ j)
      (hopens : (r.heap.regions j).typ.Opens (s.heap.regions j).typ) :
      Shows c (objectsIn c s.objects j) (r.world.regions j) (s.heap.regions j) := by
    rw [hobjects, objectsIn_cons_of_ne hne]
    exact (h.regions j hj).opens hopens (hflags j) (objectsIn_of_isVacant ht hj)
  rcases hgains.2 with ⟨hopens, hregular, hswept⟩ | ⟨hpos, hrun, htyps⟩
  · have hspan : (new.at c s.heap b).span = none := by
      simp [NewObject.at, hregular]
    have hroom : (r.world.regions (c.regionIndex b.addr)).toSweep = false ∧
        ((r.world.regions (c.regionIndex b.addr)).typ = .regular ∨
          (r.world.regions (c.regionIndex b.addr)).isAvailable = true) := by
      have hstate := hopens (c.regionIndex b.addr)
      rw [hregular] at hstate
      cases h.regions _ hlt with
      | regular hw _ hf => exact ⟨hf ▸ hswept, Or.inl hw⟩
      | vacant hw hf _ => exact ⟨hf, Or.inr (isAvailable_of_isVacant hw)⟩
      | start _ hh _ _ | cont _ hh _ =>
          rw [show r.store.heap = r.heap from rfl, hh] at hstate
          rcases hstate with hsame | ⟨hvacant, -⟩
          · cases hsame
          · cases hvacant
    refine ⟨Function.update r.world.regions (c.regionIndex b.addr) ⟨.regular, false, 1⟩, ?_,
      fun j hj => ?_⟩
    · rw [hspan]
      unfold World.place
      exact if_pos ⟨hlt, by simp [NewObject.at, hroom.1], hroom.2⟩
    · by_cases hne : c.regionIndex b.addr = j
      · subst hne
        rw [Function.update_self]
        exact .regular rfl hregular ((hflags _).trans hswept)
      · rw [Function.update_of_ne (Ne.symm hne)]
        exact hothers hj hne (hopens j)
  · have hstart : (s.heap.regions (c.regionIndex b.addr)).typ = .humongousStart := by
      rw [htyps, if_pos ⟨Nat.le_refl _, by omega⟩, if_pos rfl]
    have hspan : (new.at c s.heap b).span = some (c.opts.requiredRegions b.size) := by
      simp [NewObject.at, hstart]
    have hvacant (j : Nat) (hle : c.regionIndex b.addr ≤ j)
        (hj : j < c.regionIndex b.addr + c.opts.requiredRegions b.size) :
        (r.world.regions j).isAvailable = true := by
      obtain ⟨hin, hfree, -⟩ := hrun j hle hj
      have hin : j < c.opts.regionCount := hnum ▸ hin
      cases h.regions j hin with
      | vacant hw _ _ => exact isAvailable_of_isVacant hw
      | regular _ hh _ | start _ hh _ _ | cont _ hh _ =>
          rw [show r.store.heap = r.heap from rfl, hh] at hfree
          cases hfree
    have hend : c.regionIndex b.addr + c.opts.requiredRegions b.size ≤ c.opts.regionCount := by
      have hlast := (hrun (c.regionIndex b.addr + c.opts.requiredRegions b.size - 1) (by omega)
        (by omega)).1
      rw [show r.store.heap.numRegions = c.opts.regionCount from hnum] at hlast
      omega
    refine ⟨fun i => if i = c.regionIndex b.addr then
        ⟨.humongousStart, false, c.opts.requiredRegions b.size⟩
      else if c.regionIndex b.addr ≤ i ∧ i < c.regionIndex b.addr + c.opts.requiredRegions b.size then
        ⟨.humongousCont, false, 1⟩ else r.world.regions i, ?_, fun j hj => ?_⟩
    · rw [hspan]
      unfold World.place
      refine if_pos ⟨hpos, hend, fun i hi => hvacant _ (Nat.le_add_right _ _) ?_⟩
      exact Nat.add_lt_add_left (List.mem_range.mp hi) _
    · dsimp only
      by_cases hne : j = c.regionIndex b.addr
      · subst hne
        rw [if_pos rfl]
        refine .start rfl hstart ((hflags _).trans (hrun _ (Nat.le_refl _) (by omega)).2.2) ?_
        intro b' hb'
        have hempty : objectsIn c r.blocks (c.regionIndex b.addr) = [] :=
          objectsIn_of_isVacant ht hj (hrun _ (Nat.le_refl _) (by omega)).2.1
        obtain ⟨hmem, hindex⟩ := List.mem_filter.mp hb'
        rcases List.mem_cons.mp (hobjects ▸ hmem) with rfl | hmem
        · rfl
        · have hin : b' ∈ objectsIn c r.blocks (c.regionIndex b.addr) :=
            List.mem_filter.mpr ⟨hmem, hindex⟩
          rw [hempty] at hin
          cases hin
      · rw [if_neg hne]
        split
        · rename_i hin
          refine .cont rfl ?_ rfl
          rw [htyps, if_pos hin, if_neg hne]
        · rename_i hout
          refine hothers hj (Ne.symm hne) (Or.inl ?_)
          rw [htyps, if_neg hout]
          rfl

end Place

end Runtime

end Rsgc.Collection
