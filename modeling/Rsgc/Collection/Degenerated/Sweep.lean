import Rsgc.Collection.Conservative.Kept

namespace Rsgc.Collection

open Marking Storage

namespace World

variable {c : Config} {b s s' u : World} {todo : List Nat}

-- Some object of the region is marked.
def Occupied (s : World) (r : Nat) : Prop := ∃ o ∈ s.objects, s.home o = r ∧ s.marks o = true

-- Every region that holds objects holds at least one.
structure Filled (s : World) : Prop where
  span : ∀ r, (s.regions r).typ = .humongousStart → 0 < (s.regions r).span
  object : ∀ r, (s.regions r).holdsObjects = true → ∃ o ∈ s.objects, s.home o = r

theorem Filled.extent_pos (h : s.Filled) (r : Nat) : 0 < (s.regions r).extent := by
  unfold Region.extent
  split
  · exact h.span r ‹_›
  · exact Nat.one_pos

-- How far the sweep has come that began in the state `b`: the regions of `todo` are as
-- they were, and in the others nothing is left that is not marked.
structure Sweeps (b u : World) (todo : List Nat) : Prop where
  marks : u.marks = b.marks
  home : u.home = b.home
  finalizers : u.finalizers = b.finalizers
  finalized : u.finalized = b.finalized
  nodup : todo.Nodup
  toSweep : ∀ r, (u.regions r).toSweep = true ↔ (b.regions r).toSweep = true ∧ r ∈ todo
  objects : ∀ o, o ∈ u.objects ↔ o ∈ b.objects ∧ (b.Condemned o → b.home o ∈ todo)
  graph : ∀ o ∈ u.objects, u.graph o = b.graph o
  holds : ∀ r, (u.regions r).holdsObjects = true ↔ (b.regions r).holdsObjects = true ∧
    ((b.regions r).toSweep = true → r ∈ todo ∨ b.Occupied r)

theorem Sweeps.begin (h : b.Arranged c) : b.Sweeps b (List.range c.numRegions) where
  marks := rfl
  home := rfl
  finalizers := rfl
  finalized := rfl
  nodup := List.nodup_range
  toSweep r := ⟨fun hr => ⟨hr, List.mem_range.mpr (h.unswept r hr)⟩, fun hr => hr.1⟩
  objects o := by
    refine ⟨fun ho => ⟨ho, fun _ => ?_⟩, fun ho => ho.1⟩
    exact List.mem_range.mpr (h.inside _ (h.home o ho))
  graph o _ := rfl
  holds r := by
    refine ⟨fun hr => ⟨hr, fun _ => ?_⟩, fun hr => hr.1⟩
    exact Or.inl (List.mem_range.mpr (h.inside r hr))

-- A marked object stays, so a region is as occupied as it was.
theorem Sweeps.occupied (h : b.Sweeps u todo) (r : Nat) : u.Occupied r ↔ b.Occupied r := by
  unfold Occupied
  rw [h.marks, h.home]
  constructor
  · rintro ⟨o, ho, hhome, hmark⟩
    exact ⟨o, ((h.objects o).mp ho).1, hhome, hmark⟩
  · rintro ⟨o, ho, hhome, hmark⟩
    refine ⟨o, (h.objects o).mpr ⟨ho, fun hcondemned => ?_⟩, hhome, hmark⟩
    rw [hcondemned.2] at hmark
    cases hmark

-- What the sweep of a region frees.
theorem Sweeps.frees_iff (h : b.Sweeps u todo) (harranged : u.Arranged c) {r o : Nat}
    (hr : r ∈ todo) (ho : o ∈ u.objects) : u.frees r o = true ↔ b.home o = r ∧ b.Condemned o := by
  have hholds := harranged.home o ho
  rw [h.home] at hholds
  unfold frees Condemned
  simp only [Bool.and_eq_true, Bool.not_eq_true', beq_iff_eq, h.marks, h.home, h.toSweep]
  constructor
  · rintro ⟨⟨⟨⟨hflag, -⟩, -⟩, rfl⟩, hmark⟩
    exact ⟨rfl, hflag, hmark⟩
  · rintro ⟨rfl, hflag, hmark⟩
    exact ⟨⟨⟨⟨hflag, hr⟩, hholds⟩, rfl⟩, hmark⟩

-- The region that is swept becomes trash where it is not occupied, and with it the rest
-- of its object; all other regions stay what they are.
theorem Sweeps.swept_holds (h : b.Sweeps u todo) (harranged : u.Arranged c) (hfilled : u.Filled)
    {r : Nat} (hr : r ∈ todo) (i : Nat) : (u.sweptRegions r i).holdsObjects = true ↔
      (b.regions i).holdsObjects = true ∧
        ((b.regions i).toSweep = true → i ∈ todo.erase r ∨ b.Occupied i) := by
  have hrest : i ∈ todo.erase r ↔ i ≠ r ∧ i ∈ todo := h.nodup.mem_erase_iff
  have hsame (hout : ¬(u.Trashes r ∧ r ≤ i ∧ i < r + (u.regions r).extent)) :
      (u.sweptRegions r i).holdsObjects = (u.regions i).holdsObjects := by
    rw [Region.holdsObjects, sweptRegions_typ hout]
    rfl
  have htrash (hin : u.Trashes r ∧ r ≤ i ∧ i < r + (u.regions r).extent) :
      (u.sweptRegions r i).holdsObjects = false := by
    rw [Region.holdsObjects, sweptRegions_trash hin]
    rfl
  by_cases hir : i = r
  · subst hir
    have hflag : (u.regions i).toSweep = true ↔ (b.regions i).toSweep = true :=
      (h.toSweep i).trans (and_iff_left hr)
    have hholds : (u.regions i).holdsObjects = true ↔ (b.regions i).holdsObjects = true :=
      (h.holds i).trans (and_iff_left fun _ => Or.inl hr)
    have htrashes : u.Trashes i ↔ (b.regions i).toSweep = true ∧
        (b.regions i).holdsObjects = true ∧ ¬b.Occupied i := by
      unfold Trashes
      rw [hflag, hholds]
      exact and_congr_right fun _ => and_congr_right fun _ => not_congr (h.occupied i)
    by_cases hin : u.Trashes i
    · have hempty := htrashes.mp hin
      have hextent := hfilled.extent_pos i
      rw [htrash ⟨hin, le_rfl, by omega⟩]
      refine iff_of_false (by simp) fun hb => ?_
      exact (hb.2 hempty.1).elim (fun hmem => (hrest.mp hmem).1 rfl) hempty.2.2
    · rw [hsame fun hout => hin hout.1, hholds]
      refine ⟨fun hb => ⟨hb, fun hflagged => Or.inr ?_⟩, fun hb => hb.1⟩
      by_contra hnone
      exact hin (htrashes.mpr ⟨hflagged, hb, hnone⟩)
  · have hrest' : i ∈ todo.erase r ↔ i ∈ todo := hrest.trans (and_iff_right hir)
    rw [hrest', ← h.holds]
    by_cases hin : u.Trashes r ∧ r ≤ i ∧ i < r + (u.regions r).extent
    · have hcont := harranged.trashed_cont hin.2.1 hin.2.2 hir
      rw [htrash hin, Region.holdsObjects, hcont]
      simp
    · rw [hsame hin]

theorem Sweeps.sweepRegion (h : b.Sweeps u todo) (harranged : u.Arranged c) (hfilled : u.Filled)
    {r : Nat} (hr : r ∈ todo) : b.Sweeps (u.sweepRegion r) (todo.erase r) where
  marks := h.marks
  home := h.home
  finalizers := h.finalizers
  finalized := h.finalized
  nodup := h.nodup.erase r
  toSweep i := by
    refine sweptRegions_toSweep.trans ?_
    rw [h.toSweep, h.nodup.mem_erase_iff]
    tauto
  objects o := by
    change o ∈ u.objects.filter _ ↔ _
    rw [List.mem_filter, h.nodup.mem_erase_iff]
    constructor
    · rintro ⟨ho, hkept⟩
      obtain ⟨hold, hhome⟩ := (h.objects o).mp ho
      refine ⟨hold, fun hcondemned => ⟨fun heq => ?_, hhome hcondemned⟩⟩
      rw [(h.frees_iff harranged hr ho).mpr ⟨heq, hcondemned⟩] at hkept
      cases hkept
    · rintro ⟨hold, hhome⟩
      have ho := (h.objects o).mpr ⟨hold, fun hcondemned => (hhome hcondemned).2⟩
      refine ⟨ho, ?_⟩
      rw [Bool.not_eq_true', ← Bool.not_eq_true, h.frees_iff harranged hr ho]
      exact fun hfreed => (hhome hfreed.2).1 hfreed.1
  graph o ho := by
    obtain ⟨hold, hkept⟩ := List.mem_filter.mp ho
    change (if u.frees r o then freeObject else u.graph o) = _
    rw [if_neg (by simpa using hkept)]
    exact h.graph o hold
  holds i := h.swept_holds harranged hfilled hr i

end World

end Rsgc.Collection
