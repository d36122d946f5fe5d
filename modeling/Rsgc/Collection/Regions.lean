import Rsgc.Collection.Steps

namespace Rsgc.Collection

open Marking Storage

variable {c : Config} {s s' : World} {t : Nat}

theorem Region.holdsObjects_iff {r : Region} :
    r.holdsObjects = true ↔ r.typ = .regular ∨ r.typ = .humongousStart := by
  simp [holdsObjects]

theorem Region.isAvailable_ne {r : Region} (h : r.isAvailable = true) :
    r.typ ≠ .regular ∧ r.typ ≠ .humongousStart ∧ r.typ ≠ .humongousCont := by
  unfold isAvailable at h
  cases hr : r.typ with
  | regular | humongousStart | humongousCont => simp [hr] at h
  | emptyUncommited | emptyCommited | trash => simp

namespace World

-- The two ways in which an object gets its region.
theorem place_cases {regions regions' : Nat → Region} {r : Nat} {span : Option Nat}
    (h : place c regions r span = some regions') :
    (span = none ∧ r < c.numRegions ∧ (regions r).toSweep = false ∧
        ((regions r).typ = .regular ∨ (regions r).isAvailable = true) ∧
        regions' = Function.update regions r ⟨.regular, false, 1⟩) ∨
      ∃ n, span = some n ∧ 0 < n ∧ r + n ≤ c.numRegions ∧
        (∀ i, r ≤ i → i < r + n → (regions i).isAvailable = true) ∧
        regions' = fun i => if i = r then ⟨.humongousStart, false, n⟩
          else if r ≤ i ∧ i < r + n then ⟨.humongousCont, false, 1⟩ else regions i := by
  cases span with
  | none =>
      obtain ⟨⟨hr, hflag, htyp⟩, rfl⟩ := guard_eq_some.mp h
      exact Or.inl ⟨rfl, hr, Bool.eq_false_iff.mpr hflag, htyp, rfl⟩
  | some n =>
      obtain ⟨⟨hpos, hle, hall⟩, rfl⟩ := guard_eq_some.mp h
      refine Or.inr ⟨n, rfl, hpos, hle, fun i hi hlt => ?_, rfl⟩
      have havailable := hall (i - r) (List.mem_range.mpr (by omega))
      rwa [Nat.add_sub_cancel' hi] at havailable

-- A placed object is in a region that holds objects and is not to be swept.
theorem place_region {regions regions' : Nat → Region} {r : Nat} {span : Option Nat}
    (h : place c regions r span = some regions') :
    (regions' r).holdsObjects = true ∧ (regions' r).toSweep = false := by
  rcases place_cases h with ⟨-, -, -, -, rfl⟩ | ⟨n, -, -, -, -, rfl⟩
  · rw [Function.update_self]
    exact ⟨rfl, rfl⟩
  · simp [Region.holdsObjects]

theorem place_toSweep {regions regions' : Nat → Region} {r : Nat} {span : Option Nat}
    (h : place c regions r span = some regions') {i : Nat} (hi : (regions' i).toSweep = true) :
    (regions i).toSweep = true := by
  rcases place_cases h with ⟨-, -, -, -, rfl⟩ | ⟨n, -, -, -, -, rfl⟩
  · by_cases hir : i = r
    · subst hir
      rw [Function.update_self] at hi
      cases hi
    · rwa [Function.update_of_ne hir] at hi
  · simp only at hi
    split at hi
    · cases hi
    · split at hi
      · cases hi
      · exact hi

-- No object is put where one is that has to be swept.
theorem place_unswept {regions regions' : Nat → Region} {r : Nat} {span : Option Nat}
    (h : place c regions r span = some regions') {i : Nat} (hholds : (regions i).holdsObjects = true)
    (hi : (regions i).toSweep = true) : regions' i = regions i := by
  rcases place_cases h with ⟨-, -, hflag, -, rfl⟩ | ⟨n, -, hpos, -, havailable, rfl⟩
  · have hir : i ≠ r := by
      rintro rfl
      rw [hflag] at hi
      cases hi
    exact Function.update_of_ne hir _ _
  · have hout : ¬(r ≤ i ∧ i < r + n) := fun hin =>
      (Region.holdsObjects_iff.mp hholds).elim
        (Region.isAvailable_ne (havailable i hin.1 hin.2)).1
        (Region.isAvailable_ne (havailable i hin.1 hin.2)).2.1
    have hir : i ≠ r := by omega
    simp only [if_neg hir, if_neg hout]

-- Objects are in regions that hold objects, and a humongous object owns the
-- regions that follow its first.
structure Arranged (c : Config) (s : World) : Prop where
  home : ∀ o ∈ s.objects, (s.regions (s.home o)).holdsObjects = true
  inside : ∀ r, (s.regions r).holdsObjects = true → r < c.numRegions
  cont : ∀ r, (s.regions r).typ = .humongousStart →
    ∀ i, r < i → i < r + (s.regions r).span → (s.regions i).typ = .humongousCont
  unswept : ∀ r, (s.regions r).toSweep = true → r < c.numRegions

-- A step after which all regions have their old type and extent.
theorem Arranged.of_same (h : s.Arranged c) (hobjects : ∀ o ∈ s'.objects, o ∈ s.objects)
    (hhome : s'.home = s.home) (htyp : ∀ r, (s'.regions r).typ = (s.regions r).typ)
    (hspan : ∀ r, (s'.regions r).span = (s.regions r).span)
    (htoSweep : ∀ r, (s'.regions r).toSweep = true → r < c.numRegions) : s'.Arranged c where
  home o ho := by
    rw [Region.holdsObjects, hhome, htyp]
    exact h.home o (hobjects o ho)
  inside r hr := by
    rw [Region.holdsObjects, htyp] at hr
    exact h.inside r hr
  cont r hr i hi hlt := by
    rw [htyp] at hr ⊢
    rw [hspan] at hlt
    exact h.cont r hr i hi hlt
  unswept := htoSweep

theorem Arranged.stepAllocate (h : s.Arranged c) {new : NewObject}
    (hstep : s.stepAllocate c t new = some s') : s'.Arranged c := by
  obtain ⟨-, m, regions, -, -, -, -, -, hplace, rfl⟩ := stepAllocate_cases hstep
  have hunswept (i : Nat) (hi : (regions i).toSweep = true) : i < c.numRegions :=
    h.unswept i (place_toSweep hplace hi)
  have hobjects (hold : ∀ i, (s.regions i).holdsObjects = true → (regions i).holdsObjects = true)
      (o : Nat) (ho : o ∈ new.obj :: s.objects) :
      (regions (Function.update s.home new.obj new.region o)).holdsObjects = true := by
    by_cases heq : o = new.obj
    · subst heq
      rw [Function.update_self]
      exact (place_region hplace).1
    · rw [Function.update_of_ne heq]
      exact hold _ (h.home o ((List.mem_cons.mp ho).resolve_left heq))
  rcases place_cases hplace with ⟨-, hlt, -, htyp, rfl⟩ | ⟨n, -, hpos, hle, havailable, rfl⟩
  · have hne {i : Nat} (hi : (s.regions i).typ = .humongousCont) : i ≠ new.region := by
      rintro rfl
      rcases htyp with htyp | htyp
      · rw [hi] at htyp
        cases htyp
      · exact (Region.isAvailable_ne htyp).2.2 hi
    refine ⟨hobjects fun i hi => ?_, fun i hi => ?_, fun i hi j hij hj => ?_, hunswept⟩
    · by_cases hir : i = new.region
      · rw [hir, Function.update_self]
        rfl
      · rwa [Function.update_of_ne hir]
    · by_cases hir : i = new.region
      · exact hir ▸ hlt
      · exact h.inside i (by simpa [hir] using hi)
    · by_cases hir : i = new.region
      · simp [hir] at hi
      · simp only [Function.update_of_ne hir] at hi hj
        have hcont := h.cont i hi j hij hj
        simpa only [Function.update_of_ne (hne hcont)] using hcont
  · have hkeeps {i : Nat} (hi : (s.regions i).isAvailable ≠ true) :
        ¬(new.region ≤ i ∧ i < new.region + n) := fun hin => hi (havailable i hin.1 hin.2)
    have hkeeps' {i : Nat} (hi : (s.regions i).isAvailable ≠ true) : i ≠ new.region :=
      fun heq => hkeeps hi ⟨heq.ge, by omega⟩
    refine ⟨hobjects fun i hi => ?_, fun i hi => ?_, fun i hi j hij hj => ?_, hunswept⟩
    · have hold : (s.regions i).isAvailable ≠ true := fun hfree =>
        (Region.holdsObjects_iff.mp hi).elim (Region.isAvailable_ne hfree).1
          (Region.isAvailable_ne hfree).2.1
      simp only [if_neg (hkeeps' hold), if_neg (hkeeps hold)]
      exact hi
    · simp only at hi
      split at hi
      · omega
      · split at hi
        · cases hi
        · exact h.inside i hi
    · simp only at hi hj ⊢
      by_cases hir : i = new.region
      · subst hir
        rw [if_pos rfl] at hj
        simp only at hj
        rw [if_neg (by omega), if_pos ⟨by omega, hj⟩]
      · rw [if_neg hir] at hi hj
        split at hi
        · cases hi
        · rename_i hout
          rw [if_neg hout] at hj
          have hcont := h.cont i hi j hij hj
          have hold : (s.regions j).isAvailable ≠ true := fun hfree =>
            (Region.isAvailable_ne hfree).2.2 hcont
          rw [if_neg (hkeeps' hold), if_neg (hkeeps hold)]
          exact hcont

-- The sweep of a region finds nothing to keep.
def Trashes (s : World) (r : Nat) : Prop :=
  (s.regions r).toSweep ∧ (s.regions r).holdsObjects ∧
    ¬∃ obj ∈ s.objects, s.home obj = r ∧ s.marks obj = true

-- The region with its flag cleared.
def unflagged (s : World) (r i : Nat) : Region :=
  if i = r then { s.regions i with toSweep := false } else s.regions i

theorem sweptRegions_cases (s : World) (r i : Nat) :
    (¬(s.Trashes r ∧ r ≤ i ∧ i < r + (s.regions r).extent) ∧
        s.sweptRegions r i = s.unflagged r i) ∨
      (s.Trashes r ∧ r ≤ i ∧ i < r + (s.regions r).extent) ∧
        s.sweptRegions r i = { s.unflagged r i with typ := .trash } := by
  have hswept : Function.update s.regions r { s.regions r with toSweep := false } i =
      s.unflagged r i := by
    rw [Function.update_apply]
    unfold unflagged
    split
    · rename_i hi
      rw [hi]
    · rfl
  unfold sweptRegions
  dsimp only
  split
  · rename_i htrash
    dsimp only
    rw [hswept]
    split
    · rename_i hin
      exact Or.inr ⟨⟨htrash, hin⟩, rfl⟩
    · rename_i hout
      exact Or.inl ⟨fun hin => hout hin.2, rfl⟩
  · rename_i hkept
    exact Or.inl ⟨fun hin => hkept hin.1, hswept⟩

theorem unflagged_typ {r i : Nat} : (s.unflagged r i).typ = (s.regions i).typ := by
  unfold unflagged
  split <;> rfl

theorem sweptRegions_span {r i : Nat} : (s.sweptRegions r i).span = (s.regions i).span := by
  have hspan : (s.unflagged r i).span = (s.regions i).span := by
    unfold unflagged
    split <;> rfl
  rcases s.sweptRegions_cases r i with ⟨-, heq⟩ | ⟨-, heq⟩ <;> rw [heq] <;> exact hspan

theorem sweptRegions_toSweep {r i : Nat} :
    (s.sweptRegions r i).toSweep = true ↔ i ≠ r ∧ (s.regions i).toSweep = true := by
  have hflag : (s.unflagged r i).toSweep = true ↔ i ≠ r ∧ (s.regions i).toSweep = true := by
    unfold unflagged
    split
    · simp [*]
    · simp [*]
  rcases s.sweptRegions_cases r i with ⟨-, heq⟩ | ⟨-, heq⟩ <;> rw [heq] <;> exact hflag

-- What becomes trash, and what stays what it is.
theorem sweptRegions_trash {r i : Nat}
    (h : s.Trashes r ∧ r ≤ i ∧ i < r + (s.regions r).extent) :
    (s.sweptRegions r i).typ = .trash := by
  rcases s.sweptRegions_cases r i with ⟨hout, -⟩ | ⟨-, heq⟩
  · exact absurd h hout
  · rw [heq]

theorem sweptRegions_typ {r i : Nat}
    (h : ¬(s.Trashes r ∧ r ≤ i ∧ i < r + (s.regions r).extent)) :
    (s.sweptRegions r i).typ = (s.regions i).typ := by
  rcases s.sweptRegions_cases r i with ⟨-, heq⟩ | ⟨hin, -⟩
  · rw [heq, unflagged_typ]
  · exact absurd hin h

theorem sweptRegions_kept {r i : Nat} (h : (s.sweptRegions r i).typ ≠ .trash) :
    ¬(s.Trashes r ∧ r ≤ i ∧ i < r + (s.regions r).extent) ∧
      (s.sweptRegions r i).typ = (s.regions i).typ := by
  have hout : ¬(s.Trashes r ∧ r ≤ i ∧ i < r + (s.regions r).extent) := fun hin =>
    h (sweptRegions_trash hin)
  exact ⟨hout, sweptRegions_typ hout⟩

theorem prepared_typ (s : World) (r : Nat) :
    (s.prepareUnsweptRegions.regions r).typ = (s.regions r).typ := by
  simp only [prepareUnsweptRegions]
  split <;> rfl

theorem prepared_span (s : World) (r : Nat) :
    (s.prepareUnsweptRegions.regions r).span = (s.regions r).span := by
  simp only [prepareUnsweptRegions]
  split <;> rfl

theorem prepared_toSweep (s : World) (r : Nat) :
    (s.prepareUnsweptRegions.regions r).toSweep = true ↔
      (s.regions r).holdsObjects = true ∨ (s.regions r).toSweep = true := by
  simp only [prepareUnsweptRegions]
  split <;> simp [*]

-- No object is left in what becomes trash, and nothing else begins in it.
theorem Arranged.trashed_cont (h : s.Arranged c) {r i : Nat} (hi : r ≤ i)
    (hlt : i < r + (s.regions r).extent) (hne : i ≠ r) : (s.regions i).typ = .humongousCont := by
  unfold Region.extent at hlt
  split at hlt
  · rename_i hstart
    exact h.cont r hstart i (by omega) hlt
  · omega

theorem Arranged.sweepRegion (h : s.Arranged c) (r : Nat) : (s.sweepRegion r).Arranged c := by
  refine ⟨fun o ho => ?_, fun i hi => ?_, fun i hi j hij hj => ?_,
    fun i hi => h.unswept i (sweptRegions_toSweep.mp hi).2⟩
  · obtain ⟨hmem, hfrees⟩ := List.mem_filter.mp ho
    have hhome := h.home o hmem
    change (s.sweptRegions r (s.home o)).holdsObjects = true
    rw [Region.holdsObjects, sweptRegions_typ]
    · exact hhome
    · rintro ⟨htrash, hle, hlt⟩
      by_cases hir : s.home o = r
      · have hmark : s.marks o = true := by
          simpa [frees, htrash.1, htrash.2.1, hir] using hfrees
        exact htrash.2.2 ⟨o, hmem, hir, hmark⟩
      · have hcont := h.trashed_cont hle hlt hir
        simp [Region.holdsObjects, hcont] at hhome
  · change (s.sweptRegions r i).holdsObjects = true at hi
    have hne : (s.sweptRegions r i).typ ≠ .trash := fun heq => by
      simp [Region.holdsObjects, heq] at hi
    rw [Region.holdsObjects, (sweptRegions_kept hne).2] at hi
    exact h.inside i hi
  · change (s.sweptRegions r i).typ = _ at hi
    change j < i + (s.sweptRegions r i).span at hj
    change (s.sweptRegions r j).typ = _
    rw [sweptRegions_span] at hj
    have htyp : (s.sweptRegions r i).typ ≠ .trash := by simp [hi]
    obtain ⟨hout, hsame⟩ := sweptRegions_kept htyp
    have hstart := hsame.symm.trans hi
    have hcont := h.cont i hstart j hij hj
    rw [sweptRegions_typ]
    · exact hcont
    · -- Two extents that meet would start in one another.
      rintro ⟨htrash, hle, hlt⟩
      have hbegin := Region.holdsObjects_iff.mp htrash.2.1
      by_cases hir : i < r
      · by_cases hrj : r = j
        · subst hrj
          simp [hcont] at hbegin
        · have hinner := h.cont i hstart r hir (by omega)
          simp [hinner] at hbegin
      · exact hout ⟨htrash, by omega, by omega⟩

theorem Arranged.step (h : s.Arranged c) {e : Event} (hstep : s.step c e = some s') :
    s'.Arranged c := by
  by_cases he : changesHeap e = false
  · have hsame := step_frame hstep he
    refine h.of_same (fun o ho => hsame.objects ▸ ho) hsame.home ?_ ?_ ?_
    all_goals rw [hsame.regions]
    · exact fun r => rfl
    · exact fun r => rfl
    · exact h.unswept
  · cases e with
    | store t obj slot value =>
        obtain ⟨-, m, -, -, -, -, -, rfl⟩ := stepStore_cases hstep
        exact ⟨h.home, h.inside, h.cont, h.unswept⟩
    | allocate t new => exact h.stepAllocate hstep
    | finishMark =>
        obtain ⟨-, ⟨-, rfl⟩ | ⟨cycle, -, -, rfl⟩⟩ := stepFinishMark_cases hstep
        · exact ⟨h.home, h.inside, h.cont, h.unswept⟩
        · refine h.of_same (fun o ho => ho) rfl (prepared_typ _) (prepared_span _) fun r hr => ?_
          exact ((prepared_toSweep _ r).mp hr).elim (h.inside r) (h.unswept r)
    | sweep r =>
        obtain ⟨cycle, todo, -, -, rfl⟩ := stepSweep_cases hstep
        have hswept := h.sweepRegion r
        exact ⟨hswept.home, hswept.inside, hswept.cont, hswept.unswept⟩
    | _ => exact absurd rfl he

end World

end Rsgc.Collection
