import Rsgc.Storage.FreeSet
import Rsgc.Storage.Region.Layout

namespace Rsgc.Storage

namespace RegionFreeSet

variable {fs : RegionFreeSet}

-- The bounds enclose every bit that is set.
def Within (fs : RegionFreeSet) : Prop :=
  ∀ i, fs.isMutatorFree i = true → fs.mutatorLeftmost ≤ i ∧ i ≤ fs.mutatorRightmost

theorem skipRight_spec (free : Nat → Bool) (max fuel left : Nat) :
    left ≤ skipRight free max fuel left ∧
      ∀ i, left ≤ i → i < skipRight free max fuel left → free i = false := by
  induction fuel generalizing left with
  | zero => exact ⟨Nat.le_refl _, fun i hl hr => by simp only [skipRight] at hr; omega⟩
  | succ fuel ih =>
      unfold skipRight
      split
      · rename_i hskip
        obtain ⟨hle, hfree⟩ := ih (left + 1)
        refine ⟨by omega, fun i hl hr => ?_⟩
        rcases Nat.eq_or_lt_of_le hl with rfl | hl
        · exact hskip.2
        · exact hfree i hl hr
      · exact ⟨Nat.le_refl _, fun i hl hr => by omega⟩

theorem skipLeft_spec (free : Nat → Bool) (right : Nat) :
    ∀ i, skipLeft free right < i → i ≤ right → free i = false := by
  induction right with
  | zero =>
      intro i hl hr
      omega
  | succ right ih =>
      intro i hl hr
      unfold skipLeft at hl
      split at hl
      · omega
      · rename_i hfree
        rcases Nat.eq_or_lt_of_le hr with rfl | hr
        · simpa using hfree
        · exact ih i hl (by omega)

theorem Within.adjustBounds (h : fs.Within) : fs.adjustBounds.Within := by
  intro i hi
  have hbit : fs.mutatorFreeBitmap i = true := hi
  obtain ⟨hlow, hhigh⟩ := h i hi
  obtain ⟨_, hright⟩ := skipRight_spec fs.mutatorFreeBitmap fs.max
    (fs.max - fs.mutatorLeftmost) fs.mutatorLeftmost
  have hleft := skipLeft_spec fs.mutatorFreeBitmap fs.mutatorRightmost
  constructor
  · by_contra hlt
    have hfalse := hright i hlow (Nat.lt_of_not_le hlt)
    simp [hbit] at hfalse
  · by_contra hlt
    have hfalse := hleft i (Nat.lt_of_not_le hlt) hhigh
    simp [hbit] at hfalse

theorem isMutatorFree_setBit (fs : RegionFreeSet) (index i : Nat) (value : Bool) :
    (fs.setBit index value).isMutatorFree i = if i = index then value else fs.isMutatorFree i := by
  simp [setBit, isMutatorFree, Function.update_apply]

theorem Within.clearBit (h : fs.Within) (index : Nat) : (fs.setBit index false).Within := by
  intro i hi
  rw [isMutatorFree_setBit] at hi
  by_cases heq : i = index
  · simp [heq] at hi
  · rw [if_neg heq] at hi
    exact h i hi

theorem Within.recomputeBounds (h : ∀ i, fs.isMutatorFree i = true → i < fs.max) :
    fs.recomputeBounds.Within := by
  apply Within.adjustBounds
  intro i hi
  have hlt := h i hi
  exact ⟨Nat.zero_le _, by simp only; omega⟩

end RegionFreeSet

namespace Heap

variable {h h' : Heap}

@[simp] theorem setRegion_regions (h : Heap) (i : Nat) (r : HeapRegion) :
    (h.setRegion i r).regions = Function.update h.regions i r := rfl

@[simp] theorem setRegion_freeSet (h : Heap) (i : Nat) (r : HeapRegion) :
    (h.setRegion i r).freeSet = h.freeSet := rfl

@[simp] theorem setRegion_opts (h : Heap) (i : Nat) (r : HeapRegion) :
    (h.setRegion i r).opts = h.opts := rfl

@[simp] theorem setRegion_memStart (h : Heap) (i : Nat) (r : HeapRegion) :
    (h.setRegion i r).memStart = h.memStart := rfl

@[simp] theorem setFreeSet_regions (h : Heap) (fs : RegionFreeSet) :
    (h.setFreeSet fs).regions = h.regions := rfl

@[simp] theorem setFreeSet_freeSet (h : Heap) (fs : RegionFreeSet) :
    (h.setFreeSet fs).freeSet = fs := rfl

@[simp] theorem setFreeSet_opts (h : Heap) (fs : RegionFreeSet) :
    (h.setFreeSet fs).opts = h.opts := rfl

@[simp] theorem setFreeSet_memStart (h : Heap) (fs : RegionFreeSet) :
    (h.setFreeSet fs).memStart = h.memStart := rfl

-- The step from `h` to `h'` concerns region `i` alone: no other region and no
-- other bit changes, and the bit of `i` is not set by it.
structure TouchesOnly (h h' : Heap) (i : Nat) : Prop where
  opts_eq : h'.opts = h.opts
  memStart_eq : h'.memStart = h.memStart
  max_eq : h'.freeSet.max = h.freeSet.max
  capacity_eq : h'.freeSet.capacity = h.freeSet.capacity
  others : ∀ j, j ≠ i → h'.regions j = h.regions j ∧
    h'.freeSet.isMutatorFree j = h.freeSet.isMutatorFree j
  frame : (h.regions i).SameFrame (h'.regions i)
  bit : h'.freeSet.isMutatorFree i = true → h.freeSet.isMutatorFree i = true
  within : h.freeSet.Within → h'.freeSet.Within

namespace TouchesOnly

variable {i : Nat}

theorem refl (h : Heap) (i : Nat) : h.TouchesOnly h i where
  opts_eq := rfl
  memStart_eq := rfl
  max_eq := rfl
  capacity_eq := rfl
  others := fun _ _ => ⟨rfl, rfl⟩
  frame := HeapRegion.SameFrame.refl _
  bit := id
  within := id

theorem trans {h'' : Heap} (a : h.TouchesOnly h' i) (b : h'.TouchesOnly h'' i) :
    h.TouchesOnly h'' i where
  opts_eq := b.opts_eq.trans a.opts_eq
  memStart_eq := b.memStart_eq.trans a.memStart_eq
  max_eq := b.max_eq.trans a.max_eq
  capacity_eq := b.capacity_eq.trans a.capacity_eq
  others := by
    intro j hj
    obtain ⟨hr, hb⟩ := a.others j hj
    obtain ⟨hr', hb'⟩ := b.others j hj
    exact ⟨hr'.trans hr, hb'.trans hb⟩
  frame := a.frame.trans b.frame
  bit := a.bit ∘ b.bit
  within := b.within ∘ a.within

theorem setRegion (h : Heap) (i : Nat) {r : HeapRegion} (hframe : (h.regions i).SameFrame r) :
    h.TouchesOnly (h.setRegion i r) i where
  opts_eq := rfl
  memStart_eq := rfl
  max_eq := rfl
  capacity_eq := rfl
  others := fun j hj => ⟨by simp [Function.update_of_ne hj], rfl⟩
  frame := by simpa using hframe
  bit := id
  within := id

theorem increaseUsed (h : Heap) (i count : Nat) :
    h.TouchesOnly (h.setFreeSet (h.freeSet.increaseUsed count)) i where
  opts_eq := rfl
  memStart_eq := rfl
  max_eq := rfl
  capacity_eq := rfl
  others := fun _ _ => ⟨rfl, rfl⟩
  frame := HeapRegion.SameFrame.refl _
  bit := id
  within := id

theorem notifyMutatorAlloc (h : Heap) (i bytes : Nat) :
    h.TouchesOnly (h.notifyMutatorAlloc bytes) i where
  opts_eq := rfl
  memStart_eq := rfl
  max_eq := rfl
  capacity_eq := rfl
  others := fun _ _ => ⟨rfl, rfl⟩
  frame := HeapRegion.SameFrame.refl _
  bit := id
  within := id

theorem commitIfNeeded (h : Heap) (i index : Nat) : h.TouchesOnly (h.commitIfNeeded index) i := by
  unfold Heap.commitIfNeeded
  split
  · exact ⟨rfl, rfl, rfl, rfl, fun _ _ => ⟨rfl, rfl⟩, HeapRegion.SameFrame.refl _, id, id⟩
  · exact refl h i

theorem tryRecycleTrashed (h : Heap) (i : Nat) : h.TouchesOnly (h.tryRecycleTrashed i) i := by
  unfold Heap.tryRecycleTrashed
  split
  · exact setRegion h i ⟨rfl, rfl, rfl, rfl⟩
  · exact refl h i

end TouchesOnly

-- What a retired region leaves behind, bit by bit.
theorem retireRegion_isMutatorFree (h : Heap) (i j : Nat) :
    (h.retireRegion i).freeSet.isMutatorFree j =
      if j = i then false else h.freeSet.isMutatorFree j := by
  unfold retireRegion
  simp only
  split <;> split <;>
    simp [RegionFreeSet.adjustBounds, RegionFreeSet.isMutatorFree, RegionFreeSet.setBit,
      RegionFreeSet.increaseUsed, notifyMutatorAlloc, Function.update_apply]

@[simp] theorem retireRegion_regions (h : Heap) (i : Nat) :
    (h.retireRegion i).regions = h.regions := by
  unfold retireRegion
  simp only
  split <;> rfl

theorem retireRegion_used (h : Heap) (i : Nat) :
    (h.retireRegion i).freeSet.used = h.freeSet.used + (h.regions i).free := by
  unfold retireRegion
  simp only
  split <;> split <;>
    simp [RegionFreeSet.adjustBounds, RegionFreeSet.setBit, RegionFreeSet.increaseUsed,
      notifyMutatorAlloc] <;> omega

theorem TouchesOnly.retireRegion (h : Heap) (i : Nat) : h.TouchesOnly (h.retireRegion i) i where
  opts_eq := by
    unfold Heap.retireRegion
    simp only
    split <;> rfl
  memStart_eq := by
    unfold Heap.retireRegion
    simp only
    split <;> rfl
  max_eq := by
    unfold Heap.retireRegion
    simp only
    split <;> split <;> rfl
  capacity_eq := by
    unfold Heap.retireRegion
    simp only
    split <;> split <;> rfl
  others := by
    intro j hj
    rw [retireRegion_regions, retireRegion_isMutatorFree, if_neg hj]
    exact ⟨rfl, rfl⟩
  frame := by
    rw [retireRegion_regions]
    exact HeapRegion.SameFrame.refl _
  bit := by
    rw [retireRegion_isMutatorFree, if_pos rfl]
    simp
  within := by
    intro hwithin
    have hcleared : ∀ fs : RegionFreeSet, fs.Within →
        (if (fs.setBit i false).touchesBounds i then (fs.setBit i false).adjustBounds
          else fs.setBit i false).Within := by
      intro fs hfs
      split
      · exact (hfs.clearBit i).adjustBounds
      · exact hfs.clearBit i
    unfold Heap.retireRegion
    simp only
    split
    · exact hcleared (h.freeSet.increaseUsed _) hwithin
    · exact hcleared h.freeSet hwithin

-- The size that is asked of the region.
def requestSize (h : Heap) (index : Nat) (req : AllocRequest) : Nat :=
  if h.opts.elasticTlab ∧ req.forLab then min req.size (alignDown (h.regions index).peekFree 16)
  else req.size

-- The elastic branch does not try a region with less than the minimum.
def Refuses (h : Heap) (index : Nat) (req : AllocRequest) : Prop :=
  (h.opts.elasticTlab = true ∧ req.forLab = true) ∧ h.requestSize index req < req.minSize

theorem regionAllocate_eq_ok {i size : Nat} {result : Option Nat × Heap}
    (hok : h.regionAllocate i size = .ok result) :
    ∃ r, (h.regions i).allocate size = .ok (result.1, r) ∧
      result.2 = (h.commitIfNeeded i).setRegion i r := by
  simp only [regionAllocate, Except.bind_eq_ok, Except.pure_eq_ok] at hok
  obtain ⟨found, hfound, rfl⟩ := hok
  exact ⟨found.2, hfound, rfl⟩

theorem allocateIn_cases {i size : Nat} {req : AllocRequest} {mem : Option Nat}
    (hok : h.allocateIn i req = .ok (size, mem, h')) :
    size = h.requestSize i req ∧
      ((h.Refuses i req ∧ mem = none ∧ h' = h) ∨
        (¬h.Refuses i req ∧ (∃ r, (h.regions i).allocate size = .ok (mem, r) ∧
          h' = (h.commitIfNeeded i).setRegion i r) ∧
          ((h.opts.elasticTlab = true ∧ req.forLab = true) → mem ≠ none))) := by
  unfold allocateIn at hok
  by_cases helastic : h.opts.elasticTlab = true ∧ req.forLab = true
  · have hsize : h.requestSize i req = min req.size (alignDown (h.regions i).peekFree 16) := by
      unfold requestSize
      rw [if_pos helastic]
    rw [if_pos helastic] at hok
    simp only [elasticAllocate, ← hsize] at hok
    by_cases hmin : req.minSize ≤ h.requestSize i req
    · rw [if_pos hmin] at hok
      simp only [Except.bind_eq_ok, Except.ensure_eq_ok, Except.pure_eq_ok, Prod.mk.injEq] at hok
      obtain ⟨result, halloc, _, hne, rfl, rfl⟩ := hok
      obtain ⟨r, hr, hh⟩ := regionAllocate_eq_ok halloc
      refine ⟨rfl, Or.inr ⟨fun hrefuse => ?_, ⟨r, hr, hh⟩, fun _ => hne⟩⟩
      have hlt := hrefuse.2
      omega
    · rw [if_neg hmin] at hok
      simp only [Except.pure_eq_ok, Prod.mk.injEq] at hok
      obtain ⟨rfl, rfl, rfl⟩ := hok
      exact ⟨rfl, Or.inl ⟨⟨helastic, Nat.lt_of_not_le hmin⟩, rfl, rfl⟩⟩
  · have hsize : h.requestSize i req = req.size := by
      unfold requestSize
      rw [if_neg helastic]
    rw [if_neg helastic] at hok
    simp only [Except.bind_eq_ok, Except.pure_eq_ok, Prod.mk.injEq] at hok
    obtain ⟨result, halloc, rfl, rfl⟩ := hok
    obtain ⟨r, hr, hh⟩ := regionAllocate_eq_ok halloc
    exact ⟨hsize.symm, Or.inr ⟨fun hrefuse => helastic hrefuse.1, ⟨r, hr, hh⟩,
      fun hlab => absurd hlab helastic⟩⟩

theorem TouchesOnly.allocateIn {i size : Nat} {req : AllocRequest} {mem : Option Nat}
    (hok : h.allocateIn i req = .ok (size, mem, h')) : h.TouchesOnly h' i := by
  obtain ⟨_, ⟨_, _, rfl⟩ | ⟨_, ⟨r, hr, rfl⟩, _⟩⟩ := allocateIn_cases hok
  · exact TouchesOnly.refl _ i
  · have hcommit := TouchesOnly.commitIfNeeded h i i
    obtain ⟨hframe, _⟩ := HeapRegion.allocate_sameFrame hr
    have hregion : (h.commitIfNeeded i).regions = h.regions := by
      unfold Heap.commitIfNeeded
      split <;> rfl
    exact hcommit.trans (TouchesOnly.setRegion _ i (hregion ▸ hframe))

theorem TouchesOnly.recordAllocation (h : Heap) (i : Nat) (req : AllocRequest) (size mem : Nat) :
    h.TouchesOnly (h.recordAllocation i req size mem) i := by
  have hused := TouchesOnly.increaseUsed h i size
  unfold Heap.recordAllocation
  simp only
  split
  · exact hused
  · exact hused.trans (TouchesOnly.setRegion _ i ⟨rfl, rfl, rfl, rfl⟩)

theorem recordAllocation_region (h : Heap) (i : Nat) (req : AllocRequest) (size mem : Nat) :
    (h.recordAllocation i req size mem).regions i = h.regions i ∨
      (h.recordAllocation i req size mem).regions i = (h.regions i).setStartBit mem := by
  unfold recordAllocation
  simp only
  split
  · exact Or.inl rfl
  · exact Or.inr (by simp)

-- Everything `try_allocate_in` can do.
theorem tryAllocateIn_cases {i : Nat} {req : AllocRequest} {result : AllocResult}
    (hok : h.tryAllocateIn i req = .ok (result, h')) :
    ∃ size mid, (h.tryRecycleTrashed i).allocateIn i req = .ok (size, result.mem, mid) ∧
      ((result.mem = none ∧ result.req = req ∧ h' = mid.retireRegion i) ∨
        ∃ mem, result.mem = some mem ∧ result.req = req.setActualSize size ∧
          h' = if (mid.recordAllocation i req size mem).allocCapacity i = 0 then
            (mid.recordAllocation i req size mem).retireRegion i
            else mid.recordAllocation i req size mem) := by
  simp only [tryAllocateIn, Except.bind_eq_ok, Except.ensure_eq_ok] at hok
  obtain ⟨_, _, _, _, ⟨size, mem, mid⟩, halloc, hrest⟩ := hok
  cases mem with
  | none =>
      simp only [Except.pure_eq_ok, Prod.mk.injEq] at hrest
      obtain ⟨rfl, rfl⟩ := hrest
      exact ⟨size, mid, halloc, Or.inl ⟨rfl, rfl, rfl⟩⟩
  | some mem =>
      simp only [Except.pure_eq_ok, Prod.mk.injEq] at hrest
      obtain ⟨rfl, rfl⟩ := hrest
      exact ⟨size, mid, halloc, Or.inr ⟨mem, rfl, rfl, rfl⟩⟩

theorem TouchesOnly.tryAllocateIn {i : Nat} {req : AllocRequest} {result : AllocResult}
    (hok : h.tryAllocateIn i req = .ok (result, h')) : h.TouchesOnly h' i := by
  obtain ⟨size, mid, halloc, hcases⟩ := tryAllocateIn_cases hok
  have hmid := (TouchesOnly.tryRecycleTrashed h i).trans (TouchesOnly.allocateIn halloc)
  rcases hcases with ⟨_, _, rfl⟩ | ⟨mem, _, _, rfl⟩
  · exact hmid.trans (TouchesOnly.retireRegion _ i)
  · have hrecord := hmid.trans (TouchesOnly.recordAllocation mid i req size mem)
    split
    · exact hrecord.trans (TouchesOnly.retireRegion _ i)
    · exact hrecord

end Heap

end Rsgc.Storage
