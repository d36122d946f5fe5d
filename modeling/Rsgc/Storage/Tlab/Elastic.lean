import Rsgc.Storage.Tlab.Refill

namespace Rsgc.Storage

namespace Heap

variable {h h' : Heap} {req : AllocRequest} {result : AllocResult}

-- A free block of at least `size` bytes; an empty or trashed region is one block.
def HasBlock (h : Heap) (index size : Nat) : Prop :=
  if (h.regions index).isEmpty ∨ (h.regions index).isTrash then size ≤ h.opts.regionSizeBytes
  else ∃ e ∈ (h.regions index).freeList.entries, size ≤ e.size

-- A request fails only where no region of the free set has a block for it, and
-- otherwise gets something between its minimum and what it asked for.
def UsesAllSpace (h : Heap) (req : AllocRequest) : Prop :=
  ∀ result h', h.allocateSingle req = .ok (result, h') →
    (result.mem = none → ∀ i, h.freeSet.isMutatorFree i = true → ¬h.HasBlock i req.minSize) ∧
    (result.mem ≠ none →
      req.minSize ≤ result.req.actualSize ∧ result.req.actualSize ≤ req.size)

theorem serves_eq_true {i : Nat} (hmin : req.minSize ≤ req.size) : h.serves req i = true ↔
    h.freeSet.isMutatorFree i = true ∧ req.minSize ≤ h.elasticRoom i := by
  simp [serves, hmin]

theorem mem_boundsRange {fs : RegionFreeSet} {i : Nat} (h : fs.Within)
    (hi : fs.isMutatorFree i = true) : i ∈ boundsRange fs := by
  obtain ⟨hlow, hhigh⟩ := h i hi
  apply List.mem_range'_1.mpr
  omega

-- An offered region with less than the minimum is given up, without a panic.
theorem tryAllocateIn_refuses {i : Nat} (helastic : h.opts.elasticTlab = true ∧ req.forLab = true)
    (ho : h.Offered i) (hlt : min req.size (h.elasticRoom i) < req.minSize) :
    ∃ inNewRegion h', h.tryAllocateIn i req = .ok (⟨none, req, inNewRegion⟩, h') := by
  have hopts := (TouchesOnly.tryRecycleTrashed h i).opts_eq
  have hsize := requestSize_tryRecycleTrashed (i := i) helastic
  unfold requestSize at hsize
  rw [hopts, if_pos helastic] at hsize
  have hallocate : (h.tryRecycleTrashed i).allocateIn i req =
      .ok (min req.size (h.elasticRoom i), none, h.tryRecycleTrashed i) := by
    unfold allocateIn elasticAllocate
    rw [hopts, if_pos helastic]
    simp only [hsize]
    rw [if_neg (Nat.not_le.mpr hlt)]
    rfl
  refine ⟨((h.tryRecycleTrashed i).regions i).isEmpty, (h.tryRecycleTrashed i).retireRegion i, ?_⟩
  simp [tryAllocateIn, ensure, ho.swept, ho.capacity, hallocate]

-- By induction on the regions ahead: the one that is given up changes no other.
theorem allocateSingleLoop_refuses {indices : List Nat} (inNewRegion : Bool)
    (helastic : h.opts.elasticTlab = true ∧ req.forLab = true) (hs : h.Sound)
    (hnodup : indices.Nodup) (hnone : ∀ i ∈ indices, h.serves req i = false) :
    ∃ result h', h.allocateSingleLoop req inNewRegion indices = .ok (result, h') ∧
      result.mem = none := by
  induction indices generalizing h inNewRegion with
  | nil => exact ⟨_, _, rfl, rfl⟩
  | cons i rest ih =>
      obtain ⟨hnot, hrest⟩ := List.nodup_cons.mp hnodup
      unfold Heap.allocateSingleLoop
      by_cases hbit : h.freeSet.isMutatorFree i = true
      · have hlt : min req.size (h.elasticRoom i) < req.minSize := by
          have hrefuses := hnone i List.mem_cons_self
          simp only [serves, hbit, Bool.true_and, decide_eq_false_iff_not] at hrefuses
          exact Nat.lt_of_not_le hrefuses
        obtain ⟨inNew, mid, htry⟩ := tryAllocateIn_refuses helastic (hs.offered i hbit) hlt
        have ht := TouchesOnly.tryAllocateIn htry
        rw [if_pos hbit, htry]
        refine ih inNew (by rw [ht.opts_eq]; exact helastic) (hs.tryAllocateIn hbit htry) hrest ?_
        intro k hk
        have hki : k ≠ i := by
          rintro rfl
          exact hnot hk
        rw [(ht.serves_eq req hki).2]
        exact hnone k (List.mem_cons_of_mem _ hk)
      · rw [if_neg hbit]
        exact ih inNewRegion helastic hs hrest fun k hk => hnone k (List.mem_cons_of_mem _ hk)

-- The loop finds nothing only where no region serves the request.
theorem allocateSingleLoop_none {indices : List Nat} {inNewRegion : Bool}
    (helastic : h.opts.elasticTlab = true ∧ req.forLab = true) (hnodup : indices.Nodup)
    (hok : h.allocateSingleLoop req inNewRegion indices = .ok (result, h'))
    (hmem : result.mem = none) : ∀ i ∈ indices, h.serves req i = false := by
  induction indices generalizing h inNewRegion with
  | nil => simp
  | cons i rest ih =>
      obtain ⟨hnot, hrest⟩ := List.nodup_cons.mp hnodup
      unfold Heap.allocateSingleLoop at hok
      by_cases hbit : h.freeSet.isMutatorFree i = true
      · rw [if_pos hbit] at hok
        simp only [Except.bind_eq_ok] at hok
        obtain ⟨⟨tried, mid⟩, htry, hok⟩ := hok
        obtain ⟨hnone, -⟩ := tryAllocateIn_elastic helastic htry
        cases htried : tried.mem with
        | some mem =>
            simp only [htried, Except.pure_eq_ok, Prod.mk.injEq] at hok
            obtain ⟨rfl, rfl⟩ := hok
            rw [htried] at hmem
            cases hmem
        | none =>
            simp only [htried] at hok
            have ht := TouchesOnly.tryAllocateIn htry
            have hahead := ih (by rw [ht.opts_eq]; exact helastic) hrest hok
            intro k hk
            rcases List.mem_cons.mp hk with rfl | hrestk
            · have hlt := hnone.mp htried
              simp only [serves, Nat.not_le.mpr hlt, decide_false, Bool.and_false]
            · have hki : k ≠ i := by
                rintro rfl
                exact hnot hrestk
              rw [← (ht.serves_eq req hki).2]
              exact hahead k hrestk
      · rw [if_neg hbit] at hok
        intro k hk
        rcases List.mem_cons.mp hk with rfl | hk
        · simp [serves, hbit]
        · exact ih helastic hrest hok k hk

-- An elastic request uses all the space exactly where some region serves it, or
-- none has a block for it.
theorem usesAllSpace_iff (h : Heap) (req : AllocRequest) (hs : h.Sound)
    (helastic : h.opts.elasticTlab = true) (hlab : req.forLab = true)
    (hmin : req.minSize ≤ req.size) :
    h.UsesAllSpace req ↔
      (∃ i, h.freeSet.isMutatorFree i = true ∧ req.minSize ≤ h.elasticRoom i) ∨
        ∀ i, h.freeSet.isMutatorFree i = true → ¬h.HasBlock i req.minSize := by
  have hnodup : (boundsRange h.freeSet).Nodup := List.nodup_range'
  constructor
  · intro huses
    by_cases hserved : ∃ i, h.serves req i = true
    · obtain ⟨i, hi⟩ := hserved
      exact Or.inl ⟨i, (serves_eq_true hmin).mp hi⟩
    · have hnone (i : Nat) : h.serves req i = false := by
        simpa using fun hi => hserved ⟨i, hi⟩
      obtain ⟨result, h', hok, hmem⟩ :=
        allocateSingleLoop_refuses false ⟨helastic, hlab⟩ hs hnodup fun i _ => hnone i
      exact Or.inr ((huses result h' hok).1 hmem)
  · intro hcond result h' hok
    refine ⟨fun hmem => ?_, fun hmem => ?_⟩
    · have hnone := allocateSingleLoop_none ⟨helastic, hlab⟩ hnodup hok hmem
      refine hcond.resolve_left fun ⟨i, hbit, hroom⟩ => ?_
      have hserves := hnone i (mem_boundsRange hs.within hbit)
      rw [(serves_eq_true hmin).mpr ⟨hbit, hroom⟩] at hserves
      cases hserves
    · obtain ⟨i, hfound, hactual⟩ :=
        allocateSingleLoop_elastic ⟨helastic, hlab⟩ hnodup hok hmem
      have hroom := ((serves_eq_true hmin).mp (List.find?_some hfound)).2
      rw [hactual]
      exact ⟨le_min hmin hroom, min_le_left _ _⟩

-- After three allocations the first region serves a buffer.
theorem usesAllSpace_iff_small : ∃ h : Heap,
    (h.UsesAllSpace ⟨2048, 4096, 0, .forLab⟩ ↔
      (∃ i, h.freeSet.isMutatorFree i = true ∧ 2048 ≤ h.elasticRoom i) ∨
        ∀ i, h.freeSet.isMutatorFree i = true → ¬h.HasBlock i 2048) ∧
      h.freeSet.isMutatorFree 0 = true ∧ 2048 ≤ h.elasticRoom 0 := by
  have hrun : ((newStore .elastic).toOption.bind fun s =>
      (storeMachine .elastic .satb).run s [.shared 4096, .shared 1024, .shared 16]).map (fun s =>
        (s.heap.freeSet.isMutatorFree 0, decide (2048 ≤ s.heap.elasticRoom 0))) =
          some (true, true) := by
    decide +kernel
  obtain ⟨s, hs, hcheck⟩ := Option.map_eq_some_iff.mp hrun
  obtain ⟨start, hstart, hs⟩ := Option.bind_eq_some_iff.mp hs
  have hoffers := Store.offers_of_reachable
    (Machine.run_reachable (Machine.Via.init (Except.toOption_eq_some.mp hstart)) hs)
  have helastic : s.heap.opts.elasticTlab = true := by
    rw [hoffers.opts_eq]
    rfl
  obtain ⟨hbit, hroom⟩ := Prod.mk.inj hcheck
  exact ⟨s.heap, usesAllSpace_iff s.heap ⟨2048, 4096, 0, .forLab⟩ hoffers.sound helastic rfl
    (by decide), hbit, of_decide_eq_true hroom⟩

-- All five regions of a new heap are empty, and the free lists that the request
-- looks at are filled only by the allocation itself.
theorem empty_regions_not_used : ∃ s, (storeMachine .elastic .satb).Reachable s ∧
    s.heap.opts.elasticTlab = true ∧ ¬s.heap.UsesAllSpace ⟨2048, 4096, 0, .forLab⟩ := by
  have hrun : ((newStore .elastic).toOption).map (fun s =>
      match s.heap.allocateSingle ⟨2048, 4096, 0, .forLab⟩ with
      | .ok (result, _) => (result.mem.isNone, s.heap.freeSet.isMutatorFree 0,
          (s.heap.regions 0).isEmpty, decide (2048 ≤ s.heap.opts.regionSizeBytes))
      | .error _ => (false, false, false, false)) = some (true, true, true, true) := by
    decide +kernel
  obtain ⟨s, hs, hcheck⟩ := Option.map_eq_some_iff.mp hrun
  have hinit : (storeMachine .elastic .satb).Reachable s :=
    Machine.Via.init (Except.toOption_eq_some.mp hs)
  have hopts := (Store.offers_of_reachable hinit).opts_eq
  refine ⟨s, hinit, by rw [hopts]; rfl, fun huses => ?_⟩
  split at hcheck
  · rename_i result h' hok
    simp only [Prod.mk.injEq] at hcheck
    obtain ⟨hnone, hbit, hempty, hsize⟩ := hcheck
    refine (huses result h' hok).1 (Option.isNone_iff_eq_none.mp hnone) 0 hbit ?_
    unfold HasBlock
    rw [if_pos (Or.inl hempty)]
    exact of_decide_eq_true hsize
  · cases hcheck

end Heap

end Rsgc.Storage
