import Mathlib.Data.List.Find
import Rsgc.Storage.Store.Bounds

namespace Rsgc.Storage

namespace Heap

variable {h h' : Heap} {req : AllocRequest} {result : AllocResult}

-- What an elastic request finds in a region: a trashed region is recycled first,
-- and then has nothing on its free list.
def elasticRoom (h : Heap) (index : Nat) : Nat :=
  if (h.regions index).isTrash then 0 else alignDown (h.regions index).peekFree 16

def serves (h : Heap) (req : AllocRequest) (index : Nat) : Bool :=
  h.freeSet.isMutatorFree index && decide (req.minSize ≤ min req.size (h.elasticRoom index))

-- The region that an elastic request is served from.
def servingRegion (h : Heap) (req : AllocRequest) : Option Nat :=
  (boundsRange h.freeSet).find? (h.serves req)

theorem requestSize_tryRecycleTrashed {i : Nat}
    (helastic : h.opts.elasticTlab = true ∧ req.forLab = true) :
    (h.tryRecycleTrashed i).requestSize i req = min req.size (h.elasticRoom i) := by
  have hopts := (TouchesOnly.tryRecycleTrashed h i).opts_eq
  unfold requestSize
  rw [hopts, if_pos helastic]
  unfold elasticRoom tryRecycleTrashed
  by_cases htrash : (h.regions i).isTrash = true
  · have hpeek : (h.regions i).recycle.peekFree = 0 := by
      simp [HeapRegion.recycle, HeapRegion.peekFree, FreeList.peekFree, FreeList.clear,
        RawFreeList.peekFree, RawFreeList.clear]
    rw [if_pos htrash, if_pos htrash, setRegion_regions, Function.update_self, hpeek]
    rfl
  · rw [if_neg htrash, if_neg htrash]

-- A region serves an elastic request if it has the minimum, and is given up otherwise.
theorem tryAllocateIn_elastic {i : Nat} (helastic : h.opts.elasticTlab = true ∧ req.forLab = true)
    (hok : h.tryAllocateIn i req = .ok (result, h')) :
    (result.mem = none ↔ min req.size (h.elasticRoom i) < req.minSize) ∧
      (result.mem ≠ none → result.req.actualSize = min req.size (h.elasticRoom i)) := by
  obtain ⟨size, mid, halloc, hcases⟩ := tryAllocateIn_cases hok
  have hsize := requestSize_tryRecycleTrashed (i := i) helastic
  have hopts := (TouchesOnly.tryRecycleTrashed h i).opts_eq
  obtain ⟨hreq, ⟨hrefuses, hnone, _⟩ | ⟨haccepts, _, hsome⟩⟩ := allocateIn_cases halloc
  · refine ⟨⟨fun _ => ?_, fun _ => hnone⟩, fun hne => absurd hnone hne⟩
    rw [← hsize]
    exact hrefuses.2
  · have hne := hsome (by rw [hopts]; exact helastic)
    refine ⟨⟨fun hnone => absurd hnone hne, fun hlt => ?_⟩, fun _ => ?_⟩
    · rw [← hsize] at hlt
      exact absurd ⟨by rw [hopts]; exact helastic, hlt⟩ haccepts
    · rcases hcases with ⟨hnone, _, _⟩ | ⟨_, _, hset, _⟩
      · exact absurd hnone hne
      · rw [hset, ← hsize, ← hreq]
        rfl

theorem TouchesOnly.serves_eq {i j : Nat} (ht : h.TouchesOnly h' i) (req : AllocRequest)
    (hj : j ≠ i) :
    h'.elasticRoom j = h.elasticRoom j ∧ h'.serves req j = h.serves req j := by
  obtain ⟨hregion, hbit⟩ := ht.others j hj
  have hroom : h'.elasticRoom j = h.elasticRoom j := by
    unfold elasticRoom
    rw [hregion]
  refine ⟨hroom, ?_⟩
  unfold serves
  rw [hroom, hbit]

-- The loop stops at the first region that serves the request, and the regions
-- that it gave up before do not change what the others have.
theorem allocateSingleLoop_elastic {indices : List Nat} {inNewRegion : Bool}
    (helastic : h.opts.elasticTlab = true ∧ req.forLab = true) (hnodup : indices.Nodup)
    (hok : h.allocateSingleLoop req inNewRegion indices = .ok (result, h'))
    (hmem : result.mem ≠ none) :
    ∃ i, indices.find? (h.serves req) = some i ∧
      result.req.actualSize = min req.size (h.elasticRoom i) := by
  induction indices generalizing h inNewRegion with
  | nil =>
      simp only [Heap.allocateSingleLoop, Except.pure_eq_ok, Prod.mk.injEq] at hok
      obtain ⟨rfl, rfl⟩ := hok
      exact absurd rfl hmem
  | cons i rest ih =>
      obtain ⟨hnot, hrest⟩ := List.nodup_cons.mp hnodup
      unfold Heap.allocateSingleLoop at hok
      by_cases hbit : h.freeSet.isMutatorFree i = true
      · rw [if_pos hbit] at hok
        simp only [Except.bind_eq_ok] at hok
        obtain ⟨⟨tried, mid⟩, htry, hok⟩ := hok
        obtain ⟨hnone, hactual⟩ := tryAllocateIn_elastic helastic htry
        cases htried : tried.mem with
        | some mem =>
            simp only [htried, Except.pure_eq_ok, Prod.mk.injEq] at hok
            obtain ⟨rfl, rfl⟩ := hok
            have hserves : h.serves req i = true := by
              unfold serves
              have hge : ¬min req.size (h.elasticRoom i) < req.minSize := by
                intro hlt
                exact hmem (hnone.mpr hlt)
              simp [hbit, Nat.not_lt.mp hge]
            refine ⟨i, ?_, hactual hmem⟩
            rw [List.find?_cons_of_pos hserves]
        | none =>
            simp only [htried] at hok
            have ht := TouchesOnly.tryAllocateIn htry
            obtain ⟨j, hfound, hsize⟩ := ih (by rw [ht.opts_eq]; exact helastic) hrest hok
            have hsame : ∀ k ∈ rest, mid.serves req k = h.serves req k := by
              intro k hk
              refine (ht.serves_eq req fun heq => ?_).2
              rw [heq] at hk
              exact hnot hk
            have hji : j ≠ i := by
              rintro rfl
              exact hnot (List.mem_of_find?_eq_some hfound)
            have hrefuses : ¬h.serves req i = true := by
              have hlt := hnone.mp htried
              simp only [serves, hbit, Bool.true_and, decide_eq_true_eq]
              omega
            refine ⟨j, ?_, ?_⟩
            · rw [List.find?_cons_of_neg hrefuses, ← List.find?_congr hsame]
              exact hfound
            · rw [hsize, (ht.serves_eq req hji).1]
      · rw [if_neg hbit] at hok
        obtain ⟨j, hfound, hsize⟩ := ih helastic hrest hok
        have hrefuses : ¬h.serves req i = true := by
          simp [serves, hbit]
        refine ⟨j, ?_, hsize⟩
        rw [List.find?_cons_of_neg hrefuses, hfound]

theorem allocateSingleLoop_actualSize {indices : List Nat} {inNewRegion : Bool}
    (hrigid : ¬(h.opts.elasticTlab = true ∧ req.forLab = true))
    (hok : h.allocateSingleLoop req inNewRegion indices = .ok (result, h'))
    (hmem : result.mem ≠ none) : result.req.actualSize = req.size := by
  induction indices generalizing h inNewRegion with
  | nil =>
      simp only [Heap.allocateSingleLoop, Except.pure_eq_ok, Prod.mk.injEq] at hok
      obtain ⟨rfl, rfl⟩ := hok
      exact absurd rfl hmem
  | cons i rest ih =>
      unfold Heap.allocateSingleLoop at hok
      by_cases hbit : h.freeSet.isMutatorFree i = true
      · rw [if_pos hbit] at hok
        simp only [Except.bind_eq_ok] at hok
        obtain ⟨⟨tried, mid⟩, htry, hok⟩ := hok
        cases htried : tried.mem with
        | some mem =>
            simp only [htried, Except.pure_eq_ok, Prod.mk.injEq] at hok
            obtain ⟨rfl, rfl⟩ := hok
            obtain ⟨size, last, halloc, ⟨hnone, _, _⟩ | ⟨_, _, hset, _⟩⟩ :=
              tryAllocateIn_cases htry
            · exact absurd hnone hmem
            · obtain ⟨hsize, _⟩ := allocateIn_cases halloc
              have hopts := (TouchesOnly.tryRecycleTrashed h i).opts_eq
              unfold requestSize at hsize
              rw [hopts, if_neg hrigid] at hsize
              rw [hset, ← hsize]
              rfl
        | none =>
            simp only [htried] at hok
            have hopts := (TouchesOnly.tryAllocateIn htry).opts_eq
            exact ih (by rw [hopts]; exact hrigid) hok
      · rw [if_neg hbit] at hok
        exact ih hrigid hok

-- The condition under which a buffer is at least as long as the object it is for.
def HasRoom (h : Heap) (size : Nat) : Prop :=
  h.opts.elasticTlab = true → threadTlabSize h.opts ≤ h.opts.humongousThresholdBytes →
    ∀ i, h.servingRegion (labRequest h.opts) = some i → size ≤ h.elasticRoom i

instance (h : Heap) (size : Nat) : Decidable (h.HasRoom size) :=
  inferInstanceAs (Decidable (_ → _ → ∀ i ∈ h.servingRegion (labRequest h.opts), _))

theorem labRequest_actualSize {size : Nat} (hsize : size ≤ threadTlabSize h.opts)
    (hok : h.allocate (labRequest h.opts) = .ok (result, h')) (hmem : result.mem ≠ none) :
    size ≤ result.req.actualSize ↔ h.HasRoom size := by
  unfold Heap.allocate at hok
  change (if h.opts.humongousThresholdBytes < threadTlabSize h.opts then _ else _) = _ at hok
  by_cases hbig : h.opts.humongousThresholdBytes < threadTlabSize h.opts
  · have hroom : h.HasRoom size := fun _ hle => absurd hbig (Nat.not_lt.mpr hle)
    rw [if_pos hbig, Except.pure_eq_ok] at hok
    have hactual : result.req.actualSize = threadTlabSize h.opts := by
      rcases allocateContiguous_cases h (labRequest h.opts) with heq | ⟨beg, _, heq⟩
      · rw [hok] at heq
        obtain ⟨rfl, _⟩ := Prod.mk.inj heq
        exact absurd rfl hmem
      · rw [hok] at heq
        have hfst := congrArg (fun x => x.1.req.actualSize) heq
        rw [finishContiguous_result] at hfst
        exact hfst
    rw [hactual]
    exact iff_of_true hsize hroom
  · rw [if_neg hbig] at hok
    by_cases helastic : h.opts.elasticTlab = true
    · have hnodup : (boundsRange h.freeSet).Nodup := List.nodup_range'
      obtain ⟨i, hfound, hactual⟩ := allocateSingleLoop_elastic ⟨helastic, rfl⟩ hnodup hok hmem
      have hreq : (labRequest h.opts).size = threadTlabSize h.opts := rfl
      rw [hactual, hreq]
      constructor
      · intro hle _ _ j hj
        unfold servingRegion at hj
        rw [hfound] at hj
        obtain rfl := Option.some.inj hj
        omega
      · intro hroom
        have hle := hroom helastic (Nat.not_lt.mp hbig) i hfound
        omega
    · have hactual := allocateSingleLoop_actualSize (fun hlab => helastic hlab.1) hok hmem
      have hroom : h.HasRoom size := fun helastic' => absurd helastic' helastic
      rw [hactual]
      exact iff_of_true hsize hroom

-- The object lies inside the memory that the free set handed out for the buffer.
def Contained (h : Heap) (size mem : Nat) (tlab : ThreadLocalAllocBuffer) : Prop :=
  ∃ result h', h.allocate (labRequest h.opts) = .ok (result, h') ∧ result.mem = some mem ∧
    mem + size ≤ mem + result.req.actualSize ∧ tlab.start ≤ tlab.top ∧ tlab.top ≤ tlab.limit

-- A refill is contained exactly when the region that serves it has room for the object.
theorem refill_contained_iff (h h' : Heap) (size mem : Nat) (tlab : ThreadLocalAllocBuffer)
    (hsize : size ≤ threadTlabSize h.opts) (hok : h.refill size = .ok (some (mem, tlab), h')) :
    h.Contained size mem tlab ↔ h.HasRoom size := by
  obtain ⟨result, mid, halloc, ⟨_, hnone, _⟩ | ⟨mem', hmem, hfound, _⟩⟩ := refill_cases hok
  · cases hnone
  · obtain ⟨rfl, rfl⟩ := Prod.mk.inj (Option.some.inj hfound)
    rw [← labRequest_actualSize hsize halloc (by simp [hmem])]
    constructor
    · rintro ⟨result', mid', halloc', _, hle, _⟩
      rw [halloc] at halloc'
      obtain ⟨rfl, _⟩ := Prod.mk.inj (Except.ok.inj halloc')
      omega
    · intro hle
      refine ⟨result, mid, halloc, hmem, by omega, ?_, ?_⟩
      · simp [ThreadLocalAllocBuffer.initialize_]
      · simpa [ThreadLocalAllocBuffer.initialize_] using hle

theorem refill_contained_iff_small : ∃ h h' mem tlab,
    Heap.refill h 16 = .ok (some (mem, tlab), h') ∧ (h.Contained 16 mem tlab ↔ h.HasRoom 16) := by
  have hrefill : ((newStore .small).toOption.map fun s =>
      match s.heap.refill 16 with
      | .ok (some _, _) => true
      | _ => false) = some true := by decide +kernel
  obtain ⟨s, hs, hfound⟩ := Option.map_eq_some_iff.mp hrefill
  split at hfound
  · rename_i found h' hok
    obtain ⟨mem, tlab⟩ := found
    have hopts : s.heap.opts = HeapConfig.small.opts :=
      (Store.newStore_offers (Except.toOption_eq_some.mp hs)).opts_eq
    have hsize : 16 ≤ threadTlabSize s.heap.opts := by
      rw [hopts]
      decide
    exact ⟨s.heap, h', mem, tlab, hok, refill_contained_iff s.heap h' 16 mem tlab hsize hok⟩
  · cases hfound

-- After the first allocations a region is left with 3056 bytes, the minimum of an
-- elastic buffer is 2048, and so the object of 4096 bytes overruns its buffer.
theorem refill_overruns_buffer : ∃ s h' mem tlab, (storeMachine .elastic .satb).Reachable s ∧
    4096 ≤ threadTlabSize s.heap.opts ∧ s.heap.refill 4096 = .ok (some (mem, tlab), h') ∧
      ¬s.heap.Contained 4096 mem tlab := by
  have hrun : ((newStore .elastic).toOption.bind fun s =>
      (storeMachine .elastic .satb).run s [.shared 4096, .shared 1024, .shared 16]).map (fun s =>
        match s.heap.refill 4096 with
        | .ok (some (_, tlab), _) => decide (tlab.limit < tlab.top)
        | _ => false) = some true := by decide +kernel
  obtain ⟨s, hs, hcheck⟩ := Option.map_eq_some_iff.mp hrun
  obtain ⟨start, hstart, hs⟩ := Option.bind_eq_some_iff.mp hs
  have hreachable : (storeMachine .elastic .satb).Reachable s :=
    Machine.run_reachable (Machine.Via.init (Except.toOption_eq_some.mp hstart)) hs
  have hopts : s.heap.opts = HeapConfig.elastic.opts := (Store.offers_of_reachable hreachable).opts_eq
  split at hcheck
  · rename_i mem tlab h' hok
    refine ⟨s, h', mem, tlab, hreachable, by rw [hopts]; decide, hok, ?_⟩
    rintro ⟨_, _, _, _, _, _, htop⟩
    have hover := of_decide_eq_true hcheck
    omega
  · cases hcheck

end Heap

end Rsgc.Storage
