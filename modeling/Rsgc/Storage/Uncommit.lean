import Mathlib.Algebra.Group.Action.Defs
import Mathlib.Algebra.Order.BigOperators.Group.List
import Rsgc.Storage.Store.Accounting
import Rsgc.Storage.Store.Commit

namespace Rsgc.Storage

-- Where the controller is in `entry_uncommit`: the regions below `left` are still
-- to be visited, or `index` was found empty and the heap lock is not taken yet.
inductive UncommitPlace
  | outside
  | scanning (left : Nat)
  | locking (index : Nat)
deriving DecidableEq, Repr

structure Uncommitting where
  store : Store
  place : UncommitPlace

-- `check` is the test without the lock, where `old` compares the `empty_time` of
-- the region; `act` is all that happens under the lock.
inductive UncommitEvent
  | store (e : StoreEvent)
  | enter
  | check (old : Bool)
  | act

def StoreEvent.isCancel : StoreEvent → Bool
  | .cancel => true
  | _ => false

namespace HeapRegion

def isEmptyCommited (r : HeapRegion) : Bool := r.typ == .emptyCommited

-- Memory that was given back to the system reads as zero.
def doDecommit (r : HeapRegion) : HeapRegion :=
  { r with
    freeList := r.freeList.clear
    typ := .emptyUncommited
    words := fun _ => ⟨0, true⟩ }

end HeapRegion

def Heap.doDecommit (h : Heap) (index : Nat) : Heap :=
  { h.setRegion index (h.regions index).doDecommit with
    commited := wrapSub h.commited (h.regions index).size }

-- `min_capacity`, for a heap with the given `min_heap_size`
def HeapOptions.minCapacity (opts : HeapOptions) (minHeapSize : Nat) : Nat :=
  minHeapSize / opts.regionSizeBytes * opts.regionSizeBytes

namespace Uncommitting

-- The collector runs on the thread that uncommits; the mutators run beside it.
def Enabled (s : Uncommitting) (e : StoreEvent) : Prop :=
  s.place = .outside ∨ e.isMutator = true ∨ e.isCancel = true

instance (s : Uncommitting) (e : StoreEvent) : Decidable (s.Enabled e) :=
  inferInstanceAs (Decidable (_ ∨ _ ∨ _))

-- `service_uncommit` looks for work first; what it finds may be gone when it enters.
def step (mode : BarrierMode) (minHeapSize : Nat) (s : Uncommitting) :
    UncommitEvent → Option Uncommitting
  | .store e => if s.Enabled e then (s.store.step mode e).map fun store => { s with store := store }
      else none
  | .enter =>
      if s.place = .outside ∧ s.store.phase = .idle ∧
          s.store.heap.opts.minCapacity minHeapSize < s.store.heap.commited then
        some { s with place := .scanning s.store.heap.numRegions }
      else none
  | .check old =>
      match s.place with
      | .scanning 0 => some { s with place := .outside }
      | .scanning (index + 1) =>
          some { s with
            place := if (s.store.heap.regions index).isEmptyCommited ∧ old = true then
              .locking index else .scanning index }
      | _ => none
  | .act =>
      match s.place with
      | .locking index =>
          -- the second check only guards the comparison of the capacities
          if (s.store.heap.regions index).isEmptyCommited ∧ s.store.heap.commited <
              s.store.heap.opts.minCapacity minHeapSize + s.store.heap.opts.regionSizeBytes then
            some { s with place := .outside }
          else some ⟨{ s.store with heap := s.store.heap.doDecommit index }, .scanning index⟩
      | _ => none

end Uncommitting

def uncommitMachine (c : HeapConfig) (mode : BarrierMode) (minHeapSize : Nat) :
    Machine Uncommitting UncommitEvent where
  init := fun s => newStore c = .ok s.store ∧ s.place = .outside
  step := Uncommitting.step mode minHeapSize

namespace Uncommitting

-- No request takes the region that was found empty before the heap lock is held.
-- The steps of the store are good as before.
def Untaken (mode : BarrierMode) (s : Uncommitting) : UncommitEvent → Prop
  | .store e => s.store.Roomy e ∧
      match s.place with
      | .locking index =>
          (s.store.step mode e).all (fun t => (t.heap.regions index).isEmptyCommited) = true
      | _ => True
  | _ => True

instance (mode : BarrierMode) (s : Uncommitting) :
    (e : UncommitEvent) → Decidable (s.Untaken mode e)
  | .store e => by
      unfold Untaken
      cases s.place <;> infer_instance
  | .enter | .check _ | .act => inferInstanceAs (Decidable True)

end Uncommitting

namespace Heap

variable {c : HeapConfig} {h : Heap} {held : Nat → List Space} {i : Nat}

theorem doDecommit_sameFrame (r : HeapRegion) : r.SameFrame r.doDecommit := ⟨rfl, rfl, rfl, rfl⟩

theorem doDecommit_touchesOnly (h : Heap) (i : Nat) : h.TouchesOnly (h.doDecommit i) i := by
  have hset := TouchesOnly.setRegion h i (doDecommit_sameFrame (h.regions i))
  exact ⟨hset.opts_eq, hset.memStart_eq, hset.max_eq, hset.capacity_eq, hset.others, hset.frame,
    hset.bit, hset.within⟩

theorem doDecommit_region (h : Heap) (i : Nat) :
    (h.doDecommit i).regions i = (h.regions i).doDecommit := by
  simp [doDecommit]

theorem Sound.doDecommit (hs : h.Sound) (hp : h.Placed c) :
    (h.doDecommit i).Sound := by
  refine hs.touch (doDecommit_touchesOnly h i) fun hbit => ?_
  have ho := hs.offered i hbit
  have hempty : (h.regions i).doDecommit.isEmpty = true := rfl
  refine ⟨ho.lt, Or.inl ?_, ?_, ?_⟩
  · rw [doDecommit_region]
    unfold HeapRegion.isAllocAllowed
    rw [hempty, Bool.or_true]
  · rw [doDecommit_region]
    exact ho.swept
  · have hpos := c.geometry.size_pos
    have hsize : (h.regions i).doDecommit.free = (h.regions i).size := rfl
    unfold allocCapacity
    rw [doDecommit_region]
    change (h.regions i).doDecommit.free ≠ 0
    rw [hsize, hp.size_eq]
    omega

-- An empty region is as empty without its memory.
theorem Laid.doDecommit (hl : h.Laid held) (hi : i < h.numRegions)
    (htyp : (h.regions i).typ = .emptyCommited) : held i = [] ∧ (h.doDecommit i).Laid held := by
  have hlayout := hl.region i hi
  unfold HeapRegion.Layout at hlayout
  rw [htyp] at hlayout
  obtain ⟨hnil, _, _, hbits⟩ := hlayout
  have hsame : Function.update held i [] = held := by
    rw [← hnil, Function.update_eq_self]
  refine ⟨hnil, ?_⟩
  have htouched := hl.touch [] (doDecommit_touchesOnly h i) (fun _ => ?_) (by simp [htyp])
    (by simp [doDecommit_region, HeapRegion.doDecommit]) (by simp)
  · rwa [hsame] at htouched
  · rw [doDecommit_region]
    exact ⟨rfl, FreeList.entries_clear _, rfl, hbits⟩

theorem maxHeapSize_lt (c : HeapConfig) :
    c.opts.regionCount * c.opts.regionSizeBytes < usizeRange := by
  rw [← c.geometry.heap_eq]
  have hsetup := c.setup
  simp only [setupSizes, Except.bind_eq_ok, Except.pure_eq_ok] at hsetup
  obtain ⟨_, -, -, -, _, -, _, -, maxHeap, hmax, _, -, heq⟩ := hsetup
  rw [← heq]
  exact (alignUsize_eq_ok hmax).2.2

theorem commitedBytes_le (hp : h.Placed c) :
    h.commitedBytes ≤ c.opts.regionCount * c.opts.regionSizeBytes := by
  have hregion : ∀ size ∈ (List.range h.numRegions).map fun i => (h.regions i).commitedSize,
      size ≤ c.opts.regionSizeBytes := by
    intro size hsize
    obtain ⟨j, _, rfl⟩ := List.mem_map.mp hsize
    rw [← hp.size_eq j]
    unfold HeapRegion.commitedSize
    split <;> omega
  have hsum := List.sum_le_card_nsmul _ _ hregion
  rwa [List.length_map, List.length_range, smul_eq_mul, ← commitedBytes, hp.numRegions_eq] at hsum

-- The counter does not wrap, and it loses the size of one region.
theorem doDecommit_commited (hp : h.Placed c) (hi : i < h.numRegions)
    (hcounted : h.commited = h.commitedBytes) (htyp : (h.regions i).typ = .emptyCommited) :
    (h.doDecommit i).commited + c.opts.regionSizeBytes = h.commited ∧
      (h.doDecommit i).commited = (h.doDecommit i).commitedBytes := by
  have ht := doDecommit_touchesOnly h i
  have hsum := commitedBytes_exchange hi ht.opts_eq fun j hj => (ht.others j hj).1
  have hbefore : (h.regions i).commitedSize = c.opts.regionSizeBytes := by
    rw [HeapRegion.commitedSize_of_ne (by simp [htyp]), hp.size_eq]
  have hafter : ((h.doDecommit i).regions i).commitedSize = 0 := by
    rw [doDecommit_region]
    rfl
  have hle := commitedBytes_le hp
  have hlt := maxHeapSize_lt c
  have hcommited : (h.doDecommit i).commited = h.commited - c.opts.regionSizeBytes := by
    change wrapSub h.commited (h.regions i).size = _
    rw [hp.size_eq, wrapSub_eq (by omega) (by omega)]
  omega

end Heap

namespace Uncommitting

variable {c : HeapConfig} {mode : BarrierMode} {minHeapSize : Nat} {s t : Uncommitting}

structure Inv (c : HeapConfig) (s : Uncommitting) : Prop where
  offers : s.store.Offers c
  tidy : s.store.Tidy c
  counted : s.store.heap.commited = s.store.heap.commitedBytes
  scanned : ∀ left, s.place = .scanning left → left ≤ s.store.heap.numRegions
  locked : ∀ i, s.place = .locking i →
    i < s.store.heap.numRegions ∧ (s.store.heap.regions i).typ = .emptyCommited

theorem sum_range_below (m size n : Nat) :
    ((List.range n).map fun i => if i < m then size else 0).sum = min m n * size := by
  induction n with
  | zero => simp
  | succ n ih =>
      rw [List.range_succ, List.map_append, List.sum_append, ih, List.map_singleton,
        List.sum_singleton]
      split
      · rw [Nat.min_eq_right (by omega), Nat.min_eq_right (by omega), Nat.succ_mul]
      · rw [Nat.min_eq_left (by omega), Nat.min_eq_left (by omega), Nat.add_zero]

theorem newStore_counted {store : Store} (hs : newStore c = .ok store) :
    store.heap.commited = store.heap.commitedBytes := by
  obtain ⟨fs, _, heq⟩ := Store.newStore_eq c
  rw [heq] at hs
  obtain rfl := Except.ok.inj hs
  have hregion : ∀ i, ((newHeap c).regions i).commitedSize =
      if i < c.commited then c.opts.regionSizeBytes else 0 := by
    intro i
    unfold newHeap HeapRegion.new HeapRegion.recycle HeapRegion.commitedSize HeapRegion.isTrash
    by_cases hcommited : i < c.commited <;> simp [hcommited, HeapRegion.size]
  have hsum := sum_range_below c.commited c.opts.regionSizeBytes c.opts.regionCount
  change min c.commited c.opts.regionCount * c.opts.regionSizeBytes =
    ((List.range c.opts.regionCount).map fun i => ((newHeap c).regions i).commitedSize).sum
  rw [List.map_congr_left fun i _ => hregion i, hsum]

theorem Inv.step_store (h : s.Inv c) {e : StoreEvent} {store : Store}
    (hgood : s.Untaken mode (.store e)) (hstep : s.store.step mode e = some store) :
    Inv c { s with store := store } := by
  obtain ⟨hroomy, huntaken⟩ := hgood
  have hcommits := Store.step_commits h.offers h.tidy hstep
  have hbalance := hcommits.balance
  have hcounted := h.counted
  refine ⟨h.offers.step hstep, h.tidy.step h.offers hroomy hstep, by simp only; omega,
    fun left hplace => ?_, fun i hplace => ?_⟩
  · rw [hcommits.numRegions_eq]
    exact h.scanned left hplace
  · rw [hcommits.numRegions_eq]
    refine ⟨(h.locked i hplace).1, ?_⟩
    change s.place = .locking i at hplace
    rw [hplace] at huntaken
    simpa [hstep, HeapRegion.isEmptyCommited] using huntaken

theorem Inv.decommit (h : s.Inv c) {i : Nat} (hplace : s.place = .locking i) :
    Inv c ⟨{ s.store with heap := s.store.heap.doDecommit i }, .scanning i⟩ := by
  obtain ⟨hi, htyp⟩ := h.locked i hplace
  have hshape := (Heap.doDecommit_touchesOnly s.store.heap i).sameShape
  have hp := h.tidy.placed.sameShape hshape
  obtain ⟨_, hl⟩ := h.tidy.laid.doDecommit hi htyp
  obtain ⟨_, hcounted⟩ := Heap.doDecommit_commited h.tidy.placed hi h.counted htyp
  refine ⟨h.offers.mutate (h.offers.sound.doDecommit h.tidy.placed) hshape rfl rfl rfl,
    ⟨hp, hl, fun tlab htlab => (h.tidy.tlabs tlab htlab).placed h.tidy.placed hp,
      h.tidy.objects, h.tidy.pending⟩, hcounted, ?_, by simp⟩
  intro left hscan
  obtain rfl : i = left := by simpa using hscan
  exact Nat.le_of_lt hi

theorem Inv.step {e : UncommitEvent} (h : s.Inv c) (hgood : s.Untaken mode e)
    (hstep : s.step mode minHeapSize e = some t) : t.Inv c := by
  cases e with
  | store e =>
      simp only [Uncommitting.step] at hstep
      split at hstep
      · obtain ⟨store, hstore, rfl⟩ := Option.map_eq_some_iff.mp hstep
        exact h.step_store hgood hstore
      · cases hstep
  | enter =>
      obtain ⟨_, rfl⟩ := guard_eq_some.mp hstep
      refine ⟨h.offers, h.tidy, h.counted, fun left hscan => ?_, by simp⟩
      obtain rfl : s.store.heap.numRegions = left := by simpa using hscan
      exact Nat.le_refl _
  | check old =>
      simp only [Uncommitting.step] at hstep
      split at hstep
      · obtain rfl := Option.some.inj hstep
        exact ⟨h.offers, h.tidy, h.counted, by simp, by simp⟩
      · rename_i index hplace
        obtain rfl := Option.some.inj hstep
        have hle := h.scanned _ hplace
        refine ⟨h.offers, h.tidy, h.counted, fun left hscan => ?_, fun i hlock => ?_⟩
        · simp only at hscan
          split at hscan
          · cases hscan
          · obtain rfl := UncommitPlace.scanning.inj hscan
            exact Nat.le_of_succ_le hle
        · simp only at hlock
          split at hlock
          · rename_i hfound
            obtain rfl := UncommitPlace.locking.inj hlock
            exact ⟨hle, by simpa [HeapRegion.isEmptyCommited] using hfound.1⟩
          · cases hlock
      · cases hstep
  | act =>
      simp only [Uncommitting.step] at hstep
      split at hstep
      · rename_i index hplace
        split at hstep
        · obtain rfl := Option.some.inj hstep
          exact ⟨h.offers, h.tidy, h.counted, by simp, by simp⟩
        · obtain rfl := Option.some.inj hstep
          exact h.decommit hplace
      · cases hstep

theorem inv_of_via (hs : (uncommitMachine c mode minHeapSize).Via (Untaken mode) s) : s.Inv c := by
  refine Machine.Via.invariant (P := fun s => s.Inv c) ?_ ?_ hs
  · rintro s ⟨hinit, hplace⟩
    exact ⟨Store.newStore_offers hinit, Store.newStore_tidy hinit, newStore_counted hinit,
      by simp [hplace], by simp [hplace]⟩
  · exact fun s e t h hgood hstep => h.step hgood hstep

-- While the region that was found empty stays empty until the lock is held, only
-- such regions lose their memory, the counter agrees with the regions, and it
-- does not sink below the minimal capacity.
theorem uncommit_spares_used (c : HeapConfig) (mode : BarrierMode) (minHeapSize : Nat)
    (s : Uncommitting) (hs : (uncommitMachine c mode minHeapSize).Via (Untaken mode) s) :
    s.store.heap.commited = s.store.heap.commitedBytes ∧
      ∀ i t, s.place = .locking i → s.step mode minHeapSize .act = some t →
        (s.store.heap.regions i).typ = .emptyCommited ∧
        (∀ o ∈ s.store.objects, c.regionIndex o.addr ≠ i) ∧
        (t.store.heap = s.store.heap ∨
          c.opts.minCapacity minHeapSize ≤ t.store.heap.commited) := by
  have h := inv_of_via hs
  refine ⟨h.counted, fun i t hplace hstep => ?_⟩
  obtain ⟨hi, htyp⟩ := h.locked i hplace
  obtain ⟨hnil, _⟩ := h.tidy.laid.doDecommit hi htyp
  refine ⟨htyp, fun o ho hindex => ?_, ?_⟩
  · have hmem : o ∈ Store.held c s.store i :=
      List.mem_append_left _ (List.mem_filter.mpr ⟨ho, by simpa using hindex⟩)
    rw [hnil] at hmem
    cases hmem
  · have hempty : (s.store.heap.regions i).isEmptyCommited = true := by
      simp [HeapRegion.isEmptyCommited, htyp]
    obtain ⟨hless, _⟩ := Heap.doDecommit_commited h.tidy.placed hi h.counted htyp
    simp only [Uncommitting.step, hplace, hempty, true_and] at hstep
    split at hstep
    · obtain rfl := Option.some.inj hstep
      exact Or.inl rfl
    · rename_i henough
      obtain rfl := Option.some.inj hstep
      rw [h.tidy.placed.opts_eq] at henough
      exact Or.inr (by simp only; omega)

theorem uncommit_spares_used_small : ∃ s t, (uncommitMachine .small .satb 8192).Via
    (Untaken .satb) s ∧ s.place = .locking 9 ∧ s.step .satb 8192 .act = some t ∧
      t.store.heap.commited = 36864 ∧ (s.store.heap.regions 9).typ = .emptyCommited := by
  have hrun : ((newStore .small).toOption.bind fun store =>
      (uncommitMachine .small .satb 8192).runVia (Untaken .satb) ⟨store, .outside⟩
        [.store (.shared 64), .enter, .check true, .store (.shared 64)]).map (fun s =>
          (s.place, (s.step .satb 8192 .act).map (·.store.heap.commited))) =
            some (.locking 9, some 36864) := by decide +kernel
  obtain ⟨s, hs, hp⟩ := Option.map_eq_some_iff.mp hrun
  obtain ⟨start, hstart, hs⟩ := Option.bind_eq_some_iff.mp hs
  obtain ⟨hplace, hact⟩ := Prod.mk.inj hp
  obtain ⟨t, hact, hcommited⟩ := Option.map_eq_some_iff.mp hact
  have hinit : (uncommitMachine .small .satb 8192).init ⟨start, .outside⟩ :=
    ⟨Except.toOption_eq_some.mp hstart, rfl⟩
  have hvia := Machine.via_of_runVia (Machine.Via.init hinit) hs
  exact ⟨s, t, hvia, hplace, hact, hcommited,
    ((uncommit_spares_used .small .satb 8192 s hvia).2 9 t hplace hact).1⟩

-- A request takes the first region in the window; the controller still gives its
-- memory back, and the header of the new object is gone.
theorem uncommit_takes_used : ∃ s t, (uncommitMachine .small .satb 0).Reachable s ∧
    s.place = .locking 0 ∧ (s.store.heap.regions 0).typ = .regular ∧
      s.step .satb 0 .act = some t ∧ (t.store.heap.regions 0).typ = .emptyUncommited ∧
      (t.store.objects.map fun o => (o.addr, o.size)) = [(4096, 64)] ∧
      (t.store.heap.regions 0).words 4096 = ⟨0, true⟩ := by
  have hrun : ((newStore .small).toOption.bind fun store =>
      (uncommitMachine .small .satb 0).run ⟨store, .outside⟩
        ([.enter] ++ List.replicate 9 (.check false) ++ [.check true, .store (.shared 64)])).map
          (fun s => (s.place, (s.store.heap.regions 0).typ, (s.step .satb 0 .act).map fun t =>
            decide ((t.store.heap.regions 0).typ = .emptyUncommited ∧
              (t.store.objects.map fun o => (o.addr, o.size)) = [(4096, 64)] ∧
              (t.store.heap.regions 0).words 4096 = ⟨0, true⟩))) =
      some (.locking 0, .regular, some true) := by
    decide +kernel
  obtain ⟨s, hs, hp⟩ := Option.map_eq_some_iff.mp hrun
  obtain ⟨start, hstart, hs⟩ := Option.bind_eq_some_iff.mp hs
  obtain ⟨hplace, hp⟩ := Prod.mk.inj hp
  obtain ⟨hregular, hact⟩ := Prod.mk.inj hp
  obtain ⟨t, hact, hp⟩ := Option.map_eq_some_iff.mp hact
  obtain ⟨hgone, hobjects, hword⟩ := of_decide_eq_true hp
  have hinit : (uncommitMachine .small .satb 0).init ⟨start, .outside⟩ :=
    ⟨Except.toOption_eq_some.mp hstart, rfl⟩
  exact ⟨s, t, Machine.run_reachable (Machine.Via.init hinit) hs, hplace, hregular, hact, hgone,
    hobjects, hword⟩

end Uncommitting

end Rsgc.Storage
