import Mathlib.Algebra.BigOperators.Group.List.Basic
import Mathlib.Data.List.Perm.Basic
import Mathlib.Tactic.Ring
import Rsgc.Lib.Buckets
import Rsgc.Storage.FreeList

namespace Rsgc.Storage

section Buckets

theorem roundUpToPowerOfTwo32_succ (value : Nat) (hpos : 0 < value) (hle : value < 2 ^ 31) :
    roundUpToPowerOfTwo32 (value + 1) = 2 ^ (Nat.log2 value + 1) := by
  have hlog : Nat.log2 value < 31 := (Nat.log2_lt hpos.ne').mpr hle
  simp only [roundUpToPowerOfTwo32, Nat.succ_pos, if_true, Nat.add_sub_cancel, leadingZeros32,
    hpos.ne', if_false, Nat.shiftLeft_eq, Nat.one_mul]
  congr 1
  omega

theorem roundDownToPowerOfTwo32_eq (value : Nat) (hpos : 0 < value) (hlt : value < 2 ^ 32) :
    roundDownToPowerOfTwo32 value = 2 ^ Nat.log2 value := by
  unfold roundDownToPowerOfTwo32
  by_cases hbig : 0x80000000 < value
  · have hlog : Nat.log2 value = 31 :=
      (Nat.log2_eq_iff hpos.ne').mpr ⟨by omega, by omega⟩
    rw [if_pos hbig, hlog]
    rfl
  · rw [if_neg hbig]
    obtain ⟨pred, rfl⟩ : ∃ pred, value = pred + 1 := ⟨value - 1, by omega⟩
    rcases Nat.eq_zero_or_pos pred with rfl | hpred
    · rfl
    · have hup := roundUpToPowerOfTwo32_succ pred hpred (by omega)
      have hlow : 2 ^ Nat.log2 pred ≤ pred := Nat.log2_self_le hpred.ne'
      have hhigh : pred < 2 ^ (Nat.log2 pred + 1) := Nat.lt_log2_self
      simp only [hup]
      by_cases hround : pred + 1 < 2 ^ (Nat.log2 pred + 1)
      · have hlog : Nat.log2 (pred + 1) = Nat.log2 pred :=
          (Nat.log2_eq_iff (by omega)).mpr ⟨by omega, hround⟩
        rw [if_pos hround, hlog, Nat.shiftRight_one, Nat.pow_succ, Nat.mul_div_cancel _ (by omega)]
      · have hlog : Nat.log2 (pred + 1) = Nat.log2 pred + 1 := by
          have heq : pred + 1 = 2 ^ (Nat.log2 pred + 1) := by omega
          rw [heq, Nat.log2_two_pow]
        rw [if_neg hround, hlog]

theorem whichPowerOfTwo_two_pow (exponent : Nat) (h : exponent < 64) :
    whichPowerOfTwo (2 ^ exponent) = exponent := by
  have hfind : (List.range 64).find? (fun i => (2 ^ exponent).testBit i) = some exponent := by
    rw [List.find?_range_eq_some]
    refine ⟨by simp, by simpa using h, fun j hj => ?_⟩
    simp [hj.ne']
  simp [whichPowerOfTwo, hfind]

-- The bucket of a block is the floor of the logarithm of its truncated size.
-- Sizes that truncate to zero are sent to a bucket that no free list has.
theorem bucketIndexForSize_eq (size : Nat) :
    bucketIndexForSize size = if size % 2 ^ 32 = 0 then 64 else Nat.log2 (size % 2 ^ 32) := by
  unfold bucketIndexForSize
  have hlt : size % 2 ^ 32 < 2 ^ 32 := Nat.mod_lt _ (by omega)
  by_cases hzero : size % 2 ^ 32 = 0
  · rw [if_pos hzero, hzero]
    decide
  · rw [if_neg hzero, roundDownToPowerOfTwo32_eq _ (Nat.pos_of_ne_zero hzero) hlt]
    exact whichPowerOfTwo_two_pow _ (((Nat.log2_lt hzero).mpr hlt).trans (by omega))

theorem two_pow_bucketIndex_le (size : Nat) (h : bucketIndexForSize size < 64) :
    2 ^ bucketIndexForSize size ≤ size := by
  rw [bucketIndexForSize_eq] at h ⊢
  by_cases hzero : size % 2 ^ 32 = 0
  · rw [if_pos hzero] at h
    omega
  · rw [if_neg hzero]
    exact (Nat.log2_self_le hzero).trans (Nat.mod_le _ _)

-- A free list with a bucket for each power of two up to `2 ^ log` takes every
-- block of that size that the cast to `u32` does not turn into zero.
theorem bucketIndexForSize_lt_iff {size log : Nat} (hle : size ≤ 2 ^ log) (hlog : log < 64) :
    bucketIndexForSize size < log + 1 ↔ ¬2 ^ 32 ∣ size := by
  rw [bucketIndexForSize_eq, Nat.dvd_iff_mod_eq_zero]
  by_cases hzero : size % 2 ^ 32 = 0
  · rw [if_pos hzero]
    omega
  · have hlow : size % 2 ^ 32 ≤ size := Nat.mod_le _ _
    rw [if_neg hzero, Nat.log2_lt hzero, Nat.pow_succ]
    omega

theorem storedSize_le (size : Nat) : storedSize size ≤ size := by
  unfold storedSize
  split <;> omega

theorem storedSize_of_dvd {size : Nat} (h : 16 ∣ size) : storedSize size = size := by
  unfold storedSize
  split <;> omega

theorem le_storedSize {size : Nat} (h : 16 ≤ size) : 16 ≤ storedSize size := by
  unfold storedSize
  split <;> omega

theorem bucketIndexForSize_storedSize {size : Nat} (h : 16 ≤ size) :
    bucketIndexForSize (storedSize size) = bucketIndexForSize size := by
  unfold storedSize
  split
  · rename_i hsmall
    have hmax : MAX_SIZE_TAG < 2 ^ 17 := by decide
    have hne : size ≠ 0 := by omega
    have hmod : size % 2 ^ 32 = size := Nat.mod_eq_of_lt (by omega)
    have hmod' : size / 16 * 16 % 2 ^ 32 = size / 16 * 16 := Nat.mod_eq_of_lt (by omega)
    have hlog : Nat.log2 (size / 16 * 16) = Nat.log2 size := by
      have hself := Nat.log2_self_le hne
      have hge : 4 ≤ Nat.log2 size := (Nat.le_log2 hne).mpr h
      obtain ⟨k, hk⟩ : ∃ k, Nat.log2 size = 4 + k := ⟨_, (Nat.add_sub_of_le hge).symm⟩
      have hlt : size < 2 ^ (Nat.log2 size + 1) := Nat.lt_log2_self
      rw [Nat.log2_eq_iff (by omega)]
      rw [hk, Nat.pow_add] at hself ⊢
      exact ⟨by omega, by rw [hk] at hlt; omega⟩
    rw [bucketIndexForSize_eq, bucketIndexForSize_eq, hmod, hmod', hlog,
      if_neg hne, if_neg (by omega)]
  · rfl

-- A block of `size` bytes has the bucket of its size class, and the list has that bucket.
structure InOwnClass (opts : HeapOptions) (size : Nat) : Prop where
  index_eq : bucketIndexForSize size = Nat.log2 size
  index_lt : bucketIndexForSize size < (RawFreeList.new opts).buckets

-- Below 4 GiB the cast to `u32` keeps the size; above it the index is one of 32
-- bits, or that of zero.
theorem inOwnClass_iff (c : HeapConfig) {size : Nat} (hpos : 0 < size)
    (hle : size ≤ c.opts.regionSizeBytes) : InOwnClass c.opts size ↔ size < 2 ^ 32 := by
  have hbuckets : (RawFreeList.new c.opts).buckets = c.opts.regionSizeBytesShift + 1 := by
    rw [← c.geometry.log_eq]
    rfl
  constructor
  · intro hclass
    by_contra hlarge
    have hlog : 32 ≤ Nat.log2 size := (Nat.le_log2 hpos.ne').mpr (Nat.le_of_not_lt hlarge)
    have hlt := hclass.index_lt
    rw [hbuckets] at hlt
    have hindex := hclass.index_eq
    rw [bucketIndexForSize_eq] at hindex hlt
    have hshift := c.geometry.shift_lt
    by_cases hzero : size % 2 ^ 32 = 0
    · rw [if_pos hzero] at hlt
      omega
    · rw [if_neg hzero] at hindex
      have hshort : Nat.log2 (size % 2 ^ 32) < 32 :=
        (Nat.log2_lt hzero).mpr (Nat.mod_lt _ (by omega))
      omega
  · intro hsmall
    have hmod : size % 2 ^ 32 = size := Nat.mod_eq_of_lt hsmall
    have hindex : bucketIndexForSize size = Nat.log2 size := by
      rw [bucketIndexForSize_eq, hmod, if_neg hpos.ne']
    refine ⟨hindex, ?_⟩
    rw [hindex, hbuckets, Nat.log2_lt hpos.ne', Nat.pow_succ, ← c.geometry.size_eq]
    omega

theorem inOwnClass_iff_small : InOwnClass HeapConfig.small.opts 4096 ↔ 4096 < 2 ^ 32 :=
  inOwnClass_iff .small (by decide) (by decide)

-- Ten regions of 4 GiB.
def HeapConfig.wide : HeapConfig where
  pageSize := 4096
  args := {
    maxRegionSize := 0
    minRegionSize := 4096
    targetNumRegions := 0
    humongousThreshold := 50
    regionSize := 2 ^ 32
    elasticTlab := false
    minTlabSize := 2048
    tlabSize := 0
    tlabWasteTargetPercent := 1
    maxHeapSize := 10 * 2 ^ 32
    parallelRegionStride := 1
    parallelGcThreads := 1
    markLoopStride := 0
    maxSatbBufferSize := 1024 }
  opts := {
    regionSizeBytes := 2 ^ 32
    regionSizeWords := 2 ^ 29
    regionSizeBytesShift := 32
    regionSizeBytesMask := 2 ^ 32 - 1
    regionCount := 10
    humongousThresholdWords := 2 ^ 28
    humongousThresholdBytes := 2 ^ 31
    maxHeapSize := 10 * 2 ^ 32
    maxTlabSize := 2 ^ 29
    minTlabSize := 2048
    regionSizeLog2 := 32
    targetRefills := 50
    parallelGcThreads := 1
    parallelRegionStride := 1
    markLoopStride := 32
    maxSatbBufferSize := 1024 }
  page_ge := HeapConfig.small.page_ge
  setup := by rfl
  memStart := 2 ^ 32
  commited := 0

-- The block that fills such a region is sent to bucket 64 of 33.
theorem whole_region_out_of_bounds : ¬∀ size, 0 < size →
    size ≤ HeapConfig.wide.opts.regionSizeBytes →
      bucketIndexForSize size = Nat.log2 size ∧
        bucketIndexForSize size < (RawFreeList.new HeapConfig.wide.opts).buckets := by
  intro hall
  have hlt := (hall (2 ^ 32) (by decide) (by decide)).2
  revert hlt
  decide

end Buckets

namespace RawFreeList

variable {l : RawFreeList}

theorem entries_link_perm (index addr size : Nat) (h : index < l.buckets) :
    (l.link index addr size).entries.Perm (⟨addr, storedSize size⟩ :: l.entries) :=
  Rsgc.Buckets.entries_cons_perm l.heads h ⟨addr, storedSize size⟩

theorem entries_unlink_perm (index : Nat) (entry : Entry) (rest : List Entry)
    (h : index < l.buckets) (hhead : l.heads index = entry :: rest) :
    l.entries.Perm (entry :: (l.unlink index entry rest).entries) := by
  have hperm := Rsgc.Buckets.flatMap_update_perm l.heads index rest
    (List.range l.buckets) List.nodup_range (List.mem_range.mpr h)
  rw [hhead] at hperm
  change ((l.unlink index entry rest).entries ++ entry :: rest).Perm (rest ++ l.entries) at hperm
  have hfront : ((entry :: (l.unlink index entry rest).entries) ++ rest).Perm
      (l.entries ++ rest) :=
    (List.perm_middle.symm).trans (hperm.trans List.perm_append_comm)
  exact ((List.perm_append_right_iff rest).mp hfront).symm

theorem mem_entries_iff (hvalid : l.Valid) (e : Entry) : e ∈ l.entries ↔ ∃ i, e ∈ l.heads i := by
  simp only [entries, List.mem_flatMap, List.mem_range]
  exact ⟨fun ⟨i, _, he⟩ => ⟨i, he⟩, fun ⟨i, he⟩ => ⟨i, (hvalid.bucket i e he).1, he⟩⟩

theorem entries_eq_nil (h : ∀ i, l.heads i = []) : l.entries = [] :=
  List.flatMap_eq_nil_iff.mpr fun i _ => h i

theorem new_valid (opts : HeapOptions) (h : opts.regionSizeLog2 < 64) : (new opts).Valid where
  buckets_le := h
  sum_le := by simp [entries_eq_nil (l := new opts) fun _ => rfl]
  count_eq := by rw [entries_eq_nil (l := new opts) fun _ => rfl]; rfl
  bucket := by simp [new]
  above := by simp [new]
  tails_eq := by simp [new]

theorem clear_valid (hvalid : l.Valid) : l.clear.Valid where
  buckets_le := hvalid.buckets_le
  sum_le := by simp [entries_eq_nil (l := l.clear) fun _ => rfl]
  count_eq := by rw [entries_eq_nil (l := l.clear) fun _ => rfl]; rfl
  bucket := by simp [clear]
  above := by simp [clear]
  tails_eq := by simp [clear]

theorem link_valid (hvalid : l.Valid) {addr size : Nat} (hsize : 16 ≤ size)
    (hindex : bucketIndexForSize size < l.buckets) :
    (l.link (bucketIndexForSize size) addr size).Valid where
  buckets_le := hvalid.buckets_le
  sum_le := by
    have hperm := (entries_link_perm _ addr size hindex).map Entry.size
    have hsum := hvalid.sum_le
    have hstored := storedSize_le size
    rw [hperm.sum_eq]
    simp only [List.map_cons, List.sum_cons, link]
    omega
  count_eq := by
    rw [(entries_link_perm _ addr size hindex).length_eq]
    simp [link, hvalid.count_eq]
  bucket := by
    intro i e he
    simp only [link] at he
    by_cases hi : i = bucketIndexForSize size
    · subst hi
      rw [Function.update_self] at he
      rcases List.mem_cons.mp he with rfl | he
      · exact ⟨hindex, bucketIndexForSize_storedSize hsize, le_storedSize hsize⟩
      · exact hvalid.bucket _ e he
    · rw [Function.update_of_ne hi] at he
      exact hvalid.bucket i e he
  above := by
    intro i hi
    simp only [link, max_lt_iff] at hi ⊢
    rw [Function.update_of_ne (by omega)]
    exact hvalid.above i hi.1
  tails_eq := by
    intro i
    simp only [link]
    by_cases hi : i = bucketIndexForSize size
    · subst hi
      by_cases hempty : l.heads (bucketIndexForSize size) = []
      · simp [hempty]
      · obtain ⟨head, rest, hhead⟩ := List.exists_cons_of_ne_nil hempty
        have htail := hvalid.tails_eq (bucketIndexForSize size)
        rw [hhead] at htail
        simp [hhead, htail, List.getLast?_cons_cons]
    · rw [Function.update_of_ne hi]
      split
      · rw [Function.update_of_ne hi]
        exact hvalid.tails_eq i
      · exact hvalid.tails_eq i

theorem unlink_valid (hvalid : l.Valid) {index : Nat} {entry : Entry} {rest : List Entry}
    (hhead : l.heads index = entry :: rest) (habove : ∀ i, index < i → l.heads i = []) :
    (l.unlink index entry rest).Valid := by
  have hindex := (hvalid.bucket index entry (by simp [hhead])).1
  have hperm := entries_unlink_perm index entry rest hindex hhead
  refine ⟨hvalid.buckets_le, ?_, ?_, ?_, ?_, ?_⟩
  · have hsum := hvalid.sum_le
    rw [(hperm.map Entry.size).sum_eq] at hsum
    simp only [List.map_cons, List.sum_cons] at hsum
    simp only [unlink]
    exact Nat.le_sub_of_add_le' hsum
  · have hcount := hvalid.count_eq
    rw [hperm.length_eq, List.length_cons] at hcount
    simp only [unlink]
    exact (congrArg (· - 1) hcount).trans (Nat.add_sub_cancel _ 1)
  · intro i e he
    simp only [unlink] at he
    by_cases hi : i = index
    · subst hi
      rw [Function.update_self] at he
      exact hvalid.bucket i e (by simp [hhead, he])
    · rw [Function.update_of_ne hi] at he
      exact hvalid.bucket i e he
  · intro i hi
    simp only [unlink] at hi ⊢
    rw [Function.update_of_ne (by omega)]
    exact habove i hi
  · intro i
    simp only [unlink]
    by_cases hi : i = index
    · subst hi
      by_cases hempty : rest = []
      · simp [hempty]
      · obtain ⟨next, rest', rfl⟩ := List.exists_cons_of_ne_nil hempty
        have htail := hvalid.tails_eq i
        rw [hhead, List.getLast?_cons_cons] at htail
        simp [htail]
    · rw [Function.update_of_ne hi]
      split
      · rw [Function.update_of_ne hi]
        exact hvalid.tails_eq i
      · exact hvalid.tails_eq i

theorem lower_valid (hvalid : l.Valid) {index : Nat} (habove : ∀ i, index < i → l.heads i = []) :
    ({ l with biggest := index } : RawFreeList).Valid :=
  ⟨hvalid.buckets_le, hvalid.sum_le, hvalid.count_eq, hvalid.bucket, habove, hvalid.tails_eq⟩

theorem add_cases {addr size : Nat} {l' : RawFreeList} (h : l.add addr size = .ok l') :
    size ≠ 0 ∧ (size < ENTRY_SIZE ∧ l' = l ∨
      ENTRY_SIZE ≤ size ∧ bucketIndexForSize size < l.buckets ∧
        l' = l.link (bucketIndexForSize size) addr size) := by
  simp only [add, Except.bind_eq_ok, Except.ensure_eq_ok] at h
  obtain ⟨_, hne, h⟩ := h
  refine ⟨hne, ?_⟩
  by_cases hsmall : size < ENTRY_SIZE
  · rw [if_pos hsmall, Except.pure_eq_ok] at h
    exact Or.inl ⟨hsmall, h.symm⟩
  · simp only [hsmall, if_false, Except.bind_eq_ok, Except.ensure_eq_ok, Except.pure_eq_ok] at h
    obtain ⟨_, hindex, rfl⟩ := h
    exact Or.inr ⟨Nat.le_of_not_lt hsmall, hindex, rfl⟩

theorem add_valid (hvalid : l.Valid) {addr size : Nat} {l' : RawFreeList}
    (h : l.add addr size = .ok l') : l'.Valid := by
  obtain ⟨_, ⟨_, rfl⟩ | ⟨hsize, hindex, rfl⟩⟩ := add_cases h
  · exact hvalid
  · exact link_valid hvalid hsize hindex

theorem size_ge_of_mem (hvalid : l.Valid) {i : Nat} {e : Entry} (he : e ∈ l.heads i) :
    2 ^ i ≤ e.size := by
  obtain ⟨hlt, hindex, _⟩ := hvalid.bucket i e he
  have hbuckets := hvalid.buckets_le
  have hle := two_pow_bucketIndex_le e.size (by omega)
  rwa [hindex] at hle

-- `allocate` hands out the first entry of the highest bucket that has one, when
-- that entry is large enough, and otherwise changes the search bound only.
theorem allocateFrom_cases (hvalid : l.Valid) (allocationSize : Nat) (index : Nat)
    (habove : ∀ i, index < i → l.heads i = []) :
    (∃ i entry rest, l.heads i = entry :: rest ∧ allocationSize ≤ entry.size ∧
      (∀ j, i < j → l.heads j = []) ∧
      l.allocateFrom allocationSize index = (some entry, l.unlink i entry rest)) ∨
    (∃ i, (∀ j, i < j → l.heads j = []) ∧
      l.allocateFrom allocationSize index = (none, { l with biggest := i })) := by
  induction index with
  | zero => exact Or.inr ⟨0, habove, rfl⟩
  | succ index ih =>
      cases hhead : l.heads (index + 1) with
      | nil =>
          simp only [allocateFrom, hhead]
          by_cases hlarge : 2 ^ (index + 1) < allocationSize
          · rw [if_pos hlarge]
            exact Or.inr ⟨index + 1, habove, rfl⟩
          · rw [if_neg hlarge]
            apply ih
            intro i hi
            rcases Nat.eq_or_lt_of_le (Nat.succ_le_of_lt hi) with rfl | hi
            · exact hhead
            · exact habove i hi
      | cons entry rest =>
          simp only [allocateFrom, hhead]
          by_cases hsmall : 2 ^ (index + 1) < allocationSize ∧ entry.size < allocationSize
          · rw [if_pos hsmall]
            exact Or.inr ⟨index + 1, habove, rfl⟩
          · have hge := size_ge_of_mem hvalid (e := entry) (i := index + 1) (by simp [hhead])
            rw [if_neg hsmall]
            exact Or.inl ⟨index + 1, entry, rest, hhead, by omega, habove, rfl⟩

theorem allocate_cases (hvalid : l.Valid) (allocationSize : Nat) :
    (∃ i entry rest, l.heads i = entry :: rest ∧ allocationSize ≤ entry.size ∧
      (∀ j, i < j → l.heads j = []) ∧
      l.allocate allocationSize = (some entry, l.unlink i entry rest)) ∨
    (∃ i, (∀ j, i < j → l.heads j = []) ∧
      l.allocate allocationSize = (none, { l with biggest := i })) :=
  allocateFrom_cases hvalid allocationSize l.biggest hvalid.above

theorem allocate_valid (hvalid : l.Valid) (allocationSize : Nat) :
    (l.allocate allocationSize).2.Valid := by
  rcases allocate_cases hvalid allocationSize with
    ⟨i, entry, rest, hhead, _, habove, heq⟩ | ⟨i, habove, heq⟩
  · rw [heq]
    exact unlink_valid hvalid hhead habove
  · rw [heq]
    exact lower_valid hvalid habove

end RawFreeList

-- A free list that satisfies its representation invariant.
def FreeList : Type := { l : RawFreeList // l.Valid }

namespace FreeList

def new (opts : HeapOptions) (h : opts.regionSizeLog2 < 64) : FreeList :=
  ⟨RawFreeList.new opts, RawFreeList.new_valid opts h⟩

def add (l : FreeList) (addr size : Nat) : Except Panic FreeList :=
  match h : l.1.add addr size with
  | .ok l' => .ok ⟨l', RawFreeList.add_valid l.2 h⟩
  | .error p => .error p

def allocate (l : FreeList) (allocationSize : Nat) : Option Entry × FreeList :=
  ((l.1.allocate allocationSize).1,
    ⟨(l.1.allocate allocationSize).2, RawFreeList.allocate_valid l.2 allocationSize⟩)

def clear (l : FreeList) : FreeList := ⟨l.1.clear, RawFreeList.clear_valid l.2⟩

def free (l : FreeList) : Nat := l.1.freeBytes

def peekFree (l : FreeList) : Nat := l.1.peekFree

def entries (l : FreeList) : List Entry := l.1.entries

@[simp] theorem free_clear (l : FreeList) : l.clear.free = 0 := rfl

@[simp] theorem entries_clear (l : FreeList) : l.clear.entries = [] :=
  RawFreeList.entries_eq_nil fun _ => rfl

theorem sum_le (l : FreeList) : (l.entries.map Entry.size).sum ≤ l.free := l.2.sum_le

theorem size_le_free (l : FreeList) {e : Entry} (he : e ∈ l.entries) : e.size ≤ l.free :=
  (List.single_le_sum (by simp) _ (List.mem_map_of_mem he)).trans l.sum_le

theorem size_ge (l : FreeList) {e : Entry} (he : e ∈ l.entries) : 16 ≤ e.size := by
  obtain ⟨i, hi⟩ := (RawFreeList.mem_entries_iff l.2 e).mp he
  exact (l.2.bucket i e hi).2.2

theorem add_raw {l l' : FreeList} {addr size : Nat} (h : l.add addr size = .ok l') :
    l.1.add addr size = .ok l'.1 := by
  unfold add at h
  split at h
  · rename_i raw hraw
    cases h
    exact hraw
  · cases h

theorem add_cases {l l' : FreeList} {addr size : Nat} (h : l.add addr size = .ok l') :
    size ≠ 0 ∧ (size < ENTRY_SIZE ∧ l' = l ∨
      ENTRY_SIZE ≤ size ∧ l'.free = l.free + size ∧
        l'.entries.Perm (⟨addr, storedSize size⟩ :: l.entries)) := by
  obtain ⟨hne, ⟨hsmall, heq⟩ | ⟨hsize, hindex, heq⟩⟩ := RawFreeList.add_cases (add_raw h)
  · exact ⟨hne, Or.inl ⟨hsmall, Subtype.ext heq⟩⟩
  · refine ⟨hne, Or.inr ⟨hsize, ?_, ?_⟩⟩
    · simp [free, heq, RawFreeList.link]
    · unfold entries
      rw [heq]
      exact RawFreeList.entries_link_perm _ addr size hindex

theorem add_buckets {l l' : FreeList} {addr size : Nat} (h : l.add addr size = .ok l')
    (hsize : ENTRY_SIZE ≤ size) :
    bucketIndexForSize size < l.1.buckets ∧ l'.1.buckets = l.1.buckets := by
  obtain ⟨_, ⟨hsmall, _⟩ | ⟨_, hindex, heq⟩⟩ := RawFreeList.add_cases (add_raw h)
  · omega
  · rw [heq]
    exact ⟨hindex, rfl⟩

theorem add_ok {l : FreeList} {size : Nat} (addr : Nat) (hpos : 0 < size)
    (hindex : bucketIndexForSize size < l.1.buckets) : ∃ l', l.add addr size = .ok l' := by
  have hraw : ∃ raw, l.1.add addr size = .ok raw := by
    simp only [RawFreeList.add, ensure, hpos.ne', hindex, ne_eq, not_false_eq_true, if_true]
    by_cases hsmall : size < ENTRY_SIZE
    · exact ⟨l.1, by rw [if_pos hsmall]; rfl⟩
    · exact ⟨l.1.link (bucketIndexForSize size) addr size, by rw [if_neg hsmall]; rfl⟩
  obtain ⟨raw, hadd⟩ := hraw
  unfold add
  split
  · exact ⟨_, rfl⟩
  · rename_i panic hpanic
    rw [hadd] at hpanic
    cases hpanic

theorem allocate_none {l : FreeList} {allocationSize : Nat}
    (h : (l.allocate allocationSize).1 = none) :
    (l.allocate allocationSize).2.free = l.free ∧
      (l.allocate allocationSize).2.entries = l.entries := by
  rcases RawFreeList.allocate_cases l.2 allocationSize with
    ⟨i, entry, rest, _, _, _, heq⟩ | ⟨i, _, heq⟩
  · simp [allocate, heq] at h
  · simp [allocate, free, entries, heq, RawFreeList.entries]

theorem allocate_some {l : FreeList} {allocationSize : Nat} {entry : Entry}
    (h : (l.allocate allocationSize).1 = some entry) :
    allocationSize ≤ entry.size ∧
      (l.allocate allocationSize).2.free + entry.size = l.free ∧
      l.entries.Perm (entry :: (l.allocate allocationSize).2.entries) := by
  rcases RawFreeList.allocate_cases l.2 allocationSize with
    ⟨i, found, rest, hhead, hle, _, heq⟩ | ⟨i, _, heq⟩
  · obtain rfl : found = entry := by simpa [allocate, heq] using h
    have hindex := (l.2.bucket i found (by simp [hhead])).1
    have hperm := RawFreeList.entries_unlink_perm i found rest hindex hhead
    have hfree := l.size_le_free (e := found) (hperm.mem_iff.mpr (by simp))
    refine ⟨hle, ?_, ?_⟩
    · simp only [allocate, free, heq, RawFreeList.unlink] at hfree ⊢
      omega
    · simpa [allocate, entries, heq] using hperm
  · simp [allocate, heq] at h

end FreeList

end Rsgc.Storage
