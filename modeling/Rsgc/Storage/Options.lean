import Mathlib.Algebra.Order.Ring.Nat
import Mathlib.Data.Nat.Log
import Rsgc.Lib.Except

namespace Rsgc.Storage

-- Plain arithmetic on `usize` follows the release profile: it wraps.
def usizeRange : Nat := 2 ^ 64

def wrap (value : Nat) : Nat := value % usizeRange

def alignDown (addr align : Nat) : Nat := addr / align * align

inductive SetupPanic
  | divisionByZero
  | maxHeapTooLow
deriving DecidableEq, Repr

def usizeDiv (value divisor : Nat) : Except SetupPanic Nat := do
  ensure (divisor ≠ 0) SetupPanic.divisionByZero
  pure (value / divisor)

-- `align_usize`; `wrapping_div` panics on zero.
def alignUsize (value align : Nat) : Except SetupPanic Nat := do
  let chunks ← usizeDiv (wrap (value + align + usizeRange - 1)) align
  pure (wrap (chunks * align))

structure HeapArguments where
  maxRegionSize : Nat
  minRegionSize : Nat
  targetNumRegions : Nat
  humongousThreshold : Nat
  regionSize : Nat
  elasticTlab : Bool
  minTlabSize : Nat
  tlabSize : Nat
  tlabWasteTargetPercent : Nat
  maxHeapSize : Nat
  parallelRegionStride : Nat
  parallelGcThreads : Nat
  markLoopStride : Nat
  maxSatbBufferSize : Nat
deriving DecidableEq, Repr

-- Every field starts as zero or false, as `HeapOptions::default()` does.
structure HeapOptions where
  regionSizeBytes : Nat := 0
  regionSizeWords : Nat := 0
  regionSizeBytesShift : Nat := 0
  regionSizeBytesMask : Nat := 0
  regionPayloadSizeBytes : Nat := 0
  regionCount : Nat := 0
  humongousThresholdWords : Nat := 0
  humongousThresholdBytes : Nat := 0
  maxHeapSize : Nat := 0
  maxTlabSize : Nat := 0
  tlabSize : Nat := 0
  minTlabSize : Nat := 0
  regionSizeLog2 : Nat := 0
  elasticTlab : Bool := false
  targetRefills : Nat := 0
  parallelGcThreads : Nat := 0
  parallelRegionStride : Nat := 0
  markLoopStride : Nat := 0
  maxSatbBufferSize : Nat := 0
deriving DecidableEq, Repr

namespace HeapOptions

def requiredRegions (opts : HeapOptions) (size : Nat) : Nat :=
  (size + opts.regionSizeBytes - 1) >>> opts.regionSizeBytesShift

end HeapOptions

def MIN_REGION_SIZE : Nat := 4 * 1024
def MIN_NUM_PAGES : Nat := 10
def MAX_REGION_SIZE : Nat := 32 * 1024 * 1024

-- The region size that is asked for, before it is rounded to pages and to a
-- power of two.
def requestedRegionSize (args : HeapArguments) : Nat :=
  let minRegionSize :=
    if args.minRegionSize < MIN_REGION_SIZE then MIN_REGION_SIZE else args.minRegionSize
  let targetNumRegions := if args.targetNumRegions = 0 then 2048 else args.targetNumRegions
  let maxRegionSize :=
    if args.maxRegionSize = 0 ∨ args.maxRegionSize < args.minRegionSize then MAX_REGION_SIZE
    else args.maxRegionSize
  if args.regionSize ≠ 0 then args.regionSize
  else min maxRegionSize (max (args.maxHeapSize / targetNumRegions) minRegionSize)

def parallelStride (args : HeapArguments) (regionCount : Nat) : Except SetupPanic Nat :=
  if args.parallelRegionStride = 0 ∧ args.parallelGcThreads ≠ 0 ∨
      args.parallelRegionStride = 1024 then
    usizeDiv regionCount args.parallelGcThreads
  else pure args.parallelRegionStride

-- `region_payload_size_bytes` is not assigned here and keeps its default.
def setupSizes (pageSize : Nat) (args : HeapArguments) : Except SetupPanic HeapOptions := do
  let refills ← usizeDiv 100 (wrap (2 * args.tlabWasteTargetPercent))
  let minRegionSize :=
    if args.minRegionSize < MIN_REGION_SIZE then MIN_REGION_SIZE else args.minRegionSize
  ensure (minRegionSize ≤ args.maxHeapSize / MIN_NUM_PAGES) SetupPanic.maxHeapTooLow
  let pagedSize ← alignUsize (requestedRegionSize args) pageSize
  let pagedHeap ← alignUsize args.maxHeapSize pagedSize
  -- `(region_size as f64).log2() as usize`, taken as the exact floor
  let regionSizeLog := Nat.log2 pagedSize
  let regionSize := 2 ^ regionSizeLog
  let maxHeapSize ← alignUsize pagedHeap regionSize
  let humongousThreshold := if args.humongousThreshold = 0 then 100 else args.humongousThreshold
  let thresholdWords := alignDown (wrap (regionSize / 8 * humongousThreshold) / 100) 8
  let thresholdBytes := wrap (thresholdWords * 8)
  let minTlabSize := if args.minTlabSize < 2 * 1024 then 2 * 1024 else args.minTlabSize
  let regionCount := maxHeapSize / regionSize
  let stride ← parallelStride args regionCount
  pure {
    regionSizeBytes := regionSize
    regionSizeWords := regionSize / 8
    regionSizeBytesShift := regionSizeLog
    regionSizeBytesMask := regionSize - 1
    regionCount := regionCount
    humongousThresholdWords := thresholdWords
    humongousThresholdBytes := thresholdBytes
    maxHeapSize := maxHeapSize
    maxTlabSize := max minTlabSize (min (regionSize / 8) thresholdBytes)
    tlabSize := if args.tlabSize ≠ 0 then min args.tlabSize thresholdBytes else args.tlabSize
    minTlabSize := minTlabSize
    regionSizeLog2 := regionSizeLog
    elasticTlab := args.elasticTlab
    targetRefills := max refills 2
    parallelGcThreads := args.parallelGcThreads
    parallelRegionStride := stride
    markLoopStride := max args.markLoopStride 32
    maxSatbBufferSize := args.maxSatbBufferSize }

-- What the region code relies on: a region is a power of two of at least 16 bytes.
structure HeapOptions.Geometry (opts : HeapOptions) : Prop where
  size_eq : opts.regionSizeBytes = 2 ^ opts.regionSizeBytesShift
  mask_eq : opts.regionSizeBytesMask = opts.regionSizeBytes - 1
  log_eq : opts.regionSizeLog2 = opts.regionSizeBytesShift
  shift_ge : 4 ≤ opts.regionSizeBytesShift
  shift_lt : opts.regionSizeBytesShift < 64
  heap_eq : opts.maxHeapSize = opts.regionCount * opts.regionSizeBytes
  payload_eq : opts.regionPayloadSizeBytes = 0
  minTlab_ge : 2 * 1024 ≤ opts.minTlabSize

theorem usizeDiv_eq_ok {value divisor result : Nat} (h : usizeDiv value divisor = .ok result) :
    divisor ≠ 0 ∧ result = value / divisor := by
  simp only [usizeDiv, Except.bind_eq_ok, Except.ensure_eq_ok, Except.pure_eq_ok] at h
  obtain ⟨_, hne, rfl⟩ := h
  exact ⟨hne, rfl⟩

theorem alignUsize_eq_ok {value align result : Nat} (h : alignUsize value align = .ok result) :
    align ≠ 0 ∧ align ∣ result ∧ result < usizeRange := by
  simp only [alignUsize, Except.bind_eq_ok, Except.pure_eq_ok] at h
  obtain ⟨chunks, hdiv, rfl⟩ := h
  obtain ⟨hne, rfl⟩ := usizeDiv_eq_ok hdiv
  have hle := Nat.div_mul_le_self (wrap (value + align + usizeRange - 1)) align
  have hlt : wrap (value + align + usizeRange - 1) < usizeRange :=
    Nat.mod_lt _ (by simp [usizeRange])
  rw [wrap, Nat.mod_eq_of_lt (Nat.lt_of_le_of_lt hle hlt)]
  exact ⟨hne, Nat.dvd_mul_left _ _, Nat.lt_of_le_of_lt hle hlt⟩

theorem setupSizes_geometry {pageSize : Nat} {args : HeapArguments} {opts : HeapOptions}
    (hpage : 16 ≤ pageSize) (h : setupSizes pageSize args = .ok opts) : opts.Geometry := by
  simp only [setupSizes, Except.bind_eq_ok, Except.pure_eq_ok] at h
  obtain ⟨refills, -, -, -, pagedSize, hpaged, pagedHeap, hheap, maxHeap, hmax, stride, -, rfl⟩ := h
  obtain ⟨-, hmaxDvd, -⟩ := alignUsize_eq_ok hmax
  obtain ⟨-, hdvd, hlt⟩ := alignUsize_eq_ok hpaged
  obtain ⟨hne, -, -⟩ := alignUsize_eq_ok hheap
  have hge : 16 ≤ pagedSize := hpage.trans (Nat.le_of_dvd (Nat.pos_of_ne_zero hne) hdvd)
  constructor
  · rfl
  · rfl
  · rfl
  · exact (Nat.le_log2 hne).mpr hge
  · exact (Nat.log2_lt hne).mpr hlt
  · exact (Nat.div_mul_cancel hmaxDvd).symm
  · rfl
  · simp only
    split <;> omega

namespace HeapOptions.Geometry

variable {opts : HeapOptions}

theorem size_pos (g : opts.Geometry) : 0 < opts.regionSizeBytes := by
  rw [g.size_eq]
  exact Nat.two_pow_pos _

theorem dvd_size (g : opts.Geometry) : 16 ∣ opts.regionSizeBytes := by
  rw [g.size_eq]
  exact Nat.pow_dvd_pow 2 g.shift_ge

theorem size_lt (g : opts.Geometry) : opts.regionSizeBytes < usizeRange := by
  rw [g.size_eq]
  exact Nat.pow_lt_pow_right (by omega) g.shift_lt

theorem requiredRegions_eq (g : opts.Geometry) (size : Nat) :
    opts.requiredRegions size = (size + opts.regionSizeBytes - 1) / opts.regionSizeBytes := by
  unfold requiredRegions
  rw [Nat.shiftRight_eq_div_pow, ← g.size_eq]

theorem requiredRegions_pos (g : opts.Geometry) {size : Nat} (hpos : 0 < size) :
    0 < opts.requiredRegions size := by
  rw [g.requiredRegions_eq]
  exact Nat.div_pos (by omega) g.size_pos

theorem le_requiredRegions (g : opts.Geometry) (size : Nat) :
    size ≤ opts.regionSizeBytes * opts.requiredRegions size := by
  rw [g.requiredRegions_eq]
  have hpos := g.size_pos
  have hdiv := Nat.div_add_mod (size + opts.regionSizeBytes - 1) opts.regionSizeBytes
  have hmod := Nat.mod_lt (size + opts.regionSizeBytes - 1) hpos
  omega

end HeapOptions.Geometry

-- A heap that `setup_sizes` accepted: the options, where the heap memory starts
-- and how many regions are committed at first.
structure HeapConfig where
  pageSize : Nat
  args : HeapArguments
  opts : HeapOptions
  page_ge : 16 ≤ pageSize
  setup : setupSizes pageSize args = .ok opts
  memStart : Nat
  commited : Nat

-- Ten regions of 4096 bytes.
def HeapConfig.small : HeapConfig where
  pageSize := 4096
  args := {
    maxRegionSize := 0
    minRegionSize := 4096
    targetNumRegions := 0
    humongousThreshold := 50
    regionSize := 4096
    elasticTlab := false
    minTlabSize := 2048
    tlabSize := 0
    tlabWasteTargetPercent := 1
    maxHeapSize := 40960
    parallelRegionStride := 1
    parallelGcThreads := 1
    markLoopStride := 0
    maxSatbBufferSize := 1024 }
  opts := {
    regionSizeBytes := 4096
    regionSizeWords := 512
    regionSizeBytesShift := 12
    regionSizeBytesMask := 4095
    regionCount := 10
    humongousThresholdWords := 256
    humongousThresholdBytes := 2048
    maxHeapSize := 40960
    maxTlabSize := 2048
    minTlabSize := 2048
    regionSizeLog2 := 12
    targetRefills := 50
    parallelGcThreads := 1
    parallelRegionStride := 1
    markLoopStride := 32
    maxSatbBufferSize := 1024 }
  page_ge := by decide
  setup := by rfl
  memStart := 4096
  commited := 10

-- Five regions of 8192 bytes with elastic buffers of 2048 to 4096 bytes.
def HeapConfig.elastic : HeapConfig where
  pageSize := 4096
  args := {
    maxRegionSize := 0
    minRegionSize := 4096
    targetNumRegions := 0
    humongousThreshold := 50
    regionSize := 8192
    elasticTlab := true
    minTlabSize := 2048
    tlabSize := 4096
    tlabWasteTargetPercent := 1
    maxHeapSize := 40960
    parallelRegionStride := 1
    parallelGcThreads := 1
    markLoopStride := 0
    maxSatbBufferSize := 1024 }
  opts := {
    regionSizeBytes := 8192
    regionSizeWords := 1024
    regionSizeBytesShift := 13
    regionSizeBytesMask := 8191
    regionCount := 5
    humongousThresholdWords := 512
    humongousThresholdBytes := 4096
    maxHeapSize := 40960
    maxTlabSize := 2048
    tlabSize := 4096
    minTlabSize := 2048
    regionSizeLog2 := 13
    elasticTlab := true
    targetRefills := 50
    parallelGcThreads := 1
    parallelRegionStride := 1
    markLoopStride := 32
    maxSatbBufferSize := 1024 }
  page_ge := by decide
  setup := by rfl
  memStart := 8192
  commited := 5

theorem HeapConfig.geometry (c : HeapConfig) : c.opts.Geometry :=
  setupSizes_geometry c.page_ge c.setup

end Rsgc.Storage
