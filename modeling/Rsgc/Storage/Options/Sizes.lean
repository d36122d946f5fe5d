import Mathlib.Data.Nat.Log
import Rsgc.Storage.Options

namespace Rsgc.Storage

-- `align_usize` without the wrap.
def roundUp (value align : Nat) : Nat := (value + align - 1) / align * align

theorem dvd_roundUp (value align : Nat) : align ∣ roundUp value align := Nat.dvd_mul_left _ _

theorem roundUp_pos {value align : Nat} (hvalue : 0 < value) (halign : 0 < align) :
    0 < roundUp value align := by
  apply Nat.mul_pos _ halign
  exact Nat.div_pos (by omega) halign

theorem roundUp_zero {align : Nat} (halign : 0 < align) : roundUp 0 align = 0 := by
  rw [roundUp, Nat.div_eq_of_lt (by omega), Nat.zero_mul]

theorem roundUp_le (value align : Nat) : roundUp value align ≤ value + align - 1 :=
  Nat.div_mul_le_self _ _

theorem le_roundUp (value : Nat) {align : Nat} (halign : 0 < align) :
    value ≤ roundUp value align := by
  have hdiv := Nat.div_add_mod (value + align - 1) align
  have hmod := Nat.mod_lt (value + align - 1) halign
  unfold roundUp
  rw [Nat.mul_comm]
  omega

theorem alignUsize_eq {value align : Nat} (hvalue : value < usizeRange)
    (halign : align ≤ usizeRange) :
    alignUsize value align = if align = 0 then .error .divisionByZero
      else .ok (if value + align ≤ usizeRange then roundUp value align else 0) := by
  unfold alignUsize usizeDiv
  by_cases hzero : align = 0
  · rw [if_pos hzero, ensure, if_neg (not_not_intro hzero)]
    rfl
  have hle := Nat.div_mul_le_self (wrap (value + align + usizeRange - 1)) align
  have hlt : wrap (value + align + usizeRange - 1) < usizeRange :=
    Nat.mod_lt _ (by simp [usizeRange])
  have hchunks : wrap (value + align + usizeRange - 1) / align * align =
      if value + align ≤ usizeRange then roundUp value align else 0 := by
    split
    · rename_i hfits
      have hwrap : wrap (value + align + usizeRange - 1) = value + align - 1 := by
        rw [show value + align + usizeRange - 1 = value + align - 1 + usizeRange by omega, wrap,
          Nat.add_mod_right, Nat.mod_eq_of_lt (by omega)]
      rw [hwrap]
      rfl
    · have hwrap : wrap (value + align + usizeRange - 1) = value + align - 1 - usizeRange := by
        rw [show value + align + usizeRange - 1 =
            value + align - 1 - usizeRange + usizeRange + usizeRange by omega, wrap,
          Nat.add_mod_right, Nat.add_mod_right, Nat.mod_eq_of_lt (by omega)]
      rw [hwrap, Nat.div_eq_of_lt (by omega), Nat.zero_mul]
  rw [if_neg hzero, ensure, if_pos hzero]
  change Except.ok (wrap _) = _
  rw [show wrap (_ / align * align) = _ from Nat.mod_eq_of_lt (Nat.lt_of_le_of_lt hle hlt), hchunks]

theorem alignUsize_eq_ok_iff {value align result : Nat} (hvalue : value < usizeRange)
    (halign : align ≤ usizeRange) :
    alignUsize value align = .ok result ↔
      0 < align ∧ result = if value + align ≤ usizeRange then roundUp value align else 0 := by
  rw [alignUsize_eq hvalue halign]
  by_cases hzero : align = 0
  · simp [hzero]
  · rw [if_neg hzero, Except.ok.injEq]
    exact ⟨fun h => ⟨Nat.pos_of_ne_zero hzero, h.symm⟩, fun h => h.2.symm⟩

-- The region size in the numbers that the arguments give: rounded up to pages and then
-- down to a power of two.
def pagedRegionSize (pageSize : Nat) (args : HeapArguments) : Nat :=
  roundUp (requestedRegionSize args) pageSize

def powerRegionSize (pageSize : Nat) (args : HeapArguments) : Nat :=
  2 ^ Nat.log2 (pagedRegionSize pageSize args)

-- The percentage of a region's words that makes an object humongous, not divided yet.
def humongousShare (pageSize : Nat) (args : HeapArguments) : Nat :=
  wrap (powerRegionSize pageSize args / 8 *
    if args.humongousThreshold = 0 then 100 else args.humongousThreshold)

-- The numbers of the arguments are machine words.
structure HeapArguments.Words (args : HeapArguments) : Prop where
  regionSize_lt : args.regionSize < usizeRange
  maxHeapSize_lt : args.maxHeapSize < usizeRange

-- What the allocator relies on.
structure HeapOptions.Sound (pageSize : Nat) (opts : HeapOptions) : Prop where
  page_le : pageSize ≤ opts.regionSizeBytes
  size_eq : opts.regionSizeBytes = 1 <<< opts.regionSizeBytesShift
  mask_eq : opts.regionSizeBytesMask = opts.regionSizeBytes - 1
  heap_eq : opts.regionCount * opts.regionSizeBytes = opts.maxHeapSize
  count_pos : 1 ≤ opts.regionCount
  threshold_le : opts.humongousThresholdBytes ≤ opts.regionSizeBytes
  minTlab_le : opts.minTlabSize ≤ opts.maxTlabSize
  maxTlab_le : opts.maxTlabSize ≤ opts.humongousThresholdBytes
  tlab_dvd : opts.tlabSize ≠ 0 → 16 ∣ opts.tlabSize
  minTlab_dvd : 16 ∣ opts.minTlabSize
  maxTlab_dvd : 16 ∣ opts.maxTlabSize

-- The arguments for which `setup_sizes` gives such options: the heap can be rounded up
-- to regions, the percentage is of a part of a region, the smallest buffer is no larger
-- than that part, and the sizes of buffers that are taken over are aligned.
structure HeapArguments.Fits (pageSize : Nat) (args : HeapArguments) : Prop where
  paged : args.maxHeapSize + pagedRegionSize pageSize args ≤ usizeRange
  rounded : roundUp args.maxHeapSize (pagedRegionSize pageSize args) +
    powerRegionSize pageSize args ≤ usizeRange
  share : humongousShare pageSize args < 100 * (powerRegionSize pageSize args / 8) + 800
  minTlab : (max args.minTlabSize 2048 + 63) / 64 * 800 ≤ humongousShare pageSize args
  minAligned : 2048 ≤ args.minTlabSize → 16 ∣ args.minTlabSize
  tlabAligned : 16 ∣ args.tlabSize ∨
    humongousShare pageSize args < (args.tlabSize / 64 + 1) * 800

-- The heap is large enough not to be refused.
def HeapArguments.Affordable (args : HeapArguments) : Prop :=
  (if args.minRegionSize < MIN_REGION_SIZE then MIN_REGION_SIZE else args.minRegionSize) ≤
    args.maxHeapSize / MIN_NUM_PAGES

theorem requestedRegionSize_lt {args : HeapArguments} (hwords : args.Words)
    (hmin : args.Affordable) : requestedRegionSize args < usizeRange := by
  have hregion := hwords.regionSize_lt
  have hheap := hwords.maxHeapSize_lt
  unfold requestedRegionSize
  dsimp only
  have hten : args.maxHeapSize / MIN_NUM_PAGES ≤ args.maxHeapSize := Nat.div_le_self _ _
  have htarget : ∀ n, args.maxHeapSize / n ≤ args.maxHeapSize := fun n => Nat.div_le_self _ _
  split
  · exact hregion
  · apply Nat.lt_of_le_of_lt (Nat.min_le_right _ _)
    apply Nat.lt_of_le_of_lt (Nat.max_le.mpr ⟨htarget _, hmin.trans hten⟩) hheap

-- What is computed from arguments that are accepted.
structure Accepted (pageSize : Nat) (args : HeapArguments) (opts : HeapOptions) : Prop where
  heap_pos : 0 < args.maxHeapSize
  paged_pos : 0 < pagedRegionSize pageSize args
  paged_lt : pagedRegionSize pageSize args < usizeRange
  size : opts.regionSizeBytes = powerRegionSize pageSize args
  shift : opts.regionSizeBytesShift = Nat.log2 (pagedRegionSize pageSize args)
  mask : opts.regionSizeBytesMask = opts.regionSizeBytes - 1
  count : opts.regionCount = opts.maxHeapSize / powerRegionSize pageSize args
  heap : opts.maxHeapSize =
    if args.maxHeapSize + pagedRegionSize pageSize args ≤ usizeRange ∧
      roundUp args.maxHeapSize (pagedRegionSize pageSize args) +
        powerRegionSize pageSize args ≤ usizeRange then
      roundUp (roundUp args.maxHeapSize (pagedRegionSize pageSize args))
        (powerRegionSize pageSize args)
    else 0
  threshold : opts.humongousThresholdBytes = humongousShare pageSize args / 800 * 64
  minTlab : opts.minTlabSize = max args.minTlabSize 2048
  maxTlab : opts.maxTlabSize = max opts.minTlabSize
    (min (opts.regionSizeBytes / 8) opts.humongousThresholdBytes)
  tlab : opts.tlabSize = min args.tlabSize opts.humongousThresholdBytes

theorem powerRegionSize_le {pageSize : Nat} {args : HeapArguments}
    (hpos : 0 < pagedRegionSize pageSize args) :
    powerRegionSize pageSize args ≤ pagedRegionSize pageSize args :=
  Nat.log2_self_le hpos.ne'

theorem thresholdWords_eq {share : Nat} (hshare : share < usizeRange) :
    wrap (alignDown (share / 100) 8 * 8) = share / 800 * 64 := by
  have hdiv : alignDown (share / 100) 8 * 8 = share / 800 * 64 := by
    unfold alignDown
    omega
  rw [hdiv, wrap, Nat.mod_eq_of_lt]
  omega

theorem setupSizes_accepted {pageSize : Nat} {args : HeapArguments} {opts : HeapOptions}
    (hpage : pageSize < usizeRange) (hwords : args.Words)
    (h : setupSizes pageSize args = .ok opts) : Accepted pageSize args opts := by
  simp only [setupSizes, Except.bind_eq_ok, Except.ensure_eq_ok, Except.pure_eq_ok] at h
  obtain ⟨refills, -, _, hmin, pagedSize, hpaged, pagedHeap, hheap, maxHeap, hmax, stride, -,
    rfl⟩ := h
  have hrequested := requestedRegionSize_lt hwords hmin
  obtain ⟨hpagePos, hpagedEq⟩ := (alignUsize_eq_ok_iff hrequested hpage.le).mp hpaged
  obtain ⟨-, -, hpagedLt⟩ := alignUsize_eq_ok hpaged
  obtain ⟨hpagedPos, hheapEq⟩ := (alignUsize_eq_ok_iff hwords.maxHeapSize_lt hpagedLt.le).mp hheap
  -- a region size that does not fit was rounded to zero, by which nothing divides
  have hpagedSize : pagedSize = pagedRegionSize pageSize args := by
    split at hpagedEq
    · exact hpagedEq
    · omega
  subst hpagedSize
  have hheapPos : 0 < args.maxHeapSize := by
    have hfloor : MIN_REGION_SIZE ≤ args.maxHeapSize / MIN_NUM_PAGES := by
      split at hmin <;> omega
    have hten := Nat.div_le_self args.maxHeapSize MIN_NUM_PAGES
    have hmin : 0 < MIN_REGION_SIZE := by decide
    omega
  have hpowerLe := powerRegionSize_le hpagedPos
  obtain ⟨-, -, hpagedHeapLt⟩ := alignUsize_eq_ok hheap
  obtain ⟨hpowerPos, hmaxEq⟩ :=
    (alignUsize_eq_ok_iff hpagedHeapLt (hpowerLe.trans hpagedLt.le)).mp hmax
  refine ⟨hheapPos, hpagedPos, hpagedLt, rfl, rfl, rfl, rfl, ?_, ?_, ?_, rfl, ?_⟩
  · change maxHeap = _
    rw [hmaxEq, hheapEq]
    by_cases hfits : args.maxHeapSize + pagedRegionSize pageSize args ≤ usizeRange
    · simp only [hfits, if_true, true_and]
    · simp only [hfits, if_false, false_and]
      split
      · exact roundUp_zero hpowerPos
      · rfl
  · exact thresholdWords_eq (Nat.mod_lt _ (by simp [usizeRange]))
  · change (if args.minTlabSize < 2 * 1024 then 2 * 1024 else args.minTlabSize) = _
    split <;> omega
  · have htlab : ∀ cap, (if args.tlabSize ≠ 0 then min args.tlabSize cap else args.tlabSize) =
        min args.tlabSize cap := by
      intro cap
      split <;> omega
    exact htlab _

theorem Accepted.count_pos_iff {pageSize : Nat} {args : HeapArguments} {opts : HeapOptions}
    (h : Accepted pageSize args opts) :
    1 ≤ opts.regionCount ↔ args.maxHeapSize + pagedRegionSize pageSize args ≤ usizeRange ∧
      roundUp args.maxHeapSize (pagedRegionSize pageSize args) + powerRegionSize pageSize args ≤
        usizeRange := by
  have hpower : 0 < powerRegionSize pageSize args := Nat.two_pow_pos _
  rw [h.count, h.heap]
  split
  · rename_i hfits
    refine ⟨fun _ => hfits, fun _ => ?_⟩
    have hpos := roundUp_pos (roundUp_pos h.heap_pos h.paged_pos) hpower
    exact Nat.div_pos (Nat.le_of_dvd hpos (dvd_roundUp _ _)) hpower
  · rename_i hfits
    simp [hfits]

theorem Accepted.threshold_le_iff {pageSize : Nat} {args : HeapArguments} {opts : HeapOptions}
    (h : Accepted pageSize args opts) (hdvd : 64 ∣ opts.regionSizeBytes) :
    opts.humongousThresholdBytes ≤ opts.regionSizeBytes ↔
      humongousShare pageSize args < 100 * (powerRegionSize pageSize args / 8) + 800 := by
  rw [h.threshold]
  rw [h.size] at hdvd ⊢
  omega

theorem Accepted.tlab_dvd_iff {pageSize : Nat} {args : HeapArguments} {opts : HeapOptions}
    (h : Accepted pageSize args opts) :
    16 ∣ opts.tlabSize ↔ 16 ∣ args.tlabSize ∨
      humongousShare pageSize args < (args.tlabSize / 64 + 1) * 800 := by
  rw [h.tlab, h.threshold]
  omega

-- The sizes fit together exactly for such arguments.
theorem setup_sizes_sound_iff {pageShift : Nat} {args : HeapArguments} {opts : HeapOptions}
    (hpage : 12 ≤ pageShift) (hword : pageShift < 64) (hwords : args.Words)
    (h : setupSizes (2 ^ pageShift) args = .ok opts) :
    opts.Sound (2 ^ pageShift) ↔ args.Fits (2 ^ pageShift) := by
  have ha := setupSizes_accepted (Nat.pow_lt_pow_right (by omega) hword) hwords h
  have hpageLe : 2 ^ pageShift ≤ opts.regionSizeBytes := by
    have hmultiple : 2 ^ pageShift ≤ pagedRegionSize (2 ^ pageShift) args :=
      Nat.le_of_dvd ha.paged_pos (dvd_roundUp _ _)
    rw [ha.size]
    exact Nat.pow_le_pow_right (by omega) ((Nat.le_log2 ha.paged_pos.ne').mpr hmultiple)
  have hdvd : 4096 ∣ opts.regionSizeBytes := by
    have hshift : pageShift ≤ Nat.log2 (pagedRegionSize (2 ^ pageShift) args) := by
      rw [ha.size] at hpageLe
      exact (Nat.pow_le_pow_iff_right (by omega)).mp hpageLe
    rw [ha.size]
    exact Nat.pow_dvd_pow 2 (hpage.trans hshift)
  have hcount := ha.count_pos_iff
  have hthreshold := ha.threshold_le_iff ((by decide : 64 ∣ 4096).trans hdvd)
  have htlab := ha.tlab_dvd_iff
  have hmin := ha.minTlab
  have hmax := ha.maxTlab
  have hbytes := ha.threshold
  constructor
  · intro hs
    obtain ⟨hpaged, hrounded⟩ := hcount.mp hs.count_pos
    refine ⟨hpaged, hrounded, hthreshold.mp hs.threshold_le, ?_, ?_, ?_⟩
    · have hle := hs.minTlab_le.trans hs.maxTlab_le
      omega
    · have hdvd := hs.minTlab_dvd
      omega
    · apply htlab.mp
      by_cases hzero : opts.tlabSize = 0
      · rw [hzero]
        exact Nat.dvd_zero _
      · exact hs.tlab_dvd hzero
  · intro hf
    have hminLe : opts.minTlabSize ≤ opts.humongousThresholdBytes := by
      have hle := hf.minTlab
      omega
    have hminDvd : 16 ∣ opts.minTlabSize := by
      have haligned := hf.minAligned
      omega
    refine ⟨hpageLe, ?_, ha.mask, ?_, hcount.mpr ⟨hf.paged, hf.rounded⟩, hthreshold.mpr hf.share,
      ?_, ?_, fun _ => htlab.mpr hf.tlabAligned, hminDvd, ?_⟩
    · rw [Nat.one_shiftLeft, ha.size, ha.shift]
      rfl
    · rw [ha.count, ha.size]
      apply Nat.div_mul_cancel
      rw [ha.heap]
      split
      · exact dvd_roundUp _ _
      · exact Nat.dvd_zero _
    · omega
    · omega
    · omega

-- Ten regions of a page: half a region for the largest object of a free list.
theorem setup_sizes_sound_small : HeapConfig.small.opts.Sound 4096 := by
  have hiff : HeapConfig.small.opts.Sound (2 ^ 12) ↔ HeapConfig.small.args.Fits (2 ^ 12) :=
    setup_sizes_sound_iff (by decide) (by decide) ⟨by decide, by decide⟩ HeapConfig.small.setup
  have hpaged : pagedRegionSize 4096 HeapConfig.small.args = 4096 := by decide
  have hpower : powerRegionSize 4096 HeapConfig.small.args = 4096 := by decide
  have hshare : humongousShare 4096 HeapConfig.small.args = 25600 := by decide
  apply hiff.mpr
  constructor
  · change _ + pagedRegionSize 4096 _ ≤ _
    rw [hpaged]
    decide
  · change roundUp _ (pagedRegionSize 4096 _) + powerRegionSize 4096 _ ≤ _
    rw [hpaged, hpower]
    decide
  · change humongousShare 4096 _ < 100 * (powerRegionSize 4096 _ / 8) + 800
    rw [hshare, hpower]
    decide
  · change _ ≤ humongousShare 4096 _
    rw [hshare]
    decide
  · decide
  · exact Or.inl (by decide)

-- A quarter of a page caps the buffers at 1024 bytes, but the smallest one has 2048.
theorem buffers_exceed_threshold :
    ∃ args opts, args.Words ∧ setupSizes 4096 args = .ok opts ∧
      opts.humongousThresholdBytes < opts.maxTlabSize ∧ ¬opts.Sound 4096 := by
  have hsetup : (setupSizes 4096
      { HeapConfig.small.args with humongousThreshold := 25 }).toOption.map
        (fun opts => (opts.humongousThresholdBytes, opts.maxTlabSize)) = some (1024, 2048) := by
    decide
  obtain ⟨opts, hopts, hsizes⟩ := Option.map_eq_some_iff.mp hsetup
  obtain ⟨hthreshold, hmax⟩ := Prod.mk.inj hsizes
  have hlt : opts.humongousThresholdBytes < opts.maxTlabSize := by omega
  refine ⟨_, opts, ⟨by decide, by decide⟩, Except.toOption_eq_some.mp hopts, hlt, fun h => ?_⟩
  exact absurd h.maxTlab_le (by omega)

end Rsgc.Storage
