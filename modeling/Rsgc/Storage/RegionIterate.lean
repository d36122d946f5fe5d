import Mathlib.Data.List.Nodup
import Mathlib.Data.List.Range
import Mathlib.Data.List.TakeWhile
import Rsgc.Storage.Options.Sizes

namespace Rsgc.Storage

-- The regions of the job that starts where the counter stood.
def regionChunk (stride max cur : Nat) : List Nat :=
  List.range' cur (min max (wrap (cur + stride)) - cur)

-- The loop of `work`, which hands out jobs until the counter has reached the end or
-- `cancelled_gc` is read in the given round: where the jobs start.
def workLoop (stride max : Nat) (cancelled : Nat → Bool) : Nat → Nat → Nat → Option (List Nat)
  | 0, _, _ => none
  | fuel + 1, round, index =>
      if index < max then
        if max ≤ index ∨ cancelled round = true then some []
        else (workLoop stride max cancelled fuel (round + 1) (wrap (index + stride))).map
          (index :: ·)
      else some []

-- What the reads of `cancelled_gc` answer: in a round of the loop, at the start of a job
-- and before a region.
structure CancelReads where
  round : Nat → Bool
  job : Nat → Bool
  region : Nat → Bool

def CancelReads.Silent (reads : CancelReads) : Prop :=
  ∀ i, reads.round i = false ∧ reads.job i = false ∧ reads.region i = false

def cancellableChunk (stride max : Nat) (reads : CancelReads) (cur : Nat) : List Nat :=
  if reads.job cur then []
  else (regionChunk stride max cur).takeWhile fun i => !reads.region i

-- The jobs, each with the regions it calls the closure on. The pool has the threads that
-- `parallel_gc_threads` asks for; without it the caller does everything itself.
def parallelHeapRegionIterate (opts : HeapOptions) (fuel : Nat) : Option (List (List Nat)) :=
  if opts.parallelRegionStride < opts.regionCount ∧ opts.parallelGcThreads ≠ 0 then
    (workLoop opts.parallelRegionStride opts.regionCount (fun _ => false) fuel 0 0).map
      (·.map (regionChunk opts.parallelRegionStride opts.regionCount))
  else some [List.range opts.regionCount]

def parallelHeapRegionIterateWithCancellation (opts : HeapOptions) (reads : CancelReads)
    (fuel : Nat) : Option (List (List Nat)) :=
  if opts.parallelRegionStride < opts.regionCount ∧ opts.parallelGcThreads ≠ 0 then
    (workLoop opts.parallelRegionStride opts.regionCount reads.round fuel 0 0).map
      (·.map (cancellableChunk opts.parallelRegionStride opts.regionCount reads))
  else some [List.range opts.regionCount]

-- The threads of the pool run every job once, in any order and interleaved.
def Executes (jobs : List (List Nat)) (calls : List Nat) : Prop := calls.Perm jobs.flatten

-- Both iterations come to an end, and call the closure on every region exactly once, or
-- at most once where they are cancelled.
structure HeapOptions.Iterates (opts : HeapOptions) : Prop where
  plain : ∃ fuel jobs, parallelHeapRegionIterate opts fuel = some jobs ∧
    ∀ calls, Executes jobs calls → calls.Perm (List.range opts.regionCount)
  cancellable : ∀ reads, ∃ fuel jobs,
    parallelHeapRegionIterateWithCancellation opts reads fuel = some jobs ∧
      ∀ calls, Executes jobs calls → calls.Nodup ∧ (∀ i ∈ calls, i < opts.regionCount) ∧
        (reads.Silent → calls.Perm (List.range opts.regionCount))

section WorkLoop

variable {stride max : Nat} {cancelled : Nat → Bool}

-- Without a stride the counter never moves.
theorem workLoop_no_stride (hmax : 0 < max) (fuel round : Nat) :
    workLoop 0 max (fun _ => false) fuel round 0 = none := by
  induction fuel generalizing round with
  | zero => rfl
  | succ fuel ih =>
      have hnot : ¬(max ≤ 0 ∨ false = true) := by
        rintro (h | h)
        · omega
        · cases h
      rw [workLoop, if_pos hmax, if_neg hnot, show wrap (0 + 0) = 0 from rfl, ih]
      rfl

theorem regionChunk_append {index : Nat} (hindex : index < max)
    (hwrap : wrap (index + stride) = index + stride) :
    regionChunk stride max index ++ List.range' (index + stride) (max - (index + stride)) =
      List.range' index (max - index) := by
  rw [regionChunk, hwrap]
  by_cases hlast : max ≤ index + stride
  · rw [Nat.min_eq_left hlast, show max - (index + stride) = 0 by omega]
    exact List.append_nil _
  · rw [Nat.min_eq_right (by omega), show index + stride - index = stride by omega,
      List.range'_append_1]
    congr 1
    omega

-- The chunks are handed out from the front, and all of them without a cancellation.
theorem workLoop_chunks (cancelled : Nat → Bool) (hstride : 0 < stride)
    (hmax : max + stride ≤ usizeRange) (fuel : Nat) :
    ∀ round index, max ≤ index + fuel → ∃ starts,
      workLoop stride max cancelled (fuel + 1) round index = some starts ∧
        starts.flatMap (regionChunk stride max) <+: List.range' index (max - index) ∧
        ((∀ r, cancelled r = false) →
          starts.flatMap (regionChunk stride max) = List.range' index (max - index)) := by
  induction fuel with
  | zero =>
      intro round index hfuel
      refine ⟨[], by rw [workLoop, if_neg (by omega)], List.nil_prefix, fun _ => ?_⟩
      rw [show max - index = 0 by omega]
      rfl
  | succ fuel ih =>
      intro round index hfuel
      rw [workLoop]
      by_cases hindex : index < max
      · have hwrap : wrap (index + stride) = index + stride := Nat.mod_eq_of_lt (by omega)
        rw [if_pos hindex]
        by_cases hcancel : cancelled round = true
        · rw [if_pos (Or.inr hcancel)]
          refine ⟨[], rfl, List.nil_prefix, fun hnone => ?_⟩
          rw [hnone round] at hcancel
          cases hcancel
        · obtain ⟨starts, hloop, hprefix, hall⟩ := ih (round + 1) (index + stride) (by omega)
          rw [if_neg (not_or.mpr ⟨by omega, hcancel⟩), hwrap, hloop]
          have happend := regionChunk_append hindex hwrap
          refine ⟨index :: starts, rfl, ?_, fun hnone => ?_⟩
          · rw [List.flatMap_cons, ← happend]
            exact List.prefix_append_right_inj _ |>.mpr hprefix
          · rw [List.flatMap_cons, hall hnone, happend]
      · rw [if_neg hindex]
        refine ⟨[], rfl, List.nil_prefix, fun _ => ?_⟩
        rw [show max - index = 0 by omega]
        rfl

theorem cancellableChunk_sublist (reads : CancelReads) (starts : List Nat) :
    (starts.flatMap (cancellableChunk stride max reads)).Sublist
      (starts.flatMap (regionChunk stride max)) := by
  induction starts with
  | nil => exact List.Sublist.refl _
  | cons cur rest ih =>
      rw [List.flatMap_cons, List.flatMap_cons]
      apply List.Sublist.append _ ih
      unfold cancellableChunk
      split
      · exact List.nil_sublist _
      · exact List.takeWhile_sublist _

theorem cancellableChunk_silent {reads : CancelReads} (hsilent : reads.Silent) :
    cancellableChunk stride max reads = regionChunk stride max := by
  funext cur
  unfold cancellableChunk
  rw [(hsilent cur).2.1, if_neg Bool.false_ne_true, List.takeWhile_eq_self_iff]
  intro i _
  rw [(hsilent i).2.2]
  rfl

end WorkLoop

-- The iterations need a stride where there is a pool and something to hand out.
theorem HeapOptions.iterates_iff {opts : HeapOptions}
    (hcount : opts.regionCount + opts.regionCount ≤ usizeRange) :
    opts.Iterates ↔
      (opts.parallelGcThreads ≠ 0 → opts.parallelRegionStride = 0 → opts.regionCount = 0) := by
  constructor
  · intro h hthreads hstride
    by_contra hne
    obtain ⟨fuel, jobs, hjobs, -⟩ := h.plain
    rw [parallelHeapRegionIterate, hstride, if_pos ⟨Nat.pos_of_ne_zero hne, hthreads⟩,
      workLoop_no_stride (Nat.pos_of_ne_zero hne)] at hjobs
    cases hjobs
  · intro h
    have hstride : opts.parallelRegionStride < opts.regionCount ∧ opts.parallelGcThreads ≠ 0 →
        0 < opts.parallelRegionStride ∧
          opts.regionCount + opts.parallelRegionStride ≤ usizeRange := by
      rintro ⟨hlt, hthreads⟩
      refine ⟨Nat.pos_of_ne_zero fun hzero => ?_, by omega⟩
      have := h hthreads hzero
      omega
    have hwhole : List.range' 0 (opts.regionCount - 0) = List.range opts.regionCount :=
      List.range_eq_range'.symm
    constructor
    · unfold parallelHeapRegionIterate
      split
      · rename_i hpool
        obtain ⟨hpos, hmax⟩ := hstride hpool
        obtain ⟨starts, hloop, -, hall⟩ := workLoop_chunks (fun _ => false) hpos hmax
          opts.regionCount 0 0 (by omega)
        refine ⟨opts.regionCount + 1, _, by rw [hloop]; rfl, fun calls hcalls => ?_⟩
        rw [Executes, ← List.flatMap_def, hall fun _ => rfl, hwhole] at hcalls
        exact hcalls
      · refine ⟨0, _, rfl, fun calls hcalls => ?_⟩
        simpa [Executes] using hcalls
    · intro reads
      unfold parallelHeapRegionIterateWithCancellation
      split
      · rename_i hpool
        obtain ⟨hpos, hmax⟩ := hstride hpool
        obtain ⟨starts, hloop, hprefix, hall⟩ := workLoop_chunks reads.round hpos hmax
          opts.regionCount 0 0 (by omega)
        refine ⟨opts.regionCount + 1, _, by rw [hloop]; rfl, fun calls hcalls => ?_⟩
        rw [Executes, ← List.flatMap_def] at hcalls
        rw [hwhole] at hprefix hall
        have hsub := (cancellableChunk_sublist reads starts).trans hprefix.sublist
        refine ⟨hcalls.nodup_iff.mpr (hsub.nodup List.nodup_range), fun i hi => ?_, fun hsilent => ?_⟩
        · exact List.mem_range.mp (hsub.subset (hcalls.mem_iff.mp hi))
        · rw [cancellableChunk_silent hsilent, hall fun r => (hsilent r).1] at hcalls
          exact hcalls
      · refine ⟨0, _, rfl, fun calls hcalls => ?_⟩
        have hperm : calls.Perm (List.range opts.regionCount) := by simpa [Executes] using hcalls
        exact ⟨hperm.nodup_iff.mpr List.nodup_range,
          fun i hi => List.mem_range.mp (hperm.mem_iff.mp hi), fun _ => hperm⟩

-- The number of regions in the numbers that the arguments give; none where the heap
-- cannot be rounded up.
def roundedRegionCount (pageSize : Nat) (args : HeapArguments) : Nat :=
  if args.maxHeapSize + pagedRegionSize pageSize args ≤ usizeRange ∧
      roundUp args.maxHeapSize (pagedRegionSize pageSize args) + powerRegionSize pageSize args ≤
        usizeRange then
    roundUp (roundUp args.maxHeapSize (pagedRegionSize pageSize args))
      (powerRegionSize pageSize args) / powerRegionSize pageSize args
  else 0

-- The stride is to be computed from the number of threads.
def HeapArguments.AutomaticStride (args : HeapArguments) : Prop :=
  args.parallelRegionStride = 0 ∨ args.parallelRegionStride = 1024

-- The arguments by which nothing divides by zero and every job has a region.
structure HeapArguments.Iterable (pageSize : Nat) (args : HeapArguments) : Prop where
  percent : wrap (2 * args.tlabWasteTargetPercent) ≠ 0
  paged : args.Affordable → requestedRegionSize args + pageSize ≤ usizeRange
  threads : args.Affordable → args.parallelRegionStride = 1024 → args.parallelGcThreads ≠ 0
  stride : args.Affordable → args.AutomaticStride → args.parallelGcThreads ≠ 0 →
    roundedRegionCount pageSize args = 0 ∨
      args.parallelGcThreads ≤ roundedRegionCount pageSize args

-- `setup_sizes` divides by nothing that is zero, and what it returns can be iterated.
def SetupIterates (pageSize : Nat) (args : HeapArguments) : Prop :=
  setupSizes pageSize args ≠ .error .divisionByZero ∧
    ∀ opts, setupSizes pageSize args = .ok opts → opts.Iterates

theorem usizeDiv_eq_error_iff {value divisor : Nat} {e : SetupPanic} :
    usizeDiv value divisor = .error e ↔ divisor = 0 ∧ e = .divisionByZero := by
  simp only [usizeDiv, Except.bind_eq_error, Except.ensure_eq_error]
  constructor
  · rintro (⟨hzero, rfl⟩ | ⟨_, _, h⟩)
    · exact ⟨not_not.mp hzero, rfl⟩
    · cases h
  · rintro ⟨hzero, rfl⟩
    exact Or.inl ⟨not_not_intro hzero, rfl⟩

theorem parallelStride_eq_error_iff {args : HeapArguments} {count : Nat} {e : SetupPanic} :
    parallelStride args count = .error e ↔
      args.parallelRegionStride = 1024 ∧ args.parallelGcThreads = 0 ∧ e = .divisionByZero := by
  unfold parallelStride
  split
  · rename_i h
    rw [usizeDiv_eq_error_iff]
    constructor
    · rintro ⟨hzero, he⟩
      exact ⟨h.resolve_left fun h' => h'.2 hzero, hzero, he⟩
    · rintro ⟨-, hzero, he⟩
      exact ⟨hzero, he⟩
  · rename_i h
    constructor
    · intro h'
      cases h'
    · rintro ⟨hstride, -, -⟩
      exact absurd (Or.inr hstride) h

-- The stride serves the pool unless it is computed for more threads than regions.
theorem parallelStride_serves_iff {args : HeapArguments} {count stride : Nat}
    (h : parallelStride args count = .ok stride) :
    (args.parallelGcThreads ≠ 0 → stride = 0 → count = 0) ↔
      (args.AutomaticStride → args.parallelGcThreads ≠ 0 →
        count = 0 ∨ args.parallelGcThreads ≤ count) := by
  unfold parallelStride at h
  split at h
  · rename_i hauto
    obtain ⟨hne, rfl⟩ := usizeDiv_eq_ok h
    have hautomatic : args.AutomaticStride := hauto.imp_left And.left
    have hdiv : count / args.parallelGcThreads = 0 ↔ count < args.parallelGcThreads := by
      rw [Nat.div_eq_zero_iff]
      exact or_iff_right hne
    constructor
    · intro hcount _ hthreads
      by_cases hlt : count < args.parallelGcThreads
      · exact Or.inl (hcount hthreads (hdiv.mpr hlt))
      · exact Or.inr (Nat.le_of_not_lt hlt)
    · intro hcount hthreads hzero
      have hlt := hdiv.mp hzero
      exact (hcount hautomatic hthreads).resolve_right (by omega)
  · rename_i hmanual
    obtain rfl := Except.ok.inj h
    rw [not_or, not_and_not_right] at hmanual
    constructor
    · intro _ hauto hthreads
      exact absurd (hmanual.1 (hauto.resolve_right hmanual.2)) hthreads
    · intro _ hthreads hzero
      exact absurd (hmanual.1 hzero) hthreads

section Setup

variable {pageSize : Nat} {args : HeapArguments}

theorem requestedRegionSize_pos (args : HeapArguments) : 0 < requestedRegionSize args := by
  have hmin : 0 < MIN_REGION_SIZE := by decide
  have hmax : 0 < MAX_REGION_SIZE := by decide
  unfold requestedRegionSize
  dsimp only
  split
  · omega
  · apply Nat.lt_min.mpr
    constructor
    · split <;> omega
    · apply Nat.lt_of_lt_of_le _ (Nat.le_max_right _ _)
      split <;> omega

theorem alignUsize_regions (hpos : 0 < pagedRegionSize pageSize args)
    (hlt : pagedRegionSize pageSize args < usizeRange) :
    ∃ maxHeap, alignUsize (if args.maxHeapSize + pagedRegionSize pageSize args ≤ usizeRange then
        roundUp args.maxHeapSize (pagedRegionSize pageSize args) else 0)
        (powerRegionSize pageSize args) = .ok maxHeap ∧
      maxHeap / powerRegionSize pageSize args = roundedRegionCount pageSize args := by
  have hpower : 0 < powerRegionSize pageSize args := Nat.two_pow_pos _
  have hle := powerRegionSize_le hpos
  have hheap := roundUp_le args.maxHeapSize (pagedRegionSize pageSize args)
  rw [alignUsize_eq (by split <;> omega) (hle.trans hlt.le), if_neg hpower.ne']
  refine ⟨_, rfl, ?_⟩
  unfold roundedRegionCount
  by_cases hfits : args.maxHeapSize + pagedRegionSize pageSize args ≤ usizeRange
  · simp only [hfits, if_true, true_and]
    split
    · rfl
    · exact Nat.zero_div _
  · simp only [hfits, if_false, false_and]
    rw [roundUp_zero hpower, ite_self, Nat.zero_div]

theorem setupSizes_percent_zero (h : wrap (2 * args.tlabWasteTargetPercent) = 0) :
    setupSizes pageSize args = .error .divisionByZero := by
  rw [setupSizes, usizeDiv_eq_error_iff.mpr ⟨h, rfl⟩]
  rfl

theorem usizeDiv_of_ne {value divisor : Nat} (h : divisor ≠ 0) :
    usizeDiv value divisor = .ok (value / divisor) := by
  rw [usizeDiv, ensure, if_pos h]
  rfl

theorem setupSizes_refused (pageSize : Nat) (hpercent : wrap (2 * args.tlabWasteTargetPercent) ≠ 0)
    (hrefused : ¬args.Affordable) : setupSizes pageSize args = .error .maxHeapTooLow := by
  unfold HeapArguments.Affordable at hrefused
  rw [setupSizes, usizeDiv_of_ne hpercent]
  dsimp only [Except.ok_bind]
  rw [ensure, if_neg hrefused]
  rfl

theorem setupSizes_afforded (hpercent : wrap (2 * args.tlabWasteTargetPercent) ≠ 0)
    (hafford : args.Affordable) (hwords : args.Words) (hpage : 0 < pageSize)
    (hword : pageSize < usizeRange) :
    (¬requestedRegionSize args + pageSize ≤ usizeRange →
      setupSizes pageSize args = .error .divisionByZero) ∧
    (requestedRegionSize args + pageSize ≤ usizeRange → ∃ opts : Nat → HeapOptions,
      setupSizes pageSize args =
        (parallelStride args (roundedRegionCount pageSize args)).map opts ∧
      ∀ stride, (opts stride).parallelRegionStride = stride ∧
        (opts stride).parallelGcThreads = args.parallelGcThreads ∧
        (opts stride).regionCount = roundedRegionCount pageSize args) := by
  have hrequested := requestedRegionSize_lt hwords hafford
  unfold HeapArguments.Affordable at hafford
  rw [setupSizes, usizeDiv_of_ne hpercent]
  dsimp only [Except.ok_bind]
  rw [ensure, if_pos hafford, alignUsize_eq hrequested hword.le, if_neg hpage.ne']
  dsimp only [Except.ok_bind]
  constructor
  · intro hover
    rw [if_neg hover, alignUsize_eq hwords.maxHeapSize_lt (Nat.zero_le _), if_pos rfl]
    rfl
  · intro hfits
    have hpaged : pagedRegionSize pageSize args < usizeRange := by
      have hle := roundUp_le (requestedRegionSize args) pageSize
      unfold pagedRegionSize
      omega
    have hpagedPos : 0 < pagedRegionSize pageSize args :=
      roundUp_pos (requestedRegionSize_pos args) hpage
    rw [if_pos hfits]
    change ∃ opts, (alignUsize args.maxHeapSize (pagedRegionSize pageSize args) >>= _) = _ ∧ _
    rw [alignUsize_eq hwords.maxHeapSize_lt hpaged.le, if_neg hpagedPos.ne']
    dsimp only [Except.ok_bind]
    obtain ⟨maxHeap, hmax, hcount⟩ := alignUsize_regions hpagedPos hpaged
    refine ⟨?opts, ?setup, ?fields⟩
    case setup =>
      change (alignUsize _ (powerRegionSize pageSize args) >>= _) = _
      rw [hmax]
      dsimp only [Except.ok_bind]
      change (parallelStride args (maxHeap / powerRegionSize pageSize args) >>= _) = _
      rw [hcount]
      rfl
    case fields =>
      intro stride
      exact ⟨rfl, rfl, hcount⟩

theorem roundedRegionCount_le (hpos : 2 ≤ powerRegionSize pageSize args) :
    roundedRegionCount pageSize args + roundedRegionCount pageSize args ≤ usizeRange := by
  unfold roundedRegionCount
  split
  · rename_i hfits
    have hle := roundUp_le (roundUp args.maxHeapSize (pagedRegionSize pageSize args))
      (powerRegionSize pageSize args)
    have hdiv := Nat.div_le_div_left hpos Nat.two_pos
      (a := roundUp (roundUp args.maxHeapSize (pagedRegionSize pageSize args))
        (powerRegionSize pageSize args))
    omega
  · omega

-- Region iteration ends and covers the heap for exactly these arguments.
theorem setup_iterates_iff (hpage : 2 ≤ pageSize) (hword : pageSize < usizeRange)
    (hwords : args.Words) : SetupIterates pageSize args ↔ args.Iterable pageSize := by
  by_cases hpercent : wrap (2 * args.tlabWasteTargetPercent) = 0
  · exact ⟨fun h => absurd (setupSizes_percent_zero hpercent) h.1,
      fun h => absurd hpercent h.percent⟩
  by_cases hafford : args.Affordable
  · obtain ⟨hover, hfits⟩ := setupSizes_afforded hpercent hafford hwords (by omega) hword
    by_cases hpaged : requestedRegionSize args + pageSize ≤ usizeRange
    · obtain ⟨opts, hsetup, hfields⟩ := hfits hpaged
      have hpower : 2 ≤ powerRegionSize pageSize args := by
        have hdvd := dvd_roundUp (requestedRegionSize args) pageSize
        have hpos := roundUp_pos (requestedRegionSize_pos args) (by omega : 0 < pageSize)
        have hle := hpage.trans (Nat.le_of_dvd hpos hdvd)
        exact Nat.pow_le_pow_right (i := 1) Nat.two_pos ((Nat.le_log2 hpos.ne').mpr hle)
      have hcount := roundedRegionCount_le hpower
      have hiterates : ∀ stride, parallelStride args (roundedRegionCount pageSize args) =
          .ok stride → ((opts stride).Iterates ↔ (args.AutomaticStride →
            args.parallelGcThreads ≠ 0 → roundedRegionCount pageSize args = 0 ∨
              args.parallelGcThreads ≤ roundedRegionCount pageSize args)) := by
        intro stride hstride
        obtain ⟨hs, ht, hc⟩ := hfields stride
        rw [HeapOptions.iterates_iff (by rw [hc]; exact hcount), hs, ht, hc]
        exact parallelStride_serves_iff hstride
      unfold SetupIterates
      rw [hsetup]
      cases hstride : parallelStride args (roundedRegionCount pageSize args) with
      | error e =>
          obtain ⟨hmanual, hzero, rfl⟩ := parallelStride_eq_error_iff.mp hstride
          exact ⟨fun h => absurd rfl h.1, fun h => absurd hzero (h.threads hafford hmanual)⟩
      | ok stride =>
          have hthreads : args.parallelRegionStride = 1024 → args.parallelGcThreads ≠ 0 := by
            intro hmanual hzero
            rw [parallelStride_eq_error_iff.mpr ⟨hmanual, hzero, rfl⟩] at hstride
            cases hstride
          constructor
          · intro h
            exact ⟨hpercent, fun _ => hpaged, fun _ => hthreads,
              fun _ => (hiterates stride hstride).mp (h.2 _ rfl)⟩
          · intro h
            refine ⟨nofun, fun o ho => ?_⟩
            obtain rfl := Except.ok.inj ho
            exact (hiterates stride hstride).mpr (h.stride hafford)
    · exact ⟨fun h => absurd (hover hpaged) h.1, fun h => absurd (h.paged hafford) hpaged⟩
  · have hrefused := setupSizes_refused pageSize hpercent hafford
    unfold SetupIterates
    rw [hrefused]
    exact ⟨fun _ => ⟨hpercent, fun h => absurd h hafford, fun h => absurd h hafford,
      fun h => absurd h hafford⟩, fun _ => ⟨nofun, nofun⟩⟩

end Setup

-- Ten regions in chunks of one.
theorem setup_iterates_small : SetupIterates 4096 HeapConfig.small.args := by
  apply (setup_iterates_iff (by decide) (by decide) ⟨by decide, by decide⟩).mpr
  refine ⟨by decide, fun _ => by decide, fun _ h => absurd h (by decide), fun _ h => ?_⟩
  exact absurd h (by unfold HeapArguments.AutomaticStride; decide)

-- With the automatic stride sixteen threads share ten regions in chunks of none.
theorem automatic_stride_never_ends :
    ∃ args opts, args.Words ∧ setupSizes 4096 args = .ok opts ∧
      ∀ fuel, parallelHeapRegionIterate opts fuel = none := by
  have hsetup : (setupSizes 4096 { HeapConfig.small.args with
      parallelRegionStride := 1024, parallelGcThreads := 16 }).toOption.map
        (fun opts => (opts.regionCount, opts.parallelRegionStride, opts.parallelGcThreads)) =
          some (10, 0, 16) := by decide
  obtain ⟨opts, hopts, hsizes⟩ := Option.map_eq_some_iff.mp hsetup
  obtain ⟨hcount, hrest⟩ := Prod.mk.inj hsizes
  obtain ⟨hstride, hthreads⟩ := Prod.mk.inj hrest
  refine ⟨_, opts, ⟨by decide, by decide⟩, Except.toOption_eq_some.mp hopts, fun fuel => ?_⟩
  rw [parallelHeapRegionIterate, hstride, hcount, hthreads, if_pos (by decide),
    workLoop_no_stride (by decide)]
  rfl

end Rsgc.Storage
