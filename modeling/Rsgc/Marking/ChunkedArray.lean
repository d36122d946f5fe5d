import Mathlib
import Rsgc.Lib.Machine
import Rsgc.Marking.Chunks
import Rsgc.Marking.Encoding

namespace Rsgc.Marking

-- How often element `i` is in a range handed to `iterate_range`.
def handed (ranges : List (Nat × Nat)) (i : Nat) : Nat :=
  ranges.countP fun r => r.1 ≤ i ∧ i < r.2

-- `do_chunked_array` on a task, with the products that it puts into an `i32`:
-- one that does not fit is an overflow.
def runChunk (t : MarkTask) : Option ChunkWork :=
  let w := chunkedArray t.obj t.chunk t.pow
  if ∀ r ∈ w.range, r.1 < 2 ^ 31 ∧ r.2 < 2 ^ 31 then some w else none

-- The marking of one array: the words of the chunk tasks on the queues and the
-- ranges handed out so far.
structure ArrayRun where
  pending : List Nat
  ranges : List (Nat × Nat)

-- The tasks are run in any order. A word that were taken for a whole object
-- would not reach `do_chunked_array`.
def arrayMarking (obj len : Nat) : Machine ArrayRun Nat where
  init s := ∃ w, chunkedArrayStart obj len = some w ∧
    s = ⟨w.pushes.map MarkTask.encode, w.range.toList⟩
  step s word :=
    if word ∈ s.pending ∧ MarkTask.decodeNotChunked word = false then
      (runChunk (MarkTask.decode word)).map fun w =>
        ⟨s.pending.erase word ++ w.pushes.map MarkTask.encode, s.ranges ++ w.range.toList⟩
    else none

-- No computation fails, the run ends, no element is handed out too often or out
-- of bounds, and in the end each one has been handed out.
structure CoversExactly (obj len : Nat) : Prop where
  starts : ∃ w, chunkedArrayStart obj len = some w
  runs : ∀ s, (arrayMarking obj len).Reachable s → ∀ word ∈ s.pending,
    ((arrayMarking obj len).step s word).isSome = true
  ends : ∃ bound, ∀ s, (arrayMarking obj len).init s → ∀ words t,
    (arrayMarking obj len).run s words = some t → words.length ≤ bound
  bounded : ∀ s, (arrayMarking obj len).Reachable s → ∀ i,
    handed s.ranges i ≤ if i < len then 1 else 0
  complete : ∀ s, (arrayMarking obj len).Reachable s → s.pending = [] → ∀ i, i < len →
    handed s.ranges i = 1

theorem handed_append (xs ys : List (Nat × Nat)) (i : Nat) :
    handed (xs ++ ys) i = handed xs i + handed ys i := List.countP_append

theorem handed_singleton (r : Nat × Nat) (i : Nat) :
    handed [r] i = if r.1 ≤ i ∧ i < r.2 then 1 else 0 := by
  simp [handed, List.countP_cons]

theorem covering_append (xs ys : List MarkTask) (i : Nat) :
    covering (xs ++ ys) i = covering xs i + covering ys i := List.countP_append

-- The power of two that `do_chunked_array_start` starts from is the first one
-- that is not below the length.
theorem arrayBits_le_iff {len : Nat} (hlen : 0 < len) (k : Nat) :
    (if len ≠ 2 ^ log2iGraceful len then log2iGraceful len + 1 else log2iGraceful len) ≤ k ↔
      len ≤ 2 ^ k := by
  unfold log2iGraceful
  have hlo : 2 ^ len.log2 ≤ len := Nat.log2_self_le hlen.ne'
  have hhi : len < 2 ^ (len.log2 + 1) := Nat.lt_log2_self
  by_cases heq : len = 2 ^ len.log2
  · rw [if_neg (not_not.mpr heq)]
    conv_rhs => rw [heq]
    exact (Nat.pow_le_pow_iff_right (by decide)).symm
  · rw [if_pos heq]
    constructor
    · exact fun h => hhi.le.trans (Nat.pow_le_pow_right (by decide) h)
    · intro h
      by_contra hk
      have : 2 ^ k ≤ 2 ^ len.log2 := Nat.pow_le_pow_right (by decide) (by omega)
      omega

-- What a pushed task must meet for its word to be read back and its bounds to fit.
structure Sane (obj : Nat) (t : MarkTask) : Prop where
  obj_eq : t.obj = obj
  chunk_pos : 0 < t.chunk
  chunk_lt : t.chunk < MarkTask.chunkSize
  bound : t.chunk * 2 ^ t.pow ≤ 2 ^ 30

theorem Sane.fits {obj : Nat} {t : MarkTask} (h : Sane obj t) : t.Fits :=
  ⟨h.chunk_pos, h.chunk_lt, h.bound.trans_lt (by decide)⟩

theorem Sane.pow_le {obj : Nat} {t : MarkTask} (h : Sane obj t) : t.pow ≤ 30 := by
  have hle : 2 ^ t.pow ≤ 2 ^ 30 := (Nat.le_mul_of_pos_left _ h.chunk_pos).trans h.bound
  exact (Nat.pow_le_pow_iff_right (by decide)).mp hle

theorem Sane.packable {obj : Nat} (hobj : obj < 2 ^ 49) (hdvd : 4 ∣ obj) {t : MarkTask}
    (h : Sane obj t) : t.Packable where
  obj_lt := h.obj_eq ▸ hobj
  obj_dvd := h.obj_eq ▸ hdvd
  chunk_lt := h.chunk_lt
  pow_lt := h.pow_le.trans_lt (by decide)

-- Up to 2^30 elements the start hands out each element once, in its tail or
-- in a chunk that it pushes.
theorem chunkedArrayStart_short (obj : Nat) {len : Nat} (hlen : len ≤ 2 ^ 30) :
    ∃ w, chunkedArrayStart obj len = some w ∧ (∀ t ∈ w.pushes, Sane obj t) ∧
      ∀ i, covering w.pushes i + handed w.range.toList i = if i < len then 1 else 0 := by
  unfold chunkedArrayStart
  by_cases hsmall : len ≤ 2048 * 2
  · rw [if_pos hsmall]
    refine ⟨_, rfl, by simp, fun i => ?_⟩
    simp [covering, handed, List.countP_cons]
  · rw [if_neg hsmall]
    have hbits := (arrayBits_le_iff (by omega : 0 < len) 30).mpr hlen
    simp only
    generalize (if len ≠ 2 ^ log2iGraceful len then log2iGraceful len + 1
      else log2iGraceful len) = bits at hbits
    rw [if_pos (by omega), if_neg (by omega)]
    refine ⟨_, rfl, ?_, fun i => ?_⟩
    · intro t ht
      obtain ⟨hobj, hpos, hlt, hend⟩ := splitPrefix_tasks obj len bits Nat.one_pos t ht
      exact ⟨hobj, hpos, hlt, (hend.le.trans hlen)⟩
    · have hcover := splitPrefix_covering obj len bits Nat.one_pos
        (show 0 = (1 - 1) * 2 ^ bits by omega) i
      obtain ⟨-, htail⟩ := splitPrefix_snd obj len bits Nat.one_pos
        (show 0 = (1 - 1) * 2 ^ bits by omega)
      rw [hcover]
      by_cases hend : (splitPrefix obj len bits 1 0).2 < len
      · rw [if_pos hend, Option.toList_some, handed_singleton]
        simp only
        split <;> split <;> split <;> omega
      · rw [if_neg hend, Option.toList_none]
        have hnil : handed [] i = 0 := rfl
        rw [hnil]
        split <;> split <;> omega

-- A chunk task hands out its elements once, in the chunk it keeps or in one
-- that it pushes.
theorem runChunk_sane {obj : Nat} {t : MarkTask} (h : Sane obj t) :
    ∃ w, runChunk t = some w ∧ (∀ u ∈ w.pushes, Sane obj u) ∧
      extent w.pushes < 2 ^ t.pow ∧ ∀ i, covering w.pushes i + handed w.range.toList i = if t.Elements i then 1 else 0 := by
  have hstop := splitChunk_stop t.obj t.pow t.chunk
  have hstart := splitChunk_start t.obj t.pow h.chunk_pos
  have hle := chunk_start_le (splitChunk t.obj t.pow t.chunk).2.1
    (splitChunk t.obj t.pow t.chunk).2.2
  have hbound := h.bound
  refine ⟨_, if_pos ?_, ?_, ?_, fun i => ?_⟩
  · intro r hr
    obtain rfl := Option.mem_some.mp hr
    simp only
    omega
  · intro u hu
    obtain ⟨hobj, hpos, hlt, hend⟩ := splitChunk_tasks t.obj t.pow h.chunk_pos u hu
    exact ⟨hobj.trans h.obj_eq, hpos, hlt, hend.trans hbound⟩
  · have hextent := splitChunk_extent t.obj t.pow t.chunk
    have hkept : 0 < 2 ^ (splitChunk t.obj t.pow t.chunk).2.2 := Nat.two_pow_pos _
    simp only [chunkedArray]
    omega
  · have hcover := splitChunk_covering t.obj t.pow h.chunk_pos i
    simp only [chunkedArray, Option.toList_some, handed_singleton]
    rw [hcover]
    by_cases hi : t.Elements i
    · rw [if_pos hi]
      unfold MarkTask.Elements at hi
      split <;> split <;> omega
    · rw [if_neg hi]
      unfold MarkTask.Elements at hi
      split <;> split <;> omega

-- The invariant of the run: every element is handed out already, or is in one
-- of the pending tasks.
structure Partition (obj len : Nat) (s : ArrayRun) (tasks : List MarkTask) : Prop where
  pending : s.pending.Perm (tasks.map MarkTask.encode)
  sane : ∀ t ∈ tasks, Sane obj t
  count : ∀ i, covering tasks i + handed s.ranges i = if i < len then 1 else 0

section

variable {obj len : Nat} (hobj : obj < 2 ^ 49) (hdvd : 4 ∣ obj)

include hobj hdvd

-- A word on the queues is that of a task, which its step carries out.
theorem Partition.step {s : ArrayRun} {tasks : List MarkTask} (hp : Partition obj len s tasks)
    {word : Nat} (hword : word ∈ s.pending) :
    ∃ t rest, (arrayMarking obj len).step s word = some t ∧ Partition obj len t rest ∧
      extent rest < extent tasks := by
  obtain ⟨task, htask, rfl⟩ := List.mem_map.mp (hp.pending.mem_iff.mp hword)
  have hsane := hp.sane task htask
  have hpack := hsane.packable hobj hdvd
  obtain ⟨w, hw, hpushes, hextent, hcount⟩ := runChunk_sane hsane
  have hchunked : MarkTask.decodeNotChunked task.encode = false := by
    rw [hpack.decodeNotChunked, hsane.fits.isNotChunked]
  have hperm := List.perm_cons_erase htask
  have hstep : (arrayMarking obj len).step s task.encode =
      some ⟨s.pending.erase task.encode ++ w.pushes.map MarkTask.encode,
        s.ranges ++ w.range.toList⟩ := by
    simp only [arrayMarking]
    rw [if_pos ⟨hword, hchunked⟩, hpack.decode, hw]
    rfl
  refine ⟨_, tasks.erase task ++ w.pushes, hstep, ⟨?_, ?_, fun i => ?_⟩, ?_⟩
  · rw [List.map_append]
    refine List.Perm.append_right _ ?_
    have := (hp.pending.trans (hperm.map MarkTask.encode)).erase task.encode
    simpa using this
  · intro t ht
    rcases List.mem_append.mp ht with h | h
    · exact hp.sane t (List.mem_of_mem_erase h)
    · exact hpushes t h
  · have hold := hp.count i
    have hsplit : covering tasks i = covering (task :: tasks.erase task) i :=
      hperm.countP_eq _
    rw [hsplit, covering_cons] at hold
    rw [covering_append, handed_append]
    have := hcount i
    omega
  · have hsum : extent tasks = extent (task :: tasks.erase task) :=
      (hperm.map fun t : MarkTask => 2 ^ t.pow).sum_nat
    rw [hsum]
    simp only [extent, List.map_append, List.sum_append, List.map_cons, List.sum_cons] at hextent ⊢
    omega

theorem Partition.step_eq {s t : ArrayRun} {tasks : List MarkTask}
    (hp : Partition obj len s tasks) {word : Nat}
    (hstep : (arrayMarking obj len).step s word = some t) :
    ∃ rest, Partition obj len t rest ∧ extent rest < extent tasks := by
  have hword : word ∈ s.pending := by
    by_contra hnot
    simp [arrayMarking, hnot] at hstep
  obtain ⟨t', rest, hstep', hp', hlt⟩ := hp.step hobj hdvd hword
  obtain rfl : t = t' := Option.some.inj (hstep.symm.trans hstep')
  exact ⟨rest, hp', hlt⟩

-- Every step hands some elements out, so the pending ones bound the run.
theorem Partition.run_length {s t : ArrayRun} {tasks : List MarkTask}
    (hp : Partition obj len s tasks) {words : List Nat}
    (hrun : (arrayMarking obj len).run s words = some t) : words.length ≤ extent tasks := by
  induction words generalizing s tasks with
  | nil => exact Nat.zero_le _
  | cons word words ih =>
      obtain ⟨u, hstep, hrest⟩ := Option.bind_eq_some_iff.mp hrun
      obtain ⟨rest, hp', hlt⟩ := hp.step_eq hobj hdvd hstep
      have := ih hp' hrest
      rw [List.length_cons]
      omega

theorem Partition.reachable (hlen : len ≤ 2 ^ 30) {s : ArrayRun}
    (hs : (arrayMarking obj len).Reachable s) : ∃ tasks, Partition obj len s tasks := by
  refine Machine.Reachable.invariant (P := fun s => ∃ tasks, Partition obj len s tasks) ?_ ?_ hs
  · rintro s ⟨w, hw, rfl⟩
    obtain ⟨w', hw', hsane, hcount⟩ := chunkedArrayStart_short obj hlen
    obtain rfl : w = w' := Option.some.inj (hw.symm.trans hw')
    exact ⟨w.pushes, List.Perm.refl _, hsane, hcount⟩
  · rintro s word t ⟨tasks, hp⟩ hstep
    obtain ⟨rest, hp', -⟩ := hp.step_eq hobj hdvd hstep
    exact ⟨rest, hp'⟩

theorem coversExactly_of_short (hlen : len ≤ 2 ^ 30) : CoversExactly obj len where
  starts := by
    obtain ⟨w, hw, -⟩ := chunkedArrayStart_short obj hlen
    exact ⟨w, hw⟩
  runs s hs word hword := by
    obtain ⟨tasks, hp⟩ := Partition.reachable hobj hdvd hlen hs
    obtain ⟨t, rest, hstep, -⟩ := hp.step hobj hdvd hword
    rw [hstep]
    rfl
  ends := by
    obtain ⟨w, hw, hsane, hcount⟩ := chunkedArrayStart_short obj hlen
    refine ⟨extent w.pushes, ?_⟩
    rintro s ⟨w', hw', rfl⟩ words t hrun
    obtain rfl : w' = w := Option.some.inj (hw'.symm.trans hw)
    exact Partition.run_length hobj hdvd ⟨List.Perm.refl _, hsane, hcount⟩ hrun
  bounded s hs i := by
    obtain ⟨tasks, hp⟩ := Partition.reachable hobj hdvd hlen hs
    have := hp.count i
    omega
  complete s hs hdone i hi := by
    obtain ⟨tasks, hp⟩ := Partition.reachable hobj hdvd hlen hs
    have htasks : tasks = [] := by
      have hlength := hp.pending.length_eq
      rw [hdone, List.length_map, List.length_nil] at hlength
      exact List.eq_nil_of_length_eq_zero hlength.symm
    have := hp.count i
    rw [htasks, if_pos hi] at this
    simpa [covering] using this

end

-- From 2^30 + 1 elements on the start either fails its assertion or pushes
-- the second chunk of 2^30 elements first and never the first one.
theorem chunkedArrayStart_long {obj len : Nat} (hlen : 2 ^ 30 < len) {w : ChunkWork}
    (hw : chunkedArrayStart obj len = some w) :
    MarkTask.new2 obj true false 2 30 ∈ w.pushes := by
  have hpos : 0 < len := by omega
  have hbits := (not_congr (arrayBits_le_iff hpos 30)).mpr (by omega)
  unfold chunkedArrayStart at hw
  rw [if_neg (by omega)] at hw
  simp only at hw
  generalize (if len ≠ 2 ^ log2iGraceful len then log2iGraceful len + 1
    else log2iGraceful len) = bits at hbits hw
  by_cases h31 : bits ≤ 31
  · obtain rfl : bits = 31 := by omega
    rw [if_pos (by omega), if_pos (by omega)] at hw
    obtain rfl := Option.some.inj hw
    exact List.mem_cons_self
  · rw [if_neg h31] at hw
    cases hw

-- A right end that does not fit an `i32`, as that of this chunk.
theorem runChunk_overflow {t : MarkTask} (h : 2 ^ 31 ≤ t.chunk * 2 ^ t.pow) :
    runChunk t = none := by
  refine if_neg fun hfit => ?_
  have hlt := (hfit _ rfl).2
  have hstop := splitChunk_stop t.obj t.pow t.chunk
  omega

theorem short_of_coversExactly {obj len : Nat} (hobj : obj < 2 ^ 49) (hdvd : 4 ∣ obj)
    (h : CoversExactly obj len) : len ≤ 2 ^ 30 := by
  by_contra hlong
  obtain ⟨w, hw⟩ := h.starts
  have hmem := chunkedArrayStart_long (not_le.mp hlong) hw
  have hpack : (MarkTask.new2 obj true false 2 30).Packable :=
    ⟨hobj, hdvd, show 2 < 2 ^ 10 by decide, show 30 < 2 ^ 5 by decide⟩
  have hreach : (arrayMarking obj len).Reachable
      ⟨w.pushes.map MarkTask.encode, w.range.toList⟩ := Machine.Via.init ⟨w, hw, rfl⟩
  have hrun := h.runs _ hreach _ (List.mem_map.mpr ⟨_, hmem, rfl⟩)
  have hstep : (arrayMarking obj len).step ⟨w.pushes.map MarkTask.encode, w.range.toList⟩
      (MarkTask.encode (.new2 obj true false 2 30)) = none := by
    simp only [arrayMarking]
    rw [hpack.decode, runChunk_overflow (show 2 ^ 31 ≤ 2 * 2 ^ 30 by decide)]
    simp
  rw [hstep] at hrun
  cases hrun

theorem coversExactly_iff {obj len : Nat} (hobj : obj < 2 ^ 49) (hdvd : 4 ∣ obj) :
    CoversExactly obj len ↔ len ≤ 2 ^ 30 :=
  ⟨short_of_coversExactly hobj hdvd, coversExactly_of_short hobj hdvd⟩

theorem coversExactly_iff_five_thousand : CoversExactly 16 5000 ↔ 5000 ≤ 2 ^ 30 :=
  coversExactly_iff (by decide) (by decide)

theorem long_array_not_covered : ¬CoversExactly 16 (2 ^ 30 + 1) := fun h =>
  absurd (short_of_coversExactly (by decide) (by decide) h) (by decide)

end Rsgc.Marking
