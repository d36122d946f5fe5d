import Rsgc.Storage.HeapBitmap

namespace Rsgc.Storage

-- Where `sweep_walk` stops.
inductive WalkFault
  | differentLengths
  | bufferOverrun
deriving DecidableEq, Repr

namespace HeapBitmap

open BitWalk

variable {live mark : HeapBitmap} {m : Memory}

-- `size_of::<usize>() * bits_per_cell()` pointers
def bufferSize : Nat := 8 * 8

-- The pointers written before `cur_pointer`, and the slices passed on so far.
structure WalkState where
  buffer : List Nat
  slices : List (List Nat)

def push (buffer : List Nat) : List Nat → Except WalkFault (List Nat)
  | [] => pure buffer
  | ptr :: rest => do
      ensure (buffer.length < bufferSize) WalkFault.bufferOverrun
      push (buffer ++ [ptr]) rest

-- One cell; the buffer is passed on when another cell might not fit.
def walkCell (il : Nat) (garbage : BitVec 8) (s : WalkState) : Except WalkFault WalkState :=
  if garbage ≠ 0 then do
    let buffer ← push s.buffer ((BitWalk.walk 8 garbage).map fun shift => objectOffset il + shift * ALIGN)
    pure (if bufferSize - 8 ≤ buffer.length then ⟨[], s.slices ++ [buffer]⟩
      else ⟨buffer, s.slices⟩)
  else pure s

def walkCells (live mark : HeapBitmap) (m : Memory) (start markStart : Nat) :
    List Nat → WalkState → Except WalkFault WalkState
  | [], s => pure s
  | k :: rest, s => do
      let s ← walkCell (start + k) (live.cell m (start + k) &&& ~~~(mark.cell m (markStart + k))) s
      walkCells live mark m start markStart rest s

-- The slices that the closure of `sweep_walk` is called with.
def sweepWalk (live mark : HeapBitmap) (m : Memory) (sweepBegin sweepEnd : Nat) :
    Except WalkFault (List (List Nat)) := do
  let start := (live.objectStartIndexBit sweepBegin).1
  let stop := (live.objectStartIndexBit sweepEnd).1
  let markStart := (mark.objectStartIndexBit sweepBegin).1
  let markStop := (mark.objectStartIndexBit sweepEnd).1
  ensure (markStop - markStart = stop - start) WalkFault.differentLengths
  let s ← walkCells live mark m start markStart (List.range (stop - start + 1)) ⟨[], []⟩
  pure (if s.buffer = [] then s.slices else s.slices ++ [s.buffer])

-- Live and not marked, in units of 16 bytes.
def garbage (live mark : HeapBitmap) (m : Memory) (i : Nat) : Bool :=
  live.bits m i && !mark.bits m i

section Buffer

theorem push_eq {buffer items : List Nat} (h : buffer.length + items.length ≤ bufferSize) :
    push buffer items = .ok (buffer ++ items) := by
  induction items generalizing buffer with
  | nil => simp [push, pure, Except.pure]
  | cons ptr rest ih =>
      rw [List.length_cons] at h
      have hlt : buffer.length < bufferSize := by omega
      unfold push
      simp only [ensure, hlt, if_true, Except.ok_bind]
      rw [ih (by rw [List.length_append, List.length_singleton]; omega), List.append_assoc]
      rfl

-- The pointers of the cell `il`.
def cellPointers (il : Nat) (w : BitVec 8) : List Nat :=
  (BitWalk.walk 8 w).map fun shift => objectOffset il + shift * ALIGN

-- At most eight pointers come from a cell, and there is room for eight.
theorem walkCell_eq (il : Nat) (w : BitVec 8) {s : WalkState}
    (hroom : s.buffer.length < bufferSize - 8) :
    ∃ s', walkCell il w s = .ok s' ∧ s'.buffer.length < bufferSize - 8 ∧
      s'.slices.flatten ++ s'.buffer = s.slices.flatten ++ s.buffer ++ cellPointers il w := by
  unfold walkCell
  by_cases hzero : w = 0
  · subst hzero
    exact ⟨s, rfl, hroom, (List.append_nil _).symm⟩
  · rw [if_pos hzero]
    have hfew : (cellPointers il w).length ≤ 8 := by
      unfold cellPointers
      rw [List.length_map]
      exact walk_length_le 8 w
    have hfits : s.buffer.length + (cellPointers il w).length ≤ bufferSize := by omega
    have hpush := push_eq hfits
    unfold cellPointers at hpush ⊢
    simp only [hpush, Except.ok_bind]
    refine ⟨_, rfl, ?_⟩
    split
    · exact ⟨show 0 < bufferSize - 8 by decide, by simp⟩
    · rename_i hspare
      exact ⟨Nat.lt_of_not_le hspare, by simp⟩

theorem walkCells_eq (start markStart : Nat) (rounds : List Nat) {s : WalkState}
    (hroom : s.buffer.length < bufferSize - 8) :
    ∃ s', walkCells live mark m start markStart rounds s = .ok s' ∧
      s'.slices.flatten ++ s'.buffer = s.slices.flatten ++ s.buffer ++ rounds.flatMap fun k =>
        cellPointers (start + k) (live.cell m (start + k) &&& ~~~(mark.cell m (markStart + k))) := by
  induction rounds generalizing s with
  | nil => exact ⟨s, rfl, by simp⟩
  | cons k rest ih =>
      obtain ⟨mid, hcell, hspare, hmid⟩ := walkCell_eq (start + k)
        (live.cell m (start + k) &&& ~~~(mark.cell m (markStart + k))) hroom
      obtain ⟨last, hrest, hlast⟩ := ih hspare
      refine ⟨last, ?_, ?_⟩
      · unfold walkCells
        simp only [hcell, Except.ok_bind]
        exact hrest
      · rw [hlast, hmid, List.flatMap_cons, List.append_assoc]

end Buffer

section Walk

variable {sweepBegin sweepEnd : Nat}

-- What `sweep_walk` lists: everything in the cells from the first to the last,
-- as distances from the start of the bitmap.
def walkedOffsets (live mark : HeapBitmap) (m : Memory) (start stop : Nat) : List Nat :=
  (List.range' start (stop - start + 1)).flatMap fun index =>
    cellPointers index (live.cell m index &&& ~~~(mark.cell m index))

theorem sweepWalk_eq (hoffset : mark.offset = live.offset) :
    ∃ slices, sweepWalk live mark m sweepBegin sweepEnd = .ok slices ∧
      slices.flatten = walkedOffsets live mark m ((sweepBegin - live.offset) / ALIGN / 8)
        ((sweepEnd - live.offset) / ALIGN / 8) := by
  have hindex : ∀ addr, mark.objectStartIndexBit addr = live.objectStartIndexBit addr := by
    intro addr
    unfold objectStartIndexBit
    rw [hoffset]
  obtain ⟨s, hcells, hs⟩ := @walkCells_eq live mark m
    ((sweepBegin - live.offset) / ALIGN / 8) ((sweepBegin - live.offset) / ALIGN / 8)
    (List.range ((sweepEnd - live.offset) / ALIGN / 8 -
      (sweepBegin - live.offset) / ALIGN / 8 + 1)) ⟨[], []⟩ (by decide)
  refine ⟨if s.buffer = [] then s.slices else s.slices ++ [s.buffer], ?_, ?_⟩
  · unfold sweepWalk
    simp only [hindex, objectStartIndexBit_eq, ensure, if_true, Except.ok_bind, hcells]
    rfl
  · have hall : (if s.buffer = [] then s.slices else s.slices ++ [s.buffer]).flatten =
        s.slices.flatten ++ s.buffer := by
      by_cases hempty : s.buffer = []
      · rw [if_pos hempty, hempty, List.append_nil]
      · rw [if_neg hempty]
        simp
    unfold walkedOffsets
    rw [hall, hs, List.range'_eq_map_range, List.flatMap_map]
    simp

theorem garbage_enumerates (index : Nat) :
    Enumerates (cellPointers index (live.cell m index &&& ~~~(mark.cell m index)))
      fun a => ∃ i, 8 * index ≤ i ∧ i < 8 * index + 8 ∧ garbage live mark m i = true ∧
        a = ALIGN * i := by
  have hunits := @walk_bits index (live.cell m index &&& ~~~(mark.cell m index))
    (fun i => garbage live mark m i = true) fun i => by
      rw [BitVec.getLsbD_and, BitVec.getLsbD_not]
      by_cases hi : i < 8
      · have hdiv : (8 * index + i) / 8 = index := by omega
        have hmod : (8 * index + i) % 8 = i := by omega
        simp [hi, garbage, bits, hdiv, hmod]
      · simp [hi]
  have hmono : StrictMono fun i => ALIGN * i := fun i j hlt => by
    unfold ALIGN
    simp only
    omega
  have hpointers : cellPointers index (live.cell m index &&& ~~~(mark.cell m index)) =
      ((BitWalk.walk 8 (live.cell m index &&& ~~~(mark.cell m index))).map fun i => 8 * index + i).map
        fun i => ALIGN * i := by
    unfold cellPointers objectOffset ALIGN
    rw [List.map_map]
    apply List.map_congr_left
    intro shift _
    simp only [Function.comp_apply]
    omega
  rw [hpointers]
  refine (hunits.map hmono).congr fun a => ?_
  constructor
  · rintro ⟨i, ⟨hl, hr, hbit⟩, rfl⟩
    exact ⟨i, hl, hr, hbit, rfl⟩
  · rintro ⟨i, hl, hr, hbit, rfl⟩
    exact ⟨i, ⟨hl, hr, hbit⟩, rfl⟩

theorem walkedOffsets_enumerates {start stop : Nat} (hle : start ≤ stop) :
    Enumerates (walkedOffsets live mark m start stop)
      fun a => ∃ i, 8 * start ≤ i ∧ i < 8 * (stop + 1) ∧ garbage live mark m i = true ∧
        a = ALIGN * i := by
  refine (Enumerates.flatMap_range _ _ (fun index _ _ => garbage_enumerates index)
    fun i j a b hij ha hb => ?_).congr fun a => ?_
  · obtain ⟨k, _, hk, _, rfl⟩ := ha
    obtain ⟨l, hl, _, _, rfl⟩ := hb
    unfold ALIGN
    omega
  · constructor
    · rintro ⟨index, hl, hr, i, hlow, hhigh, hbit, rfl⟩
      exact ⟨i, by omega, by omega, hbit, rfl⟩
    · rintro ⟨i, hl, hr, hbit, rfl⟩
      exact ⟨i / 8, by omega, by omega, i, by omega, by omega, hbit, rfl⟩

-- A unit of 16 bytes in the cells from that of the begin to that of the end.
def InCells (lo hi i : Nat) : Prop := 8 * (lo / 8) ≤ i ∧ i < 8 * (hi / 8 + 1)

-- No garbage lies in these cells, or addresses are distances and all of it lies
-- in the range.
def Aligned (live mark : HeapBitmap) (m : Memory) (lo hi : Nat) : Prop :=
  (∀ i, InCells lo hi i → garbage live mark m i = false) ∨
    (live.offset = 0 ∧ ∀ i, InCells lo hi i → garbage live mark m i = true → lo ≤ i ∧ i < hi)

-- The addresses that are live and not marked.
def Garbage (live mark : HeapBitmap) (m : Memory) (sweepBegin sweepEnd a : Nat) : Prop :=
  sweepBegin ≤ a ∧ a < sweepEnd ∧ ALIGN ∣ a ∧
    live.checkBit m a = true ∧ mark.checkBit m a = false

theorem garbage_address (hoffset : mark.offset = live.offset) (hle : live.offset ≤ sweepBegin)
    (halign : ALIGN ∣ live.offset) (hbegin : ALIGN ∣ sweepBegin) (hend : ALIGN ∣ sweepEnd)
    (a : Nat) : Garbage live mark m sweepBegin sweepEnd a ↔
      ∃ i, (sweepBegin - live.offset) / ALIGN ≤ i ∧ i < (sweepEnd - live.offset) / ALIGN ∧
        garbage live mark m i = true ∧ a = live.offset + ALIGN * i := by
  have hbits : ∀ i, garbage live mark m i = true ↔ live.checkBit m (live.offset + ALIGN * i) = true ∧
      mark.checkBit m (live.offset + ALIGN * i) = false := by
    intro i
    have hunit : (live.offset + ALIGN * i - live.offset) / ALIGN = i := by
      unfold ALIGN
      omega
    rw [checkBit_eq, checkBit_eq, hoffset, hunit]
    simp [garbage]
  unfold Garbage
  constructor
  · rintro ⟨hl, hr, hdvd, hlive, hmark⟩
    obtain ⟨i, rfl⟩ : ∃ i, a = live.offset + ALIGN * i := by
      unfold ALIGN at *
      exact ⟨(a - live.offset) / 16, by omega⟩
    refine ⟨i, ?_, ?_, (hbits i).mpr ⟨hlive, hmark⟩, rfl⟩ <;> unfold ALIGN at * <;> omega
  · rintro ⟨i, hl, hr, hbit, rfl⟩
    obtain ⟨hlive, hmark⟩ := (hbits i).mp hbit
    refine ⟨?_, ?_, ?_, hlive, hmark⟩ <;> unfold ALIGN at * <;> omega

-- The masks at both ends and the start of the heap are missing in `sweep_walk`.
theorem sweep_walk_exact_iff (hoffset : mark.offset = live.offset)
    (hle : live.offset ≤ sweepBegin) (halign : ALIGN ∣ live.offset) (hbegin : ALIGN ∣ sweepBegin)
    (hend : ALIGN ∣ sweepEnd) (hrange : sweepBegin ≤ sweepEnd) :
    (∃ slices, sweepWalk live mark m sweepBegin sweepEnd = .ok slices ∧
        Enumerates slices.flatten (Garbage live mark m sweepBegin sweepEnd)) ↔
      Aligned live mark m ((sweepBegin - live.offset) / ALIGN)
        ((sweepEnd - live.offset) / ALIGN) := by
  have haddress := garbage_address (m := m) hoffset hle halign hbegin hend
  obtain ⟨slices, hwalk, hflat⟩ := sweepWalk_eq (m := m) hoffset
  have hunits : (sweepBegin - live.offset) / ALIGN ≤ (sweepEnd - live.offset) / ALIGN :=
    Nat.div_le_div_right (by omega)
  have hall := @walkedOffsets_enumerates live mark m _ _
    (Nat.div_le_div_right hunits : (sweepBegin - live.offset) / ALIGN / 8 ≤
      (sweepEnd - live.offset) / ALIGN / 8)
  rw [← hflat] at hall
  generalize (sweepBegin - live.offset) / ALIGN = lo at *
  generalize (sweepEnd - live.offset) / ALIGN = hi at *
  constructor
  · rintro ⟨slices', hwalk', hexact⟩
    obtain rfl : slices' = slices := by
      rw [hwalk'] at hwalk
      exact Except.ok.inj hwalk
    have hsame : ∀ i, InCells lo hi i → garbage live mark m i = true →
        ∃ j, lo ≤ j ∧ j < hi ∧ garbage live mark m j = true ∧ ALIGN * i = live.offset + ALIGN * j := by
      intro i hin hbit
      have hlisted := (hall.mem_iff (ALIGN * i)).mpr ⟨i, hin.1, hin.2, hbit, rfl⟩
      exact (haddress _).mp ((hexact.mem_iff _).mp hlisted)
    classical
    by_cases hany : ∃ i, InCells lo hi i ∧ garbage live mark m i = true
    · -- the lowest of them is listed first, and must be the lowest of the range
      have hzero : live.offset = 0 := by
        obtain ⟨hin, hbit⟩ := Nat.find_spec hany
        obtain ⟨j, hl, hr, hbit', heq⟩ := hsame _ hin hbit
        have hleast : Nat.find hany ≤ j :=
          Nat.find_min' hany ⟨⟨by omega, by omega⟩, hbit'⟩
        unfold ALIGN at heq
        omega
      refine Or.inr ⟨hzero, fun i hin hbit => ?_⟩
      obtain ⟨j, hl, hr, _, heq⟩ := hsame i hin hbit
      unfold ALIGN at heq
      omega
    · refine Or.inl fun i hin => ?_
      by_contra hbit
      exact hany ⟨i, hin, by simpa using hbit⟩
  · intro hclean
    refine ⟨slices, hwalk, hall.congr fun a => ?_⟩
    rw [haddress]
    rcases hclean with hnone | ⟨hzero, hinside⟩
    · constructor
      · rintro ⟨i, hl, hr, hbit, _⟩
        rw [hnone i ⟨hl, hr⟩] at hbit
        cases hbit
      · rintro ⟨i, hl, hr, hbit, _⟩
        rw [hnone i ⟨by omega, by omega⟩] at hbit
        cases hbit
    · constructor
      · rintro ⟨i, hl, hr, hbit, rfl⟩
        obtain ⟨hlow, hhigh⟩ := hinside i ⟨hl, hr⟩ hbit
        exact ⟨i, hlow, hhigh, hbit, by omega⟩
      · rintro ⟨i, hl, hr, hbit, rfl⟩
        exact ⟨i, by omega, by omega, hbit, by omega⟩

-- One live object at the start of a heap at 4096, and nothing marked.
def firstLive : Memory := fun a => if a = 0 then 1 else 0

theorem sweep_walk_exact_iff_first :
    (∃ slices, sweepWalk ⟨4096, 0, 4⟩ ⟨4096, 8, 4⟩ firstLive 4096 4224 = .ok slices ∧
        Enumerates slices.flatten (Garbage ⟨4096, 0, 4⟩ ⟨4096, 8, 4⟩ firstLive 4096 4224)) ↔
      Aligned ⟨4096, 0, 4⟩ ⟨4096, 8, 4⟩ firstLive 0 8 :=
  sweep_walk_exact_iff rfl (by decide) (by decide) (by decide) (by decide) (by decide)

-- It is passed on as the address zero.
theorem sweep_walk_lists_offset : ¬∃ slices,
    sweepWalk ⟨4096, 0, 4⟩ ⟨4096, 8, 4⟩ firstLive 4096 4224 = .ok slices ∧
      Enumerates slices.flatten (Garbage ⟨4096, 0, 4⟩ ⟨4096, 8, 4⟩ firstLive 4096 4224) := by
  rintro ⟨slices, hwalk, hexact⟩
  have hslices : sweepWalk ⟨4096, 0, 4⟩ ⟨4096, 8, 4⟩ firstLive 4096 4224 = .ok [[0]] := by
    decide +kernel
  obtain rfl : [[0]] = slices := by
    rw [hslices] at hwalk
    exact Except.ok.inj hwalk
  have hlow := ((hexact.mem_iff 0).mp (by decide)).1
  omega

end Walk

end HeapBitmap

end Rsgc.Storage
