import Rsgc.Lib.BitScan
import Rsgc.Storage.Sweeper

namespace Rsgc.Storage

namespace HeapBitmap

open BitScan

variable {bits : Nat → Bool} {start stop : Nat}

-- `is_marked_range` counts in units of 16 bytes from the start of the heap. Up to
-- the first cell boundary it checks single bits, and gives up at a bit that is set.
def scanHead (bits : Nat → Bool) : Nat → Nat → Option Nat
  | 0, start => some start
  | left + 1, start =>
      if start % 8 = 0 then some start
      else if bits start then none
      else scanHead bits left (start + 1)

-- The same from the end of the range down to the last cell boundary.
def scanTail (bits : Nat → Bool) (start : Nat) : Nat → Option Nat
  | 0 => some 0
  | stop + 1 =>
      if start < stop + 1 ∧ (stop + 1) % 8 ≠ 0 then
        if bits stop then none else scanTail bits start stop
      else some (stop + 1)

-- What is left are whole cells.
def isMarkedRange (bits : Nat → Bool) (start stop : Nat) : Bool :=
  match scanHead bits (stop - start) start with
  | none => true
  | some head =>
      match scanTail bits head stop with
      | none => true
      | some tail =>
          (List.range' (head / 8) (tail / 8 - head / 8)).any fun index => cell bits 8 index != 0

theorem scanHead_cases (bits : Nat → Bool) (left start : Nat) :
    (scanHead bits left start = none ∧ ∃ i, start ≤ i ∧ i < start + left ∧ bits i = true) ∨
    ∃ head, scanHead bits left start = some head ∧ start ≤ head ∧ head ≤ start + left ∧
      (∀ i, start ≤ i → i < head → bits i = false) ∧ (head = start + left ∨ head % 8 = 0) := by
  induction left generalizing start with
  | zero =>
      exact Or.inr ⟨start, rfl, Nat.le_refl _, Nat.le_refl _, fun i _ _ => by omega, Or.inl rfl⟩
  | succ left ih =>
      unfold scanHead
      by_cases hcell : start % 8 = 0
      · rw [if_pos hcell]
        exact Or.inr ⟨start, rfl, Nat.le_refl _, by omega, fun i _ _ => by omega, Or.inr hcell⟩
      · rw [if_neg hcell]
        by_cases hbit : bits start = true
        · rw [if_pos hbit]
          exact Or.inl ⟨rfl, start, Nat.le_refl _, by omega, hbit⟩
        · rw [if_neg hbit]
          rcases ih (start + 1) with ⟨hnone, i, hlow, hhigh, hset⟩ |
            ⟨head, hsome, hlow, hhigh, hclear, hend⟩
          · exact Or.inl ⟨hnone, i, by omega, by omega, hset⟩
          · refine Or.inr ⟨head, hsome, by omega, by omega, fun i hi hlt => ?_, ?_⟩
            · rcases Nat.eq_or_lt_of_le hi with rfl | hi
              · simpa using hbit
              · exact hclear i hi hlt
            · exact hend.imp_left fun heq => by omega

theorem scanTail_cases (bits : Nat → Bool) (hle : start ≤ stop) :
    (scanTail bits start stop = none ∧ ∃ i, start ≤ i ∧ i < stop ∧ bits i = true) ∨
    ∃ tail, scanTail bits start stop = some tail ∧ start ≤ tail ∧ tail ≤ stop ∧
      (∀ i, tail ≤ i → i < stop → bits i = false) ∧ (tail = start ∨ tail % 8 = 0) := by
  induction stop with
  | zero => exact Or.inr ⟨0, rfl, hle, Nat.le_refl _, fun i _ _ => by omega, Or.inr rfl⟩
  | succ stop ih =>
      unfold scanTail
      by_cases hgo : start < stop + 1 ∧ (stop + 1) % 8 ≠ 0
      · rw [if_pos hgo]
        by_cases hbit : bits stop = true
        · rw [if_pos hbit]
          exact Or.inl ⟨rfl, stop, by omega, by omega, hbit⟩
        · rw [if_neg hbit]
          rcases ih (by omega) with ⟨hnone, i, hlow, hhigh, hset⟩ |
            ⟨tail, hsome, hlow, hhigh, hclear, hend⟩
          · exact Or.inl ⟨hnone, i, hlow, by omega, hset⟩
          · refine Or.inr ⟨tail, hsome, hlow, by omega, fun i hi hlt => ?_, hend⟩
            rcases Nat.eq_or_lt_of_le (Nat.le_of_lt_succ hlt) with rfl | hlt
            · simpa using hbit
            · exact hclear i hi hlt
      · rw [if_neg hgo]
        refine Or.inr ⟨stop + 1, rfl, hle, Nat.le_refl _, fun i _ _ => by omega, ?_⟩
        omega

theorem cell_ne_zero_iff (index : Nat) :
    cell bits 8 index ≠ 0 ↔ ∃ i, 8 * index ≤ i ∧ i < 8 * (index + 1) ∧ bits i = true := by
  constructor
  · intro hne
    obtain ⟨hlt, hset⟩ := (testBit_cell index _).mp (Nat.testBit_log2 hne)
    exact ⟨_, Nat.le_add_right _ _, by omega, hset⟩
  · rintro ⟨i, hlow, hhigh, hset⟩ hzero
    have hbit : (cell bits 8 index).testBit (i - 8 * index) = true :=
      (testBit_cell index _).mpr ⟨by omega, by rwa [Nat.add_sub_of_le hlow]⟩
    simp [hzero] at hbit

-- The three parts together see every bit of the range and no other.
theorem isMarkedRange_iff (hle : start ≤ stop) :
    isMarkedRange bits start stop = true ↔ ∃ i, start ≤ i ∧ i < stop ∧ bits i = true := by
  unfold isMarkedRange
  rcases scanHead_cases bits (stop - start) start with ⟨hnone, i, hlow, hhigh, hset⟩ |
    ⟨head, hhead, hheadLow, hheadHigh, hheadClear, hheadEnd⟩
  · simp only [hnone, true_iff]
    exact ⟨i, hlow, by omega, hset⟩
  simp only [hhead]
  rcases scanTail_cases bits (show head ≤ stop by omega) with ⟨hnone, i, hlow, hhigh, hset⟩ |
    ⟨tail, htail, htailLow, htailHigh, htailClear, htailEnd⟩
  · simp only [hnone, true_iff]
    exact ⟨i, by omega, hhigh, hset⟩
  simp only [htail, List.any_eq_true, List.mem_range'_1, bne_iff_ne, cell_ne_zero_iff]
  constructor
  · rintro ⟨index, ⟨hfirst, hlast⟩, i, hlow, hhigh, hset⟩
    exact ⟨i, by omega, by omega, hset⟩
  · rintro ⟨i, hlow, hhigh, hset⟩
    have hafter : head ≤ i := by
      by_contra hbefore
      rw [hheadClear i hlow (by omega)] at hset
      cases hset
    have hbefore : i < tail := by
      by_contra hpast
      rw [htailClear i (by omega) hhigh] at hset
      cases hset
    exact ⟨i / 8, by omega, i, by omega, by omega, hset⟩

end HeapBitmap

-- On the bitmap of the heap the range test of the sweep is the one over cells.
theorem isMarkedRange_eq {bits marks : Nat → Bool} {offset start stop : Nat}
    (hbits : ∀ a, marks a = bits ((a - offset) / 16)) (hoffset : offset ≤ start)
    (hstart : 16 ∣ start - offset) (hle : start ≤ stop) (hstop : 16 ∣ stop - offset) :
    isMarkedRange marks start stop =
      HeapBitmap.isMarkedRange bits ((start - offset) / 16) ((stop - offset) / 16) := by
  rw [Bool.eq_iff_iff, HeapBitmap.isMarkedRange_iff (by omega)]
  unfold isMarkedRange
  simp only [List.any_eq_true, List.mem_range, hbits]
  constructor
  · rintro ⟨i, hi, hset⟩
    refine ⟨_, ?_, ?_, hset⟩ <;> omega
  · rintro ⟨i, hlow, hhigh, hset⟩
    refine ⟨i - (start - offset) / 16, by omega, ?_⟩
    rwa [show (start + 16 * (i - (start - offset) / 16) - offset) / 16 = i by omega]

end Rsgc.Storage
