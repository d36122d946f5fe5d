import Rsgc.Lib.Bytes

namespace Rsgc.Memory

variable {m : Memory}

-- The same bytes at another place
theorem readLE_shift {m' : Memory} {addr addr' n : Nat} (h : ∀ i < n, m' (addr' + i) = m (addr + i)) :
    m'.readLE addr' n = m.readLE addr n := by
  induction n generalizing addr addr' with
  | zero => rfl
  | succ n ih =>
      have hrest : ∀ i < n, m' (addr' + 1 + i) = m (addr + 1 + i) := fun i hi => by
        have hnext := h (i + 1) (by omega)
        rwa [Nat.add_comm i, ← Nat.add_assoc, ← Nat.add_assoc] at hnext
      unfold readLE
      rw [show m' addr' = m addr from h 0 (by omega), ih hrest]

theorem readLE_mod (m : Memory) (addr n : Nat) : m.readLE addr (n + 1) % 256 = (m addr).toNat := by
  have hbyte := (m addr).toNat_lt
  unfold readLE
  omega

-- A shift by whole bytes leaves the rest of the word.
theorem readLE_div (m : Memory) (addr : Nat) {n i : Nat} (hle : i ≤ n) :
    m.readLE addr n / 256 ^ i = m.readLE (addr + i) (n - i) := by
  induction i with
  | zero => rw [Nat.pow_zero, Nat.div_one, Nat.add_zero, Nat.sub_zero]
  | succ i ih =>
      have hrest : n - i = n - (i + 1) + 1 := by omega
      have hbyte := (m (addr + i)).toNat_lt
      rw [Nat.pow_succ, ← Nat.div_div_eq_div_mul, ih (by omega), hrest, readLE, Nat.add_assoc]
      omega

theorem readLE_eq_zero {addr n : Nat} : m.readLE addr n = 0 ↔ ∀ i < n, m (addr + i) = 0 := by
  induction n generalizing addr with
  | zero => simp [readLE]
  | succ n ih =>
      have hfirst : (m addr).toNat = 0 ↔ m addr = 0 := by
        rw [← UInt8.toNat_inj]
        rfl
      have hrest : (∀ i < n, m (addr + 1 + i) = 0) ↔ ∀ i < n, m (addr + (i + 1)) = 0 := by
        simp only [Nat.add_assoc, Nat.add_comm 1]
      rw [readLE, Nat.add_eq_zero_iff, hfirst, Nat.mul_eq_zero, ih, hrest]
      constructor
      · rintro ⟨hzero, hall⟩ i hi
        cases i with
        | zero => exact hzero
        | succ i => exact (hall.resolve_left (by decide)) i (by omega)
      · intro hall
        exact ⟨hall 0 (by omega), Or.inr fun i hi => hall (i + 1) (by omega)⟩

theorem readLE_byte (m : Memory) (addr : Nat) {n i : Nat} (hlt : i < n) :
    m.readLE addr n / 256 ^ i % 256 = (m (addr + i)).toNat := by
  have hrest : n - i = n - (i + 1) + 1 := by omega
  rw [readLE_div m addr (Nat.le_of_lt hlt), hrest, readLE_mod]

-- To store a word that was read elsewhere is to copy its bytes.
theorem writeLE_readLE (m m' : Memory) (addr base n : Nat) :
    m.writeLE addr n (m'.readLE base n) = m.writeBytes addr n fun i => m' (base + i) := by
  funext a
  unfold writeLE writeBytes
  by_cases hin : addr ≤ a ∧ a < addr + n
  · have hbyte := readLE_byte m' base (n := n) (i := a - addr) (by omega)
    rw [if_pos hin, if_pos hin]
    apply UInt8.toNat.inj
    rw [UInt8.toNat_ofNat', ← hbyte]
  · rw [if_neg hin, if_neg hin]

theorem writeLE_self (m : Memory) (addr n : Nat) : m.writeLE addr n (m.readLE addr n) = m := by
  rw [writeLE_readLE]
  funext a
  unfold writeBytes
  by_cases hin : addr ≤ a ∧ a < addr + n
  · rw [if_pos hin]
    exact congrArg m (Nat.add_sub_cancel' hin.1)
  · rw [if_neg hin]

theorem testBit_readLE (m : Memory) (addr : Nat) {n i : Nat} (hlt : i / 8 < n) :
    (m.readLE addr n).testBit i = (m (addr + i / 8)).toNat.testBit (i % 8) := by
  have hpow : 2 ^ (i / 8 * 8) = 256 ^ (i / 8) := by
    rw [Nat.mul_comm, Nat.pow_mul]
  have hbyte := readLE_byte m addr hlt
  have hindex : i / 8 * 8 + i % 8 = i := by omega
  have hlow : i % 8 < 8 := Nat.mod_lt i (by decide)
  have hbit := Nat.testBit_mod_two_pow (m.readLE addr n / 256 ^ (i / 8)) 8 (i % 8)
  rw [show 2 ^ 8 = 256 from rfl, hbyte, ← hpow, ← Nat.shiftRight_eq_div_pow,
    Nat.testBit_shiftRight, hindex] at hbit
  simpa [hlow] using hbit.symm

end Rsgc.Memory
