import Mathlib.Algebra.Order.Ring.Nat

namespace Rsgc

abbrev Memory := Nat → UInt8

namespace Memory

variable {m m' : Memory}

-- The number in the `n` bytes at `addr`, the lowest byte first.
def readLE (m : Memory) (addr : Nat) : Nat → Nat
  | 0 => 0
  | n + 1 => (m addr).toNat + 256 * readLE m (addr + 1) n

def writeLE (m : Memory) (addr n value : Nat) : Memory := fun a =>
  if addr ≤ a ∧ a < addr + n then UInt8.ofNat (value / 256 ^ (a - addr)) else m a

def writeBytes (m : Memory) (addr n : Nat) (bytes : Nat → UInt8) : Memory := fun a =>
  if addr ≤ a ∧ a < addr + n then bytes (a - addr) else m a

theorem readLE_congr {addr n : Nat} (h : ∀ a, addr ≤ a → a < addr + n → m' a = m a) :
    m'.readLE addr n = m.readLE addr n := by
  induction n generalizing addr with
  | zero => rfl
  | succ n ih =>
      unfold readLE
      rw [h addr (Nat.le_refl _) (by omega), ih fun a hl hr => h a (by omega) (by omega)]

theorem readLE_lt (m : Memory) (addr n : Nat) : m.readLE addr n < 256 ^ n := by
  induction n generalizing addr with
  | zero => exact Nat.one_pos
  | succ n ih =>
      have hrest := ih (addr + 1)
      have hbyte := (m addr).toNat_lt
      unfold readLE
      rw [Nat.pow_succ]
      omega

-- A read of any part of what was written, as the lower half of a word.
theorem readLE_writeLE_part (m : Memory) (addr value : Nat) {n j k : Nat} (hle : j + k ≤ n) :
    (m.writeLE addr n value).readLE (addr + j) k = value / 256 ^ j % 256 ^ k := by
  induction k generalizing j with
  | zero => rw [Nat.pow_zero, Nat.mod_one, readLE]
  | succ k ih =>
      have hbyte : m.writeLE addr n value (addr + j) = UInt8.ofNat (value / 256 ^ j) := by
        unfold writeLE
        rw [if_pos (by omega), Nat.add_sub_cancel_left]
      have hrest := ih (j := j + 1) (by omega)
      have hnext : value / 256 ^ (j + 1) = value / 256 ^ j / 256 := by
        rw [Nat.pow_succ, Nat.div_div_eq_div_mul]
      unfold readLE
      rw [hbyte, Nat.add_assoc, hrest, hnext, Nat.pow_succ', Nat.mod_mul]
      rfl

theorem readLE_writeLE (m : Memory) (addr value : Nat) {n k : Nat} (hle : k ≤ n) :
    (m.writeLE addr n value).readLE addr k = value % 256 ^ k := by
  have hpart := readLE_writeLE_part m addr value (n := n) (j := 0) (k := k) (by omega)
  rwa [Nat.add_zero, Nat.pow_zero, Nat.div_one] at hpart

theorem writeLE_of_not (m : Memory) (value : Nat) {addr n a : Nat} (h : a < addr ∨ addr + n ≤ a) :
    m.writeLE addr n value a = m a := if_neg (by omega)

theorem writeBytes_of_not (m : Memory) (bytes : Nat → UInt8) {addr n a : Nat}
    (h : a < addr ∨ addr + n ≤ a) : m.writeBytes addr n bytes a = m a := if_neg (by omega)

end Memory

end Rsgc
