import Mathlib.Algebra.Order.Ring.Int

namespace Rsgc

-- What plain arithmetic does when it overflows: a debug build panics, a release build wraps.
inductive Profile
  | debug
  | release
deriving DecidableEq, Repr

namespace Profile

variable {p : Profile} {bits : Nat} {value : Int}

-- An exact result as an unsigned number of so many bits.
def unsigned (p : Profile) (bits : Nat) (value : Int) : Option Nat :=
  if 0 ≤ value ∧ value < 2 ^ bits then some value.toNat
  else match p with
    | debug => none
    | release => some (value % 2 ^ bits).toNat

def signed (p : Profile) (bits : Nat) (value : Int) : Option Int :=
  if -2 ^ (bits - 1) ≤ value ∧ value < 2 ^ (bits - 1) then some value
  else match p with
    | debug => none
    | release => some (value.bmod (2 ^ bits))

theorem unsigned_eq {n : Nat} (hvalue : value = n) (hn : n < 2 ^ bits) :
    p.unsigned bits value = some n := by
  have hfits : (n : Int) < 2 ^ bits := by exact_mod_cast hn
  unfold unsigned
  rw [hvalue, if_pos ⟨Int.natCast_nonneg n, hfits⟩, Int.toNat_natCast]

theorem signed_eq (hlow : -2 ^ (bits - 1) ≤ value) (hhigh : value < 2 ^ (bits - 1)) :
    p.signed bits value = some value := if_pos ⟨hlow, hhigh⟩

-- Only a debug build can fail, and only where the result does not fit.
theorem unsigned_eq_none :
    p.unsigned bits value = none ↔ p = .debug ∧ ¬(0 ≤ value ∧ value < 2 ^ bits) := by
  unfold unsigned
  by_cases hfits : 0 ≤ value ∧ value < 2 ^ bits
  · simp [hfits]
  · rw [if_neg hfits]
    cases p <;> simp [hfits]

-- Where there is a result it is the exact one but for multiples of `2 ^ bits`.
theorem unsigned_mod {r : Nat} (h : p.unsigned bits value = some r) :
    r = (value % 2 ^ bits).toNat := by
  unfold unsigned at h
  split at h
  · rename_i hfits
    rw [Int.emod_eq_of_lt hfits.1 hfits.2]
    exact (Option.some.inj h).symm
  · cases p with
    | debug => cases h
    | release => exact (Option.some.inj h).symm

end Profile

end Rsgc
