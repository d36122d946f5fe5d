import Mathlib.Logic.Basic

namespace Rsgc.System

-- `BitField<SIZE, POSITION, false>`
structure BitField where
  size : Nat
  position : Nat

namespace BitField

variable {f g : BitField}

def mask (f : BitField) : BitVec 64 := (1#64 <<< f.size) - 1#64

def maskInPlace (f : BitField) : BitVec 64 := f.mask <<< f.position

def decode (f : BitField) (value : BitVec 64) : BitVec 64 := (value >>> f.position) &&& f.mask

def encode (f : BitField) (value : BitVec 64) : BitVec 64 := (value &&& f.mask) <<< f.position

def update (f : BitField) (value original : BitVec 64) : BitVec 64 :=
  f.encode value ||| (~~~f.maskInPlace &&& original)

-- The two fields share no bit.
def Apart (f g : BitField) : Prop :=
  f.position + f.size ≤ g.position ∨ g.position + g.size ≤ f.position

theorem getLsbD_mask (hsize : f.size < 64) (i : Nat) : f.mask.getLsbD i = decide (i < f.size) := by
  have hlt : 2 ^ f.size < 2 ^ 64 := Nat.pow_lt_pow_right (by decide) hsize
  have hpos := Nat.two_pow_pos f.size
  have hmask : f.mask.toNat = 2 ^ f.size - 1 := by
    unfold mask
    rw [BitVec.toNat_sub, BitVec.toNat_shiftLeft, BitVec.toNat_ofNat, Nat.shiftLeft_eq]
    omega
  unfold BitVec.getLsbD
  rw [hmask, Nat.testBit_two_pow_sub_one]

theorem decode_update (hsize : f.size < 64) (hfits : f.position + f.size ≤ 64)
    (value original : BitVec 64) : f.decode (f.update value original) = value &&& f.mask := by
  apply BitVec.eq_of_getLsbD_eq
  intro i hi
  unfold decode update encode maskInPlace
  simp only [BitVec.getLsbD_and, BitVec.getLsbD_or, BitVec.getLsbD_ushiftRight,
    BitVec.getLsbD_shiftLeft, BitVec.getLsbD_not, getLsbD_mask hsize]
  by_cases hin : i < f.size
  · have hlt : f.position + i < 64 := by omega
    have hge : ¬f.position + i < f.position := by omega
    simp [hin, hlt, hge]
  · simp [hin]

theorem decode_update_apart (hf : f.size < 64) (hg : g.size < 64) (hapart : f.Apart g)
    (value original : BitVec 64) : g.decode (f.update value original) = g.decode original := by
  apply BitVec.eq_of_getLsbD_eq
  intro i hi
  unfold decode update encode maskInPlace
  simp only [BitVec.getLsbD_and, BitVec.getLsbD_or, BitVec.getLsbD_ushiftRight,
    BitVec.getLsbD_shiftLeft, BitVec.getLsbD_not, getLsbD_mask hf, getLsbD_mask hg]
  -- a bit of `g` lies below `f` or above it
  by_cases hin : i < g.size
  · have hbit : original.getLsbD (g.position + i) = true → g.position + i < 64 :=
      BitVec.lt_of_getLsbD
    unfold Apart at hapart
    by_cases hbelow : g.position + i < f.position
    · simpa [hin, hbelow] using hbit
    · have hout : ¬g.position + i - f.position < f.size := by omega
      simpa [hin, hbelow, hout] using hbit
  · simp [hin]

end BitField

end Rsgc.System
