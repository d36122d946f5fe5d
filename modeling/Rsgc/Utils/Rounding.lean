import Rsgc.Lib.Multiples
import Rsgc.Lib.Profile
import Rsgc.Storage.Options.Sizes
import Rsgc.Utils.Stack

namespace Rsgc.Utils

-- `align_down` of `heap/mod.rs`, with the mask that `align_up` has
def alignDown (addr align : Nat) : Nat := addr &&& (2 ^ 64 - 1 - usizeSub align 1)

-- `&` on `isize`
def isizeAnd (a b : Int) : Int := (BitVec.ofInt 64 a &&& BitVec.ofInt 64 b).toInt

-- `x` and what `x - 1` gives have no bit in common.
def isPowerOfTwo {τ : Type} [DecidableEq τ] [Zero τ] (and : τ → τ → τ) (x : τ)
    (pred : Option τ) : Option Bool :=
  pred.map fun y => decide (and x y = 0 ∧ x ≠ 0)

def isPowerOfTwoUsize (p : Profile) (x : Nat) : Option Bool :=
  isPowerOfTwo (· &&& ·) x (p.unsigned 64 ((x : Int) - 1))

def isPowerOfTwoIsize (p : Profile) (x : Int) : Option Bool :=
  isPowerOfTwo isizeAnd x (p.signed 64 (x - 1))

-- An assertion on a value that is computed before it.
def assert (condition : Option Bool) : Option Unit := do
  if ← condition then some () else none

theorem assert_of {c : Prop} [Decidable c] (hc : c) : assert (some (decide c)) = some () := by
  rw [decide_eq_true hc]
  rfl

def toIsize (x : Nat) : Option Int := if x < 2 ^ 63 then some x else none

def fromIsize (x : Int) : Option Nat := if 0 ≤ x then some x.toNat else none

-- `alignment as isize`
def asIsize (x : Nat) : Int := (BitVec.ofNat 64 x).toInt

-- `round_down` and `round_up` on `usize`
def roundDown (p : Profile) (x : Nat) (alignment : Int) : Option Nat := do
  assert (isPowerOfTwoIsize p alignment)
  let x ← toIsize x
  let mask ← p.signed 64 (-alignment)
  fromIsize (isizeAnd x mask)

-- `x + alignment - 1 + offset`
def lastAddr (p : Profile) (x alignment offset : Nat) : Option Nat := do
  let sum ← p.unsigned 64 (x + alignment)
  let last ← p.unsigned 64 ((sum : Int) - 1)
  p.unsigned 64 (last + offset)

def roundUp (p : Profile) (x alignment offset : Nat) : Option Nat := do
  assert (some (decide (offset < alignment)))
  let last ← lastAddr p x alignment offset
  let rounded ← roundDown p last (asIsize alignment)
  p.unsigned 64 ((rounded : Int) - offset)

def roundDownUsize (p : Profile) (x alignment : Nat) : Option Nat := do
  assert (isPowerOfTwoUsize p alignment)
  pure (x &&& (2 ^ 64 - 1 - usizeSub alignment 1))

def roundUpUsize (p : Profile) (x alignment offset : Nat) : Option Nat := do
  let last ← lastAddr p x alignment offset
  let rounded ← roundDownUsize p last alignment
  pure (usizeSub rounded offset)

variable {p : Profile} {addr x k up down : Nat}

section Masks

theorem usizeSub_one (hpos : 0 < x) (hlt : x ≤ 2 ^ 64) : usizeSub x 1 = x - 1 := by
  unfold usizeSub
  omega

theorem mask_eq (hk : k < 64) : 2 ^ 64 - 1 - usizeSub (2 ^ k) 1 = 2 ^ 64 - 2 ^ k := by
  have hpos := Nat.two_pow_pos k
  have hle : 2 ^ k ≤ 2 ^ 64 := Nat.pow_le_pow_right (by decide) (by omega)
  rw [usizeSub_one hpos hle]
  omega

theorem alignDown_eq (haddr : addr < 2 ^ 64) (hk : k < 64) :
    alignDown addr (2 ^ k) = addr / 2 ^ k * 2 ^ k := by
  unfold alignDown
  rw [mask_eq hk]
  exact and_high_bits haddr (by omega)

-- `align_up` takes away the alignment and one more, and rounds that down.
theorem alignUp_eq (hk : k < 64) : alignUp addr (2 ^ k) =
    usizeSub (usizeSub addr (2 ^ k)) 1 / 2 ^ k * 2 ^ k := by
  have hlt : usizeSub (usizeSub addr (2 ^ k)) 1 < 2 ^ 64 := Nat.mod_lt _ (by decide)
  unfold alignUp
  rw [mask_eq hk]
  exact and_high_bits hlt (by omega)

theorem isizeAnd_of_toNat {a b : Int} {m n : Nat} (ha : (BitVec.ofInt 64 a).toNat = m)
    (hb : (BitVec.ofInt 64 b).toNat = n) (hlt : m &&& n < 2 ^ 63) :
    isizeAnd a b = (m &&& n : Nat) := by
  have hand : (BitVec.ofInt 64 a &&& BitVec.ofInt 64 b).toNat = m &&& n := by
    rw [BitVec.toNat_and, ha, hb]
  unfold isizeAnd
  rw [BitVec.toInt_eq_toNat_of_lt (by omega), hand]

theorem toNat_ofInt_natCast (hx : x < 2 ^ 64) : (BitVec.ofInt 64 (x : Int)).toNat = x := by
  rw [BitVec.toNat_ofInt]
  omega

-- A negative alignment is the mask that rounds down.
theorem isizeAnd_neg (hx : x < 2 ^ 63) (hk : k < 64) :
    isizeAnd x (-2 ^ k) = (x / 2 ^ k * 2 ^ k : Nat) := by
  have hpos := Nat.two_pow_pos k
  have hle : 2 ^ k ≤ 2 ^ 64 := Nat.pow_le_pow_right (by decide) (by omega)
  have hmask : (BitVec.ofInt 64 (-2 ^ k)).toNat = 2 ^ 64 - 2 ^ k := by
    have hcast : (-2 ^ k : Int) = -((2 ^ k : Nat) : Int) := by norm_cast
    rw [BitVec.toNat_ofInt, hcast]
    omega
  have hand : x &&& (2 ^ 64 - 2 ^ k) = x / 2 ^ k * 2 ^ k := and_high_bits (by omega) (by omega)
  have hdown := Nat.div_mul_le_self x (2 ^ k)
  rw [isizeAnd_of_toNat (toNat_ofInt_natCast (by omega)) hmask (by omega), hand]

end Masks

section Powers

theorem isPowerOfTwoUsize_pow (p : Profile) (hk : k < 64) :
    isPowerOfTwoUsize p (2 ^ k) = some true := by
  have hpos := Nat.two_pow_pos k
  have hlt : 2 ^ k < 2 ^ 64 := Nat.pow_lt_pow_right (by decide) hk
  have hpred : p.unsigned 64 (((2 ^ k : Nat) : Int) - 1) = some (2 ^ k - 1) :=
    Profile.unsigned_eq (by omega) (by omega)
  have hand : 2 ^ k &&& (2 ^ k - 1) = 0 := by
    rw [Nat.and_two_pow_sub_one_eq_mod, Nat.mod_self]
  unfold isPowerOfTwoUsize isPowerOfTwo
  rw [hpred, Option.map_some, Option.some.injEq, decide_eq_true_eq]
  exact ⟨hand, hpos.ne'⟩

theorem asIsize_pow (hk : k < 63) : asIsize (2 ^ k) = 2 ^ k := by
  have hlt : 2 ^ k < 2 ^ 63 := Nat.pow_lt_pow_right (by decide) hk
  have hnat : (BitVec.ofNat 64 (2 ^ k)).toNat = 2 ^ k := by
    rw [BitVec.toNat_ofNat, Nat.mod_eq_of_lt (by omega)]
  unfold asIsize
  rw [BitVec.toInt_eq_toNat_of_lt (by omega), hnat]
  norm_cast

theorem isPowerOfTwoIsize_pow (p : Profile) (hk : k < 63) :
    isPowerOfTwoIsize p (2 ^ k) = some true := by
  have hpos := Nat.two_pow_pos k
  have hlt : 2 ^ k < 2 ^ 63 := Nat.pow_lt_pow_right (by decide) hk
  have hcast : (2 ^ k : Int) = ((2 ^ k : Nat) : Int) := by norm_cast
  have hpred : p.signed 64 ((2 ^ k : Int) - 1) = some ((2 ^ k - 1 : Nat) : Int) := by
    rw [hcast, Profile.signed_eq (by omega) (by omega)]
    congr 1
    omega
  have hand : 2 ^ k &&& (2 ^ k - 1) = 0 := by
    rw [Nat.and_two_pow_sub_one_eq_mod, Nat.mod_self]
  have hisize : isizeAnd (2 ^ k) ((2 ^ k - 1 : Nat) : Int) = 0 := by
    rw [hcast, isizeAnd_of_toNat (toNat_ofInt_natCast (by omega))
      (toNat_ofInt_natCast (by omega)) (by omega), hand]
    rfl
  unfold isPowerOfTwoIsize isPowerOfTwo
  rw [hpred, Option.map_some, hisize]
  simp

end Powers

-- Each helper but `align_up` rounds as its name says.
section Rounds

theorem roundDown_of {alignment mask : Int} {rounded : Nat} (hx : x < 2 ^ 63)
    (hpow : isPowerOfTwoIsize p alignment = some true)
    (hneg : p.signed 64 (-alignment) = some mask) (hand : isizeAnd x mask = rounded) :
    roundDown p x alignment = some rounded := by
  unfold roundDown assert toIsize fromIsize
  rw [hpow, if_pos hx, hneg]
  simp only [Option.bind_eq_bind, Option.bind_some, if_true, hand]
  rw [if_pos (Int.natCast_nonneg _), Int.toNat_natCast]

theorem roundDown_eq (p : Profile) (hx : x < 2 ^ 63) (hk : k < 63) :
    roundDown p x (2 ^ k) = some (x / 2 ^ k * 2 ^ k) := by
  have hlt : (2 : Int) ^ k < 2 ^ 63 := by
    exact_mod_cast Nat.pow_lt_pow_right (show 1 < 2 by decide) hk
  have hpos : (0 : Int) < 2 ^ k := Int.pow_pos (by decide)
  have hneg : p.signed 64 (-2 ^ k) = some (-2 ^ k) := Profile.signed_eq (by omega) (by omega)
  exact roundDown_of hx (isPowerOfTwoIsize_pow p hk) hneg (isizeAnd_neg hx (by omega))

-- The largest alignment is negative as an `isize`, and in a debug build this overflows.
theorem roundDown_min (p : Profile) (hx : x < 2 ^ 63) :
    roundDown p x (-2 ^ 63) = if p = .release then some 0 else none := by
  cases p with
  | debug => rfl
  | release =>
      have hand := isizeAnd_neg hx (show 63 < 64 by decide)
      rw [Nat.div_eq_of_lt hx, Nat.zero_mul] at hand
      rw [if_pos rfl]
      exact roundDown_of hx (by decide) (by decide) hand

theorem roundDownUsize_eq (p : Profile) (hx : x < 2 ^ 64) (hk : k < 64) :
    roundDownUsize p x (2 ^ k) = some (x / 2 ^ k * 2 ^ k) := by
  have hpow := isPowerOfTwoUsize_pow p hk
  have hand : x &&& (2 ^ 64 - 2 ^ k) = x / 2 ^ k * 2 ^ k := and_high_bits hx (by omega)
  unfold roundDownUsize
  rw [mask_eq hk, hand]
  simp [assert, hpow]

theorem lastAddr_eq (p : Profile) (hpos : 0 < x) (hsum : addr + x < 2 ^ 64) :
    lastAddr p addr x 0 = some (addr + x - 1) := by
  have hadd : p.unsigned 64 ((addr : Int) + x) = some (addr + x) :=
    Profile.unsigned_eq (by omega) hsum
  have hlast : p.unsigned 64 (((addr + x : Nat) : Int) - 1) = some (addr + x - 1) :=
    Profile.unsigned_eq (by omega) (by omega)
  have hshift : p.unsigned 64 (((addr + x - 1 : Nat) : Int) + (0 : Nat)) = some (addr + x - 1) :=
    Profile.unsigned_eq (by omega) (by omega)
  unfold lastAddr
  rw [hadd, Option.bind_eq_bind, Option.bind_some, hlast, Option.bind_some, hshift]

theorem roundUp_eq (hpos : 0 < x) (hsum : addr + x < 2 ^ 64) {rounded : Nat}
    (hround : roundDown p (addr + x - 1) (asIsize x) = some rounded) (hlt : rounded < 2 ^ 64) :
    roundUp p addr x 0 = some rounded := by
  have hsub : p.unsigned 64 ((rounded : Int) - (0 : Nat)) = some rounded :=
    Profile.unsigned_eq (by omega) hlt
  have hlast := lastAddr_eq p hpos hsum
  refine Option.bind_eq_some_iff.mpr ⟨(), assert_of hpos, ?_⟩
  exact Option.bind_eq_some_iff.mpr ⟨_, hlast, Option.bind_eq_some_iff.mpr ⟨_, hround, hsub⟩⟩

theorem roundUp_eq_none (hpos : 0 < x) (hsum : addr + x < 2 ^ 64)
    (hround : roundDown p (addr + x - 1) (asIsize x) = none) : roundUp p addr x 0 = none := by
  refine Option.bind_eq_none_iff.mpr fun _ _ => Option.bind_eq_none_iff.mpr fun last hlast => ?_
  rw [lastAddr_eq p hpos hsum] at hlast
  obtain rfl := Option.some.inj hlast
  exact Option.bind_eq_none_iff.mpr fun r hr => absurd (hround.symm.trans hr) (by simp)

theorem roundUpUsize_eq (p : Profile) (hk : k < 64) (hsum : addr + 2 ^ k < 2 ^ 64) :
    roundUpUsize p addr (2 ^ k) 0 = some ((addr + 2 ^ k - 1) / 2 ^ k * 2 ^ k) := by
  have hround := roundDownUsize_eq p (show addr + 2 ^ k - 1 < 2 ^ 64 by omega) hk
  have hle := Nat.div_mul_le_self (addr + 2 ^ k - 1) (2 ^ k)
  unfold roundUpUsize
  rw [lastAddr_eq p (Nat.two_pow_pos k) hsum, Option.bind_eq_bind, Option.bind_some, hround,
    Option.bind_some, usizeSub_zero (by omega)]
  rfl

end Rounds

section Agreement

-- What each helper gives for an address and an alignment.
structure RoundUpTo (p : Profile) (addr align up : Nat) : Prop where
  alignUsize_eq : Storage.alignUsize addr align = .ok up
  roundUp_eq : roundUp p addr align 0 = some up
  roundUpUsize_eq : roundUpUsize p addr align 0 = some up

structure RoundDownTo (p : Profile) (addr align down : Nat) : Prop where
  alignDown_eq : alignDown addr align = down
  roundDown_eq : roundDown p addr (asIsize align) = some down

structure RoundAlike (p : Profile) (addr align up down : Nat) : Prop where
  alignUp_eq : alignUp addr align = up
  roundUpTo : RoundUpTo p addr align up
  roundDownTo : RoundDownTo p addr align down

-- The multiples of the alignment that fit in `isize` leave room for one more.
theorem roundedUp_le (hk : k < 64) (hup : IsLeast {m | 2 ^ k ∣ m ∧ addr ≤ m} up)
    (hfits : up < 2 ^ 63) : up + 2 ^ k ≤ 2 ^ 63 := by
  obtain ⟨q, rfl⟩ := hup.1.1
  obtain ⟨r, hr⟩ : 2 ^ k ∣ 2 ^ 63 := Nat.pow_dvd_pow 2 (by omega)
  rw [hr] at hfits ⊢
  have hq : q + 1 ≤ r := Nat.lt_of_mul_lt_mul_left hfits
  calc 2 ^ k * q + 2 ^ k = 2 ^ k * (q + 1) := (Nat.mul_succ _ _).symm
    _ ≤ 2 ^ k * r := Nat.mul_le_mul_left _ hq

theorem asIsize_min : asIsize (2 ^ 63) = -2 ^ 63 := by decide

theorem roundDown_fits (p : Profile) (hx : x < 2 ^ 63) (hk : k < 64) :
    roundDown p x (asIsize (2 ^ k)) =
      if k = 63 ∧ p = .debug then none else some (x / 2 ^ k * 2 ^ k) := by
  by_cases hlt : k < 63
  · rw [asIsize_pow hlt, roundDown_eq p hx hlt, if_neg (by omega)]
  · obtain rfl : k = 63 := by omega
    rw [asIsize_min, roundDown_min p hx, Nat.div_eq_of_lt hx]
    cases p <;> rfl

-- All helpers but `align_up` agree, except that the largest alignment overflows in a
-- debug build.
theorem roundUpTo_iff (p : Profile) (hk : k < 64)
    (hup : IsLeast {m | 2 ^ k ∣ m ∧ addr ≤ m} up) (hfits : up < 2 ^ 63) :
    RoundUpTo p addr (2 ^ k) up ↔ ¬(k = 63 ∧ p = .debug) := by
  have hpos := Nat.two_pow_pos k
  have hroom := roundedUp_le hk hup hfits
  have hle : addr ≤ up := hup.1.2
  have heq := hup.unique (isLeast_multiple addr hpos)
  have hdown := roundDown_fits p (show addr + 2 ^ k - 1 < 2 ^ 63 by omega) hk
  constructor
  · rintro h hdebug
    rw [if_pos hdebug] at hdown
    have hnone := roundUp_eq_none hpos (by omega) hdown
    rw [h.roundUp_eq] at hnone
    cases hnone
  · intro hnot
    rw [if_neg hnot, ← heq] at hdown
    refine ⟨?_, roundUp_eq hpos (by omega) hdown (by omega), ?_⟩
    · have hrange : addr + 2 ^ k ≤ Storage.usizeRange := by
        unfold Storage.usizeRange
        omega
      rw [Storage.alignUsize_eq (by omega) (by omega), if_neg hpos.ne', if_pos hrange, heq]
      rfl
    · rw [roundUpUsize_eq p hk (by omega), heq]

theorem roundDownTo_iff (p : Profile) (hk : k < 64)
    (hdown : IsGreatest {m | 2 ^ k ∣ m ∧ m ≤ addr} down) (hfits : addr < 2 ^ 63) :
    RoundDownTo p addr (2 ^ k) down ↔ ¬(k = 63 ∧ p = .debug) := by
  have heq := hdown.unique (isGreatest_multiple addr (Nat.two_pow_pos k))
  have hround := roundDown_fits p hfits hk
  constructor
  · rintro h hdebug
    rw [if_pos hdebug, h.roundDown_eq] at hround
    cases hround
  · intro hnot
    rw [if_neg hnot, ← heq] at hround
    exact ⟨by rw [alignDown_eq (by omega) hk, heq], hround⟩

-- `align_up` stays below the address, or wraps around and is far above it.
theorem alignUp_eq_iff (hk : k < 64) (hup : IsLeast {m | 2 ^ k ∣ m ∧ addr ≤ m} up)
    (hfits : up < 2 ^ 63) : alignUp addr (2 ^ k) = up ↔ addr = 0 ∧ k = 63 := by
  have hpos := Nat.two_pow_pos k
  have hroom := roundedUp_le hk hup hfits
  have hle : addr ≤ up := hup.1.2
  obtain ⟨start, hstart⟩ : ∃ start, usizeSub (usizeSub addr (2 ^ k)) 1 = start := ⟨_, rfl⟩
  have hdown := Nat.div_mul_le_self start (2 ^ k)
  have hnear := Nat.div_add_mod start (2 ^ k)
  have hmod := Nat.mod_lt start hpos
  rw [Nat.mul_comm] at hnear
  rw [alignUp_eq hk, hstart]
  unfold usizeSub at hstart
  constructor
  · intro halign
    by_cases hsmall : k < 63
    · have hhalf : 2 ^ k ≤ 2 ^ 62 := Nat.pow_le_pow_right (by decide) (by omega)
      omega
    · obtain rfl : k = 63 := by omega
      exact ⟨by omega, rfl⟩
  · rintro ⟨rfl, rfl⟩
    obtain rfl : start = 2 ^ 63 - 1 := by omega
    have hzero : up ≤ 0 := hup.2 ⟨⟨0, rfl⟩, Nat.le_refl 0⟩
    omega

-- Wherever the rounded address fits in `isize`, the helpers disagree because of `align_up`;
-- only for 0 and the largest alignment a release build gives 0 everywhere.
theorem rounding_helpers_agree_iff (p : Profile) (hk : k < 64)
    (hup : IsLeast {m | 2 ^ k ∣ m ∧ addr ≤ m} up)
    (hdown : IsGreatest {m | 2 ^ k ∣ m ∧ m ≤ addr} down) (hfits : up < 2 ^ 63) :
    RoundAlike p addr (2 ^ k) up down ↔ p = .release ∧ addr = 0 ∧ k = 63 := by
  have haddr : addr < 2 ^ 63 := Nat.lt_of_le_of_lt hup.1.2 hfits
  have halignUp := alignUp_eq_iff hk hup hfits
  have hroundUp := roundUpTo_iff p hk hup hfits
  have hroundDown := roundDownTo_iff p hk hdown haddr
  constructor
  · intro h
    obtain ⟨hzero, hmax⟩ := halignUp.mp h.alignUp_eq
    have hprofile := hroundUp.mp h.roundUpTo
    cases p with
    | debug => exact absurd ⟨hmax, rfl⟩ hprofile
    | release => exact ⟨rfl, hzero, hmax⟩
  · rintro ⟨rfl, hzero, hmax⟩
    have hrelease : ¬(k = 63 ∧ Profile.release = .debug) := by simp
    exact ⟨halignUp.mpr ⟨hzero, hmax⟩, hroundUp.mpr hrelease, hroundDown.mpr hrelease⟩

theorem rounding_helpers_agree_iff_largest : RoundAlike .release 0 (2 ^ 63) 0 0 :=
  (rounding_helpers_agree_iff .release (by decide) (isLeast_multiple 0 (by decide))
    (isGreatest_multiple 0 (by decide)) (by decide)).mpr ⟨rfl, rfl, rfl⟩

-- 20 is rounded up to 8 where the others give 24.
theorem align_up_rounds_down : IsLeast {m | 8 ∣ m ∧ 20 ≤ m} 24 ∧
    IsGreatest {m | 8 ∣ m ∧ m ≤ 20} 16 ∧ alignUp 20 8 = 8 ∧ ∀ p, ¬RoundAlike p 20 8 24 16 :=
  ⟨isLeast_multiple 20 (by decide), isGreatest_multiple 20 (by decide), by decide,
    fun _ h => absurd h.alignUp_eq (by decide)⟩

end Agreement

end Rsgc.Utils
