import Mathlib.Algebra.Order.Floor.Semifield
import Mathlib.Data.Rat.Floor

-- Floating-point numbers of 64 bits: what they stand for, how they are cast to integers and
-- how they are read from text.
namespace Rsgc.Binary64

open Float.Model (UnpackedFloat)
open Float.Model.UnpackedFloat (Sign ExtendedMantissa)

-- The number that is neither an infinity nor a NaN.
def value (f : Float.Model) : Option ℚ :=
  match f.unpack with
  | .zero _ => some 0
  | .finite sign mantissa exponent _ => some (sign.apply mantissa * 2 ^ exponent)
  | .infinity _ | .notANumber => none

-- Every number below a bound is, and of the other values only the positive infinity is not.
def Below (f : Float.Model) (bound : Nat) : Prop :=
  f.unpack ≠ .infinity .positive ∧ ∀ x, value f = some x → x < bound

section Cast

variable {f : Float.Model} {x : ℚ} {mantissa bound : Nat} {exponent : Int}

theorem shiftRight_mantissa (em : ExtendedMantissa) (k : Nat) :
    (em >>> k).mantissa = em.mantissa / 2 ^ k := by
  induction k with
  | zero => exact (Nat.div_one _).symm
  | succ k ih =>
      change (em >>> k).mantissa / 2 = _
      rw [ih, Nat.div_div_eq_div_mul, Nat.pow_succ]

-- The cast drops the bits behind the point.
theorem roundToInt_eq : UnpackedFloat.roundToInt .positive mantissa exponent =
    ⌊(mantissa : ℚ) * 2 ^ exponent⌋₊ := by
  change (((ExtendedMantissa.mk (mantissa <<< (exponent - 0).toNat) false false) >>>
    (0 - (exponent - ((exponent - 0).toNat : Int))).toNat).mantissa : Int) = _
  rw [shiftRight_mantissa]
  refine congrArg Nat.cast ?_
  simp only
  rw [Nat.shiftLeft_eq, Int.sub_zero]
  rcases Int.le_total 0 exponent with hwhole | hpart
  · obtain ⟨k, rfl⟩ := Int.eq_ofNat_of_zero_le hwhole
    have hshift : (0 - ((k : Int) - ((k : Int).toNat : Int))).toNat = 0 := by omega
    have hcast : (mantissa : ℚ) * 2 ^ (k : Int) = ((mantissa * 2 ^ k : Nat) : ℚ) := by
      push_cast
      rw [zpow_natCast]
    rw [hshift, hcast, Nat.floor_natCast, Int.toNat_natCast, Nat.pow_zero, Nat.div_one]
  · obtain ⟨k, rfl⟩ := Int.exists_eq_neg_ofNat hpart
    have hleft : (-(k : Int)).toNat = 0 := by omega
    have hshift : (0 - (-(k : Int) - ((0 : Nat) : Int))).toNat = k := by omega
    have hcast : (mantissa : ℚ) * 2 ^ (-(k : Int)) = (mantissa : ℚ) / ((2 ^ k : Nat) : ℚ) := by
      push_cast
      rw [zpow_neg, zpow_natCast, div_eq_mul_inv]
    rw [hleft, hshift, hcast, Nat.floor_div_eq_div, Nat.pow_zero, Nat.mul_one]

theorem ofNatClamp_toNat (n : Nat) : (UInt64.ofNatClamp n).toNat = min n (2 ^ 64 - 1) := by
  have hsize : UInt64.size = 2 ^ 64 := rfl
  unfold UInt64.ofNatClamp
  split
  · rw [UInt64.toNat_ofNatLT]
    omega
  · rw [UInt64.toNat_ofNatLT]
    omega

theorem toUInt64_clamp :
    f.toUInt64.toNat = min (f.unpack.toInt 0 (UInt64.size - 1)).toNat (2 ^ 64 - 1) :=
  ofNatClamp_toNat _

-- `as` on a number takes the floor, between 0 and the largest integer.
theorem toUInt64_eq (h : value f = some x) : f.toUInt64.toNat = min ⌊x⌋₊ (2 ^ 64 - 1) := by
  rw [toUInt64_clamp]
  refine congrArg (min · _) ?_
  unfold value at h
  split at h
  · rename_i hzero
    rw [hzero, ← Option.some.inj h, Nat.floor_zero]
    rfl
  · rename_i sign mantissa exponent hpos hfinite
    rw [hfinite, ← Option.some.inj h]
    have hpower : (0 : ℚ) ≤ 2 ^ exponent := zpow_nonneg (by norm_num) _
    cases sign with
    | positive =>
        change (UnpackedFloat.roundToInt .positive mantissa exponent).toNat = _
        rw [roundToInt_eq, Int.toNat_natCast]
        rfl
    | negative =>
        have hnonpos : ((Sign.negative.apply mantissa : Int) : ℚ) * 2 ^ exponent ≤ 0 :=
          mul_nonpos_of_nonpos_of_nonneg (by change ((-mantissa : Int) : ℚ) ≤ 0; simp) hpower
        have hround : UnpackedFloat.roundToInt .negative mantissa exponent =
            -UnpackedFloat.roundToInt .positive mantissa exponent := rfl
        change (UnpackedFloat.roundToInt .negative mantissa exponent).toNat = _
        rw [Nat.floor_of_nonpos hnonpos, hround, roundToInt_eq]
        omega
  · cases h
  · cases h

-- A bound that is not above all integers is not reached just below it.
theorem toUInt64_lt_iff (hpos : 0 < bound) (hbound : bound < 2 ^ 64) :
    f.toUInt64.toNat < bound ↔ Below f bound := by
  have hnumber (x : ℚ) (h : value f = some x) : f.toUInt64.toNat < bound ↔ x < bound := by
    rw [toUInt64_eq h, ← Nat.floor_lt' (by omega)]
    omega
  unfold Below
  cases hv : value f with
  | some x =>
      have hnot : f.unpack ≠ .infinity .positive := fun hinf => by
        unfold value at hv
        rw [hinf] at hv
        cases hv
      rw [hnumber x hv]
      refine ⟨fun hlt => ⟨hnot, fun y hy => ?_⟩, fun hbelow => hbelow.2 x rfl⟩
      obtain rfl := Option.some.inj hy
      exact hlt
  | none =>
      have hnone : ∀ x, (none : Option ℚ) = some x → x < bound := fun x hx => by cases hx
      rw [toUInt64_clamp]
      unfold value at hv
      cases hu : f.unpack with
      | zero sign =>
          rw [hu] at hv
          cases hv
      | finite sign mantissa exponent hmantissa =>
          rw [hu] at hv
          cases hv
      | notANumber => exact ⟨fun _ => ⟨nofun, hnone⟩, fun _ => hpos⟩
      | infinity sign =>
          cases sign with
          | negative => exact ⟨fun _ => ⟨nofun, hnone⟩, fun _ => hpos⟩
          | positive =>
              refine ⟨fun hlt => ?_, fun hbelow => absurd rfl hbelow.1⟩
              have hlargest : 2 ^ 64 - 1 < bound := hlt
              omega

end Cast

section Parse

-- The digits at the start: the number that they continue, and how many they are.
def digits : List Char → Nat → Nat → Nat × Nat × List Char
  | [], n, count => (n, count, [])
  | c :: cs, n, count =>
      if c.isDigit then digits cs (10 * n + (c.toNat - '0'.toNat)) (count + 1)
      else (n, count, c :: cs)

def sign : List Char → Sign × List Char
  | '+' :: cs => (.positive, cs)
  | '-' :: cs => (.negative, cs)
  | cs => (.positive, cs)

def exponent : List Char → Option Int
  | [] => some 0
  | c :: cs =>
      if c = 'e' ∨ c = 'E' then
        let (sign, cs) := sign cs
        let (n, count, rest) := digits cs 0 0
        if 0 < count ∧ rest = [] then some (sign.apply n) else none
      else none

-- Digits with at most one point among them, and an exponent
def number (cs : List Char) : Option Float.Model :=
  let (whole, count, rest) := digits cs 0 0
  let (all, behind, rest) := match rest with
    | '.' :: rest => digits rest whole 0
    | rest => (whole, 0, rest)
  if 0 < count + behind then
    (exponent rest).map fun e => Float.Model.ofScientific all (e - behind)
  else none

-- `str::parse::<f64>`
def parse (cs : List Char) : Option Float.Model :=
  let (sign, cs) := sign cs
  let lower := cs.map Char.toLower
  let unsigned :=
    if lower = ['i', 'n', 'f'] ∨ lower = ['i', 'n', 'f', 'i', 'n', 'i', 't', 'y'] then
      some (Float.Model.pack (.infinity .positive))
    else if lower = ['n', 'a', 'n'] then some (Float.Model.pack .notANumber)
    else number cs
  unsigned.map fun f => if sign == .negative then -f else f

end Parse

end Rsgc.Binary64
