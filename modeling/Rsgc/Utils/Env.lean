import Rsgc.Lib.Binary64
import Rsgc.Lib.Profile
import Rsgc.Lib.Utf8

namespace Rsgc.Utils

-- A byte that is one of two letters, as in `byte == 'g' as u8 || byte == 'G' as u8`
def isLetter (byte : UInt8) (lower upper : Char) : Bool :=
  byte == lower.val.toUInt8 || byte == upper.val.toUInt8

-- A text of at least two bytes loses the `b` at its end.
def stripByte (value : List Char) : Option (List Char) := do
  let bytes := Utf8.encode value
  if 1 < bytes.length then
    let last ← bytes[bytes.length - 1]?
    if isLetter last 'b' 'B' then (Utf8.splitAt value (bytes.length - 1)).map Prod.fst
    else some value
  else some value

-- The rest of the text and the factor of its unit. The text without the last byte is taken
-- before it is clear that the last byte is a unit.
def splitUnit (value : List Char) : Option (List Char × Nat) := do
  let bytes := Utf8.encode value
  let (realvalue, _) ← Utf8.splitAt value (bytes.length - 1)
  let last ← bytes[bytes.length - 1]?
  if isLetter last 'g' 'G' then some (realvalue, 1024 * 1024 * 1024)
  else if isLetter last 'm' 'M' then some (realvalue, 1024 * 1024)
  else if isLetter last 'k' 'K' then some (realvalue, 1024)
  else some (value, 1)

-- `none` is a panic, and `some none` what the function returns for a text that it cannot read.
-- The variable may be missing, or may not be text.
def readFloatAndFactorFromEnv (var : Option (List Char)) : Option (Option (Float.Model × Nat)) :=
  match var with
  | some value =>
      if 0 < (Utf8.encode value).length then do
        let value ← stripByte value
        let (realvalue, factor) ← splitUnit value
        some ((Binary64.parse realvalue).map fun x => (x, factor))
      else some none
  | none => some none

def readUintFromEnv (p : Profile) (var : Option (List Char)) : Option (Option Nat) := do
  match ← readFloatAndFactorFromEnv var with
  | some (value, factor) => (p.unsigned 64 ((value.toUInt64.toNat : Int) * factor)).map some
  | none => some none

-- A text without an optional `b` at its end
def withoutByte (text : List Char) : List Char :=
  if text.getLast? = some 'b' ∨ text.getLast? = some 'B' then text.dropLast else text

def unit (c : Char) : Option Nat :=
  if c = 'g' ∨ c = 'G' then some (1024 * 1024 * 1024)
  else if c = 'm' ∨ c = 'M' then some (1024 * 1024)
  else if c = 'k' ∨ c = 'K' then some 1024
  else none

-- The number of a setting, and the factor of its optional unit
def setting (text : List Char) : List Char × Nat :=
  match (withoutByte text).getLast?.bind unit with
  | some factor => ((withoutByte text).dropLast, factor)
  | none => (withoutByte text, 1)

-- What the size settings should do with a text.
structure ReadsSize (p : Profile) (text : List Char) : Prop where
  returns : readUintFromEnv p (some text) ≠ none
  floors : ∀ f x, Binary64.parse (setting text).1 = some f → Binary64.value f = some x →
    0 ≤ x → x * (setting text).2 < 2 ^ 64 →
      readUintFromEnv p (some text) = some (some ⌊x * (setting text).2⌋₊)
  rejects : Binary64.parse (setting text).1 = none → readUintFromEnv p (some text) = some none

-- The last character, but for a `b`, has one byte. What the number has behind the point is
-- not enough for a byte more, and a debug build does not get a number that is too large.
structure Plain (p : Profile) (text : List Char) : Prop where
  last : ∀ c ∈ (withoutByte text).getLast?, c.utf8Size = 1
  whole : ∀ f x, Binary64.parse (setting text).1 = some f → Binary64.value f = some x →
    0 ≤ x → x * (setting text).2 < 2 ^ 64 → Int.fract x * (setting text).2 < 1
  bounded : p = .debug → (setting text).2 ≠ 1 → ∀ f, Binary64.parse (setting text).1 = some f →
    Binary64.Below f (2 ^ 64 / (setting text).2)

variable {p : Profile} {text front : List Char} {c : Char} {f : Float.Model} {x : ℚ}

section Text

theorem isLetter_iff {byte : UInt8} {lower upper : Char}
    (hbyte : ∀ a : Char, a.utf8Size = 1 → (byte = a.val.toUInt8 ↔ c = a))
    (hlower : lower.utf8Size = 1) (hupper : upper.utf8Size = 1) :
    isLetter byte lower upper = true ↔ c = lower ∨ c = upper := by
  unfold isLetter
  rw [Bool.or_eq_true, beq_iff_eq, beq_iff_eq, hbyte lower hlower, hbyte upper hupper]

theorem stripByte_eq : stripByte (front ++ [c]) =
    some (if front ≠ [] ∧ (c = 'b' ∨ c = 'B') then front else front ++ [c]) := by
  obtain ⟨byte, hlast, hbyte⟩ := Utf8.last_byte front c
  have hletter : isLetter byte 'b' 'B' = true ↔ c = 'b' ∨ c = 'B' :=
    isLetter_iff hbyte (by decide) (by decide)
  have hlength : (Utf8.encode (front ++ [c])).length = (Utf8.encode front).length + c.utf8Size := by
    rw [Utf8.encode_append, Utf8.encode_singleton, List.length_append,
      String.length_utf8EncodeChar]
  unfold stripByte
  dsimp only
  by_cases hb : c = 'b' ∨ c = 'B'
  · have hone : c.utf8Size = 1 := by rcases hb with rfl | rfl <;> decide
    by_cases hfront : front = []
    · subst hfront
      rw [if_neg (by rw [hlength, hone]; simp), if_neg (by simp)]
    · have hmore : 0 < (Utf8.encode front).length := Nat.pos_of_ne_zero fun hzero =>
        hfront (Utf8.eq_nil_of_length_encode front hzero)
      rw [if_pos (by omega), hlast, Option.bind_eq_bind, Option.bind_some, if_pos (hletter.mpr hb),
        Utf8.splitAt_last, if_pos hone, if_pos ⟨hfront, hb⟩]
      rfl
  · have hnot : isLetter byte 'b' 'B' ≠ true := fun h => hb (hletter.mp h)
    rw [hlast, Option.bind_eq_bind, Option.bind_some, if_neg hnot, ite_self,
      if_neg fun h => hb h.2]

theorem splitUnit_eq : splitUnit (front ++ [c]) = if c.utf8Size = 1 then
    some (match unit c with
      | some factor => (front, factor)
      | none => (front ++ [c], 1))
    else none := by
  obtain ⟨byte, hlast, hbyte⟩ := Utf8.last_byte front c
  unfold splitUnit
  dsimp only
  rw [Utf8.splitAt_last]
  by_cases hone : c.utf8Size = 1
  · rw [if_pos hone, if_pos hone, Option.bind_eq_bind, Option.bind_some, hlast,
      Option.bind_eq_bind, Option.bind_some]
    simp only [isLetter_iff hbyte (by decide : 'g'.utf8Size = 1) (by decide : 'G'.utf8Size = 1),
      isLetter_iff hbyte (by decide : 'm'.utf8Size = 1) (by decide : 'M'.utf8Size = 1),
      isLetter_iff hbyte (by decide : 'k'.utf8Size = 1) (by decide : 'K'.utf8Size = 1)]
    unfold unit
    split
    · rfl
    · split
      · rfl
      · split <;> rfl
  · rw [if_neg hone, if_neg hone]
    rfl

theorem setting_eq (h : withoutByte text = front ++ [c]) : setting text =
    match unit c with
    | some factor => (front, factor)
    | none => (front ++ [c], 1) := by
  unfold setting
  rw [h, List.getLast?_append, List.dropLast_concat]
  rfl

theorem withoutByte_append : withoutByte (front ++ [c]) =
    if c = 'b' ∨ c = 'B' then front else front ++ [c] := by
  unfold withoutByte
  simp only [List.getLast?_concat, Option.some.injEq, List.dropLast_concat]

-- The last character without the `b` has to have one byte.
theorem readFloatAndFactorFromEnv_rest (hrest : withoutByte text = front ++ [c]) :
    readFloatAndFactorFromEnv (some text) = if c.utf8Size = 1 then
      some ((Binary64.parse (setting text).1).map fun x => (x, (setting text).2))
    else none := by
  have hread : (do
      let (realvalue, factor) ← splitUnit (front ++ [c])
      some ((Binary64.parse realvalue).map fun x => (x, factor))) = if c.utf8Size = 1 then
        some ((Binary64.parse (setting text).1).map fun x => (x, (setting text).2))
      else none := by
    rw [splitUnit_eq, setting_eq hrest]
    by_cases hone : c.utf8Size = 1
    · rw [if_pos hone, if_pos hone]
      rfl
    · rw [if_neg hone, if_neg hone]
      rfl
  rcases List.eq_nil_or_concat text with rfl | ⟨before, d, rfl⟩
  · simp [withoutByte] at hrest
  · rw [List.concat_eq_append] at hread hrest ⊢
    have hpos : 0 < (Utf8.encode (before ++ [d])).length := by
      have hsize := d.utf8Size_pos
      rw [Utf8.encode_append, Utf8.encode_singleton, List.length_append,
        String.length_utf8EncodeChar]
      omega
    unfold readFloatAndFactorFromEnv
    dsimp only
    rw [if_pos hpos, stripByte_eq, Option.bind_eq_bind, Option.bind_some]
    by_cases hb : d = 'b' ∨ d = 'B'
    · rw [withoutByte_append, if_pos hb] at hrest
      rw [if_pos ⟨by simp [hrest], hb⟩, hrest]
      rw [hrest] at hread
      exact hread
    · rw [withoutByte_append, if_neg hb] at hrest
      rw [if_neg fun h => hb h.2]
      rw [← hrest] at hread
      exact hread

-- A `b` alone is not a number, and neither is nothing.
theorem readFloatAndFactorFromEnv_nothing (hrest : withoutByte text = []) :
    readFloatAndFactorFromEnv (some text) = some none := by
  rcases List.eq_nil_or_concat text with rfl | ⟨before, d, rfl⟩
  · rfl
  · rw [List.concat_eq_append, withoutByte_append] at hrest
    by_cases hb : d = 'b' ∨ d = 'B'
    · rw [if_pos hb] at hrest
      subst hrest
      rcases hb with rfl | rfl <;> rfl
    · rw [if_neg hb] at hrest
      exact absurd hrest (by simp)

-- The text is read as its number with its unit.
theorem readFloatAndFactorFromEnv_eq
    (hlast : ∀ c ∈ (withoutByte text).getLast?, c.utf8Size = 1) :
    readFloatAndFactorFromEnv (some text) =
      some ((Binary64.parse (setting text).1).map fun x => (x, (setting text).2)) := by
  rcases List.eq_nil_or_concat (withoutByte text) with hnil | ⟨front, c, hrest⟩
  · have hparse : Binary64.parse (setting text).1 = none := by
      unfold setting
      rw [hnil]
      rfl
    rw [readFloatAndFactorFromEnv_nothing hnil, hparse]
    rfl
  · rw [List.concat_eq_append] at hrest
    have hone := hlast c (by rw [hrest, List.getLast?_concat]; rfl)
    rw [readFloatAndFactorFromEnv_rest hrest, if_pos hone]

end Text

section Value

-- Rounding before the multiplication gives the same just if what is cut off does not count.
theorem floor_mul_eq_iff (hx : 0 ≤ x) (factor : Nat) :
    ⌊x⌋₊ * factor = ⌊x * factor⌋₊ ↔ Int.fract x * factor < 1 := by
  have hwhole : (⌊x⌋₊ : ℚ) + Int.fract x = x := by
    rw [natCast_floor_eq_intCast_floor hx]
    exact Int.floor_add_fract x
  have hsplit : x * factor = Int.fract x * factor + ((⌊x⌋₊ * factor : Nat) : ℚ) := by
    push_cast
    rw [← add_mul, add_comm, hwhole]
  have hrest : 0 ≤ Int.fract x * factor := mul_nonneg (Int.fract_nonneg x) (Nat.cast_nonneg _)
  rw [hsplit, Nat.floor_add_natCast hrest, ← Nat.floor_eq_zero]
  omega

theorem exists_factor (text : List Char) : ∃ k ≤ 30, (setting text).2 = 2 ^ k := by
  unfold setting
  cases hunit : (withoutByte text).getLast?.bind unit with
  | none => exact ⟨0, by decide, rfl⟩
  | some factor =>
      obtain ⟨c, -, hc⟩ := Option.bind_eq_some_iff.mp hunit
      unfold unit at hc
      split at hc
      · exact ⟨30, by decide, (Option.some.inj hc).symm⟩
      · split at hc
        · exact ⟨20, by decide, (Option.some.inj hc).symm⟩
        · split at hc
          · exact ⟨10, by decide, (Option.some.inj hc).symm⟩
          · cases hc

theorem readUintFromEnv_eq (hlast : ∀ c ∈ (withoutByte text).getLast?, c.utf8Size = 1) :
    readUintFromEnv p (some text) =
      match Binary64.parse (setting text).1 with
      | some f => (p.unsigned 64 ((f.toUInt64.toNat : Int) * (setting text).2)).map some
      | none => some none := by
  unfold readUintFromEnv
  rw [readFloatAndFactorFromEnv_eq hlast, Option.bind_eq_bind, Option.bind_some]
  cases Binary64.parse (setting text).1 <;> rfl

-- A number that fits with its factor is read as the product of its floor.
theorem readUintFromEnv_value (hlast : ∀ c ∈ (withoutByte text).getLast?, c.utf8Size = 1)
    (hparse : Binary64.parse (setting text).1 = some f) (hvalue : Binary64.value f = some x)
    (hx : 0 ≤ x) (hfits : x * (setting text).2 < 2 ^ 64) :
    readUintFromEnv p (some text) = some (some (⌊x⌋₊ * (setting text).2)) := by
  obtain ⟨k, _, hfactor⟩ := exists_factor text
  have hone : (1 : ℚ) ≤ (setting text).2 := by
    rw [hfactor]
    exact_mod_cast Nat.one_le_two_pow
  have hproduct : ⌊x⌋₊ * (setting text).2 < 2 ^ 64 := by
    have hle : (⌊x⌋₊ : ℚ) * (setting text).2 ≤ x * (setting text).2 :=
      mul_le_mul_of_nonneg_right (Nat.floor_le hx) (Nat.cast_nonneg _)
    exact_mod_cast lt_of_le_of_lt hle hfits
  have hfloor : ⌊x⌋₊ ≤ ⌊x⌋₊ * (setting text).2 :=
    Nat.le_mul_of_pos_right _ (by rw [hfactor]; exact Nat.two_pow_pos k)
  have hcast : f.toUInt64.toNat = ⌊x⌋₊ := by
    rw [Binary64.toUInt64_eq hvalue]
    omega
  rw [readUintFromEnv_eq hlast, hparse]
  dsimp only
  rw [hcast, Profile.unsigned_eq (n := ⌊x⌋₊ * (setting text).2) (by push_cast; rfl) hproduct,
    Option.map_some]

-- The product is too large just if the number is.
theorem product_lt_iff (text : List Char) (hone : (setting text).2 ≠ 1) :
    f.toUInt64.toNat * (setting text).2 < 2 ^ 64 ↔
      Binary64.Below f (2 ^ 64 / (setting text).2) := by
  obtain ⟨k, hk, hfactor⟩ := exists_factor text
  have hpos := Nat.two_pow_pos k
  have hdvd : 2 ^ k ∣ 2 ^ 64 := Nat.pow_dvd_pow 2 (by omega)
  have hle : 2 ^ k ≤ 2 ^ 64 := Nat.le_of_dvd (by decide) hdvd
  rw [hfactor] at hone ⊢
  rw [← Binary64.toUInt64_lt_iff (Nat.div_pos hle hpos)
    (Nat.div_lt_self (by decide) (by omega))]
  exact (Nat.lt_div_iff_mul_lt_of_dvd (by omega) hdvd).symm

end Value

-- A text is read as it should be just if it is plain.
theorem readsSize_iff (p : Profile) (text : List Char) : ReadsSize p text ↔ Plain p text := by
  constructor
  · intro h
    have hlast : ∀ c ∈ (withoutByte text).getLast?, c.utf8Size = 1 := by
      intro c hc
      obtain ⟨front, hrest⟩ := List.getLast?_eq_some_iff.mp hc
      by_contra hlarge
      refine h.returns ?_
      unfold readUintFromEnv
      rw [readFloatAndFactorFromEnv_rest hrest, if_neg hlarge]
      rfl
    refine ⟨hlast, fun f x hparse hvalue hx hfits => ?_, fun hdebug hone f hparse => ?_⟩
    · have hread := h.floors f x hparse hvalue hx hfits
      rw [readUintFromEnv_value hlast hparse hvalue hx hfits, Option.some.injEq,
        Option.some.injEq] at hread
      exact (floor_mul_eq_iff hx _).mp hread
    · have hreturns := h.returns
      rw [readUintFromEnv_eq hlast, hparse] at hreturns
      rw [← product_lt_iff text hone]
      by_contra hlarge
      refine hreturns ?_
      dsimp only
      rw [Profile.unsigned_eq_none.mpr ⟨hdebug, fun hfits => hlarge ?_⟩, Option.map_none]
      exact_mod_cast hfits.2
  · rintro ⟨hlast, hwhole, hbounded⟩
    refine ⟨?_, fun f x hparse hvalue hx hfits => ?_, fun hparse => ?_⟩
    · rw [readUintFromEnv_eq hlast]
      cases hparse : Binary64.parse (setting text).1 with
      | none => simp
      | some f =>
          dsimp only
          rw [ne_eq, Option.map_eq_none_iff, Profile.unsigned_eq_none]
          rintro ⟨hdebug, hnot⟩
          refine hnot ⟨by positivity, ?_⟩
          have hproduct : f.toUInt64.toNat * (setting text).2 < 2 ^ 64 := by
            by_cases hone : (setting text).2 = 1
            · rw [hone, Nat.mul_one]
              exact f.toUInt64.toNat_lt
            · exact (product_lt_iff text hone).mpr (hbounded hdebug hone f hparse)
          exact_mod_cast hproduct
    · rw [readUintFromEnv_value hlast hparse hvalue hx hfits,
        (floor_mul_eq_iff hx _).mpr (hwhole f x hparse hvalue hx hfits)]
    · rw [readUintFromEnv_eq hlast, hparse]

theorem value_half : Binary64.value (Float.Model.ofScientific 5 (-1)) = some (1 / 2) := by
  have hunpack : (Float.Model.ofScientific 5 (-1)).unpack =
      .finite .positive (2 ^ 52) (-53) (by decide) := rfl
  unfold Binary64.value
  rw [hunpack]
  refine congrArg some ?_
  change (((2 ^ 52 : Nat) : Int) : ℚ) * 2 ^ (-53 : Int) = 1 / 2
  norm_num

-- Half a gigabyte is read as nothing, and a letter of two bytes is a panic.
theorem half_gigabyte_reads_zero : ¬ReadsSize .release ['0', '.', '5', 'g'] ∧
    readUintFromEnv .release (some ['0', '.', '5', 'g']) = some (some 0) ∧
    ¬ReadsSize .release ['5', 'é'] ∧ readUintFromEnv .release (some ['5', 'é']) = none := by
  have hzero : readUintFromEnv .release (some ['0', '.', '5', 'g']) = some (some 0) := by
    decide +kernel
  have hpanic : readUintFromEnv .release (some ['5', 'é']) = none := by decide +kernel
  refine ⟨fun h => ?_, hzero, fun h => h.returns hpanic, hpanic⟩
  have hread := h.floors _ _ rfl value_half (by norm_num)
    (show (1 / 2 : ℚ) * ((1024 * 1024 * 1024 : Nat) : ℚ) < 2 ^ 64 by norm_num)
  rw [hzero, Option.some.injEq, Option.some.injEq] at hread
  have hfloor : ⌊(1 / 2 : ℚ) * ((1024 * 1024 * 1024 : Nat) : ℚ)⌋₊ = 2 ^ 29 := by norm_num
  exact absurd (hread.trans hfloor) (by decide)

end Rsgc.Utils
