import Mathlib.Data.List.Basic

namespace Rsgc

-- Characters and the bytes that encode them.
namespace Utf8

variable {cs front rest : List Char} {n : Nat} {c : Char}

def encode (cs : List Char) : List UInt8 := cs.flatMap String.utf8EncodeChar

-- A character has at least one byte.
def decodeUpTo : Nat → List UInt8 → Option (List Char)
  | _, [] => some []
  | 0, _ :: _ => none
  | fuel + 1, bytes =>
      (bytes.toByteArray.utf8DecodeChar? 0).bind fun c =>
        (decodeUpTo fuel (bytes.drop c.utf8Size)).map (c :: ·)

def decode (bytes : List UInt8) : Option (List Char) := decodeUpTo bytes.length bytes

-- The characters before and behind a position in bytes, where it is on a boundary.
def splitAt : List Char → Nat → Option (List Char × List Char)
  | cs, 0 => some ([], cs)
  | [], _ + 1 => none
  | c :: cs, n + 1 =>
      if c.utf8Size ≤ n + 1 then (splitAt cs (n + 1 - c.utf8Size)).map fun r => (c :: r.1, r.2)
      else none

def IsBoundary (cs : List Char) (n : Nat) : Prop := (splitAt cs n).isSome = true

instance (cs : List Char) (n : Nat) : Decidable (IsBoundary cs n) :=
  inferInstanceAs (Decidable (_ = true))

@[simp] theorem encode_nil : encode [] = [] := rfl

@[simp] theorem encode_cons : encode (c :: cs) = String.utf8EncodeChar c ++ encode cs :=
  List.flatMap_cons

@[simp] theorem encode_append : encode (front ++ rest) = encode front ++ encode rest :=
  List.flatMap_append

theorem encode_singleton (c : Char) : encode [c] = String.utf8EncodeChar c := by
  rw [encode_cons, encode_nil, List.append_nil]

theorem decodeUpTo_encode (cs : List Char) {fuel : Nat} (hfuel : (encode cs).length ≤ fuel) :
    decodeUpTo fuel (encode cs) = some cs := by
  induction cs generalizing fuel with
  | nil => unfold decodeUpTo; rfl
  | cons c cs ih =>
      have hsize := String.length_utf8EncodeChar c
      have hpos := c.utf8Size_pos
      rw [encode_cons, List.length_append, hsize] at hfuel
      rw [encode_cons]
      obtain ⟨fuel, rfl⟩ := Nat.exists_eq_add_of_lt (show 0 < fuel by omega)
      rw [Nat.zero_add]
      have hdecode : (String.utf8EncodeChar c ++ encode cs).toByteArray.utf8DecodeChar? 0 =
          some c := by
        rw [List.toByteArray_append]
        exact ByteArray.utf8DecodeChar?_utf8EncodeChar_append
      have hdrop : (String.utf8EncodeChar c ++ encode cs).drop c.utf8Size = encode cs :=
        List.drop_left' hsize
      obtain ⟨b, bs, hbytes⟩ := List.exists_cons_of_ne_nil
        (show String.utf8EncodeChar c ++ encode cs ≠ [] by simp)
      rw [hbytes] at hdecode hdrop ⊢
      unfold decodeUpTo
      rw [hdecode, Option.bind_some, hdrop, ih (by omega)]
      rfl

theorem decode_encode (cs : List Char) : decode (encode cs) = some cs :=
  decodeUpTo_encode cs (Nat.le_refl _)

theorem encode_injective {cs cs' : List Char} (h : encode cs = encode cs') : cs = cs' := by
  have hdecode := decode_encode cs
  rw [h, decode_encode] at hdecode
  exact (Option.some.inj hdecode).symm

theorem splitAt_encode (front rest : List Char) :
    splitAt (front ++ rest) (encode front).length = some (front, rest) := by
  induction front with
  | nil => unfold splitAt; rfl
  | cons c front ih =>
      have hsize := String.length_utf8EncodeChar c
      have hpos := c.utf8Size_pos
      have hlength : (encode (c :: front)).length = c.utf8Size - 1 + (encode front).length + 1 := by
        rw [encode_cons, List.length_append, hsize]
        omega
      have hsub : c.utf8Size - 1 + (encode front).length + 1 - c.utf8Size =
          (encode front).length := by omega
      rw [hlength, List.cons_append]
      unfold splitAt
      rw [if_pos (by omega), hsub, ih]
      rfl

theorem splitAt_eq_some :
    splitAt cs n = some (front, rest) ↔ cs = front ++ rest ∧ (encode front).length = n := by
  constructor
  · intro h
    induction cs generalizing n front with
    | nil =>
        cases n with
        | zero =>
            obtain ⟨rfl, rfl⟩ := Prod.mk.inj (Option.some.inj h)
            exact ⟨rfl, rfl⟩
        | succ n => cases h
    | cons c cs ih =>
        cases n with
        | zero =>
            obtain ⟨rfl, rfl⟩ := Prod.mk.inj (Option.some.inj h)
            exact ⟨rfl, rfl⟩
        | succ n =>
            unfold splitAt at h
            obtain ⟨hle, h⟩ := Option.ite_none_right_eq_some.mp h
            obtain ⟨⟨front', rest'⟩, hsplit, heq⟩ := Option.map_eq_some_iff.mp h
            obtain ⟨rfl, rfl⟩ := Prod.mk.inj heq
            obtain ⟨rfl, hlength⟩ := ih hsplit
            refine ⟨rfl, ?_⟩
            rw [encode_cons, List.length_append, String.length_utf8EncodeChar, hlength]
            omega
  · rintro ⟨rfl, rfl⟩
    exact splitAt_encode front rest

theorem eq_nil_of_length_encode (cs : List Char) (h : (encode cs).length = 0) : cs = [] := by
  cases cs with
  | nil => rfl
  | cons c cs =>
      have hpos := c.utf8Size_pos
      rw [encode_cons, List.length_append, String.length_utf8EncodeChar] at h
      omega

theorem splitAt_of_boundary (h : IsBoundary cs n) :
    ∃ front rest, splitAt cs n = some (front, rest) ∧ cs = front ++ rest ∧
      (encode front).length = n := by
  obtain ⟨⟨front, rest⟩, hsplit⟩ := Option.isSome_iff_exists.mp h
  exact ⟨front, rest, hsplit, splitAt_eq_some.mp hsplit⟩

theorem isBoundary_length (cs : List Char) : IsBoundary cs (encode cs).length := by
  have hsplit := splitAt_encode cs []
  rw [List.append_nil] at hsplit
  exact Option.isSome_iff_exists.mpr ⟨_, hsplit⟩

theorem splitAt_none_of_gt (h : (encode cs).length < n) : splitAt cs n = none := by
  cases hsplit : splitAt cs n with
  | none => rfl
  | some r =>
      obtain ⟨rfl, hlength⟩ := splitAt_eq_some.mp hsplit
      rw [encode_append, List.length_append] at h
      omega

-- Between two boundaries there are whole characters.
theorem exists_between {m : Nat} (hfirst : IsBoundary cs n) (hsecond : IsBoundary cs m)
    (hle : n ≤ m) : ∃ front mid rest, cs = front ++ (mid ++ rest) ∧ (encode front).length = n ∧
      (encode mid).length = m - n := by
  obtain ⟨front, rest, _, rfl, hfront⟩ := splitAt_of_boundary hfirst
  obtain ⟨front', rest', _, heq, hfront'⟩ := splitAt_of_boundary hsecond
  rcases List.append_eq_append_iff.mp heq with ⟨mid, rfl, rfl⟩ | ⟨mid, rfl, rfl⟩
  · rw [encode_append, List.length_append] at hfront'
    exact ⟨front, mid, rest', rfl, hfront, by omega⟩
  · rw [encode_append, List.length_append] at hfront
    obtain rfl := eq_nil_of_length_encode mid (by omega)
    exact ⟨front', [], rest, by simp, by omega, by rw [encode_nil, List.length_nil]; omega⟩

-- A byte behind the first of its character is not the code of any one-byte character.
theorem last_byte (front : List Char) (c : Char) : ∃ b,
    (encode (front ++ [c]))[(encode (front ++ [c])).length - 1]? = some b ∧
      ∀ a : Char, a.utf8Size = 1 → (b = a.val.toUInt8 ↔ c = a) := by
  have hsize := String.length_utf8EncodeChar c
  have hpos := c.utf8Size_pos
  have hlast : (encode (front ++ [c])).length - 1 = (encode front).length + (c.utf8Size - 1) := by
    rw [encode_append, encode_singleton, List.length_append, hsize]
    omega
  have hlt : c.utf8Size - 1 < (String.utf8EncodeChar c).length := by omega
  have hbyte : (encode (front ++ [c]))[(encode (front ++ [c])).length - 1]? =
      some (String.utf8EncodeChar c)[c.utf8Size - 1] := by
    rw [hlast, encode_append, encode_singleton, List.getElem?_append_right (Nat.le_add_right _ _),
      Nat.add_sub_cancel_left, List.getElem?_eq_getElem]
  refine ⟨_, hbyte, fun a ha => ?_⟩
  have hcode := String.utf8EncodeChar_eq_singleton ha
  by_cases hone : c.utf8Size = 1
  · have hsingle := String.utf8EncodeChar_eq_singleton hone
    have hget : (String.utf8EncodeChar c)[c.utf8Size - 1] = c.val.toUInt8 := by
      simp only [hone, hsingle, List.getElem_singleton]
    rw [hget]
    refine ⟨fun heq => ?_, fun heq => heq ▸ rfl⟩
    have hsame : encode [c] = encode [a] := by
      rw [encode_singleton, encode_singleton, hsingle, hcode, heq]
    exact (List.cons.inj (encode_injective hsame)).1
  · refine ⟨fun heq => ?_, fun heq => absurd (heq ▸ ha) hone⟩
    have hfirst : UInt8.IsUTF8FirstByte a.val.toUInt8 := by
      have hcodepos : 0 < (String.utf8EncodeChar a).length := by rw [hcode]; exact Nat.one_pos
      have hzero : (String.utf8EncodeChar a)[0].IsUTF8FirstByte ↔ 0 = 0 :=
        UInt8.isUTF8FirstByte_getElem_utf8EncodeChar
      simp only [hcode, List.getElem_singleton] at hzero
      exact hzero.mpr trivial
    rw [← heq] at hfirst
    have hindex := UInt8.isUTF8FirstByte_getElem_utf8EncodeChar.mp hfirst
    omega

-- The position before the last byte is a boundary just if the last character has one byte.
theorem splitAt_last (front : List Char) (c : Char) :
    splitAt (front ++ [c]) ((encode (front ++ [c])).length - 1) =
      if c.utf8Size = 1 then some (front, [c]) else none := by
  have hpos := c.utf8Size_pos
  have hlast : (encode (front ++ [c])).length - 1 = (encode front).length + (c.utf8Size - 1) := by
    rw [encode_append, encode_singleton, List.length_append, String.length_utf8EncodeChar]
    omega
  rw [hlast]
  by_cases hone : c.utf8Size = 1
  · rw [if_pos hone, hone]
    exact splitAt_encode front [c]
  · rw [if_neg hone]
    cases hsplit : splitAt (front ++ [c]) ((encode front).length + (c.utf8Size - 1)) with
    | none => rfl
    | some r =>
        obtain ⟨heq, hlength⟩ := splitAt_eq_some.mp hsplit
        rcases List.eq_nil_or_concat r.2 with hnil | ⟨rest, d, hconcat⟩
        · rw [hnil, List.append_nil] at heq
          rw [← heq, encode_append, encode_singleton, List.length_append,
            String.length_utf8EncodeChar] at hlength
          omega
        · rw [hconcat, List.concat_eq_append, ← List.append_assoc] at heq
          obtain ⟨hfront, -⟩ := List.append_inj' heq rfl
          rw [hfront, encode_append, List.length_append] at hlength
          omega

end Utf8

end Rsgc
