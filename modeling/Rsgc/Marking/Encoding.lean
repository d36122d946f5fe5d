import Rsgc.Marking.Task
import Mathlib.Data.Nat.Bitwise

namespace Rsgc.Marking.MarkTask

def POW_BITS : Nat := 5
def OOP_BITS : Nat := 64 - CHUNK_BITS - POW_BITS
def POW_SHIFT : Nat := OOP_BITS
def CHUNK_SHIFT : Nat := OOP_BITS + POW_BITS

def OOP_EXTRACT_MASK : Nat := 2 ^ OOP_BITS - 1 - 3
def SKIP_LIVE_EXTRACT_MASK : Nat := 1 <<< 0
def WEAK_EXTRACT_MASK : Nat := 1 <<< 1
def CHUNK_POW_EXTRACT_MASK : Nat := 2 ^ 64 - 1 - (2 ^ OOP_BITS - 1)
def CHUNK_RANGE_MASK : Nat := 2 ^ CHUNK_BITS - 1
def POW_RANGE_MASK : Nat := 2 ^ POW_BITS - 1

def encodeOop (obj : Nat) (skipLive weak : Bool) : Nat :=
  (obj ||| if skipLive then SKIP_LIVE_EXTRACT_MASK else 0) |||
    if weak then WEAK_EXTRACT_MASK else 0

def encodeChunk (chunk : Nat) : Nat := chunk <<< CHUNK_SHIFT % 2 ^ 64

def encodePow (pow : Nat) : Nat := pow <<< POW_SHIFT % 2 ^ 64

-- The word that `MarkTask::new2` builds; `MarkTask::new` is the case without a chunk.
def encode (t : MarkTask) : Nat :=
  encodeOop t.obj t.skipLive t.weak ||| encodeChunk t.chunk ||| encodePow t.pow

def decodeOop (val : Nat) : Nat := val &&& OOP_EXTRACT_MASK

def decodeNotChunked (val : Nat) : Bool := val &&& CHUNK_POW_EXTRACT_MASK == 0

def decodeChunk (val : Nat) : Nat := (val >>> CHUNK_SHIFT) &&& CHUNK_RANGE_MASK

def decodePow (val : Nat) : Nat := (val >>> POW_SHIFT) &&& POW_RANGE_MASK

def decodeWeak (val : Nat) : Bool := val &&& WEAK_EXTRACT_MASK != 0

def decodeCntLive (val : Nat) : Bool := val &&& SKIP_LIVE_EXTRACT_MASK == 0

def decode (val : Nat) : MarkTask where
  obj := decodeOop val
  skipLive := !decodeCntLive val
  weak := decodeWeak val
  chunk := decodeChunk val
  pow := decodePow val

-- The tasks that fit the word: the address leaves the bits free that the
-- chunk, the power and the two flags are put into.
structure Packable (t : MarkTask) : Prop where
  obj_lt : t.obj < 2 ^ 49
  obj_dvd : 4 ∣ t.obj
  chunk_lt : t.chunk < 2 ^ 10
  pow_lt : t.pow < 2 ^ 5

def flagBits (t : MarkTask) : Nat := t.skipLive.toNat + 2 * t.weak.toNat

theorem and_shiftLeft_mask (x width shift : Nat) :
    x &&& ((2 ^ width - 1) <<< shift) = x / 2 ^ shift % 2 ^ width * 2 ^ shift := by
  have h : x &&& ((2 ^ width - 1) <<< shift) = ((x >>> shift) &&& (2 ^ width - 1)) <<< shift := by
    apply Nat.eq_of_testBit_eq
    intro i
    by_cases hi : shift ≤ i
    · simp [Nat.testBit_and, Nat.testBit_shiftLeft, Nat.testBit_shiftRight, hi,
        Nat.add_sub_cancel' hi, Bool.and_comm]
    · simp [Nat.testBit_and, Nat.testBit_shiftLeft, hi]
  rw [h, Nat.and_two_pow_sub_one_eq_mod, Nat.shiftRight_eq_div_pow, Nat.shiftLeft_eq]

variable {t : MarkTask}

theorem flagBits_lt (t : MarkTask) : t.flagBits < 4 := by
  unfold flagBits
  cases t.skipLive <;> cases t.weak <;> decide

theorem Packable.encodeOop (h : t.Packable) :
    encodeOop t.obj t.skipLive t.weak = t.obj + t.flagBits := by
  have hflags : ((if t.skipLive then SKIP_LIVE_EXTRACT_MASK else 0) |||
      if t.weak then WEAK_EXTRACT_MASK else 0) = t.flagBits := by
    unfold flagBits
    cases t.skipLive <;> cases t.weak <;> decide
  obtain ⟨k, hk⟩ := h.obj_dvd
  have hshift : t.obj = k <<< 2 := by rw [hk, Nat.shiftLeft_eq, Nat.mul_comm]
  rw [MarkTask.encodeOop, Nat.or_assoc, hflags, hshift,
    Nat.shiftLeft_add_eq_or_of_lt (flagBits_lt t)]

-- The three fields of the word do not overlap.
theorem Packable.encode_eq (h : t.Packable) :
    t.encode = t.chunk * 2 ^ 54 + (t.pow * 2 ^ 49 + (t.obj + t.flagBits)) := by
  have hobj := h.obj_lt
  have hdvd := h.obj_dvd
  have hchunk := h.chunk_lt
  have hpow := h.pow_lt
  have hflags := flagBits_lt t
  have hoop : t.obj + t.flagBits < 2 ^ 49 := by omega
  have hlow : t.pow * 2 ^ 49 + (t.obj + t.flagBits) < 2 ^ 54 := by omega
  have hc : encodeChunk t.chunk = t.chunk <<< 54 := by
    rw [encodeChunk, Nat.shiftLeft_eq, Nat.shiftLeft_eq]
    simp only [CHUNK_SHIFT, OOP_BITS, CHUNK_BITS, POW_BITS]
    omega
  have hp : encodePow t.pow = t.pow <<< 49 := by
    rw [encodePow, Nat.shiftLeft_eq, Nat.shiftLeft_eq]
    simp only [POW_SHIFT, OOP_BITS, CHUNK_BITS, POW_BITS]
    omega
  rw [encode, h.encodeOop, hc, hp, Nat.or_comm _ (t.chunk <<< 54), Nat.or_assoc,
    Nat.or_comm _ (t.pow <<< 49), ← Nat.shiftLeft_add_eq_or_of_lt hoop]
  rw [Nat.shiftLeft_eq t.pow, ← Nat.shiftLeft_add_eq_or_of_lt hlow, Nat.shiftLeft_eq]

theorem Packable.decodeOop (h : t.Packable) : decodeOop t.encode = t.obj := by
  have hobj := h.obj_lt
  have hdvd := h.obj_dvd
  have hflags := flagBits_lt t
  rw [MarkTask.decodeOop, show OOP_EXTRACT_MASK = (2 ^ 47 - 1) <<< 2 by decide,
    and_shiftLeft_mask, h.encode_eq]
  omega

theorem Packable.decodeChunk (h : t.Packable) : decodeChunk t.encode = t.chunk := by
  have hobj := h.obj_lt
  have hdvd := h.obj_dvd
  have hchunk := h.chunk_lt
  have hpow := h.pow_lt
  have hflags := flagBits_lt t
  rw [MarkTask.decodeChunk, CHUNK_RANGE_MASK, Nat.and_two_pow_sub_one_eq_mod,
    Nat.shiftRight_eq_div_pow, h.encode_eq]
  simp only [CHUNK_SHIFT, OOP_BITS, CHUNK_BITS, POW_BITS]
  omega

theorem Packable.decodePow (h : t.Packable) : decodePow t.encode = t.pow := by
  have hobj := h.obj_lt
  have hdvd := h.obj_dvd
  have hpow := h.pow_lt
  have hflags := flagBits_lt t
  rw [MarkTask.decodePow, POW_RANGE_MASK, Nat.and_two_pow_sub_one_eq_mod,
    Nat.shiftRight_eq_div_pow, h.encode_eq]
  simp only [POW_SHIFT, OOP_BITS, CHUNK_BITS, POW_BITS]
  omega

theorem Packable.decodeFlags (h : t.Packable) :
    decodeCntLive t.encode = !t.skipLive ∧ decodeWeak t.encode = t.weak := by
  have hdvd := h.obj_dvd
  have hskip : t.encode &&& SKIP_LIVE_EXTRACT_MASK = t.skipLive.toNat := by
    rw [show SKIP_LIVE_EXTRACT_MASK = (2 ^ 1 - 1) <<< 0 by decide, and_shiftLeft_mask,
      h.encode_eq, flagBits]
    cases t.skipLive <;> cases t.weak <;> simp only [Bool.toNat_true, Bool.toNat_false] <;> omega
  have hweak : t.encode &&& WEAK_EXTRACT_MASK = 2 * t.weak.toNat := by
    rw [show WEAK_EXTRACT_MASK = (2 ^ 1 - 1) <<< 1 by decide, and_shiftLeft_mask,
      h.encode_eq, flagBits]
    cases t.skipLive <;> cases t.weak <;> simp only [Bool.toNat_true, Bool.toNat_false] <;> omega
  rw [decodeCntLive, decodeWeak, hskip, hweak]
  cases t.skipLive <;> cases t.weak <;> decide

theorem Packable.decode (h : t.Packable) : decode t.encode = t := by
  rw [MarkTask.decode, h.decodeOop, h.decodeChunk, h.decodePow, h.decodeFlags.1, h.decodeFlags.2,
    Bool.not_not]

-- The test on the packed word is the one on the fields.
theorem Packable.decodeNotChunked (h : t.Packable) :
    decodeNotChunked t.encode = t.isNotChunked := by
  have hobj := h.obj_lt
  have hdvd := h.obj_dvd
  have hchunk := h.chunk_lt
  have hpow := h.pow_lt
  have hflags := flagBits_lt t
  rw [MarkTask.decodeNotChunked, isNotChunked,
    show CHUNK_POW_EXTRACT_MASK = (2 ^ 15 - 1) <<< 49 by decide, and_shiftLeft_mask, h.encode_eq]
  rw [Bool.eq_iff_iff]
  simp only [beq_iff_eq, Bool.and_eq_true]
  omega

theorem Packable.encode_lt (h : t.Packable) : t.encode < 2 ^ 64 := by
  have hobj := h.obj_lt
  have hdvd := h.obj_dvd
  have hchunk := h.chunk_lt
  have hpow := h.pow_lt
  have hflags := flagBits_lt t
  rw [h.encode_eq]
  omega

theorem Packable.encode_injective {t' : MarkTask} (h : t.Packable) (h' : t'.Packable)
    (heq : t'.encode = t.encode) : t' = t := by
  have hdecode := congrArg MarkTask.decode heq
  rwa [h.decode, h'.decode] at hdecode

-- Every field is read back from the word, and no two tasks share one.
theorem encode_round_trip (h : t.Packable) :
    t.encode < 2 ^ 64 ∧ decodeOop t.encode = t.obj ∧
      decodeCntLive t.encode = !t.skipLive ∧ decodeWeak t.encode = t.weak ∧
      decodeChunk t.encode = t.chunk ∧ decodePow t.encode = t.pow ∧
      (decodeNotChunked t.encode = true ↔ t.chunk = 0 ∧ t.pow = 0) ∧
      ∀ t' : MarkTask, t'.Packable → t'.encode = t.encode → t' = t := by
  have hflat : decodeNotChunked t.encode = true ↔ t.chunk = 0 ∧ t.pow = 0 := by
    rw [h.decodeNotChunked, isNotChunked, Bool.and_eq_true, beq_iff_eq, beq_iff_eq]
  obtain ⟨hskip, hweak⟩ := h.decodeFlags
  exact ⟨h.encode_lt, h.decodeOop, hskip, hweak, h.decodeChunk, h.decodePow, hflat,
    fun _ h' heq => h.encode_injective h' heq⟩

-- All bits of the word are set.
def fullTask : MarkTask where
  obj := 2 ^ 49 - 4
  skipLive := true
  weak := true
  chunk := 1023
  pow := 31

theorem encode_round_trip_full :
    fullTask.encode < 2 ^ 64 ∧ decodeOop fullTask.encode = 2 ^ 49 - 4 ∧
      decodeCntLive fullTask.encode = false ∧ decodeWeak fullTask.encode = true ∧
      decodeChunk fullTask.encode = 1023 ∧ decodePow fullTask.encode = 31 ∧
      (decodeNotChunked fullTask.encode = true ↔ fullTask.chunk = 0 ∧ fullTask.pow = 0) ∧
      ∀ t' : MarkTask, t'.Packable → t'.encode = fullTask.encode → t' = fullTask :=
  encode_round_trip ⟨by decide, by decide, by decide, by decide⟩

end Rsgc.Marking.MarkTask
