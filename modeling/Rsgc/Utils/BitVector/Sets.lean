import Mathlib.Data.List.Count
import Rsgc.Utils.BitVector

namespace Rsgc.Utils

section Words

theorem getLsbD_inlineFlag (i : Nat) : inlineFlag.getLsbD i = decide (i = 63) := by
  have hflag : inlineFlag = BitVec.twoPow 64 63 := by decide
  rw [hflag, BitVec.getLsbD_twoPow]
  by_cases hi : i = 63
  · simp [hi]
  · simp [hi, Ne.symm hi]

theorem getLsbD_bitMask (bit i : Nat) :
    (BitVector.bitMask bit).getLsbD i = decide (i = bit % 64) := by
  have hmask : BitVector.bitMask bit = BitVec.twoPow 64 (bit % 64) := (BitVec.twoPow_eq ..).symm
  have hlt : bit % 64 < 64 := Nat.mod_lt _ (by decide)
  rw [hmask, BitVec.getLsbD_twoPow]
  by_cases hi : i = bit % 64
  · simp [hi, hlt]
  · simp [hi, Ne.symm hi]

theorem and_bitMask_ne_zero (word : Word) (bit : Nat) :
    (word &&& BitVector.bitMask bit != 0) = word.getLsbD (bit % 64) := by
  have hmask : BitVector.bitMask bit = BitVec.twoPow 64 (bit % 64) := (BitVec.twoPow_eq ..).symm
  have hlt : bit % 64 < 64 := Nat.mod_lt _ (by decide)
  rw [hmask, BitVec.and_twoPow]
  split
  · rename_i hset
    have hne : BitVec.twoPow 64 (bit % 64) ≠ 0#64 := by
      intro hzero
      have hbit := congrArg (fun w => w.getLsbD (bit % 64)) hzero
      simp [hlt] at hbit
    simp [hset, hne]
  · rename_i hclear
    simpa using hclear

theorem word_eq_zero_iff (word : Word) : word = 0 ↔ ∀ i, i < 64 → word.getLsbD i = false := by
  constructor
  · rintro rfl i _
    simp
  · intro h
    apply BitVec.eq_of_getLsbD_eq
    intro i hi
    simpa using h i hi

end Words

namespace BitVector

variable {v v' other : BitVector} {chunk : Malloc}

theorem isInline_eq (v : BitVector) : v.isInline = v.bitsOrPointer.getLsbD 63 := by
  unfold isInline
  rw [Bool.eq_iff_iff, bne_iff_ne, ne_eq, word_eq_zero_iff]
  constructor
  · intro h
    by_contra hflag
    apply h
    intro i _
    rcases Nat.eq_zero_or_pos i with rfl | hpos
    · simpa [MAX_INLINE_BITS, BITS_IN_POINTER] using hflag
    · rw [BitVec.getLsbD_ushiftRight]
      exact BitVec.getLsbD_of_ge _ _ (by unfold MAX_INLINE_BITS BITS_IN_POINTER; omega)
  · intro hflag h
    have hzero := h 0 (by decide)
    rw [BitVec.getLsbD_ushiftRight] at hzero
    rw [show MAX_INLINE_BITS + 0 = 63 from rfl, hflag] at hzero
    cases hzero

-- The bit at an index, which is not set beyond the size.
def bit (v : BitVector) (i : Nat) : Bool :=
  decide (i < v.size) && (v.word (i / 64)).getLsbD (i % 64)

theorem get_eq (v : BitVector) (i : Nat) : v.get i = some (v.bit i) := by
  unfold get quickGet bit
  by_cases hi : i < v.size
  · rw [if_neg (by omega), if_pos hi, and_bitMask_ne_zero]
    simp [hi, BITS_IN_POINTER]
  · rw [if_pos (by omega)]
    simp [hi]

theorem mem_members (v : BitVector) (i : Nat) : i ∈ v.members ↔ v.bit i = true := by
  simp only [members, Finset.mem_filter, Finset.mem_range, get_eq, Option.some.injEq]
  constructor
  · exact fun h => h.2
  · intro h
    refine ⟨?_, h⟩
    unfold bit at h
    simp only [Bool.and_eq_true, decide_eq_true_eq] at h
    exact h.1

theorem bit_inline (h : v.isInline = true) (i : Nat) :
    v.bit i = (decide (i < 63) && v.bitsOrPointer.getLsbD i) := by
  unfold bit size word
  simp only [h, if_true, MAX_INLINE_BITS, BITS_IN_POINTER, Nat.add_one_sub_one]
  by_cases hi : i < 63
  · simp [hi, Nat.mod_eq_of_lt (show i < 64 by omega)]
  · simp [hi]

theorem bit_outOfLine (h : v.isInline = false) (i : Nat) : v.bit i =
    (decide (i < v.outOfLine.numBits) && (v.outOfLine.bits (i / 64)).getLsbD (i % 64)) := by
  unfold bit size word
  simp [h]

-- A chunk consists of whole words, and has at least one.
def WellFormed (v : BitVector) : Prop :=
  v.isInline = false →
    64 ∣ v.outOfLine.numBits ∧ 64 ≤ v.outOfLine.numBits ∧ v.outOfLine.numBits < 2 ^ 64

theorem size_lt (h : v.WellFormed) : v.size + 1 < 2 ^ 64 := by
  unfold size
  split
  · decide
  · rename_i hout
    obtain ⟨hdvd, _, hlt⟩ := h (by simpa using hout)
    omega

theorem numWords_eq {b : OutOfLineBits} (h : 64 ∣ b.numBits) : b.numWords * 64 = b.numBits := by
  unfold OutOfLineBits.numWords BITS_IN_POINTER
  omega

theorem new_isInline : new.isInline = true := by decide

theorem new_bit (i : Nat) : new.bit i = false := by
  rw [bit_inline new_isInline]
  change (decide (i < 63) && (makeInlineBits 0).getLsbD i) = false
  unfold makeInlineBits
  rw [BitVec.getLsbD_or, getLsbD_inlineFlag]
  by_cases hi : i < 63
  · simp [hi, Nat.ne_of_lt hi]
  · simp [hi]

-- What an operation that keeps the representation does with one word.
theorem setWord_bit (index : Nat) (value : Word) (hindex : index * 64 < v.size)
    (hflag : v.isInline = true → value.getLsbD 63 = true) :
    (v.setWord index value).isInline = v.isInline ∧ (v.setWord index value).size = v.size ∧
      ∀ i, (v.setWord index value).bit i =
        if i / 64 = index then decide (i < v.size) && value.getLsbD (i % 64) else v.bit i := by
  cases hv : v.isInline with
  | true =>
      have hset : v.setWord index value = { v with bitsOrPointer := value } := if_pos hv
      have hinline : (v.setWord index value).isInline = true := by
        rw [isInline_eq, hset]
        exact hflag hv
      have hsize : v.size = 63 := if_pos hv
      have hzero : index = 0 := by omega
      refine ⟨hinline, by unfold size; rw [hinline, hv, if_pos rfl, if_pos rfl], fun i => ?_⟩
      rw [bit_inline hinline, bit_inline hv, hset, hzero, hsize]
      by_cases hi : i < 63
      · simp [hi, show i / 64 = 0 by omega, Nat.mod_eq_of_lt (show i < 64 by omega)]
      · simp [hi]
  | false =>
      have hset : v.setWord index value = { v with outOfLine :=
          { v.outOfLine with bits := Function.update v.outOfLine.bits index value } } :=
        if_neg (by simp [hv])
      have hout : (v.setWord index value).isInline = false := by
        rw [isInline_eq, hset, ← hv, isInline_eq]
      have hsize : v.size = v.outOfLine.numBits := if_neg (by simp [hv])
      have hsize' : (v.setWord index value).size = v.outOfLine.numBits := by
        unfold size
        rw [hout, hset]
        simp
      refine ⟨hout, hsize'.trans hsize.symm, fun i => ?_⟩
      rw [bit_outOfLine hout, bit_outOfLine hv, hset, hsize]
      simp only
      by_cases hi : i / 64 = index
      · rw [if_pos hi, hi, Function.update_self]
      · rw [if_neg hi, Function.update_of_ne hi]

theorem WellFormed.setWord {index : Nat} {value : Word} (h : v.WellFormed)
    (hinline : (v.setWord index value).isInline = v.isInline) :
    (v.setWord index value).WellFormed := by
  intro hout
  rw [hinline] at hout
  have hold := h hout
  unfold BitVector.setWord
  rw [if_neg (by simp [hout])]
  exact hold

theorem word_flag (h : v.isInline = true) (index : Nat) : (v.word index).getLsbD 63 = true := by
  unfold word
  rw [if_pos h, ← isInline_eq, h]

-- The result of a step on a vector: it is still well formed, and its bits are `f`.
structure Becomes (v' : BitVector) (f : Nat → Bool) : Prop where
  wellFormed : v'.WellFormed
  bit_eq : ∀ i, v'.bit i = f i

theorem quickSet_spec {i : Nat} (h : v.WellFormed) (hi : i < v.size) :
    ∃ v', v.quickSet i = some (v.bit i, v') ∧
      v'.Becomes fun j => decide (j = i) || v.bit j := by
  have hword : v.bit i = (v.word (i / 64)).getLsbD (i % 64) := by simp [bit, hi]
  have hflag : v.isInline = true →
      (v.word (i / 64) ||| bitMask i).getLsbD 63 = true := by
    intro hv
    simp [word_flag hv]
  obtain ⟨hinline, _, hbits⟩ := setWord_bit (i / 64) _ (by omega) hflag
  refine ⟨v.setWord (i / 64) (v.word (i / 64) ||| bitMask i), ?_, h.setWord hinline, fun j => ?_⟩
  · unfold quickSet
    rw [if_pos hi, hword]
    simp only [BITS_IN_POINTER, and_bitMask_ne_zero]
  · rw [hbits]
    by_cases hj : j / 64 = i / 64
    · rw [if_pos hj, BitVec.getLsbD_or, getLsbD_bitMask]
      unfold bit
      rw [hj]
      by_cases heq : j = i
      · simp [heq, hi]
      · have hmod : j % 64 ≠ i % 64 := by omega
        simp [heq, hmod]
    · have heq : j ≠ i := fun he => hj (he ▸ rfl)
      rw [if_neg hj]
      simp [heq]

theorem quickClear_spec {i : Nat} (h : v.WellFormed) (hi : i < v.size) :
    ∃ v', v.quickClear i = some (v.bit i, v') ∧
      v'.Becomes fun j => !decide (j = i) && v.bit j := by
  have hword : v.bit i = (v.word (i / 64)).getLsbD (i % 64) := by simp [bit, hi]
  have hflag : v.isInline = true →
      (v.word (i / 64) &&& ~~~bitMask i).getLsbD 63 = true := by
    intro hv
    have hsize : v.size = 63 := if_pos hv
    have hne : 63 ≠ i % 64 := by omega
    rw [BitVec.getLsbD_and, BitVec.getLsbD_not, getLsbD_bitMask, word_flag hv]
    simp [hne]
  obtain ⟨hinline, _, hbits⟩ := setWord_bit (i / 64) _ (by omega) hflag
  refine ⟨v.setWord (i / 64) (v.word (i / 64) &&& ~~~bitMask i), ?_, h.setWord hinline,
    fun j => ?_⟩
  · unfold quickClear
    rw [if_pos hi, hword]
    simp only [BITS_IN_POINTER, and_bitMask_ne_zero]
  · rw [hbits]
    have hlt : j % 64 < 64 := Nat.mod_lt _ (by decide)
    by_cases hj : j / 64 = i / 64
    · rw [if_pos hj, BitVec.getLsbD_and, BitVec.getLsbD_not, getLsbD_bitMask]
      unfold bit
      rw [hj]
      by_cases heq : j = i
      · simp [heq]
      · have hmod : j % 64 ≠ i % 64 := by omega
        simp [heq, hmod, hlt]
    · have heq : j ≠ i := fun he => hj (he ▸ rfl)
      rw [if_neg hj]
      simp [heq]

theorem pointer_not_inline (address : Word) (b : OutOfLineBits) :
    (⟨address >>> 1, b⟩ : BitVector).isInline = false := by
  rw [isInline_eq, BitVec.getLsbD_ushiftRight]
  exact BitVec.getLsbD_of_ge _ _ (by decide)

-- The new chunk has the old bits and nothing else, whatever it held before.
theorem resizeOutOfLine_spec {numBits : Nat} (h : v.WellFormed) (hlt : v.size < numBits)
    (hv' : v.resizeOutOfLine chunk numBits 0 = some v') :
    v'.Becomes v.bit ∧ v'.isInline = false ∧ numBits ≤ v'.size := by
  simp only [resizeOutOfLine, OutOfLineBits.new, Option.bind_eq_bind, Option.bind_eq_some_iff,
    Option.ite_none_right_eq_some, Option.some.injEq, Option.pure_def] at hv'
  obtain ⟨fresh, ⟨hfits, rfl⟩, rfl⟩ := hv'
  have hout := pointer_not_inline chunk.address
  obtain ⟨n, hn⟩ : ∃ n, (numBits + BITS_IN_POINTER - 1) / 64 = n := ⟨_, rfl⟩
  have hnumBits : numBits ≤ n * 64 ∧ n * 64 < 2 ^ 64 := by
    unfold BITS_IN_POINTER at hn hfits
    omega
  have hwords : ∀ bits, (⟨n * 64, bits⟩ : OutOfLineBits).numWords = n := by
    intro bits
    unfold OutOfLineBits.numWords BITS_IN_POINTER
    simp only
    omega
  rw [hn]
  cases hv : v.isInline with
  | true =>
      have hsize : v.size = 63 := if_pos hv
      simp only [if_true]
      refine ⟨⟨fun _ => ?_, fun i => ?_⟩, hout _, ?_⟩
      · refine ⟨Nat.dvd_mul_left _ _, ?_, ?_⟩ <;> simp only [OutOfLineBits.zeroWords] <;> omega
      · rw [bit_outOfLine (hout _), bit_inline hv]
        simp only [OutOfLineBits.zeroWords, hwords]
        by_cases hfirst : i < 64
        · -- the first word, without the flag
          have hindex : i / 64 = 0 := by omega
          rw [hindex, if_neg (by omega), Function.update_self, Nat.mod_eq_of_lt hfirst,
            BitVec.getLsbD_and, BitVec.getLsbD_not, getLsbD_inlineFlag]
          rcases Nat.eq_or_lt_of_le (Nat.le_of_lt_succ hfirst) with rfl | hi
          · simp
          · have hin : i < n * 64 := by omega
            simp [hi, hin, hfirst, Nat.ne_of_lt hi]
        · by_cases hin : i < n * 64
          · have hi : ¬i < 63 := by omega
            rw [if_pos (by omega)]
            simp [hi]
          · have hi : ¬i < 63 := by omega
            simp [hin, hi]
      · unfold size
        rw [hout, if_neg (by simp)]
        exact hnumBits.1
  | false =>
      have hsize : v.size = v.outOfLine.numBits := if_neg (by simp [hv])
      obtain ⟨hdvd, hge, _⟩ := h hv
      have hold := numWords_eq hdvd
      simp only [hlt, if_true, if_false, Bool.false_eq_true]
      refine ⟨⟨fun _ => ?_, fun i => ?_⟩, hout _, ?_⟩
      · refine ⟨Nat.dvd_mul_left _ _, ?_, ?_⟩ <;>
          simp only [OutOfLineBits.zeroWords, OutOfLineBits.copyWords] <;> omega
      · rw [bit_outOfLine (hout _), bit_outOfLine hv]
        simp only [OutOfLineBits.zeroWords, OutOfLineBits.copyWords, hwords]
        by_cases hi : i < v.outOfLine.numBits
        · have hin : i < n * 64 := by omega
          rw [if_neg (by omega), if_pos (by omega)]
          simp [hi, hin]
        · by_cases hin : i < n * 64
          · rw [if_pos (by omega)]
            simp [hi]
          · simp [hi, hin]
      · unfold size
        rw [hout, if_neg (by simp)]
        exact hnumBits.1

theorem ensureSize_spec {numBits : Nat} (h : v.WellFormed)
    (hv' : v.ensureSize chunk numBits = some v') :
    v'.Becomes v.bit ∧ numBits ≤ v'.size := by
  unfold ensureSize at hv'
  split at hv'
  · rename_i hle
    obtain rfl := Option.some.inj hv'
    exact ⟨⟨h, fun _ => rfl⟩, hle⟩
  · rename_i hlt
    obtain ⟨hbecomes, _, hle⟩ := resizeOutOfLine_spec h (Nat.lt_of_not_le hlt) hv'
    exact ⟨hbecomes, hle⟩

theorem set_spec {i : Nat} {previous : Bool} (h : v.WellFormed)
    (hv' : v.set chunk i = some (previous, v')) :
    previous = v.bit i ∧ v'.Becomes fun j => decide (j = i) || v.bit j := by
  unfold set at hv'
  split at hv'
  · obtain ⟨larger, hlarger, hquick⟩ := Option.bind_eq_some_iff.mp hv'
    obtain ⟨⟨hwf, hbits⟩, hle⟩ := ensureSize_spec h hlarger
    obtain ⟨w, hw, hbecomes⟩ := quickSet_spec hwf (Nat.lt_of_succ_le hle)
    rw [hw, Option.some.injEq, Prod.mk.injEq] at hquick
    obtain ⟨rfl, rfl⟩ := hquick
    refine ⟨hbits i, hbecomes.wellFormed, fun j => ?_⟩
    rw [hbecomes.bit_eq, hbits]
  · cases hv'

theorem bit_of_size_le {i : Nat} (h : v.size ≤ i) : v.bit i = false := by
  unfold bit
  simp [Nat.not_lt.mpr h]

theorem clear_spec {i : Nat} {previous : Bool} (h : v.WellFormed)
    (hv' : v.clear i = some (previous, v')) :
    previous = v.bit i ∧ v'.Becomes fun j => !decide (j = i) && v.bit j := by
  unfold clear at hv'
  split at hv'
  · rename_i hle
    obtain ⟨rfl, rfl⟩ := Prod.mk.inj (Option.some.inj hv')
    refine ⟨(bit_of_size_le hle).symm, h, fun j => ?_⟩
    by_cases hj : j = i
    · simp [hj, bit_of_size_le hle]
    · simp [hj]
  · rename_i hlt
    obtain ⟨w, hw, hbecomes⟩ := quickClear_spec h (Nat.lt_of_not_le hlt)
    rw [hw, Option.some.injEq, Prod.mk.injEq] at hv'
    obtain ⟨rfl, rfl⟩ := hv'
    exact ⟨rfl, hbecomes⟩

-- Between two inline vectors, and where only the inline word of `v` changes.
theorem inline_spec {value : Word} {f : Nat → Bool} (hflag : value.getLsbD 63 = true)
    (hvalue : ∀ i, i < 63 → value.getLsbD i = f i) (hf : ∀ i, 63 ≤ i → f i = false) :
    ({ v with bitsOrPointer := value } : BitVector).Becomes f := by
  have hinline : ({ v with bitsOrPointer := value } : BitVector).isInline = true := by
    rw [isInline_eq]
    exact hflag
  refine ⟨fun hout => ?_, fun i => ?_⟩
  · rw [hinline] at hout
    cases hout
  · rw [bit_inline hinline]
    by_cases hi : i < 63
    · simp [hi, hvalue i hi]
    · simp [hi, hf i (Nat.le_of_not_lt hi)]

-- Where only the words of the chunk change.
theorem outOfLine_spec {bits : Nat → Word} {f : Nat → Bool} (h : v.WellFormed)
    (hv : v.isInline = false)
    (hbits : ∀ i, i < v.outOfLine.numBits → (bits (i / 64)).getLsbD (i % 64) = f i)
    (hf : ∀ i, v.outOfLine.numBits ≤ i → f i = false) :
    ({ v with outOfLine := { v.outOfLine with bits := bits } } : BitVector).Becomes f := by
  have hout : ({ v with outOfLine := { v.outOfLine with bits := bits } } :
      BitVector).isInline = false := by
    rw [isInline_eq, ← hv, isInline_eq]
  refine ⟨fun _ => h hv, fun i => ?_⟩
  rw [bit_outOfLine hout]
  by_cases hi : i < v.outOfLine.numBits
  · simp [hi, hbits i hi]
  · simp [hi, hf i (Nat.le_of_not_lt hi)]

theorem clearAll_spec (h : v.WellFormed) : v.clearAll.Becomes fun _ => false := by
  unfold clearAll
  cases hv : v.isInline with
  | true =>
      rw [if_pos rfl]
      apply inline_spec
      · decide
      · intro i hi
        unfold makeInlineBits
        rw [BitVec.getLsbD_or, getLsbD_inlineFlag]
        simp [Nat.ne_of_lt hi]
      · simp
  | false =>
      have hsize : v.size = v.outOfLine.numBits := if_neg (by simp [hv])
      obtain ⟨hdvd, _⟩ := h hv
      rw [if_neg (by simp)]
      apply outOfLine_spec h hv
      · intro i hi
        unfold BITS_IN_POINTER
        rw [if_pos (by omega)]
        exact BitVec.getLsbD_zero
      · simp

theorem getLsbD_cleanse (word : Word) (i : Nat) :
    (cleanseInlineBits word).getLsbD i = (decide (i < 63) && word.getLsbD i) := by
  unfold cleanseInlineBits
  rw [BitVec.getLsbD_and, BitVec.getLsbD_not, getLsbD_inlineFlag]
  by_cases hi : i < 64
  · rcases Nat.eq_or_lt_of_le (Nat.le_of_lt_succ hi) with rfl | hlt
    · simp
    · simp [hi, hlt, Nat.ne_of_lt hlt]
  · have hlarge : ¬i < 63 := by omega
    simp [hi, hlarge]

theorem bit_cleanse (h : v.isInline = true) (i : Nat) :
    (cleanseInlineBits v.bitsOrPointer).getLsbD i = v.bit i := by
  rw [getLsbD_cleanse, bit_inline h]

theorem bit_of_inline (h : v.isInline = true) {i : Nat} (hi : 63 ≤ i) : v.bit i = false := by
  rw [bit_inline h]
  simp [Nat.not_lt.mpr hi]

-- An inline operand meets only the first word of a chunk.
theorem firstWord_spec {value : Word} {f : Nat → Bool} (h : v.WellFormed)
    (hv : v.isInline = false) (hvalue : ∀ i, i < 64 → value.getLsbD i = f i)
    (hf : ∀ i, 64 ≤ i → v.bit i = f i) : (v.setWord 0 value).Becomes f := by
  obtain ⟨_, hge, _⟩ := h hv
  have hsize : v.size = v.outOfLine.numBits := if_neg (by simp [hv])
  obtain ⟨hinline, _, hbits⟩ := setWord_bit (v := v) 0 value (by omega) (by simp [hv])
  refine ⟨h.setWord hinline, fun i => ?_⟩
  rw [hbits]
  by_cases hi : i < 64
  · have hin : i < v.size := by omega
    rw [if_pos (by omega), Nat.mod_eq_of_lt hi]
    simp [hin, hvalue i hi]
  · rw [if_neg (by omega)]
    exact hf i (Nat.le_of_not_lt hi)

theorem bit_word {i : Nat} (hv : v.isInline = false) (hi : i < v.outOfLine.numBits) :
    (v.outOfLine.bits (i / 64)).getLsbD (i % 64) = v.bit i := by
  rw [bit_outOfLine hv]
  simp [hi]

theorem bit_firstWord {i : Nat} (h : v.WellFormed) (hv : v.isInline = false) (hi : i < 64) :
    (v.word 0).getLsbD i = v.bit i := by
  obtain ⟨_, hge, _⟩ := h hv
  have hword : v.word 0 = v.outOfLine.bits 0 := if_neg (by simp [hv])
  have hbit := bit_word (i := i) hv (by omega)
  rw [show i / 64 = 0 by omega, Nat.mod_eq_of_lt hi] at hbit
  rw [hword, hbit]

theorem merge_spec (h : v.WellFormed) (hother : other.WellFormed)
    (hv' : v.merge other chunk = some v') : v'.Becomes fun i => v.bit i || other.bit i := by
  unfold merge mergeSlow at hv'
  cases ho : other.isInline with
  | true =>
      cases hv : v.isInline with
      | true =>
          simp only [hv, ho, Bool.not_true, Bool.or_self, Bool.false_eq_true, if_false] at hv'
          obtain rfl := Option.some.inj hv'
          apply inline_spec
          · rw [BitVec.getLsbD_or, ← isInline_eq, hv]
            rfl
          · intro i hi
            rw [BitVec.getLsbD_or, bit_inline hv, bit_inline ho]
            simp [hi]
          · intro i hi
            simp [bit_of_inline hv hi, bit_of_inline ho hi]
      | false =>
          simp only [hv, ho, Bool.not_false, Bool.true_or, if_true] at hv'
          obtain rfl := Option.some.inj hv'
          apply firstWord_spec h hv
          · intro i hi
            rw [BitVec.getLsbD_or, bit_cleanse ho, bit_firstWord h hv hi]
          · intro i hi
            simp [bit_of_inline ho (show 63 ≤ i by omega)]
  | false =>
      simp only [ho, Bool.not_false, Bool.or_true, if_true, Bool.false_eq_true, if_false] at hv'
      obtain ⟨w, hw, hcombined⟩ := Option.bind_eq_some_iff.mp hv'
      obtain rfl := Option.some.inj hcombined
      obtain ⟨⟨hwf, hbits⟩, hle⟩ := ensureSize_spec h hw
      obtain ⟨hdvd, hge, _⟩ := hother ho
      have hsize : other.size = other.outOfLine.numBits := if_neg (by simp [ho])
      have hwords := numWords_eq hdvd
      have hout : w.isInline = false := by
        cases hin : w.isInline with
        | true =>
            have hw63 : w.size = 63 := if_pos hin
            omega
        | false => rfl
      have hwsize : w.size = w.outOfLine.numBits := if_neg (by simp [hout])
      apply outOfLine_spec hwf hout
      · intro i hi
        rw [← hbits i, ← bit_word hout hi]
        by_cases hin : i < other.outOfLine.numBits
        · rw [if_pos (by omega), BitVec.getLsbD_or, bit_word ho hin]
        · rw [if_neg (by omega), bit_of_size_le (v := other) (by omega), Bool.or_false]
      · intro i hi
        rw [← hbits i, bit_of_size_le (v := w) (by omega), bit_of_size_le (v := other) (by omega)]
        rfl

-- What `filter` really does: where the other vector is inline it does not reach
-- beyond the first word of a chunk.
theorem filter_spec (h : v.WellFormed) (hother : other.WellFormed)
    (hreached : v.isInline = true ∨ other.isInline = false ∨ ∀ i, 64 ≤ i → v.bit i = false) :
    (v.filter other).Becomes fun i => v.bit i && other.bit i := by
  unfold filter filterSlow
  cases ho : other.isInline with
  | true =>
      cases hv : v.isInline with
      | true =>
          apply inline_spec
          · rw [BitVec.getLsbD_and, ← isInline_eq, ← isInline_eq, hv, ho]
            rfl
          · intro i hi
            rw [BitVec.getLsbD_and, bit_inline hv, bit_inline ho]
            simp [hi]
          · intro i hi
            simp [bit_of_inline hv hi]
      | false =>
          apply firstWord_spec h hv
          · intro i hi
            rw [BitVec.getLsbD_and, bit_cleanse ho, bit_firstWord h hv hi]
          · intro i hi
            have hempty : ∀ i, 64 ≤ i → v.bit i = false := by
              simpa [hv, ho] using hreached
            simp [hempty i hi]
  | false =>
      obtain ⟨hdvd, hge, _⟩ := hother ho
      have hwords := numWords_eq hdvd
      have hsize : other.size = other.outOfLine.numBits := if_neg (by simp [ho])
      cases hv : v.isInline with
      | true =>
          apply inline_spec
          · rw [BitVec.getLsbD_or, getLsbD_inlineFlag]
            simp
          · intro i hi
            have hfirst := bit_word (v := other) (i := i) ho (by omega)
            rw [show i / 64 = 0 by omega, Nat.mod_eq_of_lt (show i < 64 by omega)] at hfirst
            rw [BitVec.getLsbD_or, BitVec.getLsbD_and, getLsbD_inlineFlag, bit_inline hv, hfirst]
            simp [hi, Nat.ne_of_lt hi]
          · intro i hi
            simp [bit_of_inline hv hi]
      | false =>
          have hvsize : v.size = v.outOfLine.numBits := if_neg (by simp [hv])
          have hvwords := numWords_eq (h hv).1
          apply outOfLine_spec h hv
          · intro i hi
            simp only [OutOfLineBits.combineWords]
            by_cases hin : i < other.outOfLine.numBits
            · rw [if_neg (by omega), if_pos (by omega), BitVec.getLsbD_and, bit_word hv hi,
                bit_word ho hin]
            · rw [if_pos (by omega), bit_of_size_le (v := other) (by omega), Bool.and_false]
              exact BitVec.getLsbD_zero
          · intro i hi
            simp [bit_of_size_le (v := v) (show v.size ≤ i by omega)]

theorem exclude_spec (h : v.WellFormed) (hother : other.WellFormed) :
    (v.exclude other).Becomes fun i => v.bit i && !other.bit i := by
  unfold exclude excludeSlow
  cases ho : other.isInline with
  | true =>
      cases hv : v.isInline with
      | true =>
          apply inline_spec
          · rw [BitVec.getLsbD_or, getLsbD_inlineFlag]
            simp
          · intro i hi
            rw [BitVec.getLsbD_or, BitVec.getLsbD_and, BitVec.getLsbD_not, getLsbD_inlineFlag,
              bit_inline hv, bit_inline ho]
            simp [hi, Nat.ne_of_lt hi, show i < 64 by omega]
          · intro i hi
            simp [bit_of_inline hv hi]
      | false =>
          apply firstWord_spec h hv
          · intro i hi
            rw [BitVec.getLsbD_and, BitVec.getLsbD_not, bit_cleanse ho, bit_firstWord h hv hi]
            simp [hi]
          · intro i hi
            simp [bit_of_inline ho (show 63 ≤ i by omega)]
  | false =>
      obtain ⟨hdvd, hge, _⟩ := hother ho
      have hwords := numWords_eq hdvd
      have hsize : other.size = other.outOfLine.numBits := if_neg (by simp [ho])
      cases hv : v.isInline with
      | true =>
          apply inline_spec
          · rw [BitVec.getLsbD_or, getLsbD_inlineFlag]
            simp
          · intro i hi
            have hfirst := bit_word (v := other) (i := i) ho (by omega)
            rw [show i / 64 = 0 by omega, Nat.mod_eq_of_lt (show i < 64 by omega)] at hfirst
            rw [BitVec.getLsbD_or, BitVec.getLsbD_and, BitVec.getLsbD_not, getLsbD_inlineFlag,
              bit_inline hv, hfirst]
            simp [hi, Nat.ne_of_lt hi, show i < 64 by omega]
          · intro i hi
            simp [bit_of_inline hv hi]
      | false =>
          have hvsize : v.size = v.outOfLine.numBits := if_neg (by simp [hv])
          have hvwords := numWords_eq (h hv).1
          apply outOfLine_spec h hv
          · intro i hi
            have hlt : i % 64 < 64 := Nat.mod_lt _ (by decide)
            by_cases hin : i < other.outOfLine.numBits
            · rw [if_pos (by omega), BitVec.getLsbD_and, BitVec.getLsbD_not, bit_word hv hi,
                bit_word ho hin]
              simp [hlt]
            · rw [if_neg (by omega), bit_of_size_le (v := other) (by omega), bit_word hv hi]
              simp
          · intro i hi
            simp [bit_of_size_le (v := v) (show v.size ≤ i by omega)]

theorem countOnes_words (bits : Nat → Word) (n : Nat) :
    ((List.range n).map fun k => countOnes (bits k)).sum =
      (List.range (n * 64)).countP fun i => (bits (i / 64)).getLsbD (i % 64) := by
  induction n with
  | zero => rfl
  | succ n ih =>
      have hlast : countOnes (bits n) = (List.range 64).countP
          ((fun i => (bits (i / 64)).getLsbD (i % 64)) ∘ (n * 64 + ·)) := by
        unfold countOnes
        apply List.countP_congr
        intro i hi
        have hlt := List.mem_range.mp hi
        simp only [Function.comp]
        rw [show (n * 64 + i) / 64 = n by omega, show (n * 64 + i) % 64 = i by omega]
      rw [List.range_succ, List.map_append, List.sum_append, ih, Nat.succ_mul, List.range_add,
        List.countP_append, List.countP_map, ← hlast]
      simp

theorem card_members (v : BitVector) : v.members.card = (List.range v.size).countP v.bit := by
  rw [List.countP_eq_length_filter, ← List.toFinset_card_of_nodup (List.nodup_range.filter _)]
  congr 1
  ext i
  simp only [mem_members, List.mem_toFinset, List.mem_filter, List.mem_range]
  refine ⟨fun h => ⟨?_, h⟩, fun h => h.2⟩
  by_contra hlarge
  rw [bit_of_size_le (Nat.le_of_not_lt hlarge)] at h
  cases h

theorem bitCount_spec (h : v.WellFormed) : v.bitCount = v.members.card := by
  rw [card_members]
  unfold bitCount
  cases hv : v.isInline with
  | true =>
      have hsize : v.size = 63 := if_pos hv
      rw [if_pos rfl, hsize]
      unfold countOnes
      rw [List.range_succ, List.countP_append, List.countP_singleton, getLsbD_cleanse]
      simp only [Nat.lt_irrefl, decide_false, Bool.false_and, Bool.false_eq_true, if_false,
        Nat.add_zero]
      apply List.countP_congr
      intro i _
      rw [bit_cleanse hv]
  | false =>
      have hsize : v.size = v.outOfLine.numBits := if_neg (by simp [hv])
      have hwords := numWords_eq (h hv).1
      rw [if_neg (by simp), countOnes_words, hwords, hsize]
      apply List.countP_congr
      intro i hi
      rw [bit_word hv (List.mem_range.mp hi)]

theorem isEmpty_spec (h : v.WellFormed) : v.isEmpty = decide (v.members = ∅) := by
  have hempty : v.members = ∅ ↔ ∀ i, v.bit i = false := by
    rw [Finset.eq_empty_iff_forall_notMem]
    simp only [mem_members, Bool.not_eq_true]
  rw [Bool.eq_iff_iff, decide_eq_true_iff, hempty]
  unfold isEmpty
  cases hv : v.isInline with
  | true =>
      rw [if_pos rfl, beq_iff_eq, word_eq_zero_iff]
      constructor
      · intro hzero i
        by_cases hi : i < 64
        · rw [← bit_cleanse hv]
          exact hzero i hi
        · exact bit_of_inline hv (by omega)
      · intro hzero i _
        rw [bit_cleanse hv, hzero]
  | false =>
      have hsize : v.size = v.outOfLine.numBits := if_neg (by simp [hv])
      have hwords := numWords_eq (h hv).1
      simp only [Bool.false_eq_true, if_false, List.all_eq_true, List.mem_range, beq_iff_eq]
      constructor
      · intro hzero i
        by_cases hi : i < v.outOfLine.numBits
        · rw [← bit_word hv hi, hzero (i / 64) (by omega)]
          exact BitVec.getLsbD_zero
        · exact bit_of_size_le (by omega)
      · intro hzero k hk
        rw [word_eq_zero_iff]
        intro i hi
        have hbit := bit_word (i := k * 64 + i) hv (by omega)
        rw [show (k * 64 + i) / 64 = k by omega, show (k * 64 + i) % 64 = i by omega, hzero] at hbit
        exact hbit

end BitVector

end Rsgc.Utils
