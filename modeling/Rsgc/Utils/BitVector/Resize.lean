import Rsgc.Utils.BitVector.Bytes
import Rsgc.Utils.BitVector.Refines

namespace Rsgc.Utils

variable {p : Profile} {m m' : Memory} {t fresh : Traced} {chunk : Grant}
  {addr addr' ptr len numBits n : Nat} {value : Word}

section Words

theorem readWord_eq (h : ∀ i < 8, m (addr + i) = UInt8.ofNat (value.toNat / 256 ^ i)) :
    readWord m addr = value := by
  have hsame : ∀ a, addr ≤ a → a < addr + 8 → m a = m.writeLE addr 8 value.toNat a := by
    intro a hl hr
    have hbyte := h (a - addr) (by omega)
    rw [Nat.add_sub_cancel' hl] at hbyte
    exact hbyte.trans (if_pos ⟨hl, hr⟩).symm
  have hvalue : value.toNat % 256 ^ 8 = value.toNat := Nat.mod_eq_of_lt value.isLt
  unfold readWord
  rw [Memory.readLE_congr hsame, Memory.readLE_writeLE m addr _ (Nat.le_refl 8), hvalue,
    BitVec.ofNat_toNat, BitVec.setWidth_eq]

theorem readWord_shift (h : ∀ i < 8, m' (addr' + i) = m (addr + i)) :
    readWord m' addr' = readWord m addr := congrArg (BitVec.ofNat 64) (Memory.readLE_shift h)

theorem readWord_zero (h : ∀ i < 8, m (addr + i) = 0) : readWord m addr = 0 :=
  congrArg (BitVec.ofNat 64) (Memory.readLE_eq_zero.mpr h)

-- The address comes back from its shift since it is even.
theorem pointer_of_even (heven : 2 ∣ addr) (hlt : addr < 2 ^ 64) :
    ((BitVec.ofNat 64 addr >>> 1) <<< 1).toNat = addr := by
  rw [BitVec.toNat_shiftLeft, BitVec.toNat_ushiftRight, BitVec.toNat_ofNat, Nat.shiftLeft_eq,
    Nat.shiftRight_eq_div_pow]
  omega

end Words

section Sizes

theorem lastBit_eq {r : Nat} (h : lastBit p numBits = some r) : r = (numBits + 63) % 2 ^ 64 := by
  unfold lastBit at h
  obtain ⟨sum, hsum, hlast⟩ := Option.bind_eq_some_iff.mp h
  have hmod := Profile.unsigned_mod hsum
  have hr := Profile.unsigned_mod hlast
  unfold BITS_IN_POINTER at hmod
  omega

theorem numWords_eq {r : Nat} (h : numWords p numBits = some r) :
    r = (numBits + 63) % 2 ^ 64 / 64 := by
  obtain ⟨last, hlast, rfl⟩ := Option.map_eq_some_iff.mp h
  rw [lastBit_eq hlast]
  rfl

-- The subtractions do not wrap around where there are so many words.
theorem bytesLeft_eq {words a b r : Nat} (h : bytesLeft p words a b = some r)
    (hle : a + b ≤ words) (hwords : words < 2 ^ 60) : r = 8 * (words - (a + b)) := by
  obtain ⟨first, hfirst, h⟩ := Option.bind_eq_some_iff.mp h
  obtain ⟨second, hsecond, hbytes⟩ := Option.bind_eq_some_iff.mp h
  have hone := Profile.unsigned_mod hfirst
  have htwo := Profile.unsigned_mod hsecond
  have hr := Profile.unsigned_mod hbytes
  omega

end Sizes

section Fill

-- What `clearBytes` leaves
def cleared (t : Traced) (ptr len : Nat) : Traced :=
  { t with
    memory := sloppyMemset t.memory ptr 0 len
    writes := (sloppyVectors ptr len).map (fun v => ⟨t.block, v, 16⟩) ++ t.writes }

theorem clearBytes_eq : clearBytes p t ptr len = some (cleared t ptr len) :=
  Option.bind_eq_some_iff.mpr ⟨_, SloppyMemset.sloppyMemset_eq 0 len, rfl⟩

-- The fill stays inside if its end does.
theorem inside_cleared (hle : t.block.address ≤ ptr) :
    (cleared t ptr len).Inside ↔ sloppyStop ptr len ≤ t.block.limit ∧ t.Inside := by
  have hbehind := (sloppyVectors_below ptr len _).mpr (Nat.le_refl _)
  unfold Traced.Inside cleared
  rw [List.forall_mem_append, List.forall_mem_map, ← sloppyVectors_below]
  refine and_congr_left' (forall₂_congr fun v hv => ?_)
  have hv := hbehind v hv
  exact ⟨fun hin => ⟨hv.1, hin.2⟩, fun hin => ⟨Nat.le_trans hle hv.1, hin.2⟩⟩

theorem cleared_memory (a : Nat) : (cleared t ptr len).memory a =
    if ptr ≤ a ∧ a < sloppyStop ptr len then 0 else t.memory a := sloppyMemset_apply t.memory ptr 0 len a

end Fill

theorem covered_two {limit words : Nat} (h : Covered limit words) : 2 ≤ words :=
  h.elim (fun h => h.ge) fun h => Nat.le_of_lt h.1

theorem sloppyStop_words (ptr words : Nat) :
    sloppyStop ptr (8 * words) ≤ ptr + 8 * words ↔ Covered (ptr + 8 * words) words := by
  unfold sloppyStop Covered
  split <;> omega

-- A new block with its header
structure Fresh (t fresh : Traced) (chunk : Grant) (n : Nat) : Prop where
  grants : t.Grants chunk (8 + 8 * n)
  block : fresh.block = ⟨chunk.address, 8 + 8 * n⟩
  inside : fresh.Inside ↔ t.Inside
  header : readWord fresh.memory chunk.address = BitVec.ofNat 64 (n * 64)
  outside : ∀ a, a < chunk.address ∨ chunk.address + (8 + 8 * n) ≤ a → fresh.memory a = t.memory a

theorem newOutOfLine_spec (h : newOutOfLine p t chunk numBits = some fresh) :
    Fresh t fresh chunk ((numBits + 63) % 2 ^ 64 / 64) := by
  unfold newOutOfLine at h
  obtain ⟨last, hlast, h⟩ := Option.bind_eq_some_iff.mp h
  obtain ⟨t', hmalloc, hfresh⟩ := Option.bind_eq_some_iff.mp h
  obtain rfl := Option.some.inj hfresh
  obtain rfl := lastBit_eq hlast
  obtain ⟨hgrants, hblock, hinside, houtside⟩ := Traced.inside_malloc hmalloc
  refine ⟨hgrants, hblock, ?_, readWord_eq fun i hi => ?_, fun a ha => ?_⟩
  · have hheader : t'.block.Contains chunk.address 8 := by
      rw [hblock]
      exact ⟨Nat.le_refl _, Nat.add_le_add_left (Nat.le_add_right 8 _) _⟩
    exact Traced.inside_write.trans ((and_iff_right hheader).trans hinside)
  · have hoffset : chunk.address + i - chunk.address = i := by omega
    refine (if_pos ⟨by omega, by omega⟩).trans ?_
    rw [hoffset]
    rfl
  · refine (if_neg (by omega)).trans (houtside a ?_)
    exact ha

namespace StoredBits

variable {v v' : StoredBits}

section View

theorem toBitVector_isInline : v.toBitVector.isInline = v.isInline := rfl

theorem toBitVector_outOfLine (hv : v.isInline = false) : v.toBitVector.outOfLine =
    ⟨v.numBits, fun i => readWord v.heap.memory (v.bits + 8 * i)⟩ := if_neg (by simp [hv])

theorem toBitVector_size : v.toBitVector.size = v.size := by
  unfold BitVector.size size
  rw [toBitVector_isInline]
  cases hv : v.isInline with
  | true => rw [if_pos rfl, if_pos rfl]
  | false => rw [toBitVector_outOfLine hv]

theorem toBitVector_word (i : Nat) : v.toBitVector.word i = v.word i := by
  unfold BitVector.word word
  rw [toBitVector_isInline]
  cases hv : v.isInline with
  | true =>
      rw [if_pos rfl, if_pos rfl]
      rfl
  | false =>
      rw [toBitVector_outOfLine hv]
      rfl

end View

-- The vector is inline, or its block is the last one and holds whole words.
structure Placed (v : StoredBits) : Prop where
  wellFormed : v.toBitVector.WellFormed
  block : v.isInline = false → v.heap.block = ⟨v.pointer, 8 + 8 * (v.numBits / 64)⟩

theorem Placed.numBits_dvd (h : v.Placed) (hv : v.isInline = false) :
    64 ∣ v.numBits ∧ 64 ≤ v.numBits ∧ v.numBits < 2 ^ 64 := by
  have hwords := h.wellFormed hv
  rwa [toBitVector_outOfLine hv] at hwords

-- The words that a larger block gets from the vector.
def oldWords (v : StoredBits) : Nat := if v.isInline then 1 else v.numBits / 64

def oldWord (v : StoredBits) (i : Nat) : Word :=
  if v.isInline then v.bitsOrPointer &&& ~~~inlineFlag else v.word i

-- A larger block is filled from its start, gets the words, and is filled behind them.
def grown (v : StoredBits) (fresh : Traced) (bits : Nat) (bytes : Nat → UInt8) (rest : Nat) :
    Traced :=
  cleared ((cleared fresh bits 0).write bits (8 * v.oldWords) bytes) (bits + 8 * v.oldWords) rest

-- What the vector has outside the new block is still there.
theorem Placed.kept (h : v.Placed) (hv : v.isInline = false) (hfresh : Fresh v.heap fresh chunk n)
    {a : Nat} (hl : v.pointer ≤ a) (hr : a < v.bits + 8 * (v.numBits / 64)) :
    (a < chunk.address ∨ chunk.address + (8 + 8 * n) ≤ a) ∧ fresh.memory a = v.heap.memory a := by
  obtain ⟨_, _, hapart⟩ := hfresh.grants
  rw [h.block hv] at hapart
  unfold Extent.limit at hapart
  unfold bits at hr
  have hout : a < chunk.address ∨ chunk.address + (8 + 8 * n) ≤ a := by
    simp only at hapart
    omega
  exact ⟨hout, hfresh.outside a hout⟩

-- A block that has room for the first fill does not lose what is copied to it.
def Copies (v : StoredBits) (bytes : Nat → UInt8) : Prop :=
  ∀ (m : Memory) (addr i : Nat), i < v.oldWords →
    readWord (m.writeBytes addr (8 * v.oldWords) bytes) (addr + 8 * i) = v.oldWord i

theorem fillNew_inline {bits : Nat} {filled : Traced} (hv : v.isInline = true)
    (h : fillNew p v bits n numBits 0 = some filled) : ∃ rest, bytesLeft p n 0 1 = some rest ∧
      filled = cleared (writeWord (cleared v.heap bits 0) bits
        (v.bitsOrPointer &&& ~~~inlineFlag)) (bits + 8) rest := by
  unfold fillNew at h
  rw [if_pos hv, clearBytes_eq, Option.bind_eq_bind, Option.bind_some] at h
  obtain ⟨rest, hrest, hfilled⟩ := Option.bind_eq_some_iff.mp h
  rw [clearBytes_eq] at hfilled
  exact ⟨rest, hrest, (Option.some.inj hfilled).symm⟩

theorem fillNew_outOfLine {bits : Nat} {filled : Traced} (hv : v.isInline = false)
    (hlt : v.size < numBits) (h : fillNew p v bits n numBits 0 = some filled) :
    ∃ old rest, numWords p v.numBits = some old ∧ bytesLeft p n old 0 = some rest ∧
      filled = cleared (copyWords (cleared v.heap bits 0) v.bits bits old)
        (bits + 8 * old) rest := by
  unfold fillNew at h
  rw [if_neg (by simp [hv]), if_pos hlt] at h
  obtain ⟨old, hold, h⟩ := Option.bind_eq_some_iff.mp h
  rw [clearBytes_eq, Option.bind_eq_bind, Option.bind_some] at h
  obtain ⟨rest, hrest, hfilled⟩ := Option.bind_eq_some_iff.mp h
  rw [clearBytes_eq, Nat.zero_add] at hfilled
  exact ⟨old, rest, hold, hrest, (Option.some.inj hfilled).symm⟩

-- The vector with the new block beside it
theorem Placed.beside (h : v.Placed) (hv : v.isInline = false)
    (hfresh : Fresh v.heap fresh chunk n) :
    ({ v with heap := fresh } : StoredBits).numBits = v.numBits := by
  unfold numBits
  refine congrArg BitVec.toNat (readWord_shift fun i hi => ?_)
  have hlow : v.pointer ≤ v.pointer + i := Nat.le_add_right _ _
  refine (h.kept hv hfresh hlow ?_).2
  unfold bits
  omega

theorem fillNew_eq (h : v.Placed) (hlt : v.size < numBits) (hfresh : Fresh v.heap fresh chunk n)
    (hn : n < 2 ^ 60) {filled : Traced}
    (hfilled : fillNew p { v with heap := fresh } (chunk.address + 8) n numBits 0 = some filled) :
    ∃ bytes rest, (v.oldWords ≤ n → rest = 8 * (n - v.oldWords)) ∧ (2 ≤ n → v.Copies bytes) ∧
      filled = v.grown fresh (chunk.address + 8) bytes rest := by
  cases hv : v.isInline with
  | true =>
      have hold : v.oldWords = 1 := if_pos hv
      obtain ⟨rest, hrest, rfl⟩ := fillNew_inline (v := { v with heap := fresh }) hv hfilled
      refine ⟨fun i => UInt8.ofNat ((v.bitsOrPointer &&& ~~~inlineFlag).toNat / 256 ^ i), rest,
        fun hle => ?_, fun _ m addr i hi => ?_, ?_⟩
      · rw [hold] at hle ⊢
        exact bytesLeft_eq hrest hle hn
      · obtain rfl : i = 0 := by omega
        refine (readWord_eq fun j hj => ?_).trans (if_pos hv).symm
        have hoffset : addr + 8 * 0 + j - addr = j := by omega
        refine (if_pos (by omega)).trans ?_
        rw [hoffset]
      · unfold grown
        rw [hold]
        rfl
  | false =>
      obtain ⟨hdvd, hge, hnumBits⟩ := h.numBits_dvd hv
      have hold : v.oldWords = v.numBits / 64 := if_neg (by simp [hv])
      have hsize : ({ v with heap := fresh } : StoredBits).size = v.size := by
        unfold size
        rw [h.beside hv hfresh]
        rfl
      obtain ⟨old, rest, hwords, hrest, rfl⟩ :=
        fillNew_outOfLine (v := { v with heap := fresh }) hv (hsize.trans_lt hlt) hfilled
      obtain rfl : old = v.oldWords := by
        rw [numWords_eq hwords, h.beside hv hfresh, hold]
        omega
      refine ⟨fun i => (cleared fresh (chunk.address + 8) 0).memory (v.bits + i), rest,
        fun hle => bytesLeft_eq hrest hle hn, fun htwo m addr i hi => ?_, rfl⟩
      have hword : v.oldWord i = readWord v.heap.memory (v.bits + 8 * i) :=
        (if_neg (by simp [hv])).trans (if_neg (by simp [hv]))
      rw [hword]
      refine readWord_shift fun j hj => ?_
      -- the first fill ends in the new block
      have hoffset : addr + 8 * i + j - addr = 8 * i + j := by omega
      have hlow : v.pointer ≤ v.bits + (8 * i + j) := by
        unfold bits
        omega
      obtain ⟨hout, hkept⟩ := h.kept hv hfresh hlow (by omega)
      have hfill : sloppyStop (chunk.address + 8) 0 = chunk.address + 8 + 16 := if_pos (by decide)
      refine (if_pos (by omega)).trans ?_
      rw [hoffset, Nat.add_assoc v.bits, ← hkept]
      refine (cleared_memory _).trans (if_neg ?_)
      rw [hfill]
      omega

theorem resizeOutOfLine_eq (h : v.Placed) (hlt : v.size < numBits)
    (hv' : v.resizeOutOfLine p chunk numBits 0 = some v')
    (hn : (numBits + 63) % 2 ^ 64 / 64 = n) :
    ∃ fresh bytes rest, Fresh v.heap fresh chunk n ∧
      (v.oldWords ≤ n → rest = 8 * (n - v.oldWords)) ∧ (2 ≤ n → v.Copies bytes) ∧
      v' = ⟨BitVec.ofNat 64 chunk.address >>> 1,
        v.grown fresh (chunk.address + 8) bytes rest⟩ := by
  unfold resizeOutOfLine at hv'
  obtain ⟨fresh, hnew, hv'⟩ := Option.bind_eq_some_iff.mp hv'
  obtain ⟨newNumWords, hwords, hv'⟩ := Option.bind_eq_some_iff.mp hv'
  obtain ⟨filled, hfilled, hv'⟩ := Option.bind_eq_some_iff.mp hv'
  obtain rfl := Option.some.inj hv'
  have hfresh := newOutOfLine_spec hnew
  rw [hn] at hfresh
  obtain rfl : newNumWords = n := by
    rw [numWords_eq hwords, hfresh.header, BitVec.toNat_ofNat]
    omega
  obtain ⟨bytes, rest, hrest, hcopies, rfl⟩ := fillNew_eq h hlt hfresh (by omega) hfilled
  exact ⟨fresh, bytes, rest, hfresh, hrest, hcopies, rfl⟩

section Grown

variable {bytes : Nat → UInt8} {rest : Nat}

-- All of the fills and writes stay inside just if the last fill does.
theorem grown_inside (hfresh : Fresh v.heap fresh chunk n) (hold : 1 ≤ v.oldWords)
    (hrest : v.oldWords ≤ n → rest = 8 * (n - v.oldWords)) :
    (v.grown fresh (chunk.address + 8) bytes rest).Inside ↔
      Covered (chunk.address + 8 + 8 * n) (n - v.oldWords) ∧ v.heap.Inside := by
  have haddress : fresh.block.address = chunk.address := by rw [hfresh.block]
  have hlimit : fresh.block.limit = chunk.address + 8 + 8 * n := by
    rw [hfresh.block]
    exact (Nat.add_assoc _ _ _).symm
  have hfirst : sloppyStop (chunk.address + 8) 0 = chunk.address + 8 + 16 := if_pos (by decide)
  have hwrite : ((cleared fresh (chunk.address + 8) 0).write (chunk.address + 8)
      (8 * v.oldWords) bytes).block = fresh.block := rfl
  have hfill : (cleared fresh (chunk.address + 8) 0).block = fresh.block := rfl
  unfold grown
  rw [inside_cleared (by rw [hwrite, haddress]; omega), Traced.inside_write,
    inside_cleared (by rw [haddress]; omega), hfresh.inside, hwrite, hfill]
  unfold Extent.Contains
  rw [haddress, hlimit, hfirst]
  by_cases hle : v.oldWords ≤ n
  · have hend : chunk.address + 8 + 8 * v.oldWords + 8 * (n - v.oldWords) =
        chunk.address + 8 + 8 * n := by omega
    have hlast := sloppyStop_words (chunk.address + 8 + 8 * v.oldWords) (n - v.oldWords)
    rw [hend] at hlast
    rw [hrest hle, hlast]
    refine ⟨fun h => ⟨h.1, h.2.2.2⟩, fun ⟨hcovered, hinside⟩ => ⟨hcovered, ?_, ?_, hinside⟩⟩
    · omega
    · have htwo := covered_two hcovered
      omega
  · refine ⟨fun h => by omega, fun ⟨hcovered, _⟩ => ?_⟩
    have htwo := covered_two hcovered
    omega

-- The header, the words of the vector, and zero behind them
theorem grown_words (hfresh : Fresh v.heap fresh chunk n)
    (hcovered : Covered (chunk.address + 8 + 8 * n) (n - v.oldWords))
    (hrest : rest = 8 * (n - v.oldWords)) (hcopies : v.Copies bytes) :
    readWord (v.grown fresh (chunk.address + 8) bytes rest).memory chunk.address =
        BitVec.ofNat 64 (n * 64) ∧
      ∀ i < n, readWord (v.grown fresh (chunk.address + 8) bytes rest).memory
        (chunk.address + 8 + 8 * i) = if i < v.oldWords then v.oldWord i else 0 := by
  have htwo := covered_two hcovered
  have hend : chunk.address + 8 + 8 * v.oldWords + 8 * (n - v.oldWords) =
      chunk.address + 8 + 8 * n := by omega
  have hlast := sloppyStop_words (chunk.address + 8 + 8 * v.oldWords) (n - v.oldWords)
  have hcover := le_sloppyStop (chunk.address + 8 + 8 * v.oldWords) (8 * (n - v.oldWords))
  rw [hend, ← hrest] at hlast
  rw [hend, ← hrest] at hcover
  have hstop := Nat.le_antisymm (hlast.mpr hcovered) hcover
  have hfirst : sloppyStop (chunk.address + 8) 0 = chunk.address + 8 + 16 := if_pos (by decide)
  have hmemory (a : Nat) : (v.grown fresh (chunk.address + 8) bytes rest).memory a =
      if chunk.address + 8 + 8 * v.oldWords ≤ a ∧ a < chunk.address + 8 + 8 * n then 0
      else (cleared fresh (chunk.address + 8) 0).memory.writeBytes (chunk.address + 8)
        (8 * v.oldWords) bytes a := by
    unfold grown
    rw [cleared_memory, hstop]
    rfl
  refine ⟨?_, fun i hi => ?_⟩
  · rw [← hfresh.header]
    refine readWord_shift fun j hj => ?_
    rw [hmemory, if_neg (by omega), Memory.writeBytes_of_not _ _ (by omega), cleared_memory,
      if_neg (by omega)]
  · by_cases hold : i < v.oldWords
    · rw [if_pos hold, ← hcopies (cleared fresh (chunk.address + 8) 0).memory _ i hold]
      refine readWord_shift fun j hj => ?_
      rw [hmemory, if_neg (by omega)]
    · rw [if_neg hold]
      refine readWord_zero fun j hj => ?_
      rw [hmemory, if_pos (by omega)]

end Grown

-- The call does not need a larger block, or the part of it behind the words that it gets is
-- filled to its end.
def GrowsWithin (v : StoredBits) (chunk : Grant) (numBits : Nat) : Prop :=
  numBits ≤ v.size ∨ numBits + 63 < 2 ^ 64 ∧
    Covered (chunk.address + 8 + 8 * ((numBits + 63) / 64)) ((numBits + 63) / 64 - v.oldWords)

instance (v : StoredBits) (chunk : Grant) (numBits : Nat) :
    Decidable (v.GrowsWithin chunk numBits) := inferInstanceAs (Decidable (_ ∨ _ ∧ _))

theorem Placed.oldWords_pos (h : v.Placed) : 1 ≤ v.oldWords := by
  unfold oldWords
  cases hv : v.isInline with
  | true => exact Nat.le_refl 1
  | false =>
      obtain ⟨_, hge, _⟩ := h.numBits_dvd hv
      exact (Nat.le_div_iff_mul_le (by decide)).mpr hge

-- A size that wraps around gives a block without words.
theorem resize_inside (h : v.Placed) (hlt : v.size < numBits) (hbound : numBits < 2 ^ 64)
    (hv' : v.resizeOutOfLine p chunk numBits 0 = some v') :
    v'.heap.Inside ↔ v.GrowsWithin chunk numBits ∧ v.heap.Inside := by
  obtain ⟨fresh, bytes, rest, hfresh, hrest, -, rfl⟩ := resizeOutOfLine_eq h hlt hv' rfl
  refine (grown_inside hfresh h.oldWords_pos hrest).trans (and_congr_left' ?_)
  unfold GrowsWithin
  rw [or_iff_right (Nat.not_le_of_lt hlt)]
  by_cases hfits : numBits + 63 < 2 ^ 64
  · rw [and_iff_right hfits, Nat.mod_eq_of_lt hfits]
  · have hzero : (numBits + 63) % 2 ^ 64 / 64 = 0 := by omega
    refine ⟨fun hcovered => ?_, fun hcovered => absurd hcovered.1 hfits⟩
    have htwo := covered_two hcovered
    omega

-- An allocation that has the words behind the block from the start
theorem resize_words {word : Nat → Word} {address : Word} (h : v.Placed) (hfits : numBits + 63 < 2 ^ 64)
    (hn : (numBits + 63) / 64 = n) (hlt : v.size < numBits)
    (hgot : ∀ i < n, word i = if i < v.oldWords then v.oldWord i else 0) :
    v.toBitVector.resizeOutOfLine ⟨address, word⟩ numBits 0 =
      some ⟨address >>> 1, ⟨n * 64, word⟩⟩ := by
  have hnew : OutOfLineBits.new ⟨address, word⟩ numBits = some ⟨n * 64, word⟩ := by
    rw [← hn]
    exact if_pos hfits
  have hnumWords (bits : Nat → Word) : (⟨n * 64, bits⟩ : OutOfLineBits).numWords = n := by
    unfold OutOfLineBits.numWords BITS_IN_POINTER
    simp only
    omega
  unfold BitVector.resizeOutOfLine
  rw [hnew, Option.bind_eq_bind, Option.bind_some, toBitVector_isInline, toBitVector_size]
  refine congrArg (fun b => some (⟨address >>> 1, b⟩ : BitVector)) ?_
  cases hv : v.isInline with
  | true =>
      have hsize : v.size = 63 := if_pos hv
      have hold : v.oldWords = 1 := if_pos hv
      have hfirst : v.oldWord 0 = v.bitsOrPointer &&& ~~~inlineFlag := if_pos hv
      rw [if_pos rfl]
      refine congrArg (OutOfLineBits.mk (n * 64)) (funext fun i => ?_)
      simp only [OutOfLineBits.zeroWords, hnumWords]
      by_cases hzero : i = 0
      · rw [hzero, if_neg (by omega), Function.update_self, hgot 0 (by omega), if_pos (by omega)]
        exact hfirst.symm
      · rw [Function.update_of_ne hzero, if_neg (show ¬(0 ≤ i ∧ i < 0 + 0) by omega)]
        split
        · rw [hgot i (by omega), if_neg (by omega)]
        · rfl
  | false =>
      obtain ⟨hdvd, _, _⟩ := h.numBits_dvd hv
      have hsize : v.size = v.numBits := if_neg (by simp [hv])
      have hold : v.oldWords = v.numBits / 64 := if_neg (by simp [hv])
      have hcopied (i : Nat) : v.oldWord i = readWord v.heap.memory (v.bits + 8 * i) :=
        (if_neg (by simp [hv])).trans (if_neg (by simp [hv]))
      have holdNumWords : v.toBitVector.outOfLine.numWords = v.oldWords := by
        have hwords := BitVector.numWords_eq (b := v.toBitVector.outOfLine)
        rw [toBitVector_outOfLine hv] at hwords ⊢
        rw [hold]
        have hwords := hwords hdvd
        simp only at hwords
        omega
      rw [if_neg Bool.false_ne_true, if_pos hlt, holdNumWords]
      refine congrArg (OutOfLineBits.mk (n * 64)) (funext fun i => ?_)
      simp only [OutOfLineBits.zeroWords, OutOfLineBits.copyWords, hnumWords]
      by_cases hin : i < v.oldWords
      · rw [if_neg (by omega), if_pos (by omega), hgot i (by omega), if_pos hin, hcopied,
          toBitVector_outOfLine hv]
        rfl
      · rw [if_neg (show ¬(0 ≤ i ∧ i < 0 + v.oldWords) by omega),
          if_neg (show ¬(0 ≤ i ∧ i < 0 + 0) by omega)]
        split
        · rw [hgot i (by omega), if_neg hin]
        · rfl

-- The words of the new block are what the model of whole words says, for an allocation that
-- has the words behind the block from the start.
theorem resize_refines (h : v.Placed) (hlt : v.size < numBits)
    (hwithin : v.GrowsWithin chunk numBits)
    (hv' : v.resizeOutOfLine p chunk numBits 0 = some v') :
    v'.isInline = false ∧ v'.heap.block = ⟨v'.pointer, 8 + 8 * (v'.numBits / 64)⟩ ∧
      v.toBitVector.resizeOutOfLine ⟨BitVec.ofNat 64 chunk.address,
        fun i => readWord v'.heap.memory (v'.bits + 8 * i)⟩ numBits 0 = some v'.toBitVector := by
  obtain ⟨hfits, hcovered⟩ := hwithin.resolve_left (Nat.not_le_of_lt hlt)
  obtain ⟨n, hn⟩ : ∃ n, (numBits + 63) / 64 = n := ⟨_, rfl⟩
  rw [hn] at hcovered
  have htwo := covered_two hcovered
  obtain ⟨fresh, bytes, rest, hfresh, hrest, hcopies, hv'⟩ :=
    resizeOutOfLine_eq h hlt hv' (n := n) (by rw [Nat.mod_eq_of_lt hfits, hn])
  obtain ⟨hheader, hwords⟩ :=
    grown_words hfresh hcovered (hrest (by omega)) (hcopies (by omega))
  obtain ⟨heven, hlimit, _⟩ := hfresh.grants
  have hinline : v'.isInline = false := by
    rw [hv']
    exact BitVector.pointer_not_inline _ ⟨0, fun _ => 0⟩
  have hpointer : v'.pointer = chunk.address := by
    rw [hv']
    exact pointer_of_even heven (by omega)
  have hmemory : v'.heap.memory =
    (v.grown fresh (chunk.address + 8) bytes rest).memory := by rw [hv']
  have hnumBits : v'.numBits = n * 64 := by
    unfold StoredBits.numBits
    rw [hpointer, hmemory, hheader, BitVec.toNat_ofNat]
    omega
  have hbits : v'.bits = chunk.address + 8 := by
    unfold bits
    rw [hpointer]
  have hblock : v'.heap.block = ⟨chunk.address, 8 + 8 * n⟩ := by
    rw [hv', ← hfresh.block]
    rfl
  refine ⟨hinline, ?_, ?_⟩
  · rw [hblock, hpointer, hnumBits, Nat.mul_div_cancel n (by decide)]
  · obtain ⟨word, hword⟩ : ∃ word, word = fun i => readWord v'.heap.memory (v'.bits + 8 * i) :=
      ⟨_, rfl⟩
    have hgot (i : Nat) (hi : i < n) : word i = if i < v.oldWords then v.oldWord i else 0 := by
      rw [hword, ← hwords i hi, hmemory, hbits]
    have hview : v'.toBitVector = ⟨BitVec.ofNat 64 chunk.address >>> 1, ⟨n * 64, word⟩⟩ := by
      have houtOfLine := toBitVector_outOfLine hinline
      rw [hnumBits, ← hword] at houtOfLine
      rw [← houtOfLine, hv']
      rfl
    rw [← hword, hview]
    exact resize_words h hfits hn hlt hgot

end StoredBits

end Rsgc.Utils
