import Rsgc.Utils.BitVector.Resize

namespace Rsgc.Utils

variable {p : Profile} {chunk : Grant} {numBits bit : Nat} {value : Word} {b : Bool}

namespace StoredBits

variable {v v' : StoredBits}

section View

theorem inline_of_flag (hflag : value.getLsbD 63 = true) :
    ({ v with bitsOrPointer := value } : StoredBits).isInline = true :=
  (BitVector.isInline_eq ⟨value, ⟨0, fun _ => 0⟩⟩).trans hflag

theorem inline_toBitVector (hv : v.isInline = true) (hflag : value.getLsbD 63 = true) :
    ({ v with bitsOrPointer := value } : StoredBits).toBitVector =
      { v.toBitVector with bitsOrPointer := value } := by
  unfold toBitVector
  rw [if_pos (inline_of_flag hflag), if_pos hv]

-- Where only the words change
theorem outOfLine_toBitVector {heap : Traced} {bits : Nat → Word} (hv : v.isInline = false)
    (hheader : readWord heap.memory v.pointer = readWord v.heap.memory v.pointer)
    (hbits : ∀ i, readWord heap.memory (v.bits + 8 * i) = bits i) :
    ({ v with heap := heap } : StoredBits).toBitVector = { v.toBitVector with
      outOfLine := { v.toBitVector.outOfLine with bits := bits } } := by
  have hview := toBitVector_outOfLine (v := { v with heap := heap }) hv
  have hnumBits : ({ v with heap := heap } : StoredBits).numBits = v.numBits :=
    congrArg BitVec.toNat hheader
  rw [hnumBits] at hview
  refine congrArg (BitVector.mk v.bitsOrPointer) (hview.trans ?_)
  rw [toBitVector_outOfLine hv]
  exact congrArg (OutOfLineBits.mk v.numBits) (funext hbits)

theorem setWord_toBitVector (index : Nat)
    (hflag : v.isInline = true → value.getLsbD 63 = true) :
    (v.setWord index value).toBitVector = v.toBitVector.setWord index value := by
  unfold setWord BitVector.setWord
  rw [toBitVector_isInline]
  cases hv : v.isInline with
  | true => exact inline_toBitVector hv (hflag hv)
  | false =>
      rw [if_neg Bool.false_ne_true, if_neg Bool.false_ne_true]
      refine outOfLine_toBitVector hv (readWord_shift fun i hi => ?_) fun i => ?_
      · unfold bits
        exact if_neg (by omega)
      · rw [toBitVector_outOfLine hv]
        by_cases hi : i = index
        · rw [hi, Function.update_self]
          refine readWord_eq fun j hj => (if_pos (by omega)).trans ?_
          rw [Nat.add_sub_cancel_left]
        · rw [Function.update_of_ne hi]
          refine readWord_shift fun j hj => if_neg ?_
          omega

end View

section Calls

-- A vector is placed as before where only the words of its block change.
theorem Placed.words (h : v.Placed) (hv : v.isInline = false) {heap : Traced}
    (hheader : readWord heap.memory v.pointer = readWord v.heap.memory v.pointer)
    (hblock : heap.block = v.heap.block)
    (hwf : ({ v with heap := heap } : StoredBits).toBitVector.WellFormed) :
    ({ v with heap := heap } : StoredBits).Placed := by
  have hnumBits : ({ v with heap := heap } : StoredBits).numBits = v.numBits :=
    congrArg BitVec.toNat hheader
  refine ⟨hwf, fun _ => ?_⟩
  rw [hnumBits]
  exact hblock.trans (h.block hv)

theorem setWord_placed {index : Nat} (h : v.Placed)
    (hflag : v.isInline = true → value.getLsbD 63 = true)
    (hwf : (v.toBitVector.setWord index value).WellFormed) : (v.setWord index value).Placed := by
  rw [← setWord_toBitVector index hflag] at hwf
  unfold setWord at hwf ⊢
  cases hv : v.isInline with
  | true =>
      rw [hv, if_pos rfl] at hwf
      exact ⟨hwf, fun hout => Bool.noConfusion ((inline_of_flag (hflag hv)).symm.trans hout)⟩
  | false =>
      rw [hv, if_neg Bool.false_ne_true] at hwf
      refine h.words hv (readWord_shift fun i hi => ?_) rfl hwf
      unfold bits
      exact if_neg (by omega)

-- A word of the vector is inside its block.
theorem setWord_inside {index : Nat} (h : v.Placed) (hindex : index * 64 < v.size) :
    (v.setWord index value).heap.Inside ↔ v.heap.Inside := by
  unfold setWord
  cases hv : v.isInline with
  | true => exact Iff.rfl
  | false =>
      obtain ⟨hdvd, _, _⟩ := h.numBits_dvd hv
      have hsize : v.size = v.numBits := if_neg (by simp [hv])
      have hword : v.heap.block.Contains (v.bits + 8 * index) 8 := by
        rw [h.block hv]
        unfold Extent.Contains Extent.limit bits
        simp only
        omega
      exact Traced.inside_write.trans (and_iff_right hword)

theorem setWord_inside_of {index : Nat} (hinside : (v.setWord index value).heap.Inside) :
    v.heap.Inside := by
  unfold setWord at hinside
  split at hinside
  · exact hinside
  · exact (Traced.inside_write.mp hinside).2

theorem quickSet_eq (hv' : v.quickSet bit = some (b, v')) : bit < v.size ∧
    v' = v.setWord (bit / 64) (v.word (bit / 64) ||| BitVector.bitMask bit) ∧
      b = (v.word (bit / 64) &&& BitVector.bitMask bit != 0) := by
  unfold quickSet at hv'
  split at hv'
  · rename_i hbit
    obtain ⟨rfl, rfl⟩ := Prod.mk.inj (Option.some.inj hv')
    exact ⟨hbit, rfl, rfl⟩
  · cases hv'

theorem quickSet_refines (h : v.Placed) (hv' : v.quickSet bit = some (b, v')) :
    v.toBitVector.quickSet bit = some (b, v'.toBitVector) ∧ v'.Placed ∧
      (v'.heap.Inside ↔ v.heap.Inside) := by
  obtain ⟨hbit, rfl, rfl⟩ := quickSet_eq hv'
  have hflag : v.isInline = true →
      (v.word (bit / 64) ||| BitVector.bitMask bit).getLsbD 63 = true := fun hv => by
    have hword := BitVector.word_flag (v := v.toBitVector) hv (bit / 64)
    rw [toBitVector_word] at hword
    rw [BitVec.getLsbD_or, hword, Bool.true_or]
  have hquick : v.toBitVector.quickSet bit =
      some (v.word (bit / 64) &&& BitVector.bitMask bit != 0,
        (v.setWord (bit / 64) (v.word (bit / 64) ||| BitVector.bitMask bit)).toBitVector) := by
    rw [setWord_toBitVector _ hflag]
    unfold BitVector.quickSet
    rw [if_pos (toBitVector_size (v := v) ▸ hbit)]
    simp only [toBitVector_word, BITS_IN_POINTER]
  obtain ⟨w, hw, hbecomes⟩ := BitVector.quickSet_spec (v := v.toBitVector) (i := bit)
    h.wellFormed (toBitVector_size (v := v) ▸ hbit)
  rw [hquick, Option.some.injEq, Prod.mk.injEq] at hw
  refine ⟨hquick, setWord_placed h hflag ?_, setWord_inside h (by omega)⟩
  rw [← setWord_toBitVector _ hflag, hw.2]
  exact hbecomes.wellFormed

theorem ensureSize_refines (h : v.Placed) (hwithin : v.GrowsWithin chunk numBits)
    (hv' : v.ensureSize p chunk numBits = some v') :
    v'.Placed ∧ ∃ answer, v.toBitVector.ensureSize answer numBits = some v'.toBitVector := by
  unfold ensureSize at hv'
  unfold BitVector.ensureSize
  rw [toBitVector_size]
  split at hv'
  · rename_i hle
    obtain rfl := Option.some.inj hv'
    exact ⟨h, ⟨0, fun _ => 0⟩, if_pos hle⟩
  · rename_i hlt
    have hlt := Nat.lt_of_not_le hlt
    obtain ⟨hinline, hblock, hresize⟩ := resize_refines h hlt hwithin hv'
    have hgrows := BitVector.resizeOutOfLine_spec h.wellFormed
      (toBitVector_size (v := v) ▸ hlt) hresize
    exact ⟨⟨hgrows.1.wellFormed, fun _ => hblock⟩, _, (if_neg (by omega)).trans hresize⟩

theorem ensureSize_inside (h : v.Placed) (hbound : numBits < 2 ^ 64)
    (hv' : v.ensureSize p chunk numBits = some v') :
    v'.heap.Inside ↔ v.GrowsWithin chunk numBits ∧ v.heap.Inside := by
  unfold ensureSize at hv'
  split at hv'
  · rename_i hle
    obtain rfl := Option.some.inj hv'
    exact (and_iff_right (Or.inl hle)).symm
  · rename_i hlt
    exact resize_inside h (Nat.lt_of_not_le hlt) hbound hv'

-- The largest index wraps around to the size 0, and is not below any size.
theorem set_eq (h : v.Placed) (hbit : bit < 2 ^ 64) (hv' : v.set p chunk bit = some (b, v')) :
    ∃ larger, v.ensureSize p chunk (bit + 1) = some larger ∧
      larger.quickSet bit = some (b, v') ∧ bit + 1 < 2 ^ 64 := by
  unfold set at hv'
  obtain ⟨numBits, hnumBits, hv'⟩ := Option.bind_eq_some_iff.mp hv'
  obtain ⟨larger, hlarger, hquick⟩ := Option.bind_eq_some_iff.mp hv'
  have hmod := Profile.unsigned_mod hnumBits
  by_cases hlast : bit + 1 < 2 ^ 64
  · obtain rfl : numBits = bit + 1 := by omega
    exact ⟨larger, hlarger, hquick, hlast⟩
  · obtain rfl : numBits = 0 := by omega
    obtain rfl : v = larger := by
      unfold ensureSize at hlarger
      rw [if_pos (Nat.zero_le _)] at hlarger
      exact Option.some.inj hlarger
    have hsize := BitVector.size_lt h.wellFormed
    rw [toBitVector_size] at hsize
    have hin := (quickSet_eq hquick).1
    omega

-- `clear_all` has no block, or fills all the words of its block to the end.
def ClearsWithin (v : StoredBits) : Prop :=
  v.isInline = true ∨ Covered (v.bits + 8 * (v.numBits / 64)) (v.numBits / 64)

instance (v : StoredBits) : Decidable v.ClearsWithin := inferInstanceAs (Decidable (_ ∨ _))

theorem clearAll_eq (h : v.Placed) (hv : v.isInline = false) (hv' : v.clearAll p = some v') :
    v' = { v with heap := cleared v.heap v.bits (8 * (v.numBits / 64)) } := by
  obtain ⟨hdvd, _, _⟩ := h.numBits_dvd hv
  have hsize : v.size = v.numBits := if_neg (by simp [hv])
  unfold clearAll at hv'
  rw [if_neg (by simp [hv])] at hv'
  obtain ⟨bytes, hbytes, hv'⟩ := Option.bind_eq_some_iff.mp hv'
  obtain ⟨sum, hsum, rfl⟩ := Option.map_eq_some_iff.mp hbytes
  have hmod := Profile.unsigned_mod hsum
  have hlength : sum / 8 = 8 * (v.numBits / 64) := by omega
  rw [clearBytes_eq, hlength] at hv'
  exact (Option.some.inj hv').symm

theorem clearAll_inside (h : v.Placed) (hv' : v.clearAll p = some v') :
    v'.heap.Inside ↔ v.ClearsWithin ∧ v.heap.Inside := by
  unfold ClearsWithin
  cases hv : v.isInline with
  | true =>
      unfold clearAll at hv'
      rw [if_pos hv] at hv'
      obtain rfl := Option.some.inj hv'
      exact (and_iff_right (Or.inl rfl)).symm
  | false =>
      obtain rfl := clearAll_eq h hv hv'
      have haddress : v.heap.block.address ≤ v.bits := by
        rw [h.block hv]
        exact Nat.le_add_right _ _
      have hlimit : v.heap.block.limit = v.bits + 8 * (v.numBits / 64) := by
        rw [h.block hv]
        exact (Nat.add_assoc _ _ _).symm
      rw [or_iff_right Bool.false_ne_true, ← sloppyStop_words, ← hlimit]
      exact inside_cleared haddress

theorem clearAll_refines (h : v.Placed) (hwithin : v.ClearsWithin)
    (hv' : v.clearAll p = some v') : v'.Placed ∧ v'.toBitVector = v.toBitVector.clearAll := by
  have hclear := (BitVector.clearAll_spec h.wellFormed).wellFormed
  unfold BitVector.clearAll at hclear ⊢
  rw [toBitVector_isInline] at hclear ⊢
  cases hv : v.isInline with
  | true =>
      unfold clearAll at hv'
      rw [if_pos hv] at hv'
      obtain rfl := Option.some.inj hv'
      rw [hv, if_pos rfl] at hclear
      rw [if_pos rfl]
      have hflag : (BitVector.makeInlineBits 0).getLsbD 63 = true := by decide
      have hview := inline_toBitVector hv hflag
      exact ⟨⟨hview ▸ hclear, fun hout =>
        Bool.noConfusion ((inline_of_flag hflag).symm.trans hout)⟩, hview⟩
  | false =>
      obtain ⟨hdvd, _, _⟩ := h.numBits_dvd hv
      have hsize : v.size = v.numBits := if_neg (by simp [hv])
      have hcovered := hwithin.resolve_left (by simp [hv])
      have hstop : sloppyStop v.bits (8 * (v.numBits / 64)) = v.bits + 8 * (v.numBits / 64) :=
        Nat.le_antisymm ((sloppyStop_words _ _).mpr hcovered) (le_sloppyStop _ _)
      obtain rfl := clearAll_eq h hv hv'
      have hmemory (a : Nat) : (cleared v.heap v.bits (8 * (v.numBits / 64))).memory a =
          if v.bits ≤ a ∧ a < v.bits + 8 * (v.numBits / 64) then 0 else v.heap.memory a := by
        rw [cleared_memory, hstop]
      have hheader : readWord (cleared v.heap v.bits (8 * (v.numBits / 64))).memory v.pointer =
          readWord v.heap.memory v.pointer := by
        refine readWord_shift fun i hi => ?_
        rw [hmemory, if_neg]
        unfold bits
        omega
      rw [hv, if_neg Bool.false_ne_true] at hclear
      rw [if_neg Bool.false_ne_true]
      have hwords (i : Nat) :
          readWord (cleared v.heap v.bits (8 * (v.numBits / 64))).memory (v.bits + 8 * i) =
            (v.toBitVector.outOfLine.zeroWords 0 (v.toBitVector.size / 64)).bits i := by
        rw [toBitVector_size, hsize, toBitVector_outOfLine hv]
        simp only [OutOfLineBits.zeroWords]
        by_cases hi : 0 ≤ i ∧ i < 0 + v.numBits / 64
        · rw [if_pos hi]
          refine readWord_zero fun j hj => ?_
          rw [hmemory, if_pos (by omega)]
        · rw [if_neg hi]
          refine readWord_shift fun j hj => ?_
          rw [hmemory, if_neg (by omega)]
      have hview := outOfLine_toBitVector hv hheader hwords
      exact ⟨h.words hv hheader rfl (hview ▸ hclear), hview⟩

end Calls

section Conditions

-- What a call needs to stay inside is the same for the model of whole words.
theorem growsWithin_iff (haddress : chunk.address < 2 ^ 64) (contents : Nat → Word) :
    v.toBitVector.GrowsWithin ⟨BitVec.ofNat 64 chunk.address, contents⟩ numBits ↔
      v.GrowsWithin chunk numBits := by
  have holdWords : v.toBitVector.oldWords = v.oldWords := by
    unfold BitVector.oldWords oldWords
    rw [toBitVector_isInline]
    cases hv : v.isInline with
    | true => rfl
    | false => rw [toBitVector_outOfLine hv]
  unfold BitVector.GrowsWithin GrowsWithin
  simp only
  rw [toBitVector_size, holdWords, BitVec.toNat_ofNat, Nat.mod_eq_of_lt haddress]

theorem clearsWithin_iff : v.toBitVector.ClearsWithin ↔ v.ClearsWithin := by
  unfold BitVector.ClearsWithin ClearsWithin
  rw [toBitVector_isInline]
  cases hv : v.isInline with
  | true => exact iff_of_true (Or.inl rfl) (Or.inl rfl)
  | false =>
      rw [toBitVector_outOfLine hv]
      exact Iff.rfl

end Conditions

end StoredBits

namespace StoredRun

variable {s t : StoredRun} {c : StoredCall}

-- Every write was inside the block that it was meant for, and the bits in memory are those
-- that were set since the last `clear_all`.
structure Safe (s : StoredRun) : Prop where
  inside : s.vector.heap.Inside
  members : s.vector.toBitVector.members = s.set

def CallWithin (s : StoredRun) : StoredCall → Prop
  | .set bit chunk => s.vector.GrowsWithin chunk (bit.toNat + 1)
  | .ensureSize numBits chunk => s.vector.GrowsWithin chunk numBits.toNat
  | .clearAll => s.vector.ClearsWithin

instance (s : StoredRun) : (c : StoredCall) → Decidable (s.CallWithin c)
  | .set _ _ | .ensureSize _ _ => inferInstanceAs (Decidable (StoredBits.GrowsWithin _ _ _))
  | .clearAll => inferInstanceAs (Decidable (StoredBits.ClearsWithin _))

structure Kept (s : StoredRun) : Prop extends Safe s where
  placed : s.vector.Placed

theorem Kept.denotes (h : s.Kept) : s.vector.toBitVector.Denotes s.set :=
  ⟨h.placed.wellFormed, h.members⟩

theorem kept_of_initial (h : s.IsInitial) : s.Kept := by
  obtain ⟨hbits, hblock, hwrites, hset⟩ := h
  have hinline : s.vector.isInline = true := by
    unfold StoredBits.isInline
    rw [hbits]
    decide
  have hview : s.vector.toBitVector = BitVector.new := by
    unfold StoredBits.toBitVector
    rw [if_pos hinline, hbits]
    rfl
  have hnew := BitVector.new_denotes
  rw [← hview] at hnew
  refine ⟨⟨fun w hw => ?_, hnew.2.trans hset.symm⟩, hnew.1, fun hout => ?_⟩
  · rw [hwrites] at hw
    cases hw
  · rw [hinline] at hout
    cases hout

theorem inside_step (h : s.Kept) (hstep : s.step p c = some t) (hinside : t.vector.heap.Inside) :
    s.CallWithin c := by
  cases c with
  | set bit chunk =>
      rw [StoredRun.step] at hstep
      obtain ⟨⟨b, v⟩, hset, rfl⟩ := Option.map_eq_some_iff.mp hstep
      obtain ⟨larger, hlarger, hquick, hbound⟩ := StoredBits.set_eq h.placed bit.isLt hset
      obtain ⟨-, rfl, -⟩ := StoredBits.quickSet_eq hquick
      exact ((StoredBits.ensureSize_inside h.placed hbound hlarger).mp
        (StoredBits.setWord_inside_of hinside)).1
  | ensureSize numBits chunk =>
      obtain ⟨v, hensure, rfl⟩ := Option.map_eq_some_iff.mp hstep
      exact ((StoredBits.ensureSize_inside h.placed numBits.isLt hensure).mp hinside).1
  | clearAll =>
      obtain ⟨v, hclear, rfl⟩ := Option.map_eq_some_iff.mp hstep
      exact ((StoredBits.clearAll_inside h.placed hclear).mp hinside).1

theorem Kept.step (h : s.Kept) (hwithin : s.CallWithin c) (hstep : s.step p c = some t) :
    t.Kept := by
  cases c with
  | set bit chunk =>
      rw [StoredRun.step] at hstep
      obtain ⟨⟨b, v⟩, hset, rfl⟩ := Option.map_eq_some_iff.mp hstep
      obtain ⟨larger, hlarger, hquick, hbound⟩ := StoredBits.set_eq h.placed bit.isLt hset
      obtain ⟨hplaced, answer, hrefines⟩ := StoredBits.ensureSize_refines h.placed hwithin hlarger
      obtain ⟨hword, hplaced', hinside⟩ := StoredBits.quickSet_refines hplaced hquick
      have hwords : s.vector.toBitVector.set answer bit.toNat = some (b, v.toBitVector) := by
        unfold BitVector.set
        rw [if_pos hbound, hrefines]
        exact hword
      have hbecomes := (BitVector.set_spec h.placed.wellFormed hwords).2
      refine ⟨⟨hinside.mpr ?_, (hbecomes.denotes fun j => ?_).2⟩, hplaced'⟩
      · exact (StoredBits.ensureSize_inside h.placed hbound hlarger).mpr ⟨hwithin, h.inside⟩
      · simp [h.denotes.bit]
  | ensureSize numBits chunk =>
      obtain ⟨v, hensure, rfl⟩ := Option.map_eq_some_iff.mp hstep
      obtain ⟨hplaced, answer, hrefines⟩ := StoredBits.ensureSize_refines h.placed hwithin hensure
      have hbecomes := (BitVector.ensureSize_spec h.placed.wellFormed hrefines).1
      refine ⟨⟨?_, (hbecomes.denotes h.denotes.bit).2⟩, hplaced⟩
      exact (StoredBits.ensureSize_inside h.placed numBits.isLt hensure).mpr ⟨hwithin, h.inside⟩
  | clearAll =>
      obtain ⟨v, hclear, rfl⟩ := Option.map_eq_some_iff.mp hstep
      obtain ⟨hplaced, hrefines⟩ := StoredBits.clearAll_refines h.placed hwithin hclear
      have hbecomes := BitVector.clearAll_spec h.placed.wellFormed
      rw [← hrefines] at hbecomes
      refine ⟨⟨?_, (hbecomes.denotes (by simp)).2⟩, hplaced⟩
      exact (StoredBits.clearAll_inside h.placed hclear).mpr ⟨hwithin, h.inside⟩

-- As long as every fill ends with its block the writes stay inside it, and the next call
-- keeps to that just if its own fills do.
theorem writes_inside (hs : (storedMachine p).Via CallWithin s) : s.Safe ∧
    ∀ c t, (storedMachine p).step s c = some t → (t.Safe ↔ s.CallWithin c) := by
  have hkept : s.Kept := Machine.Via.invariant (P := Kept) (fun _ hinit => kept_of_initial hinit)
    (fun _ _ _ h hwithin hstep => h.step hwithin hstep) hs
  exact ⟨hkept.toSafe, fun c t hstep => ⟨fun hsafe => inside_step hkept hstep hsafe.inside,
    fun hwithin => (hkept.step hwithin hstep).toSafe⟩⟩

def initial : StoredRun :=
  ⟨⟨BitVector.makeInlineBits 0, ⟨fun _ => 0xff, ⟨0, 0⟩, []⟩⟩, ∅⟩

-- A block at a multiple of 16 with an odd number of words
theorem writes_inside_odd : ∃ s, (storedMachine .release).Via CallWithin s ∧
    s.set = {5, 447} ∧ s.Safe := by
  have hrun : ((storedMachine .release).runVia CallWithin initial [.set 130 ⟨4096, fun _ => 0xff⟩,
      .clearAll, .set 5 ⟨4096, fun _ => 0xff⟩, .ensureSize 448 ⟨8192, fun _ => 0xff⟩,
      .set 447 ⟨0, fun _ => 0⟩]).map (fun s => s.set) = some {5, 447} := by decide +kernel
  obtain ⟨s, hs, hset⟩ := Option.map_eq_some_iff.mp hrun
  have hinit : (storedMachine .release).init initial := ⟨rfl, rfl, rfl, rfl⟩
  have hvia := Machine.via_of_runVia (Machine.Via.init hinit) hs
  exact ⟨s, hvia, hset, (writes_inside hvia).1⟩

-- The bit 63 needs a block of 16 bytes, and the fill of its 8 behind the header writes 16.
theorem set_writes_behind_block : ∃ s t, (storedMachine .debug).init s ∧
    (storedMachine .debug).step s (.set 63 ⟨4096, fun _ => 0xff⟩) = some t ∧
    ⟨⟨4096, 16⟩, 4104, 16⟩ ∈ t.vector.heap.writes ∧ ¬t.Safe := by
  have hstep : ((storedMachine .debug).step initial (.set 63 ⟨4096, fun _ => 0xff⟩)).map
      (fun t => decide (⟨⟨4096, 16⟩, 4104, 16⟩ ∈ t.vector.heap.writes)) = some true := by
    decide +kernel
  obtain ⟨t, ht, hwrite⟩ := Option.map_eq_some_iff.mp hstep
  have hmem := of_decide_eq_true hwrite
  refine ⟨initial, t, ⟨rfl, rfl, rfl, rfl⟩, ht, hmem, fun hsafe => ?_⟩
  have hin : 4104 + 16 ≤ 4096 + 16 := (hsafe.inside _ hmem).2
  omega

end StoredRun

end Rsgc.Utils
