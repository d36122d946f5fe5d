import Rsgc.System.Header

namespace Rsgc.System

open Storage (MAX_SIZE_TAG usizeRange wrap)

section Tags

-- The fields of a header share no bit, and none is as wide as the word.
theorem sizeBits_apart (f : BitField)
    (hf : f = VtableTag ∨ f = VisitedTag ∨ f = NoHeapPtrsTag ∨ f = FinalizationOrderingTag) :
    f.size < 64 ∧ f.Apart SizeBits := by
  rcases hf with rfl | rfl | rfl | rfl <;> exact ⟨by decide, by unfold BitField.Apart; decide⟩

theorem SizeTag.decode_update (word : BitVec 64) (size : Nat) :
    SizeTag.decode (SizeTag.update word size) =
      if size ≤ MAX_SIZE_TAG then size / 16 * 16 else 0 := by
  have hdecode : SizeBits.decode (SizeTag.update word size) =
      SizeTag.sizeToTagValue size &&& SizeBits.mask :=
    BitField.decode_update (by decide) (by decide) _ _
  unfold SizeTag.decode SizeTag.tagValueToSize
  rw [hdecode]
  unfold SizeTag.sizeToTagValue
  split
  · rename_i hle
    have hmask : SizeBits.mask.toNat = 2 ^ 13 - 1 := by decide
    have hlt : size < 2 ^ 64 := Nat.lt_of_le_of_lt hle (by decide)
    have htag : size / 2 ^ 4 < 2 ^ 13 := by
      unfold MAX_SIZE_TAG at hle
      omega
    rw [BitVec.toNat_shiftLeft, BitVec.toNat_and, hmask, BitVec.toNat_ushiftRight,
      BitVec.toNat_ofNat, Nat.mod_eq_of_lt hlt, Nat.shiftRight_eq_div_pow,
      Nat.and_two_pow_sub_one_eq_mod, Nat.mod_eq_of_lt htag, Nat.shiftLeft_eq]
    omega
  · decide

theorem SizeTag.decode_of_apart {f : BitField} (value word : BitVec 64)
    (hf : f = VtableTag ∨ f = VisitedTag ∨ f = NoHeapPtrsTag ∨ f = FinalizationOrderingTag) :
    SizeTag.decode (f.update value word) = SizeTag.decode word := by
  obtain ⟨hsize, hapart⟩ := sizeBits_apart f hf
  unfold SizeTag.decode
  rw [BitField.decode_update_apart hsize (by decide) hapart]

theorem VtableTag.decode_update (word : BitVec 64) {vt : Nat} (hvt : vt < 2 ^ VTABLE_TAG_SIZE) :
    (VtableTag.decode (VtableTag.update (BitVec.ofNat 64 vt) word)).toNat = vt := by
  have hmask : VtableTag.mask.toNat = 2 ^ 48 - 1 := by decide
  unfold VTABLE_TAG_SIZE at hvt
  rw [BitField.decode_update (by decide) (by decide), BitVec.toNat_and, hmask,
    BitVec.toNat_ofNat, Nat.and_two_pow_sub_one_eq_mod]
  omega

theorem VtableTag.decode_of_apart {f : BitField} (value word : BitVec 64)
    (hf : f = SizeBits ∨ f = VisitedTag ∨ f = NoHeapPtrsTag ∨ f = FinalizationOrderingTag) :
    VtableTag.decode (f.update value word) = VtableTag.decode word := by
  rcases hf with rfl | rfl | rfl | rfl <;>
    exact BitField.decode_update_apart (by decide) (by decide)
      (by unfold BitField.Apart; decide) _ _

-- No update of the other bits concerns the size or the vtable.
theorem HeaderUpdate.apply_decode (u : HeaderUpdate) (word : BitVec 64) :
    SizeTag.decode (u.apply word) = SizeTag.decode word ∧
      VtableTag.decode (u.apply word) = VtableTag.decode word := by
  cases u <;> exact ⟨SizeTag.decode_of_apart _ _ (by simp), VtableTag.decode_of_apart _ _ (by simp)⟩

end Tags

section Words

variable {m m' : Memory} {obj : Nat}

theorem headerWord_congr (h : ∀ a, obj ≤ a → a < obj + 8 → m' a = m a) :
    headerWord m' obj = headerWord m obj := by
  unfold headerWord
  rw [Memory.readLE_congr h]

theorem headerWord_setHeaderWord (m : Memory) (obj : Nat) (word : BitVec 64) :
    headerWord (setHeaderWord m obj word) obj = word := by
  unfold headerWord setHeaderWord
  rw [Memory.readLE_writeLE m obj _ (Nat.le_refl 8)]
  apply BitVec.eq_of_toNat_eq
  rw [BitVec.toNat_ofNat]
  have hlt := word.isLt
  omega

theorem setHeaderWord_of_not (m : Memory) (word : BitVec 64) {a : Nat}
    (h : a < obj ∨ obj + 8 ≤ a) : setHeaderWord m obj word a = m a :=
  Memory.writeLE_of_not m _ h

end Words

section Alignment

theorem alignUsize16_eq {value : Nat} (h : value + 15 < usizeRange) :
    alignUsize16 value = (value + 15) / 16 * 16 := by
  unfold usizeRange at h
  unfold alignUsize16 wrap usizeRange
  omega

-- What the sizes of objects have in common.
theorem fixedSize_eq {t : Allocation} (h : Headers.Fits t.size) :
    t.fixedSize = (t.size + HEADER_SIZE + 15) / 16 * 16 := by
  unfold Headers.Fits at h
  unfold Allocation.fixedSize wrap
  rw [Nat.mod_eq_of_lt (by omega), alignUsize16_eq (by omega)]

theorem varSize_eq {t : Allocation} {length : Nat}
    (h : Headers.Fits (t.size + t.varsizeItemSize * length)) :
    t.varSize length = (t.size + t.varsizeItemSize * length + HEADER_SIZE + 15) / 16 * 16 := by
  unfold Headers.Fits at h
  have hsum : t.size + HEADER_SIZE + t.varsizeItemSize * length =
      t.size + t.varsizeItemSize * length + HEADER_SIZE := by omega
  unfold Allocation.varSize wrap
  rw [hsum, Nat.mod_eq_of_lt (by omega), alignUsize16_eq (by omega)]

end Alignment

section Blocks

variable {types : Nat → Allocation} {m m' : Memory} {b : HeapBlock}

-- What the bytes of a block say about it.
structure HeapBlock.Described (types : Nat → Allocation) (m : Memory) (b : HeapBlock) : Prop where
  pos : 0 < b.size
  tag : SizeTag.decode (headerWord m b.addr) = if b.size ≤ MAX_SIZE_TAG then b.size else 0
  vtable : (VtableTag.decode (headerWord m b.addr)).toNat = b.vtable.getD 0
  stored : match b.vtable with
    | none => MAX_SIZE_TAG < b.size → m.readLE (Entry.sizeAddress b.addr) 8 = b.size
    | some vt => vt ≠ 0 ∧ b.size =
        if (types vt).varsize then (types vt).varSize
          (m.readLE (b.addr + HEADER_SIZE + (types vt).varsizeOffsetofCapacity) 4)
        else (types vt).fixedSize
  inside : ∀ p ∈ b.sizeBytes types, b.addr ≤ p.1 ∧ p.1 + p.2 ≤ b.stop

theorem wrap_recomputed (size capacity item : Nat) :
    wrap (wrap (size + capacity * item) + HEADER_SIZE) =
      wrap (size + HEADER_SIZE + item * capacity) := by
  unfold wrap
  rw [Nat.mod_add_mod, Nat.mul_comm]
  congr 1
  omega

-- The writer and the two readers agree.
theorem HeapBlock.Described.heapSize (h : b.Described types m) :
    HeapObjectHeader.heapSize types m b.addr = b.size := by
  have hpos := h.pos
  unfold HeapObjectHeader.heapSize
  simp only [h.tag]
  by_cases hle : b.size ≤ MAX_SIZE_TAG
  · rw [if_pos hle, if_pos (by omega)]
  · rw [if_neg hle, if_neg (by simp)]
    unfold HeapObjectHeader.heapSizeFromVtable
    simp only [h.vtable]
    have hstored := h.stored
    cases hvt : b.vtable with
    | none =>
        rw [hvt] at hstored
        rw [Option.getD_none, if_pos rfl]
        unfold Entry.heapSize
        rw [h.tag, if_neg hle, if_pos rfl]
        exact hstored (by omega)
    | some vt =>
        rw [hvt] at hstored
        rw [Option.getD_some, if_neg hstored.1]
        rw [hstored.2]
        split
        · unfold Allocation.varSize
          rw [wrap_recomputed]
        · rfl

-- The tags are the same, and so are the bytes behind the header that count.
theorem HeapBlock.Described.retag (h : b.Described types m)
    (htag : SizeTag.decode (headerWord m' b.addr) = SizeTag.decode (headerWord m b.addr))
    (hvtable : VtableTag.decode (headerWord m' b.addr) = VtableTag.decode (headerWord m b.addr))
    (hsame : ∀ p ∈ (b.sizeBytes types).tail, ∀ a, p.1 ≤ a → a < p.1 + p.2 → m' a = m a) :
    b.Described types m' := by
  refine ⟨h.pos, htag.trans h.tag, by rw [hvtable]; exact h.vtable, ?_, h.inside⟩
  have hstored := h.stored
  cases hvt : b.vtable with
  | none =>
      rw [hvt] at hstored
      intro hlarge
      rw [← hstored hlarge]
      refine Memory.readLE_congr (hsame (Entry.sizeAddress b.addr, 8) ?_)
      simp [HeapBlock.sizeBytes, hvt, hlarge]
  | some vt =>
      rw [hvt] at hstored
      refine ⟨hstored.1, ?_⟩
      rw [hstored.2]
      by_cases hvarsize : (types vt).varsize = true
      · rw [if_pos hvarsize, if_pos hvarsize]
        congr 1
        refine (Memory.readLE_congr (hsame
          (b.addr + HEADER_SIZE + (types vt).varsizeOffsetofCapacity, 4) ?_)).symm
        simp [HeapBlock.sizeBytes, hvt, hvarsize]
      · rw [if_neg hvarsize, if_neg hvarsize]

theorem HeapBlock.Described.congr (h : b.Described types m)
    (hsame : ∀ p ∈ b.sizeBytes types, ∀ a, p.1 ≤ a → a < p.1 + p.2 → m' a = m a) :
    b.Described types m' := by
  have hword : headerWord m' b.addr = headerWord m b.addr :=
    headerWord_congr (hsame (b.addr, 8) List.mem_cons_self)
  exact h.retag (by rw [hword]) (by rw [hword]) fun p hp => hsame p (List.mem_of_mem_tail hp)

theorem HeapBlock.sizeBytes_tail {p : Nat × Nat} (hp : p ∈ (b.sizeBytes types).tail) :
    b.addr + 8 ≤ p.1 := by
  unfold HeapBlock.sizeBytes at hp
  rw [List.tail_cons] at hp
  split at hp
  · split at hp
    · obtain rfl := List.mem_singleton.mp hp
      exact Nat.add_le_add_left (by decide) _
    · cases hp
  · split at hp
    · obtain rfl := List.mem_singleton.mp hp
      simp only [HEADER_SIZE]
      omega
    · cases hp

-- A write outside the block leaves it as it was described.
theorem HeapBlock.Described.frame (h : b.Described types m)
    (hsame : ∀ a, b.addr ≤ a → a < b.stop → m' a = m a) : b.Described types m' := by
  refine h.congr fun p hp a hl hr => ?_
  obtain ⟨hlow, hhigh⟩ := h.inside p hp
  exact hsame a (by omega) (by omega)

theorem HeapBlock.Described.update (h : b.Described types m) (u : HeaderUpdate) :
    b.Described types (setHeaderWord m b.addr (u.apply (headerWord m b.addr))) := by
  obtain ⟨htag, hvtable⟩ := u.apply_decode (headerWord m b.addr)
  refine h.retag ?_ ?_ fun p hp a hl _ => ?_
  · rw [headerWord_setHeaderWord, htag]
  · rw [headerWord_setHeaderWord, hvtable]
  · have htail := HeapBlock.sizeBytes_tail hp
    exact setHeaderWord_of_not m _ (Or.inr (by omega))

theorem asEntry_word (m : Memory) (addr size : Nat) :
    headerWord (Entry.asEntry m addr size) addr = VtableTag.update 0 (SizeTag.update 0 size) := by
  rw [← headerWord_setHeaderWord m addr (VtableTag.update 0 (SizeTag.update 0 size))]
  refine headerWord_congr fun a hl hr => ?_
  have hnext : (setHeaderWord m addr (VtableTag.update 0 (SizeTag.update 0 size))).writeLE
      (addr + 8) 8 0 a = setHeaderWord m addr (VtableTag.update 0 (SizeTag.update 0 size)) a :=
    Memory.writeLE_of_not _ _ (Or.inl (by omega))
  unfold Entry.asEntry
  split
  · rw [Memory.writeLE_of_not _ _ (Or.inl (by unfold Entry.sizeAddress; omega)), hnext]
  · exact hnext

theorem asEntry_described {addr size : Nat} (m : Memory) (hpos : 0 < size) (hdvd : 16 ∣ size)
    (hlt : size < usizeRange) :
    HeapBlock.Described types (Entry.asEntry m addr size) ⟨addr, size, none⟩ := by
  refine ⟨hpos, ?_, ?_, fun hlarge => ?_, fun p hp => ?_⟩
  · rw [asEntry_word, SizeTag.decode_of_apart _ _ (Or.inl rfl), SizeTag.decode_update]
    simp only
    split
    · omega
    · rfl
  · rw [asEntry_word]
    exact VtableTag.decode_update (SizeTag.update 0 size) (by decide)
  · have hlt' : size < 256 ^ 8 := hlt
    unfold Entry.asEntry
    simp only at hlarge ⊢
    rw [if_pos hlarge, Memory.readLE_writeLE _ _ _ (Nat.le_refl 8), Nat.mod_eq_of_lt hlt']
  · unfold HeapBlock.sizeBytes at hp
    simp only [List.mem_cons] at hp
    rcases hp with rfl | hp
    · exact ⟨Nat.le_refl _, by simp only [HeapBlock.stop]; omega⟩
    · split at hp
      · obtain rfl := List.mem_singleton.mp hp
        unfold MAX_SIZE_TAG at *
        exact ⟨Nat.le_add_right _ _, by simp only [HeapBlock.stop, Entry.sizeAddress]; omega⟩
      · cases hp

theorem asEntry_of_not {addr size a : Nat} (m : Memory) (hsize : 16 ≤ size)
    (h : a < addr ∨ addr + size ≤ a) : Entry.asEntry m addr size a = m a := by
  have hlink : (setHeaderWord m addr (VtableTag.update 0 (SizeTag.update 0 size))).writeLE
      (addr + 8) 8 0 a = m a := by
    rw [Memory.writeLE_of_not _ _ (by omega), setHeaderWord_of_not _ _ (by omega)]
  unfold Entry.asEntry
  split
  · rename_i hlarge
    unfold MAX_SIZE_TAG at hlarge
    rw [Memory.writeLE_of_not _ _ (by unfold Entry.sizeAddress; omega), hlink]
  · exact hlink

theorem initHeader_word (m : Memory) (obj size : Nat) {vt : Nat} (noHeapPtrs : Bool)
    (hvt : vt < 2 ^ VTABLE_TAG_SIZE) (hdvd : 16 ∣ size) :
    SizeTag.decode (headerWord (initHeader m obj vt size noHeapPtrs) obj) =
        (if size ≤ MAX_SIZE_TAG then size else 0) ∧
      (VtableTag.decode (headerWord (initHeader m obj vt size noHeapPtrs) obj)).toNat = vt := by
  have hsize : (if size ≤ MAX_SIZE_TAG then size / 16 * 16 else 0) =
      if size ≤ MAX_SIZE_TAG then size else 0 := by
    split <;> omega
  have hplain : SizeTag.decode (SizeTag.update (VtableTag.update (BitVec.ofNat 64 vt) 0) size) =
        (if size ≤ MAX_SIZE_TAG then size else 0) ∧
      (VtableTag.decode
        (SizeTag.update (VtableTag.update (BitVec.ofNat 64 vt) 0) size)).toNat = vt := by
    refine ⟨by rw [SizeTag.decode_update, hsize], ?_⟩
    unfold SizeTag.update
    rw [VtableTag.decode_of_apart _ _ (Or.inl rfl), VtableTag.decode_update _ hvt]
  unfold initHeader
  simp only
  rw [headerWord_setHeaderWord]
  split
  · rw [SizeTag.decode_of_apart _ _ (by simp), VtableTag.decode_of_apart _ _ (by simp)]
    exact hplain
  · exact hplain

theorem initHeader_of_not (m : Memory) (vt size : Nat) (noHeapPtrs : Bool) {obj a : Nat}
    (h : a < obj ∨ obj + 8 ≤ a) : initHeader m obj vt size noHeapPtrs a = m a :=
  setHeaderWord_of_not m _ h

variable {obj vt : Nat}

theorem allocate_described (m : Memory) (obj : Nat) (value : Nat → UInt8)
    (htyped : Headers.Typed types vt false) (hfits : Headers.Fits (types vt).size) :
    HeapBlock.Described types (allocate types m obj vt value)
        ⟨obj, (types vt).fixedSize, some vt⟩ ∧
      ∀ a, a < obj ∨ obj + (types vt).fixedSize ≤ a → allocate types m obj vt value a = m a := by
  have hsize := fixedSize_eq hfits
  unfold HEADER_SIZE at hsize
  have hword : headerWord (allocate types m obj vt value) obj = headerWord
      (initHeader m obj vt (types vt).fixedSize (types vt).noHeapPtrs) obj :=
    headerWord_congr fun a _ hr => Memory.writeBytes_of_not _ _ (Or.inl hr)
  obtain ⟨htag, hvtable⟩ := initHeader_word m obj (types vt).fixedSize
    (types vt).noHeapPtrs htyped.vt_lt (by omega)
  refine ⟨⟨by simp only; omega, by rw [hword]; exact htag, by rw [hword]; exact hvtable, ?_, ?_⟩,
    fun a ha => ?_⟩
  · exact ⟨htyped.vt_pos.ne', by rw [if_neg (by simp [htyped.kind])]⟩
  · intro p hp
    simp only [HeapBlock.sizeBytes, htyped.kind, Bool.false_eq_true, if_false,
      List.mem_singleton] at hp
    subst hp
    exact ⟨Nat.le_refl _, by simp only [HeapBlock.stop]; omega⟩
  · unfold allocate
    simp only [HEADER_SIZE]
    rw [Memory.writeBytes_of_not _ _ (by omega), initHeader_of_not _ _ _ _ (by omega)]

theorem allocateVarsize_described {length : Nat} (m : Memory)
    (hrequest : Headers.Requestable types vt length) :
    HeapBlock.Described types (allocateVarsize types m obj vt length)
      ⟨obj, (types vt).varSize length, some vt⟩ := by
  have hfield := hrequest.typed.field rfl
  have hkind := hrequest.typed.kind
  have hsize := varSize_eq hrequest.fits
  unfold HEADER_SIZE at hsize
  have hword : headerWord (allocateVarsize types m obj vt length) obj = headerWord
      (initHeader m obj vt ((types vt).varSize length) (types vt).noHeapPtrs) obj :=
    headerWord_congr fun a _ hr =>
      Memory.writeLE_of_not _ _ (Or.inl (by simp only [HEADER_SIZE]; omega))
  obtain ⟨htag, hvtable⟩ := initHeader_word m obj ((types vt).varSize length)
    (types vt).noHeapPtrs hrequest.typed.vt_lt (by omega)
  have hcapacity : (allocateVarsize types m obj vt length).readLE
      (obj + HEADER_SIZE + (types vt).varsizeOffsetofCapacity) 4 = length := by
    have hlt : length < 256 ^ 4 := hrequest.length_lt
    unfold allocateVarsize
    rw [Memory.readLE_writeLE _ _ _ (by omega), Nat.mod_eq_of_lt hlt]
  refine ⟨by simp only; omega, by rw [hword]; exact htag, by rw [hword]; exact hvtable, ?_, ?_⟩
  · exact ⟨hrequest.typed.vt_pos.ne', by rw [if_pos hkind, hcapacity]⟩
  · intro p hp
    simp only [HeapBlock.sizeBytes, hkind, if_true, List.mem_cons, List.not_mem_nil,
      or_false] at hp
    simp only [HEADER_SIZE] at hp
    rcases hp with rfl | rfl
    · exact ⟨Nat.le_refl _, by simp only [HeapBlock.stop]; omega⟩
    · exact ⟨by simp only; omega, by simp only [HeapBlock.stop]; omega⟩

-- The write of the length stays in the object if it is contained.
theorem allocateVarsize_of_not {length a : Nat} (m : Memory)
    (hcontained : HEADER_SIZE + (types vt).varsizeOffsetofCapacity + 8 ≤ (types vt).varSize length)
    (h : a < obj ∨ obj + (types vt).varSize length ≤ a) :
    allocateVarsize types m obj vt length a = m a := by
  unfold HEADER_SIZE at hcontained
  unfold allocateVarsize
  simp only [HEADER_SIZE]
  rw [Memory.writeLE_of_not _ _ (by omega), initHeader_of_not _ _ _ _ (by omega)]

end Blocks

end Rsgc.System
