import Rsgc.Storage.MarkBitmap

namespace Rsgc.Storage

namespace MarkBitmap

variable {m m' : MarkBitmap} {a b i j : Nat}

def bit (m : MarkBitmap) (i : Nat) : Bool := (m.map (i / 8)).getLsbD (i % 64)

-- The bit above it in the same word, to which no other index leads where this one is
-- the last of the word.
def bitAbove (m : MarkBitmap) (i : Nat) : Bool := (m.map (i / 8)).getLsbD (i % 64 + 1)

section Reads

theorem bitInWord_eq (i : Nat) : bitInWord i = i % 64 := Nat.and_two_pow_sub_one_eq_mod i 6

theorem bitInWord_lt (i : Nat) : bitInWord i < 64 := by
  rw [bitInWord_eq]
  omega

theorem wordAddr_ok (hle : i ≤ m.size) : m.wordAddr i = .ok (i / 8) := by
  unfold wordAddr
  rw [ensure_bind hle]
  exact congrArg Except.ok (Nat.shiftRight_eq_div_pow i 3)

theorem bitAt_eq (i : Nat) :
    m.bitAt i = if i < m.size then .ok (m.bit i) else .error .indexOutOfBounds := by
  unfold bitAt
  by_cases hlt : i < m.size
  · rw [ensure_bind hlt, if_pos hlt, wordAddr_ok (Nat.le_of_lt hlt), Except.ok_bind]
    unfold bitMask
    rw [and_shl_one, bitInWord_eq, Nat.mod_mod]
    rfl
  · rw [ensure_bind_error hlt, if_neg hlt]

-- The shift is the one for an offset in bytes.
theorem addressToIndex_eq (m : MarkBitmap) (addr : Nat) :
    m.addressToIndex addr = (addr - m.covered) / 64 := by
  unfold addressToIndex
  rw [Nat.shiftRight_eq_div_pow, Nat.shiftLeft_eq]
  unfold LOG_MIN_OBJECT_ALIGNMENT
  omega

theorem InHeap.index_lt (h : m.InHeap a) : m.addressToIndex a < m.size := by
  have hle := h.le
  have hlt := h.lt
  rw [addressToIndex_eq]
  omega

theorem isMarked_eq (h : m.InHeap a) : m.isMarked a =
    .ok (m.bit (m.addressToIndex a) || m.bitAbove (m.addressToIndex a)) := by
  unfold isMarked
  simp only [wordAddr_ok (Nat.le_of_lt h.index_lt), Except.ok_bind]
  rw [and_shl_three (bitInWord_lt _), bitInWord_eq]
  rfl

-- The answers for an object of the last 64 bytes cannot be given.
theorem answers_eq_ok (h : m.InHeap a) {marks : Marks} : m.answers a = .ok marks ↔
    m.addressToIndex a + 1 < m.size ∧ marks = ⟨m.bit (m.addressToIndex a),
      m.bit (m.addressToIndex a + 1),
      m.bit (m.addressToIndex a) || m.bitAbove (m.addressToIndex a)⟩ := by
  unfold answers isMarkedStrong isMarkedWeak
  rw [bitAt_eq, if_pos h.index_lt, Except.ok_bind, bitAt_eq, isMarked_eq h]
  by_cases hlt : m.addressToIndex a + 1 < m.size
  · rw [if_pos hlt, Except.ok_bind, Except.ok_bind, Except.pure_eq_ok]
    simp only [hlt, true_and]
    exact eq_comm
  · rw [if_neg hlt, Except.error_bind]
    simp [hlt]

end Reads

section Writes

-- The bitmap after bits were set in the word of an index.
def setBits (m : MarkBitmap) (i : Nat) (mask : BitVec 64) : MarkBitmap :=
  { m with map := Function.update m.map (i / 8) (m.map (i / 8) ||| mask) }

theorem getLsbD_setBits (m : MarkBitmap) (i : Nat) (mask : BitVec 64) (w p : Nat) :
    ((m.setBits i mask).map w).getLsbD p =
      ((m.map w).getLsbD p || decide (w = i / 8) && mask.getLsbD p) := by
  unfold setBits
  by_cases hw : w = i / 8
  · subst hw
    simp only [Function.update_self, BitVec.getLsbD_or, decide_true, Bool.true_and]
  · simp only [Function.update_of_ne hw, hw, decide_false, Bool.false_and, Bool.or_false]

theorem getLsbD_of_or_eq {x mask : BitVec 64} {p : Nat} (heq : x ||| mask = x)
    (hmask : mask.getLsbD p = true) : x.getLsbD p = true := by
  have hbit := congrArg (BitVec.getLsbD · p) heq
  simp only [BitVec.getLsbD_or, hmask, Bool.or_true] at hbit
  exact hbit.symm

theorem getLsbD_bitMask (i : Nat) {p : Nat} (hp : p < 64) :
    (bitMask i).getLsbD p = decide (p = i % 64) := by
  unfold bitMask
  rw [getLsbD_shl_one _ hp, bitInWord_eq, Nat.mod_mod]

theorem bitMask_self (i : Nat) : (bitMask i).getLsbD (i % 64) = true := by
  rw [getLsbD_bitMask i (Nat.mod_lt i (by omega)), decide_eq_true rfl]

theorem bitMask_set (m : MarkBitmap) (i : Nat) :
    m.map (i / 8) ||| bitMask i = m.map (i / 8) ↔ m.bit i = true := by
  constructor
  · intro heq
    exact getLsbD_of_or_eq heq (bitMask_self i)
  · intro hbit
    apply BitVec.eq_of_getLsbD_eq
    intro p hp
    rw [BitVec.getLsbD_or, getLsbD_bitMask i hp]
    by_cases heq : p = i % 64
    · subst heq
      have hset : (m.map (i / 8)).getLsbD (i % 64) = true := hbit
      rw [hset, Bool.true_or]
    · rw [decide_eq_false heq, Bool.or_false]

theorem call_strong (h : m.InHeap a) : m.call (.strong a) =
    .ok (if m.bit (m.addressToIndex a) then m
      else m.setBits (m.addressToIndex a) (bitMask (m.addressToIndex a))) := by
  simp only [call, markStrong, wordAddr_ok (Nat.le_of_lt h.index_lt), Except.ok_bind, bitMask_set]
  by_cases hbit : m.bit (m.addressToIndex a) = true
  · rw [if_pos hbit, if_pos hbit]
    rfl
  · rw [if_neg hbit, if_neg hbit]
    rfl

theorem strong_clear (m : MarkBitmap) (i : Nat) :
    m.map (i / 8) &&& bitMask i ≠ 0 ↔ m.bit i = true := by
  rw [← bne_iff_ne]
  unfold bitMask
  rw [and_shl_one, bitInWord_eq, Nat.mod_mod]
  rfl

theorem call_weak (h : m.InHeap a) : m.call (.weak a) =
    .ok (if m.bit (m.addressToIndex a) then m
      else m.setBits (m.addressToIndex a) (bitMask (m.addressToIndex a) |||
        shl 1 (bitInWord (m.addressToIndex a) + 1))) := by
  simp only [call, markWeak, wordAddr_ok (Nat.le_of_lt h.index_lt), Except.ok_bind, strong_clear]
  by_cases hbit : m.bit (m.addressToIndex a) = true
  · rw [if_pos hbit, if_pos hbit]
    rfl
  · have hnew : ¬m.map (m.addressToIndex a / 8) ||| (bitMask (m.addressToIndex a) |||
        shl 1 (bitInWord (m.addressToIndex a) + 1)) = m.map (m.addressToIndex a / 8) := by
      intro heq
      refine hbit (getLsbD_of_or_eq heq ?_)
      rw [BitVec.getLsbD_or, bitMask_self, Bool.true_or]
    rw [if_neg hbit, if_neg hbit, if_neg hnew]
    rfl

-- The bits that `mark_strong` sets are read as the index it marks.
theorem bit_setStrong (m : MarkBitmap) (i j : Nat) :
    (m.setBits i (bitMask i)).bit j = (m.bit j || decide (j = i)) := by
  unfold bit
  rw [getLsbD_setBits, getLsbD_bitMask i (Nat.mod_lt j (by omega)), ← Bool.decide_and]
  congr 2
  apply propext
  omega

theorem bitAbove_setStrong (m : MarkBitmap) (i j : Nat) :
    (m.setBits i (bitMask i)).bitAbove j = (m.bitAbove j || decide (j + 1 = i ∧ j % 8 ≠ 7)) := by
  unfold bitAbove
  by_cases hlt : j % 64 + 1 < 64
  · rw [getLsbD_setBits, getLsbD_bitMask i hlt, ← Bool.decide_and]
    congr 2
    apply propext
    omega
  · rw [BitVec.getLsbD_of_ge _ _ (by omega), BitVec.getLsbD_of_ge _ _ (by omega), Bool.false_or,
      decide_eq_false (by omega)]

-- Those that `mark_weak` sets are read as the next index, too, unless that has
-- another word.
theorem bit_setWeak (m : MarkBitmap) (i j : Nat) :
    (m.setBits i (bitMask i ||| shl 1 (bitInWord i + 1))).bit j =
      (m.bit j || decide (j = i ∨ j = i + 1 ∧ i % 8 ≠ 7)) := by
  have hj : j % 64 < 64 := Nat.mod_lt j (by omega)
  unfold bit
  rw [getLsbD_setBits, BitVec.getLsbD_or, getLsbD_bitMask i hj, getLsbD_shl_one _ hj, bitInWord_eq,
    ← Bool.decide_or, ← Bool.decide_and]
  congr 2
  apply propext
  omega

theorem bitAbove_setWeak (m : MarkBitmap) (i j : Nat) :
    (m.setBits i (bitMask i ||| shl 1 (bitInWord i + 1))).bitAbove j =
      (m.bitAbove j || decide (j + 1 = i ∧ j % 8 ≠ 7 ∨ j = i ∧ i % 64 ≠ 63)) := by
  unfold bitAbove
  by_cases hlt : j % 64 + 1 < 64
  · rw [getLsbD_setBits, BitVec.getLsbD_or, getLsbD_bitMask i hlt, getLsbD_shl_one _ hlt,
      bitInWord_eq, ← Bool.decide_or, ← Bool.decide_and]
    congr 2
    apply propext
    omega
  · rw [BitVec.getLsbD_of_ge _ _ (by omega), BitVec.getLsbD_of_ge _ _ (by omega), Bool.false_or,
      decide_eq_false (by omega)]

end Writes

-- The call makes of the answers for `b` what it is to make of them.
def Right (m : MarkBitmap) (b : Nat) (c : MarkCall) : Prop :=
  ∃ marks m', m.answers b = .ok marks ∧ m.call c = .ok m' ∧ m'.answers b = .ok (marks.after b c)

-- The 64 bytes of the heap that an address lies in.
def granule (m : MarkBitmap) (addr : Nat) : Nat := (addr - m.covered) / 64

-- A call that sets no bit disturbs nothing. Otherwise `mark_strong` is seen by the
-- objects of the same 64 bytes and of those before; and `mark_weak` by the object itself,
-- as a strong mark, and by the objects of the 64 bytes behind, unless these have
-- another word, or have that bit already.
def Undisturbed (m : MarkBitmap) (b : Nat) : MarkCall → Prop
  | .strong a => m.isMarkedStrong a = .ok true ∨ b = a ∨
      m.granule b ≠ m.granule a ∧ m.granule b + 1 ≠ m.granule a
  | .weak a => m.isMarkedStrong a = .ok true ∨
      m.granule b ≠ m.granule a ∧ m.granule b + 1 ≠ m.granule a ∧
        (m.granule b ≠ m.granule a + 1 ∨ m.granule a % 8 = 7 ∨ m.isMarkedStrong b = .ok true)

section Steps

def marksAt (m : MarkBitmap) (i : Nat) : Marks := ⟨m.bit i, m.bit (i + 1), m.bit i || m.bitAbove i⟩

theorem isMarkedStrong_iff (h : m.InHeap a) :
    m.isMarkedStrong a = .ok true ↔ m.bit (m.granule a) = true := by
  have hindex : m.addressToIndex a = m.granule a := addressToIndex_eq m a
  unfold isMarkedStrong
  rw [bitAt_eq, if_pos h.index_lt, hindex, Except.ok.injEq]

theorem answers_eq (h : m.InHeap b) {marks : Marks} : m.answers b = .ok marks ↔
    m.granule b + 1 < m.size ∧ marks = m.marksAt (m.granule b) := by
  have hindex : m.addressToIndex b = m.granule b := addressToIndex_eq m b
  rw [answers_eq_ok h, hindex]
  rfl

theorem right_iff {c : MarkCall} (hb : m.InHeap b) (hcall : m.call c = .ok m')
    (hsize : m'.size = m.size) (hcovered : m'.covered = m.covered) :
    m.Right b c ↔ m.granule b + 1 < m.size ∧
      m'.marksAt (m.granule b) = (m.marksAt (m.granule b)).after b c := by
  have hb' : m'.InHeap b := by
    obtain ⟨hle, hlt, haligned⟩ := hb
    exact ⟨hcovered ▸ hle, by rw [hcovered, hsize]; exact hlt, hcovered ▸ haligned⟩
  have hgranule : m'.granule b = m.granule b := by
    unfold granule
    rw [hcovered]
  constructor
  · rintro ⟨marks, m'', hbefore, hcall', hafter⟩
    obtain rfl := Except.ok.inj (hcall.symm.trans hcall')
    obtain ⟨hlt, rfl⟩ := (answers_eq hb).mp hbefore
    obtain ⟨_, hmarks⟩ := (answers_eq hb').mp hafter
    exact ⟨hlt, (hgranule ▸ hmarks).symm⟩
  · rintro ⟨hlt, hmarks⟩
    refine ⟨_, m', (answers_eq hb).mpr ⟨hlt, rfl⟩, hcall, (answers_eq hb').mpr ?_⟩
    rw [hgranule, hsize]
    exact ⟨hlt, hmarks.symm⟩

-- A call for an object that is marked strong is to do nothing.
theorem after_of_strong {c : MarkCall} (hbit : m.bit (m.granule c.addr) = true) :
    (m.marksAt (m.granule b)).after b c = m.marksAt (m.granule b) := by
  cases c with
  | strong a =>
      unfold Marks.after
      by_cases hab : a = b
      · have hset : m.bit (m.granule b) = true := hab ▸ hbit
        simp [hab, marksAt, hset]
      · simp [hab]
  | weak a =>
      unfold Marks.after
      by_cases hab : a = b
      · have hset : m.bit (m.granule b) = true := hab ▸ hbit
        simp [hab, marksAt, hset]
      · simp [hab]

theorem right_strong_iff (hb : m.InHeap b) (ha : m.InHeap a) :
    m.Right b (.strong a) ↔ m.granule b + 1 < m.size ∧ m.Undisturbed b (.strong a) := by
  have hcall := call_strong ha
  rw [addressToIndex_eq m a] at hcall
  change m.call (.strong a) = .ok (if m.bit (m.granule a) then m
    else m.setBits (m.granule a) (bitMask (m.granule a))) at hcall
  simp only [Undisturbed, isMarkedStrong_iff ha]
  by_cases hbit : m.bit (m.granule a) = true
  · rw [if_pos hbit] at hcall
    rw [right_iff hb hcall rfl rfl]
    have hnothing := after_of_strong (b := b) (c := .strong a) hbit
    simp [hbit, hnothing]
  · rw [if_neg hbit] at hcall
    rw [right_iff hb hcall rfl rfl]
    refine and_congr_right fun _ => ?_
    have hclear : m.bit (m.granule a) = false := by simpa using hbit
    simp only [marksAt, Marks.after, bit_setStrong, bitAbove_setStrong]
    by_cases hab : a = b
    · subst hab
      simp [hclear]
    · by_cases hsame : m.granule b = m.granule a
      · simp [hab, Ne.symm hab, hsame, hclear]
      · by_cases hbefore : m.granule b + 1 = m.granule a
        · simp [hab, Ne.symm hab, hbefore, hclear]
        · simp [hab, Ne.symm hab, hsame, hbefore]

theorem right_weak_iff (hb : m.InHeap b) (ha : m.InHeap a) :
    m.Right b (.weak a) ↔ m.granule b + 1 < m.size ∧ m.Undisturbed b (.weak a) := by
  have hcall := call_weak ha
  rw [addressToIndex_eq m a] at hcall
  change m.call (.weak a) = .ok (if m.bit (m.granule a) then m
    else m.setBits (m.granule a) (bitMask (m.granule a) ||| shl 1 (bitInWord (m.granule a) + 1)))
    at hcall
  simp only [Undisturbed, isMarkedStrong_iff ha, isMarkedStrong_iff hb]
  by_cases hbit : m.bit (m.granule a) = true
  · rw [if_pos hbit] at hcall
    rw [right_iff hb hcall rfl rfl]
    have hnothing := after_of_strong (b := b) (c := .weak a) hbit
    simp [hbit, hnothing]
  · rw [if_neg hbit] at hcall
    rw [right_iff hb hcall rfl rfl]
    refine and_congr_right fun _ => ?_
    have hclear : m.bit (m.granule a) = false := by simpa using hbit
    simp only [marksAt, Marks.after, bit_setWeak, bitAbove_setWeak]
    by_cases hab : a = b
    · subst hab
      simp [hclear]
    · by_cases hsame : m.granule b = m.granule a
      · simp [hab, hsame, hclear]
      · by_cases hbefore : m.granule b + 1 = m.granule a
        · simp [hab, hbefore, hclear]
        · by_cases hbehind : m.granule b = m.granule a + 1
          · have hfar : m.granule a + 1 + 1 ≠ m.granule a := by omega
            by_cases hlast : m.granule a % 8 = 7
            · simp [hab, hbehind, hclear, hlast, hfar]
            · cases hset : m.bit (m.granule a + 1) with
              | true => simp [hab, hbehind, hclear, hlast, hset, hfar]
              | false => simp [hab, hbehind, hclear, hlast, hset]
          · simp [hab, hsame, hbefore, hbehind]

theorem right_call_iff {c : MarkCall} (hb : m.InHeap b) (hc : m.InHeap c.addr) :
    m.Right b c ↔ m.granule b + 1 < m.size ∧ m.Undisturbed b c := by
  cases c with
  | strong a => exact right_strong_iff hb hc
  | weak a => exact right_weak_iff hb hc

end Steps

-- What was promised of a run: the answers for an object are those for the content
-- that the run began with, changed by the calls for this object.
def MarkRunRight (s : MarkRun) (b : Nat) : Prop :=
  ∃ marks, s.first.answers b = .ok marks ∧
    s.bitmap.answers b = .ok (s.calls.foldl (Marks.after b) marks)

theorem call_layout {c : MarkCall} (hc : m.InHeap c.addr) (hcall : m.call c = .ok m') :
    m'.size = m.size ∧ m'.covered = m.covered := by
  cases c with
  | strong a =>
      rw [call_strong (a := a) hc, Except.ok.injEq] at hcall
      subst hcall
      split
      · exact ⟨rfl, rfl⟩
      · exact ⟨rfl, rfl⟩
  | weak a =>
      rw [call_weak (a := a) hc, Except.ok.injEq] at hcall
      subst hcall
      split
      · exact ⟨rfl, rfl⟩
      · exact ⟨rfl, rfl⟩

theorem run_right {s : MarkRun} (hb : s.first.InHeap b)
    (hlt : s.first.granule b + 1 < s.first.size)
    (hs : markRuns.Via (fun s c => s.bitmap.Undisturbed b c) s) : MarkRunRight s b := by
  have hinv : s.first.InHeap b → s.first.granule b + 1 < s.first.size →
      (s.bitmap.size = s.first.size ∧ s.bitmap.covered = s.first.covered) ∧ MarkRunRight s b := by
    refine Machine.Via.invariant (P := fun s => s.first.InHeap b →
      s.first.granule b + 1 < s.first.size →
      (s.bitmap.size = s.first.size ∧ s.bitmap.covered = s.first.covered) ∧ MarkRunRight s b)
      (fun s hinit hb hlt => ?_) (fun s c t ih hgood hstep hb hlt => ?_) hs
    · obtain ⟨hbitmap, hcalls⟩ := hinit
      have hanswers := (answers_eq hb).mpr ⟨hlt, rfl⟩
      refine ⟨by rw [hbitmap]; exact ⟨rfl, rfl⟩, _, hanswers, ?_⟩
      rw [hbitmap, hcalls]
      exact hanswers
    · obtain ⟨hin, hmap⟩ := Option.ite_none_right_eq_some.mp hstep
      obtain ⟨m', hcall, rfl⟩ := Option.map_eq_some_iff.mp hmap
      rw [Except.toOption_eq_some] at hcall
      obtain ⟨⟨hsize, hcovered⟩, marks, hfirst, hbefore⟩ := ih hb hlt
      obtain ⟨hsize', hcovered'⟩ := call_layout hin hcall
      have hgranule : s.bitmap.granule b = s.first.granule b := by
        unfold granule
        rw [hcovered]
      have hb' : s.bitmap.InHeap b := by
        obtain ⟨hle, hlast, haligned⟩ := hb
        exact ⟨hcovered ▸ hle, by rw [hcovered, hsize]; exact hlast, hcovered ▸ haligned⟩
      have hright := (right_call_iff hb' hin).mpr ⟨by rw [hgranule, hsize]; exact hlt, hgood⟩
      obtain ⟨marks', m'', hbefore', hcall', hafter⟩ := hright
      obtain rfl := Except.ok.inj (hbefore.symm.trans hbefore')
      obtain rfl := Except.ok.inj (hcall.symm.trans hcall')
      refine ⟨⟨hsize'.trans hsize, hcovered'.trans hcovered⟩, marks, hfirst, ?_⟩
      rw [List.foldl_append]
      exact hafter
  exact (hinv hb hlt).2

-- For every content of the bitmap and every call; and for the calls of a whole run.
theorem marks_independent_iff {m : MarkBitmap} {b : Nat} (hb : m.InHeap b) :
    (∀ c : MarkCall, m.InHeap c.addr →
      (m.Right b c ↔ m.granule b + 1 < m.size ∧ m.Undisturbed b c)) ∧
    ∀ s : MarkRun, s.first = m → m.granule b + 1 < m.size →
      markRuns.Via (fun s c => s.bitmap.Undisturbed b c) s → MarkRunRight s b := by
  refine ⟨fun c hc => right_call_iff hb hc, fun s hfirst hlt hs => ?_⟩
  subst hfirst
  exact run_right hb hlt hs

-- 16 KiB of heap, nothing marked.
def clearBitmap : MarkBitmap := new (2 ^ 20) (2 ^ 14) fun _ => 0

theorem marks_independent_iff_clear :
    (∀ c : MarkCall, clearBitmap.InHeap c.addr →
      (clearBitmap.Right (2 ^ 20 + 128) c ↔
        clearBitmap.granule (2 ^ 20 + 128) + 1 < clearBitmap.size ∧
          clearBitmap.Undisturbed (2 ^ 20 + 128) c)) ∧
    ∀ s : MarkRun, s.first = clearBitmap →
      clearBitmap.granule (2 ^ 20 + 128) + 1 < clearBitmap.size →
      markRuns.Via (fun s c => s.bitmap.Undisturbed (2 ^ 20 + 128) c) s →
        MarkRunRight s (2 ^ 20 + 128) :=
  marks_independent_iff (by decide)

-- The neighbour 16 bytes further on seems to be marked as well.
theorem neighbour_marked : ¬∀ (m : MarkBitmap) (a b : Nat), m.InHeap a → m.InHeap b → a ≠ b →
    m.Right b (.strong a) := by
  intro hall
  obtain ⟨marks, m', hbefore, hcall, hafter⟩ :=
    hall clearBitmap (2 ^ 20) (2 ^ 20 + 16) (by decide) (by decide) (by decide)
  have hclear : (clearBitmap.answers (2 ^ 20 + 16)).toOption = some ⟨false, false, false⟩ := by
    decide +kernel
  have hset : ((clearBitmap.call (.strong (2 ^ 20))).toOption.bind fun m' =>
      (m'.answers (2 ^ 20 + 16)).toOption) = some ⟨true, false, true⟩ := by decide +kernel
  obtain rfl := Except.ok.inj (hbefore.symm.trans (Except.toOption_eq_some.mp hclear))
  rw [hcall] at hset
  have hanswers := Except.ok.inj (hafter.symm.trans (Except.toOption_eq_some.mp hset))
  revert hanswers
  decide

end MarkBitmap

end Rsgc.Storage
