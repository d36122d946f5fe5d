import Rsgc.Storage.HeapBitmap
import Rsgc.Utils.SloppyMemset

namespace Rsgc.Storage

-- A write outside the storage of the bitmap.
inductive BitmapFault
  | outsideStorage
deriving DecidableEq, Repr

namespace HeapBitmap

open Utils (sloppyVectors sloppyMemset sloppyStop)

variable {b : HeapBitmap} {m m' : Memory}

def offsetIndexBit (offset : Nat) : Nat := offset / ALIGN % 8

def storeCell (b : HeapBitmap) (m : Memory) (index : Nat) (x : BitVec 8) :
    Except BitmapFault Memory := do
  ensure (index < b.size) BitmapFault.outsideStorage
  pure (Function.update m (b.bmp + index) (UInt8.ofBitVec x))

-- `fetch_and` of the cell
def clearBit (b : HeapBitmap) (m : Memory) (addr : Nat) : Except BitmapFault Memory :=
  let (index, bit) := b.objectStartIndexBit addr
  b.storeCell m index (b.cell m index &&& ~~~(1#8 <<< bit))

-- A load and a store, which come to the same without a concurrent writer.
def clearAtomic (b : HeapBitmap) (m : Memory) (addr : Nat) : Except BitmapFault Memory :=
  let (index, bit) := b.objectStartIndexBit addr
  let cell := b.cell m index
  b.storeCell m index (cell &&& ~~~(1#8 <<< bit))

-- The first loop of both functions, up to a cell boundary; `clear` is the one bit
-- they clear in a round, `fuel` bounds the rounds.
def clearHead (b : HeapBitmap) (clear : Memory → Nat → Except BitmapFault Memory)
    (endOffset : Nat) : Nat → Memory → Nat → Except BitmapFault (Memory × Nat)
  | 0, m, beginOffset => pure (m, beginOffset)
  | fuel + 1, m, beginOffset =>
      if beginOffset < endOffset ∧ offsetIndexBit beginOffset ≠ 0 then do
        let m ← clear m (b.offset + beginOffset)
        clearHead b clear endOffset fuel m (beginOffset + ALIGN)
      else pure (m, beginOffset)

-- The second loop, down to a cell boundary.
def clearTail (b : HeapBitmap) (clear : Memory → Nat → Except BitmapFault Memory)
    (beginOffset : Nat) : Nat → Memory → Nat → Except BitmapFault (Memory × Nat)
  | 0, m, endOffset => pure (m, endOffset)
  | fuel + 1, m, endOffset =>
      if beginOffset < endOffset ∧ offsetIndexBit endOffset ≠ 0 then do
        let m ← clear m (b.offset + (endOffset - ALIGN))
        clearTail b clear beginOffset fuel m (endOffset - ALIGN)
      else pure (m, endOffset)

-- What is left is the cells from the first to before the second index.
def clearEdges (b : HeapBitmap) (clear : Memory → Nat → Except BitmapFault Memory) (m : Memory)
    (start stop : Nat) : Except BitmapFault (Memory × Nat × Nat) := do
  let beginOffset := start - b.offset
  let endOffset := stop - b.offset
  let head ← b.clearHead clear endOffset (endOffset - beginOffset) m beginOffset
  let tail ← b.clearTail clear head.2 (endOffset - head.2) head.1 endOffset
  pure (tail.1, head.2 / ALIGN / 8, tail.2 / ALIGN / 8)

def clearRange (b : HeapBitmap) (m : Memory) (start stop : Nat) : Except BitmapFault Memory := do
  let edges ← b.clearEdges b.clearBit m start stop
  let ptr := b.bmp + edges.2.1
  let len := edges.2.2 - edges.2.1
  ensure (∀ p ∈ sloppyVectors ptr len, b.bmp ≤ p ∧ p + 16 ≤ b.bmp + b.size)
    BitmapFault.outsideStorage
  pure (sloppyMemset edges.1 ptr 0 len)

def storeZeros (b : HeapBitmap) : List Nat → Memory → Except BitmapFault Memory
  | [], m => pure m
  | index :: rest, m => do
      let m ← b.storeCell m index 0
      b.storeZeros rest m

def clearRangeAtomic (b : HeapBitmap) (m : Memory) (start stop : Nat) :
    Except BitmapFault Memory := do
  let edges ← b.clearEdges b.clearAtomic m start stop
  b.storeZeros (List.range' edges.2.1 (edges.2.2 - edges.2.1)) edges.1

section Clears

-- From `m` to `m'` the bits with `p` are cleared and nothing else changes.
structure Clears (b : HeapBitmap) (m m' : Memory) (p : Nat → Prop) : Prop where
  outside : ∀ a, a < b.bmp ∨ b.bmp + b.size ≤ a → m' a = m a
  bits_iff : ∀ i, i < 8 * b.size → (b.bits m' i = true ↔ b.bits m i = true ∧ ¬p i)

theorem Clears.refl (b : HeapBitmap) (m : Memory) {p : Nat → Prop} (hp : ∀ i, ¬p i) :
    b.Clears m m p :=
  ⟨fun _ _ => rfl, fun i _ => by simp [hp i]⟩

theorem Clears.trans {m'' : Memory} {p q : Nat → Prop} (h : b.Clears m m' p)
    (h' : b.Clears m' m'' q) : b.Clears m m'' fun i => p i ∨ q i := by
  refine ⟨fun a ha => (h'.outside a ha).trans (h.outside a ha), fun i hi => ?_⟩
  rw [h'.bits_iff i hi, h.bits_iff i hi, and_assoc, not_or]

-- Only the bits that are set matter.
theorem Clears.congr {p q : Nat → Prop} (h : b.Clears m m' p)
    (hpq : ∀ i, i < 8 * b.size → b.bits m i = true → (p i ↔ q i)) : b.Clears m m' q := by
  refine ⟨h.outside, fun i hi => ?_⟩
  rw [h.bits_iff i hi]
  exact and_congr_right fun hset => not_congr (hpq i hi hset)

theorem Clears.unique {p q : Nat → Prop} (h : b.Clears m m' p) (h' : b.Clears m m' q) {i : Nat}
    (hi : i < 8 * b.size) (hset : b.bits m i = true) : p i ↔ q i := by
  have hsame := (h.bits_iff i hi).symm.trans (h'.bits_iff i hi)
  simpa [hset, not_iff_not] using hsame

theorem bits_update (b : HeapBitmap) (m : Memory) (index i : Nat) (x : BitVec 8) :
    b.bits (Function.update m (b.bmp + index) (UInt8.ofBitVec x)) i =
      if i / 8 = index then x.getLsbD (i % 8) else b.bits m i := by
  unfold bits cell
  rw [Function.update_apply]
  by_cases hi : i / 8 = index
  · rw [if_pos hi, if_pos (by omega)]
  · rw [if_neg hi, if_neg (by omega)]

-- A cell of the storage keeps the bits that `x` keeps.
theorem storeCell_clears {index : Nat} {x : BitVec 8} {p : Nat → Prop} (hlt : index < b.size)
    (hx : ∀ i, i < 8 → (x.getLsbD i = true ↔
      (b.cell m index).getLsbD i = true ∧ ¬p (8 * index + i)))
    (hp : ∀ i, p i → i / 8 = index) :
    ∃ m', b.storeCell m index x = .ok m' ∧ b.Clears m m' p := by
  refine ⟨Function.update m (b.bmp + index) (UInt8.ofBitVec x), ?_, fun a ha => ?_, fun i _ => ?_⟩
  · simp only [storeCell, ensure, hlt, if_true, Except.ok_bind]
    rfl
  · exact Function.update_of_ne (by omega) _ _
  · rw [bits_update]
    by_cases hi : i / 8 = index
    · have hin := hx (i % 8) (by omega)
      rw [show 8 * index + i % 8 = i by omega] at hin
      rw [if_pos hi, hin, bits, hi]
    · have hnot : ¬p i := fun h => hi (hp i h)
      rw [if_neg hi]
      simp [hnot]

end Clears

section Edges

-- One round of either loop: the bit of a unit in the storage.
def ClearsUnit (b : HeapBitmap) (clear : Memory → Nat → Except BitmapFault Memory) : Prop :=
  ∀ m i, i < 8 * b.size →
    ∃ m', clear m (b.offset + ALIGN * i) = .ok m' ∧ b.Clears m m' fun j => j = i

theorem clearBit_clears (b : HeapBitmap) : b.ClearsUnit b.clearBit := by
  intro m i hi
  have hunit : (b.offset + ALIGN * i - b.offset) / ALIGN = i := by
    unfold ALIGN
    omega
  unfold clearBit
  rw [objectStartIndexBit_eq, hunit]
  refine storeCell_clears (by omega) (fun k hk => ?_) fun j hj => by rw [hj]
  have hbit : (1#8 <<< (i % 8)).getLsbD k = true ↔ k = i % 8 := by
    rw [BitVec.getLsbD_shiftLeft]
    have hone : (1#8).getLsbD (k - i % 8) = true ↔ k - i % 8 = 0 := by simp
    by_cases hge : k < i % 8
    · simp [hge]
      omega
    · simp only [hk, hge, decide_true, decide_false, Bool.not_false, Bool.true_and, hone]
      omega
  rw [BitVec.getLsbD_and, BitVec.getLsbD_not]
  simp only [hk, decide_true, Bool.true_and, Bool.and_eq_true, Bool.not_eq_true',
    ← Bool.not_eq_true, hbit]
  refine and_congr_right fun _ => not_congr ?_
  omega

-- Where the first loop ends, and where the second one ends from there.
def firstBoundary (lo hi : Nat) : Nat := min hi ((lo + 7) / 8 * 8)

def lastBoundary (lo hi : Nat) : Nat := max lo (hi / 8 * 8)

theorem clearHead_eq {clear : Memory → Nat → Except BitmapFault Memory} (hclear : b.ClearsUnit clear)
    {hi fuel lo : Nat} (hle : lo ≤ hi) (hsize : hi ≤ 8 * b.size) (hfuel : hi ≤ lo + fuel) :
    ∃ m', b.clearHead clear (ALIGN * hi) fuel m (ALIGN * lo) =
        .ok (m', ALIGN * firstBoundary lo hi) ∧
      b.Clears m m' fun i => lo ≤ i ∧ i < firstBoundary lo hi := by
  induction fuel generalizing m lo with
  | zero =>
      have hsame : firstBoundary lo hi = lo := by
        unfold firstBoundary
        omega
      rw [hsame]
      exact ⟨m, rfl, Clears.refl b m fun i => by omega⟩
  | succ fuel ih =>
      have hindex : offsetIndexBit (ALIGN * lo) = lo % 8 := by
        unfold offsetIndexBit ALIGN
        omega
      unfold clearHead
      by_cases hgo : lo < hi ∧ lo % 8 ≠ 0
      · have hguard : ALIGN * lo < ALIGN * hi ∧ offsetIndexBit (ALIGN * lo) ≠ 0 := by
          rw [hindex]
          exact ⟨Nat.mul_lt_mul_of_pos_left hgo.1 (by decide), hgo.2⟩
        obtain ⟨mid, hbit, hmid⟩ := hclear m lo (by omega)
        obtain ⟨last, hrest, hlast⟩ := @ih mid (lo + 1) (by omega) (by omega)
        have hsame : firstBoundary (lo + 1) hi = firstBoundary lo hi := by
          unfold firstBoundary
          omega
        have hbeyond : lo < firstBoundary lo hi := by
          unfold firstBoundary
          omega
        rw [hsame] at hrest hlast
        refine ⟨last, ?_, (hmid.trans hlast).congr fun i _ _ => by omega⟩
        rw [if_pos hguard, hbit, Except.ok_bind]
        exact hrest
      · have hguard : ¬(ALIGN * lo < ALIGN * hi ∧ offsetIndexBit (ALIGN * lo) ≠ 0) := by
          rw [hindex]
          rintro ⟨hlt, hne⟩
          exact hgo ⟨Nat.lt_of_mul_lt_mul_left hlt, hne⟩
        have hsame : firstBoundary lo hi = lo := by
          unfold firstBoundary
          omega
        rw [if_neg hguard, hsame]
        exact ⟨m, rfl, Clears.refl b m fun i => by omega⟩

theorem clearTail_eq {clear : Memory → Nat → Except BitmapFault Memory} (hclear : b.ClearsUnit clear)
    {lo fuel hi : Nat} (hle : lo ≤ hi) (hsize : hi ≤ 8 * b.size) (hfuel : hi ≤ lo + fuel) :
    ∃ m', b.clearTail clear (ALIGN * lo) fuel m (ALIGN * hi) =
        .ok (m', ALIGN * lastBoundary lo hi) ∧
      b.Clears m m' fun i => lastBoundary lo hi ≤ i ∧ i < hi := by
  induction fuel generalizing m hi with
  | zero =>
      have hsame : lastBoundary lo hi = hi := by
        unfold lastBoundary
        omega
      rw [hsame]
      exact ⟨m, rfl, Clears.refl b m fun i => by omega⟩
  | succ fuel ih =>
      have hindex : offsetIndexBit (ALIGN * hi) = hi % 8 := by
        unfold offsetIndexBit ALIGN
        omega
      unfold clearTail
      by_cases hgo : lo < hi ∧ hi % 8 ≠ 0
      · have hguard : ALIGN * lo < ALIGN * hi ∧ offsetIndexBit (ALIGN * hi) ≠ 0 := by
          rw [hindex]
          exact ⟨Nat.mul_lt_mul_of_pos_left hgo.1 (by decide), hgo.2⟩
        have hprev : ALIGN * hi - ALIGN = ALIGN * (hi - 1) := by
          rw [Nat.mul_sub, Nat.mul_one]
        obtain ⟨mid, hbit, hmid⟩ := hclear m (hi - 1) (by omega)
        obtain ⟨last, hrest, hlast⟩ := @ih mid (hi - 1) (by omega) (by omega) (by omega)
        have hsame : lastBoundary lo (hi - 1) = lastBoundary lo hi := by
          unfold lastBoundary
          omega
        have hbefore : lastBoundary lo hi < hi := by
          unfold lastBoundary
          omega
        rw [hsame] at hrest hlast
        refine ⟨last, ?_, (hmid.trans hlast).congr fun i _ _ => by omega⟩
        rw [if_pos hguard, hprev, hbit, Except.ok_bind]
        exact hrest
      · have hguard : ¬(ALIGN * lo < ALIGN * hi ∧ offsetIndexBit (ALIGN * hi) ≠ 0) := by
          rw [hindex]
          rintro ⟨hlt, hne⟩
          exact hgo ⟨Nat.lt_of_mul_lt_mul_left hlt, hne⟩
        have hsame : lastBoundary lo hi = hi := by
          unfold lastBoundary
          omega
        rw [if_neg hguard, hsame]
        exact ⟨m, rfl, Clears.refl b m fun i => by omega⟩

theorem clearEdges_eq {clear : Memory → Nat → Except BitmapFault Memory}
    (hclear : b.ClearsUnit clear) {lo hi : Nat} (hle : lo ≤ hi) (hsize : hi ≤ 8 * b.size) :
    ∃ m', b.clearEdges clear m (b.offset + ALIGN * lo) (b.offset + ALIGN * hi) =
        .ok (m', firstBoundary lo hi / 8, lastBoundary (firstBoundary lo hi) hi / 8) ∧
      b.Clears m m' fun i => lo ≤ i ∧ i < firstBoundary lo hi ∨
        lastBoundary (firstBoundary lo hi) hi ≤ i ∧ i < hi := by
  have hfirst : firstBoundary lo hi ≤ hi := by
    unfold firstBoundary
    omega
  have hrounds : ∀ n k : Nat, k ≤ n → n ≤ k + (ALIGN * n - ALIGN * k) := by
    unfold ALIGN
    omega
  obtain ⟨mid, hhead, hmid⟩ :=
    clearHead_eq (m := m) hclear hle hsize (hrounds hi lo hle)
  obtain ⟨last, htail, hlast⟩ :=
    clearTail_eq (m := mid) hclear hfirst hsize (hrounds hi (firstBoundary lo hi) hfirst)
  refine ⟨last, ?_, hmid.trans hlast⟩
  have hunit : ∀ k, ALIGN * k / ALIGN = k := fun k => Nat.mul_div_cancel_left k (by decide)
  unfold clearEdges
  simp only [Nat.add_sub_cancel_left, hhead, Except.ok_bind, htail, hunit]
  rfl

end Edges

section Ranges

theorem storeZeros_clears (indices : List Nat) (hin : ∀ index ∈ indices, index < b.size) :
    ∃ m', b.storeZeros indices m = .ok m' ∧ b.Clears m m' fun i => i / 8 ∈ indices := by
  induction indices generalizing m with
  | nil => exact ⟨m, rfl, Clears.refl b m fun i => by simp⟩
  | cons index rest ih =>
      obtain ⟨mid, hcell, hmid⟩ :=
        storeCell_clears (m := m) (x := 0) (p := fun i => i / 8 = index)
          (hin index List.mem_cons_self) (fun i hi => by simp; omega) fun i hi => hi
      obtain ⟨last, hrest, hlast⟩ :=
        ih (m := mid) fun i hi => hin i (List.mem_cons_of_mem index hi)
      refine ⟨last, ?_, (hmid.trans hlast).congr fun i _ _ => List.mem_cons.symm⟩
      unfold storeZeros
      rw [hcell, Except.ok_bind, hrest]

theorem sloppyMemset_clears {index len : Nat}
    (hstop : sloppyStop (b.bmp + index) len ≤ b.bmp + b.size) :
    b.Clears m (sloppyMemset m (b.bmp + index) 0 len) fun i =>
      8 * index ≤ i ∧ i < 8 * (sloppyStop (b.bmp + index) len - b.bmp) := by
  constructor
  · intro a ha
    rw [Utils.sloppyMemset_apply, if_neg (by omega)]
  · intro i hi
    have hcell : b.bmp + index ≤ b.bmp + i / 8 ∧ b.bmp + i / 8 < sloppyStop (b.bmp + index) len ↔
        8 * index ≤ i ∧ i < 8 * (sloppyStop (b.bmp + index) len - b.bmp) := by omega
    unfold bits cell
    rw [Utils.sloppyMemset_apply]
    by_cases hin : 8 * index ≤ i ∧ i < 8 * (sloppyStop (b.bmp + index) len - b.bmp)
    · rw [if_pos (hcell.mpr hin)]
      simp [hin]
    · rw [if_neg fun h => hin (hcell.mp h)]
      simp [hin]

-- Exactly the bits of the addresses from `start` to before `stop` are cleared.
def ClearsRange (b : HeapBitmap) (clear : Memory → Nat → Nat → Except BitmapFault Memory)
    (m : Memory) (start stop : Nat) : Prop :=
  ∃ m', clear m start stop = .ok m' ∧
    b.Clears m m' fun i => start ≤ b.offset + ALIGN * i ∧ b.offset + ALIGN * i < stop

-- The whole cells of a range of units, and where the fill over them ends.
def firstCell (lo hi : Nat) : Nat := firstBoundary lo hi / 8

def wholeCells (lo hi : Nat) : Nat :=
  lastBoundary (firstBoundary lo hi) hi / 8 - firstBoundary lo hi / 8

def fillStop (b : HeapBitmap) (lo hi : Nat) : Nat :=
  sloppyStop (b.bmp + firstCell lo hi) (wholeCells lo hi) - b.bmp

-- What the fill writes is in the storage, and no bit behind the range is set there.
def FillsInside (b : HeapBitmap) (m : Memory) (lo hi : Nat) : Prop :=
  b.fillStop lo hi ≤ b.size ∧
    ∀ i, 8 * firstCell lo hi ≤ i → i < 8 * b.fillStop lo hi → b.bits m i = true → lo ≤ i ∧ i < hi

theorem clearRangeAtomic_clears {lo hi : Nat} (hle : lo ≤ hi) (hsize : hi ≤ 8 * b.size) :
    b.ClearsRange b.clearRangeAtomic m (b.offset + ALIGN * lo) (b.offset + ALIGN * hi) := by
  have hatomic : b.ClearsUnit b.clearAtomic := clearBit_clears b
  obtain ⟨mid, hedges, hmid⟩ := clearEdges_eq (m := m) hatomic hle hsize
  obtain ⟨last, hzeros, hlast⟩ := storeZeros_clears (b := b) (m := mid)
    (List.range' (firstCell lo hi) (wholeCells lo hi)) fun index hin => by
      rw [List.mem_range'_1] at hin
      unfold firstCell wholeCells firstBoundary lastBoundary at hin
      omega
  refine ⟨last, ?_, (hmid.trans hlast).congr fun i _ _ => ?_⟩
  · unfold clearRangeAtomic
    rw [hedges, Except.ok_bind]
    exact hzeros
  · rw [List.mem_range'_1]
    unfold firstCell wholeCells firstBoundary lastBoundary ALIGN
    omega

-- A fill that ends in the storage clears, with the edges, all it reaches.
theorem clearRange_clears {lo hi : Nat} (hle : lo ≤ hi) (hsize : hi ≤ 8 * b.size)
    (hstop : b.fillStop lo hi ≤ b.size) :
    ∃ m', b.clearRange m (b.offset + ALIGN * lo) (b.offset + ALIGN * hi) = .ok m' ∧
      b.Clears m m' fun i => (lo ≤ i ∧ i < hi) ∨
        8 * firstCell lo hi ≤ i ∧ i < 8 * b.fillStop lo hi := by
  obtain ⟨mid, hedges, hmid⟩ := clearEdges_eq (m := m) (clearBit_clears b) hle hsize
  have hend : sloppyStop (b.bmp + firstCell lo hi) (wholeCells lo hi) ≤ b.bmp + b.size := by
    unfold fillStop at hstop
    omega
  have hvectors : ∀ v ∈ sloppyVectors (b.bmp + firstCell lo hi) (wholeCells lo hi),
      b.bmp ≤ v ∧ v + 16 ≤ b.bmp + b.size := fun v hv => by
    have hin := (Utils.sloppyVectors_below _ _ _).mpr hend v hv
    omega
  refine ⟨_, ?_, (hmid.trans (sloppyMemset_clears (m := mid) hend)).congr fun i _ _ => ?_⟩
  · unfold clearRange
    rw [hedges, Except.ok_bind, Except.bind_eq_ok]
    exact ⟨(), Except.ensure_eq_ok.mpr hvectors, rfl⟩
  · have hreach := Utils.le_sloppyStop (b.bmp + firstCell lo hi) (wholeCells lo hi)
    unfold fillStop
    generalize sloppyStop (b.bmp + firstCell lo hi) (wholeCells lo hi) = last at *
    unfold firstCell wholeCells at *
    unfold firstBoundary lastBoundary at *
    omega

theorem clearRange_stops {lo hi : Nat} (hle : lo ≤ hi) (hsize : hi ≤ 8 * b.size)
    (hclear : b.clearRange m (b.offset + ALIGN * lo) (b.offset + ALIGN * hi) = .ok m') :
    b.fillStop lo hi ≤ b.size := by
  obtain ⟨mid, hedges, _⟩ := clearEdges_eq (m := m) (clearBit_clears b) hle hsize
  unfold clearRange at hclear
  rw [hedges, Except.ok_bind, Except.bind_eq_ok] at hclear
  obtain ⟨_, hinside, _⟩ := hclear
  rw [Except.ensure_eq_ok] at hinside
  have hend := (Utils.sloppyVectors_below (b.bmp + firstCell lo hi) (wholeCells lo hi)
    (b.bmp + b.size)).mp fun v hv => ⟨?_, (hinside v hv).2⟩
  · unfold fillStop
    omega
  · have hv := (Utils.sloppyVectors_covers (b.bmp + firstCell lo hi) (wholeCells lo hi) v).mp
      ⟨v, hv, by omega, by omega⟩
    exact hv.1

-- The two agree on the range exactly when the fill stays inside.
theorem clear_range_agrees_iff {start stop : Nat} (hoffset : b.offset ≤ start) (hle : start ≤ stop)
    (halign : ALIGN ∣ b.offset) (hstart : ALIGN ∣ start) (hstop : ALIGN ∣ stop)
    (hsize : stop ≤ b.offset + objectOffset b.size) :
    (b.ClearsRange b.clearRange m start stop ∧ b.ClearsRange b.clearRangeAtomic m start stop) ↔
      b.FillsInside m ((start - b.offset) / ALIGN) ((stop - b.offset) / ALIGN) := by
  obtain ⟨lo, rfl⟩ : ∃ lo, start = b.offset + ALIGN * lo :=
    ⟨(start - b.offset) / ALIGN, by unfold ALIGN at *; omega⟩
  obtain ⟨hi, rfl⟩ : ∃ hi, stop = b.offset + ALIGN * hi :=
    ⟨(stop - b.offset) / ALIGN, by unfold ALIGN at *; omega⟩
  have hunit : ∀ k, (b.offset + ALIGN * k - b.offset) / ALIGN = k := by
    unfold ALIGN
    omega
  have hunits : lo ≤ hi := by
    unfold ALIGN at hle
    omega
  have hcells : hi ≤ 8 * b.size := by
    unfold objectOffset ALIGN at hsize
    omega
  have hrange : ∀ i, b.offset + ALIGN * lo ≤ b.offset + ALIGN * i ∧
      b.offset + ALIGN * i < b.offset + ALIGN * hi ↔ lo ≤ i ∧ i < hi := by
    unfold ALIGN
    omega
  rw [hunit, hunit]
  constructor
  · rintro ⟨⟨last, hclear, hexact⟩, _⟩
    have hstops := clearRange_stops hunits hcells hclear
    obtain ⟨last', hclear', hreached⟩ := clearRange_clears (m := m) hunits hcells hstops
    obtain rfl : last = last' := Except.ok.inj (hclear.symm.trans hclear')
    refine ⟨hstops, fun i hl hr hset => ?_⟩
    exact (hrange i).mp ((hexact.unique hreached (by omega) hset).mpr (Or.inr ⟨hl, hr⟩))
  · rintro ⟨hstops, hinside⟩
    obtain ⟨last, hclear, hreached⟩ := clearRange_clears (m := m) hunits hcells hstops
    refine ⟨⟨last, hclear, hreached.congr fun i _ hset => ?_⟩,
      clearRangeAtomic_clears hunits hcells⟩
    rw [hrange]
    constructor
    · rintro (hin | ⟨hl, hr⟩)
      · exact hin
      · exact hinside i hl hr hset
    · exact Or.inl

-- Sixteen cells in a bitmap of thirty-two, all of them set.
theorem clear_range_agrees_iff_half :
    (ClearsRange ⟨4096, 0, 32⟩ (clearRange ⟨4096, 0, 32⟩) (fun _ => 0xff) 4096 6144 ∧
        ClearsRange ⟨4096, 0, 32⟩ (clearRangeAtomic ⟨4096, 0, 32⟩) (fun _ => 0xff) 4096 6144) ↔
      FillsInside ⟨4096, 0, 32⟩ (fun _ => 0xff) 0 128 :=
  clear_range_agrees_iff (by decide) (by decide) (by decide) (by decide) (by decide) (by decide)

-- A range of one cell clears the fifteen behind it as well.
theorem clear_range_clears_beyond :
    ¬ClearsRange ⟨4096, 0, 32⟩ (clearRange ⟨4096, 0, 32⟩) (fun _ => 0xff) 4096 4224 := by
  rintro ⟨last, hclear, hexact⟩
  have hcell : (clearRange ⟨4096, 0, 32⟩ (fun _ => 0xff) 4096 4224).map
      (fun m => bits ⟨4096, 0, 32⟩ m 8) = .ok false := by decide +kernel
  rw [hclear] at hcell
  have hcleared : bits ⟨4096, 0, 32⟩ last 8 = false := Except.ok.inj hcell
  have hkept := (hexact.bits_iff 8 (by decide)).mpr ⟨by decide, by decide⟩
  rw [hcleared] at hkept
  cases hkept

-- With a bitmap of four cells the fill leaves the storage, also for an empty range.
example : (clearRange (new 4096 512 0) (fun _ => 0xff) 4096 4096).isOk = false := by
  decide +kernel

end Ranges

end HeapBitmap

end Rsgc.Storage
