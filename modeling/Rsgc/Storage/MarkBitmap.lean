import Mathlib.Algebra.Group.Nat.Defs
import Mathlib.Logic.Function.Basic
import Rsgc.Lib.Except
import Rsgc.Lib.Machine

namespace Rsgc.Storage

inductive MarkPanic
  | limitOutOfBounds
  | indexOutOfBounds
deriving DecidableEq, Repr

-- `LOG_BITS_PER_WORD` of a target with pointers of 64 bits
def LOG_BITS_PER_WORD : Nat := 3

def BITS_PER_WORD : Nat := 64

def LOG_MIN_OBJECT_ALIGNMENT : Nat := 4

-- `map` has the words of the bitmap, and `covered` is the start of the heap.
structure MarkBitmap where
  map : Nat → BitVec 64
  size : Nat
  covered : Nat

-- What the three queries say of an object.
structure Marks where
  strong : Bool
  weak : Bool
  marked : Bool
deriving DecidableEq, Repr

inductive MarkCall
  | strong (addr : Nat)
  | weak (addr : Nat)
deriving DecidableEq, Repr

def MarkCall.addr : MarkCall → Nat
  | .strong addr => addr
  | .weak addr => addr

namespace MarkBitmap

-- A bitmap for `heapSize` bytes of heap, whose storage has any content.
def new (heapStart heapSize : Nat) (storage : Nat → BitVec 64) : MarkBitmap where
  map := storage
  size := (heapSize / 8 * 2) >>> LOG_MIN_OBJECT_ALIGNMENT
  covered := heapStart

def rawToWordsAlignDown (bit : Nat) : Nat := bit >>> LOG_BITS_PER_WORD

def bitInWord (bit : Nat) : Nat := bit &&& (BITS_PER_WORD - 1)

-- A shift by more than 63 is taken modulo 64.
def shl (value : BitVec 64) (n : Nat) : BitVec 64 := value <<< (n % 64)

def bitMask (bit : Nat) : BitVec 64 := shl 1 (bitInWord bit)

-- The index of the word that `word_addr` points to.
def wordAddr (m : MarkBitmap) (bit : Nat) : Except MarkPanic Nat := do
  ensure (bit ≤ m.size) MarkPanic.limitOutOfBounds
  pure (rawToWordsAlignDown bit)

-- `at`
def bitAt (m : MarkBitmap) (index : Nat) : Except MarkPanic Bool := do
  ensure (index < m.size) MarkPanic.indexOutOfBounds
  let word ← m.wordAddr index
  pure (m.map word &&& bitMask index != 0)

-- `offset_from` counts words of 8 bytes.
def addressToIndex (m : MarkBitmap) (addr : Nat) : Nat :=
  (((addr - m.covered) / 8) <<< 1) >>> LOG_MIN_OBJECT_ALIGNMENT

-- In a run of one thread the exchange is repeated only where it fails spuriously.
-- The result comes with `was_upgraded` as the call leaves it.
def markStrong (m : MarkBitmap) (addr : Nat) (wasUpgraded : Bool) :
    Except MarkPanic ((Bool × Bool) × MarkBitmap) := do
  let bit := m.addressToIndex addr
  let word ← m.wordAddr bit
  let maskWeak := shl 1 (bitInWord bit + 1)
  let oldVal := m.map word
  let newVal := oldVal ||| bitMask bit
  if newVal = oldVal then pure ((false, wasUpgraded), m)
  else pure ((true, oldVal &&& maskWeak != 0), { m with map := Function.update m.map word newVal })

def markWeak (m : MarkBitmap) (addr : Nat) : Except MarkPanic (Bool × MarkBitmap) := do
  let bit := m.addressToIndex addr
  let word ← m.wordAddr bit
  let mask := bitMask bit ||| shl 1 (bitInWord bit + 1)
  let maskStrong := bitMask bit
  let oldVal := m.map word
  if oldVal &&& maskStrong ≠ 0 then pure (false, m)
  else
    let newVal := oldVal ||| mask
    if newVal = oldVal then pure (false, m)
    else pure (true, { m with map := Function.update m.map word newVal })

def isMarkedStrong (m : MarkBitmap) (addr : Nat) : Except MarkPanic Bool :=
  m.bitAt (m.addressToIndex addr)

def isMarkedWeak (m : MarkBitmap) (addr : Nat) : Except MarkPanic Bool :=
  m.bitAt (m.addressToIndex addr + 1)

def isMarked (m : MarkBitmap) (addr : Nat) : Except MarkPanic Bool := do
  let index := m.addressToIndex addr
  let mask := shl 3 (bitInWord index)
  let word ← m.wordAddr index
  pure (m.map word &&& mask != 0)

def call (m : MarkBitmap) : MarkCall → Except MarkPanic MarkBitmap
  | .strong addr => (m.markStrong addr false).map Prod.snd
  | .weak addr => (m.markWeak addr).map Prod.snd

def answers (m : MarkBitmap) (addr : Nat) : Except MarkPanic Marks := do
  let strong ← m.isMarkedStrong addr
  let weak ← m.isMarkedWeak addr
  let marked ← m.isMarked addr
  pure ⟨strong, weak, marked⟩

-- The addresses of objects; the heap is a whole number of regions.
structure InHeap (m : MarkBitmap) (addr : Nat) : Prop where
  le : m.covered ≤ addr
  lt : addr < m.covered + 64 * m.size
  aligned : 16 ∣ addr - m.covered

instance (m : MarkBitmap) (addr : Nat) : Decidable (m.InHeap addr) :=
  decidable_of_iff (m.covered ≤ addr ∧ addr < m.covered + 64 * m.size ∧ 16 ∣ addr - m.covered)
    ⟨fun h => ⟨h.1, h.2.1, h.2.2⟩, fun h => ⟨h.le, h.lt, h.aligned⟩⟩

end MarkBitmap

-- What is to become of the answers for one object in a call: a call for this
-- object marks it, where `mark_weak` leaves an object that is marked strong, and
-- a call for another one does nothing.
def Marks.after (b : Nat) (marks : Marks) : MarkCall → Marks
  | .strong addr => if addr = b then ⟨true, marks.weak, true⟩ else marks
  | .weak addr =>
      if addr = b then ⟨marks.strong, marks.weak || !marks.strong, true⟩ else marks

-- A run from the content `first`, which the source does not keep, nor the calls.
structure MarkRun where
  first : MarkBitmap
  bitmap : MarkBitmap
  calls : List MarkCall

def MarkRun.step (s : MarkRun) (c : MarkCall) : Option MarkRun :=
  if s.bitmap.InHeap c.addr then
    (s.bitmap.call c).toOption.map fun bitmap => { s with bitmap, calls := s.calls ++ [c] }
  else none

def markRuns : Machine MarkRun MarkCall where
  init s := s.bitmap = s.first ∧ s.calls = []
  step := MarkRun.step

namespace MarkBitmap

section Words

variable {x : BitVec 64} {n p : Nat}

theorem getLsbD_shl_one (n : Nat) (hp : p < 64) :
    (shl 1 n).getLsbD p = decide (p = n % 64) := by
  unfold shl
  rw [BitVec.getLsbD_shiftLeft]
  by_cases hlt : p < n % 64
  · have hne : p ≠ n % 64 := by omega
    simp [hlt, hne]
  · have hone : (1#64).getLsbD (p - n % 64) = decide (p = n % 64) := by
      rw [BitVec.getLsbD_one]
      by_cases heq : p = n % 64
      · simp [heq]
      · simp [heq]
        omega
    simp only [hp, hlt, decide_true, decide_false, Bool.not_false, Bool.true_and]
    exact hone

theorem getLsbD_shl_three (hn : n < 64) (hp : p < 64) :
    (shl 3 n).getLsbD p = decide (p = n ∨ p = n + 1) := by
  have hthree : ∀ i < 64, (3#64).getLsbD i = decide (i < 2) := by decide
  unfold shl
  rw [BitVec.getLsbD_shiftLeft, Nat.mod_eq_of_lt hn]
  by_cases hlt : p < n
  · have hne : ¬(p = n ∨ p = n + 1) := by omega
    simp [hlt, hne]
  · have hsub : (3#64).getLsbD (p - n) = decide (p = n ∨ p = n + 1) := by
      rw [hthree _ (by omega)]
      apply decide_eq_decide.mpr
      omega
    simp only [hp, hlt, decide_true, decide_false, Bool.not_false, Bool.true_and]
    exact hsub

theorem and_ne_zero_iff {mask : BitVec 64} :
    (x &&& mask != 0) = true ↔ ∃ p < 64, mask.getLsbD p = true ∧ x.getLsbD p = true := by
  rw [bne_iff_ne]
  constructor
  · intro hne
    by_contra hnone
    refine hne (BitVec.eq_of_getLsbD_eq fun p hp => ?_)
    have hbit : (x.getLsbD p && mask.getLsbD p) = false := by
      by_contra hset
      rw [Bool.not_eq_false, Bool.and_eq_true] at hset
      exact hnone ⟨p, hp, hset.2, hset.1⟩
    simp [BitVec.getLsbD_and, hbit]
  · rintro ⟨p, _, hmask, hx⟩ hzero
    have hbit := congrArg (BitVec.getLsbD · p) hzero
    simp [hmask, hx] at hbit

theorem and_shl_one (n : Nat) : (x &&& shl 1 n != 0) = x.getLsbD (n % 64) := by
  have hlt : n % 64 < 64 := Nat.mod_lt n (by omega)
  rw [Bool.eq_iff_iff, and_ne_zero_iff]
  constructor
  · rintro ⟨p, hp, hmask, hx⟩
    rw [getLsbD_shl_one n hp, decide_eq_true_eq] at hmask
    exact hmask ▸ hx
  · intro hx
    exact ⟨n % 64, hlt, by rw [getLsbD_shl_one n hlt, decide_eq_true rfl], hx⟩

theorem and_shl_three (hn : n < 64) :
    (x &&& shl 3 n != 0) = (x.getLsbD n || x.getLsbD (n + 1)) := by
  rw [Bool.eq_iff_iff, and_ne_zero_iff, Bool.or_eq_true]
  constructor
  · rintro ⟨p, hp, hmask, hx⟩
    rw [getLsbD_shl_three hn hp, decide_eq_true_eq] at hmask
    rcases hmask with rfl | rfl
    · exact Or.inl hx
    · exact Or.inr hx
  · rintro (hx | hx)
    · exact ⟨n, hn, by rw [getLsbD_shl_three hn hn, decide_eq_true (Or.inl rfl)], hx⟩
    · have hlt := BitVec.lt_of_getLsbD hx
      exact ⟨n + 1, hlt, by rw [getLsbD_shl_three hn hlt, decide_eq_true (Or.inr rfl)], hx⟩

end Words

end MarkBitmap

end Rsgc.Storage
