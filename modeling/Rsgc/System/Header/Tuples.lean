import Rsgc.Storage.Options.Sizes
import Rsgc.System.Header.Sizes

namespace Rsgc.System

open Storage (roundUp usizeRange)

-- A type that implements `Allocation` with the default `SIZE`, which is its `size_of`.
structure BaseType where
  size : Nat
  align : Nat
  noHeapPtrs : Bool
  align_pow : ∃ k, align = 2 ^ k
  align_dvd : align ∣ size

inductive TupleType
  | base (t : BaseType)
  | pair (a b : TupleType)
  | triple (a b c : TupleType)

namespace TupleType

-- The constants of the implementations of `Allocation`.
def allocation : TupleType → Allocation
  | base t => {
      size := t.size
      varsize := false
      varsizeItemSize := 0
      varsizeOffsetofCapacity := 0
      noHeapPtrs := t.noHeapPtrs }
  | pair a b => {
      size := a.allocation.size + b.allocation.size
      varsize := false
      varsizeItemSize := 0
      varsizeOffsetofCapacity := 0
      noHeapPtrs := a.allocation.noHeapPtrs && b.allocation.noHeapPtrs }
  | triple a b c => {
      size := a.allocation.size + b.allocation.size + c.allocation.size
      varsize := false
      varsizeItemSize := 0
      varsizeOffsetofCapacity := 0
      noHeapPtrs := a.allocation.noHeapPtrs && b.allocation.noHeapPtrs && c.allocation.noHeapPtrs }

-- The base types that the fields end in.
def leaves : TupleType → List BaseType
  | base t => [t]
  | pair a b => a.leaves ++ b.leaves
  | triple a b c => a.leaves ++ b.leaves ++ c.leaves

def leafBytes (t : TupleType) : Nat := (t.leaves.map BaseType.size).sum

end TupleType

-- What the language guarantees of `size_of` and `align_of`.
structure Layout where
  sizeOf : TupleType → Nat
  alignOf : TupleType → Nat
  base_size : ∀ t, sizeOf (.base t) = t.size
  base_align : ∀ t, alignOf (.base t) = t.align
  pair_size : ∀ a b, sizeOf a + sizeOf b ≤ sizeOf (.pair a b)
  triple_size : ∀ a b c, sizeOf a + sizeOf b + sizeOf c ≤ sizeOf (.triple a b c)
  pair_align : ∀ a b, alignOf a ∣ alignOf (.pair a b) ∧ alignOf b ∣ alignOf (.pair a b)
  triple_align : ∀ a b c, alignOf a ∣ alignOf (.triple a b c) ∧
    alignOf b ∣ alignOf (.triple a b c) ∧ alignOf c ∣ alignOf (.triple a b c)
  align_pow : ∀ t, ∃ k, alignOf t = 2 ^ k
  align_dvd : ∀ t, alignOf t ∣ sizeOf t

-- No type has more bytes than `isize::MAX`.
def isizeMax : Nat := 2 ^ 63 - 1

namespace Layout

-- The bytes that are in no base type, on all levels together.
def padding (l : Layout) : TupleType → Nat
  | .base _ => 0
  | .pair a b => l.padding a + l.padding b + (l.sizeOf (.pair a b) - (l.sizeOf a + l.sizeOf b))
  | .triple a b c => l.padding a + l.padding b + l.padding c +
      (l.sizeOf (.triple a b c) - (l.sizeOf a + l.sizeOf b + l.sizeOf c))

-- `write(value)` behind the header of the block that `Thread::allocate` reserves
-- stays in the block.
def Contained (l : Layout) (t : TupleType) : Prop :=
  HEADER_SIZE + l.sizeOf t ≤ t.allocation.fixedSize

variable {l : Layout} {t : TupleType}

theorem sizeOf_eq (l : Layout) (t : TupleType) : l.sizeOf t = t.leafBytes + l.padding t := by
  unfold TupleType.leafBytes
  induction t with
  | base t => simp [TupleType.leaves, padding, l.base_size]
  | pair a b iha ihb =>
      have hfields := l.pair_size a b
      simp only [TupleType.leaves, padding, List.map_append, List.sum_append]
      omega
  | triple a b c iha ihb ihc =>
      have hfields := l.triple_size a b c
      simp only [TupleType.leaves, padding, List.map_append, List.sum_append]
      omega

theorem allocation_size (t : TupleType) : t.allocation.size = t.leafBytes := by
  unfold TupleType.leafBytes
  induction t with
  | base t => simp [TupleType.leaves, TupleType.allocation]
  | pair a b iha ihb =>
      simp only [TupleType.leaves, TupleType.allocation, List.map_append, List.sum_append, iha, ihb]
  | triple a b c iha ihb ihc =>
      simp only [TupleType.leaves, TupleType.allocation, List.map_append, List.sum_append, iha, ihb,
        ihc]

-- The size leaves all padding out, so it has to fit into what the rounding to
-- 16 bytes adds.
theorem tuple_contained_iff (hsize : l.sizeOf t ≤ isizeMax) :
    l.Contained t ↔ l.padding t ≤ (16 - (t.leafBytes + HEADER_SIZE) % 16) % 16 := by
  have hsum := l.sizeOf_eq t
  have hfits : Headers.Fits t.allocation.size := by
    unfold Headers.Fits HEADER_SIZE usizeRange
    rw [allocation_size]
    unfold isizeMax at hsize
    omega
  unfold Contained
  rw [fixedSize_eq hfits, allocation_size, hsum]
  unfold HEADER_SIZE
  omega

section Packed

-- The layout that adds as little padding as the guarantees allow.
def packedAlign : TupleType → Nat
  | .base t => t.align
  | .pair a b => max (packedAlign a) (packedAlign b)
  | .triple a b c => max (max (packedAlign a) (packedAlign b)) (packedAlign c)

def packedSize : TupleType → Nat
  | .base t => t.size
  | .pair a b => roundUp (packedSize a + packedSize b) (packedAlign (.pair a b))
  | .triple a b c =>
      roundUp (packedSize a + packedSize b + packedSize c) (packedAlign (.triple a b c))

theorem exists_max_two_pow {a b : Nat} (ha : ∃ i, a = 2 ^ i) (hb : ∃ j, b = 2 ^ j) :
    (∃ k, max a b = 2 ^ k) ∧ a ∣ max a b ∧ b ∣ max a b := by
  obtain ⟨i, rfl⟩ := ha
  obtain ⟨j, rfl⟩ := hb
  rcases Nat.le_total i j with hle | hle
  · have hpow := Nat.pow_le_pow_right Nat.two_pos hle
    rw [max_eq_right hpow]
    exact ⟨⟨j, rfl⟩, Nat.pow_dvd_pow 2 hle, Nat.dvd_refl _⟩
  · have hpow := Nat.pow_le_pow_right Nat.two_pos hle
    rw [max_eq_left hpow]
    exact ⟨⟨i, rfl⟩, Nat.dvd_refl _, Nat.pow_dvd_pow 2 hle⟩

theorem packedAlign_pow (t : TupleType) : ∃ k, packedAlign t = 2 ^ k := by
  induction t with
  | base t => exact t.align_pow
  | pair a b iha ihb => exact (exists_max_two_pow iha ihb).1
  | triple a b c iha ihb ihc => exact (exists_max_two_pow (exists_max_two_pow iha ihb).1 ihc).1

theorem packedAlign_pos (t : TupleType) : 0 < packedAlign t := by
  obtain ⟨k, hk⟩ := packedAlign_pow t
  rw [hk]
  exact Nat.two_pow_pos k

def packed : Layout where
  sizeOf := packedSize
  alignOf := packedAlign
  base_size := fun _ => rfl
  base_align := fun _ => rfl
  pair_size := fun a b => Storage.le_roundUp _ (packedAlign_pos (.pair a b))
  triple_size := fun a b c => Storage.le_roundUp _ (packedAlign_pos (.triple a b c))
  pair_align := fun a b => (exists_max_two_pow (packedAlign_pow a) (packedAlign_pow b)).2
  triple_align := fun a b c => by
    have hpair := exists_max_two_pow (packedAlign_pow a) (packedAlign_pow b)
    have htriple := exists_max_two_pow hpair.1 (packedAlign_pow c)
    exact ⟨hpair.2.1.trans htriple.2.1, hpair.2.2.trans htriple.2.1, htriple.2.2⟩
  align_pow := packedAlign_pow
  align_dvd := fun t => by
    cases t with
    | base t => exact t.align_dvd
    | pair a b => exact Storage.dvd_roundUp _ _
    | triple a b c => exact Storage.dvd_roundUp _ _

end Packed

-- The integer type of `2 ^ k` bytes.
def intType (k : Nat) : TupleType := .base ⟨2 ^ k, 2 ^ k, true, ⟨k, rfl⟩, Nat.dvd_refl _⟩

-- `(u32, u16)`: the two bytes of padding fit.
theorem tuple_contained_small : packed.Contained (.pair (intType 2) (intType 1)) ↔
    packed.padding (.pair (intType 2) (intType 1)) ≤
      (16 - ((TupleType.pair (intType 2) (intType 1)).leafBytes + HEADER_SIZE) % 16) % 16 :=
  tuple_contained_iff (by decide)

-- `((u64, u8), (u64, u8))` has 32 bytes, but its block has 32 with the header.
theorem nested_pairs_overrun :
    ¬∀ (l : Layout) (t : TupleType), l.sizeOf t ≤ isizeMax → l.Contained t := by
  intro hall
  have hover := hall packed
    (.pair (.pair (intType 3) (intType 0)) (.pair (intType 3) (intType 0))) (by decide)
  revert hover
  unfold Contained
  decide

end Layout

end Rsgc.System
