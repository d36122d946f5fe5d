import Rsgc.Lib.Enumerates
import Rsgc.Utils.BitVector.Refines

namespace Rsgc.Utils

structure BitIter where
  bvec : BitVector
  index : Nat

namespace BitVector

-- The loop of `find_bit_simple`, which ends at the size.
def findBitFrom (v : BitVector) (value : Bool) : Nat → Nat → Option Nat
  | 0, _ => some v.size
  | fuel + 1, index =>
      if index < v.size then do
        let bit ← v.get index
        if bit = value then some index else findBitFrom v value fuel (index + 1)
      else some v.size

def findBitSimple (v : BitVector) (index : Nat) (value : Bool) : Option Nat :=
  findBitFrom v value (v.size - index) index

def findBit (v : BitVector) (index : Nat) (value : Bool) : Option Nat := v.findBitSimple index value

def iter (v : BitVector) : BitIter := ⟨v, 0⟩

end BitVector

namespace BitIter

-- `self.index + 1` overflows on the largest index.
def next (it : BitIter) : Option (Option Nat × BitIter) :=
  if it.index + 1 < 2 ^ 64 then do
    let index ← it.bvec.findBit (it.index + 1) true
    pure (if index < it.bvec.size then some index else none, { it with index := index })
  else none

-- What a loop over the iterator gets, if it ends within so many calls of `next`.
def items : Nat → BitIter → Option (List Nat)
  | 0, _ => none
  | calls + 1, it => do
      let (item, it) ← it.next
      match item with
      | none => some []
      | some index => (items calls it).map (index :: ·)

end BitIter

namespace BitVector

variable {v : BitVector} {start index fuel : Nat}

-- The iterator yields the indices of the set bits, each once and in increasing order, and
-- ends.
def IteratesExactly (v : BitVector) : Prop :=
  ∃ calls l, v.iter.items calls = some l ∧ Enumerates l fun i => v.get i = some true

-- The first set bit from an index on, or the size.
structure FirstSet (v : BitVector) (start index : Nat) : Prop where
  le_size : index ≤ v.size
  clear : ∀ i, start ≤ i → i < index → v.bit i = false
  set : index < v.size → start ≤ index ∧ v.bit index = true

theorem findBitFrom_spec (hfuel : v.size ≤ start + fuel) :
    ∃ index, v.findBitFrom true fuel start = some index ∧ v.FirstSet start index := by
  induction fuel generalizing start with
  | zero => exact ⟨v.size, rfl, Nat.le_refl _, fun i hi hlt => by omega, fun hlt => by omega⟩
  | succ fuel ih =>
      unfold findBitFrom
      by_cases hstart : start < v.size
      · rw [if_pos hstart, get_eq, Option.bind_eq_bind, Option.bind_some]
        by_cases hbit : v.bit start = true
        · exact ⟨start, if_pos hbit, Nat.le_of_lt hstart, fun i hi hlt => by omega,
            fun _ => ⟨Nat.le_refl _, hbit⟩⟩
        · obtain ⟨index, hfind, hsize, hclear, hset⟩ := @ih (start + 1) (by omega)
          refine ⟨index, (if_neg hbit).trans hfind, hsize, fun i hi hlt => ?_, fun hlt => ?_⟩
          · rcases Nat.eq_or_lt_of_le hi with rfl | hlater
            · simpa using hbit
            · exact hclear i hlater hlt
          · exact ⟨Nat.le_of_succ_le (hset hlt).1, (hset hlt).2⟩
      · exact ⟨v.size, if_neg hstart, Nat.le_refl _,
          fun i hi hlt => by omega, fun hlt => by omega⟩

theorem findBit_spec (v : BitVector) (start : Nat) :
    ∃ index, v.findBit start true = some index ∧ v.FirstSet start index :=
  findBitFrom_spec (by omega)

-- A call of `next` goes on behind the last index.
theorem next_spec (h : v.WellFormed) (hindex : start ≤ v.size) :
    ∃ index, BitIter.next ⟨v, start⟩ =
      some (if index < v.size then some index else none, ⟨v, index⟩) ∧
        v.FirstSet (start + 1) index := by
  have hlt := size_lt h
  have hsucc : start + 1 < 2 ^ 64 := by omega
  obtain ⟨index, hfind, hfirst⟩ := v.findBit_spec (start + 1)
  refine ⟨index, (if_pos hsucc).trans ?_, hfirst⟩
  exact Option.bind_eq_some_iff.mpr ⟨index, hfind, rfl⟩

theorem FirstSet.enumerates_cons {l : List Nat} (hfirst : v.FirstSet (start + 1) index)
    (hlt : index < v.size) (hrest : Enumerates l fun i => index < i ∧ v.bit i = true) :
    Enumerates (index :: l) fun i => start < i ∧ v.bit i = true := by
  obtain ⟨hstart, hbit⟩ := hfirst.set hlt
  refine (hrest.cons fun i hi => hi.1).congr fun i => ⟨?_, fun ⟨hi, hset⟩ => ?_⟩
  · rintro (rfl | ⟨hi, hset⟩)
    · exact ⟨hstart, hbit⟩
    · exact ⟨by omega, hset⟩
  · rcases Nat.lt_trichotomy i index with hless | rfl | hmore
    · rw [hfirst.clear i hi hless] at hset
      cases hset
    · exact Or.inl rfl
    · exact Or.inr ⟨hmore, hset⟩

theorem FirstSet.enumerates_nil (hfirst : v.FirstSet (start + 1) index) (hend : ¬index < v.size) :
    Enumerates [] fun i => start < i ∧ v.bit i = true := by
  refine Enumerates.nil fun i ⟨hi, hset⟩ => ?_
  by_cases hsize : i < v.size
  · have hclear := hfirst.clear i hi (Nat.lt_of_lt_of_le hsize (Nat.le_of_not_lt hend))
    rw [hclear] at hset
    cases hset
  · rw [bit_of_size_le (Nat.le_of_not_lt hsize)] at hset
    cases hset

-- A loop that starts at an index gets what is set behind it, and ends.
theorem items_spec (h : v.WellFormed) {calls : Nat} (hindex : start ≤ v.size)
    (hcalls : v.size < start + calls) : ∃ l, BitIter.items calls ⟨v, start⟩ = some l := by
  induction calls generalizing start with
  | zero => omega
  | succ calls ih =>
      obtain ⟨index, hnext, hfirst⟩ := next_spec h hindex
      unfold BitIter.items
      rw [hnext, Option.bind_eq_bind, Option.bind_some]
      by_cases hlt : index < v.size
      · obtain ⟨hstart, _⟩ := hfirst.set hlt
        obtain ⟨l, hl⟩ := ih hfirst.le_size (by omega)
        simp only [hlt, if_true]
        exact ⟨index :: l, Option.map_eq_some_iff.mpr ⟨l, hl, rfl⟩⟩
      · simp only [hlt, if_false]
        exact ⟨[], rfl⟩

theorem items_enumerates (h : v.WellFormed) {calls : Nat} {l : List Nat} (hindex : start ≤ v.size)
    (hitems : BitIter.items calls ⟨v, start⟩ = some l) :
    Enumerates l fun i => start < i ∧ v.bit i = true := by
  induction calls generalizing start l with
  | zero => cases hitems
  | succ calls ih =>
      obtain ⟨index, hnext, hfirst⟩ := next_spec h hindex
      unfold BitIter.items at hitems
      rw [hnext, Option.bind_eq_bind, Option.bind_some] at hitems
      by_cases hlt : index < v.size
      · simp only [hlt, if_true] at hitems
        obtain ⟨rest, hrest, rfl⟩ := Option.map_eq_some_iff.mp hitems
        exact hfirst.enumerates_cons hlt (ih hfirst.le_size hrest)
      · simp only [hlt, if_false] at hitems
        obtain rfl := Option.some.inj hitems
        exact hfirst.enumerates_nil hlt

-- The search starts behind the index 0, so that the first bit is never found.
theorem iteratesExactly_iff (h : v.WellFormed) : v.IteratesExactly ↔ 0 ∉ v.members := by
  have hbits (i : Nat) : v.get i = some true ↔ v.bit i = true := by
    rw [get_eq, Option.some.injEq]
  rw [mem_members]
  constructor
  · rintro ⟨calls, l, hitems, hexact⟩ hzero
    have hbehind := items_enumerates h (Nat.zero_le _) hitems
    have hmem := (hexact.mem_iff 0).mpr ((hbits 0).mpr hzero)
    exact absurd ((hbehind.mem_iff 0).mp hmem).1 (Nat.lt_irrefl 0)
  · intro hzero
    obtain ⟨l, hitems⟩ : ∃ l, v.iter.items (v.size + 1) = some l :=
      items_spec h (Nat.zero_le _) (by omega)
    refine ⟨v.size + 1, l, hitems, (items_enumerates h (Nat.zero_le _) hitems).congr fun i => ?_⟩
    rw [hbits]
    refine ⟨fun hi => hi.2, fun hset => ⟨Nat.pos_of_ne_zero fun heq => hzero ?_, hset⟩⟩
    rwa [← heq]

theorem filter_wellFormed {other : BitVector} (h : v.WellFormed) (hother : other.WellFormed) :
    (v.filter other).WellFormed := by
  by_cases hreached : v.isInline = true ∨ other.isInline = false
  · exact (filter_spec h hother (hreached.imp_right Or.inl)).wellFormed
  · simp only [not_or, Bool.not_eq_true, Bool.not_eq_false] at hreached
    have hfilter : v.filter other =
        v.setWord 0 (v.word 0 &&& cleanseInlineBits other.bitsOrPointer) := by
      simp [filter, filterSlow, hreached]
    obtain ⟨_, hge, _⟩ := h hreached.1
    have hsize : v.size = v.outOfLine.numBits := if_neg (by simp [hreached])
    obtain ⟨hinline, _⟩ := setWord_bit (v := v) 0
      (v.word 0 &&& cleanseInlineBits other.bitsOrPointer) (by omega) (by simp [hreached])
    rw [hfilter]
    exact h.setWord hinline

end BitVector

namespace BitVectors

variable {vectors vectors' : Nat → BitVector} {c : BitVectorCall} {answered : BitVectorAnswer}
  {s : BitVectors}

theorem update_wellFormed (h : ∀ i, (vectors i).WellFormed) {v : BitVector} (hv : v.WellFormed)
    (i : Nat) : ∀ j, (Function.update vectors i v j).WellFormed := by
  intro j
  by_cases hj : j = i
  · rw [hj, Function.update_self]
    exact hv
  · rw [Function.update_of_ne hj]
    exact h j

theorem perform_wellFormed (h : ∀ i, (vectors i).WellFormed)
    (hok : perform vectors c = some (answered, vectors')) : ∀ i, (vectors' i).WellFormed := by
  cases c with
  | set i bit chunk =>
      obtain ⟨⟨previous, v⟩, hset, heq⟩ := Option.map_eq_some_iff.mp hok
      obtain ⟨-, rfl⟩ := Prod.mk.inj heq
      exact update_wellFormed h (BitVector.set_spec (h i) hset).2.wellFormed i
  | add i bit chunk =>
      obtain ⟨⟨fresh, v⟩, hadd, heq⟩ := Option.map_eq_some_iff.mp hok
      obtain ⟨⟨previous, w⟩, hset, heq'⟩ := Option.map_eq_some_iff.mp hadd
      obtain ⟨-, rfl⟩ := Prod.mk.inj heq
      obtain ⟨-, rfl⟩ := Prod.mk.inj heq'
      exact update_wellFormed h (BitVector.set_spec (h i) hset).2.wellFormed i
  | clear i bit =>
      obtain ⟨⟨previous, v⟩, hclear, heq⟩ := Option.map_eq_some_iff.mp hok
      obtain ⟨-, rfl⟩ := Prod.mk.inj heq
      exact update_wellFormed h (BitVector.clear_spec (h i) hclear).2.wellFormed i
  | get i bit =>
      obtain ⟨b, -, heq⟩ := Option.map_eq_some_iff.mp hok
      obtain ⟨-, rfl⟩ := Prod.mk.inj heq
      exact h
  | ensureSize i numBits chunk =>
      obtain ⟨v, hensure, heq⟩ := Option.map_eq_some_iff.mp hok
      obtain ⟨-, rfl⟩ := Prod.mk.inj heq
      exact update_wellFormed h (BitVector.ensureSize_spec (h i) hensure).1.wellFormed i
  | clearAll i =>
      obtain ⟨-, rfl⟩ := Prod.mk.inj (Option.some.inj hok)
      exact update_wellFormed h (BitVector.clearAll_spec (h i)).wellFormed i
  | merge i j chunk =>
      obtain ⟨v, hmerge, heq⟩ := Option.map_eq_some_iff.mp hok
      obtain ⟨-, rfl⟩ := Prod.mk.inj heq
      exact update_wellFormed h (BitVector.merge_spec (h i) (h j) hmerge).wellFormed i
  | filter i j =>
      obtain ⟨-, rfl⟩ := Prod.mk.inj (Option.some.inj hok)
      exact update_wellFormed h (BitVector.filter_wellFormed (h i) (h j)) i
  | exclude i j =>
      obtain ⟨-, rfl⟩ := Prod.mk.inj (Option.some.inj hok)
      exact update_wellFormed h (BitVector.exclude_spec (h i) (h j)).wellFormed i
  | bitCount i =>
      obtain ⟨-, rfl⟩ := Prod.mk.inj (Option.some.inj hok)
      exact h
  | isEmpty i =>
      obtain ⟨-, rfl⟩ := Prod.mk.inj (Option.some.inj hok)
      exact h

theorem wellFormed_of_reachable (hs : bitVectorMachine.Reachable s) :
    ∀ i, (s.vectors i).WellFormed := by
  refine Machine.Reachable.invariant (P := fun s : BitVectors => ∀ i, (s.vectors i).WellFormed)
    (fun s hinit => ?_) (fun s c t h hstep => ?_) hs
  · obtain rfl : s = initial := hinit
    exact fun _ => BitVector.new_denotes.1
  · obtain ⟨⟨answered, vectors'⟩, hok, rfl⟩ := Option.map_eq_some_iff.mp hstep
    exact perform_wellFormed h hok

-- Of the vectors that any calls can make, just those without the bit 0 are iterated over
-- exactly.
theorem iter_exact_iff (hs : bitVectorMachine.Reachable s) (i : Nat) :
    (s.vectors i).IteratesExactly ↔ 0 ∉ (s.vectors i).members :=
  BitVector.iteratesExactly_iff (wellFormed_of_reachable hs i)

-- One vector that is inline, and one that is not.
theorem iter_exact_iff_two : ∃ s, bitVectorMachine.Reachable s ∧
    (s.vectors 0).members = {1, 62} ∧ (s.vectors 0).IteratesExactly ∧
    (s.vectors 1).members = {64, 127} ∧ (s.vectors 1).IteratesExactly := by
  have hrun : (bitVectorMachine.run initial [.set 0 62 dirtyChunk, .set 0 1 dirtyChunk,
      .set 1 127 dirtyChunk, .set 1 64 dirtyChunk]).map
        (fun s => ((s.vectors 0).members, (s.vectors 1).members)) = some ({1, 62}, {64, 127}) := by
    decide +kernel
  obtain ⟨s, hs, heq⟩ := Option.map_eq_some_iff.mp hrun
  obtain ⟨hfirst, hsecond⟩ := Prod.mk.inj heq
  have hinit : bitVectorMachine.init initial := rfl
  have hreach := Machine.run_reachable (Machine.Via.init hinit) hs
  exact ⟨s, hreach, hfirst, (iter_exact_iff hreach 0).mpr (by simp [hfirst]), hsecond,
    (iter_exact_iff hreach 1).mpr (by simp [hsecond])⟩

-- Of the bits 0 and 35 the iterator yields the second only.
theorem iter_skips_first_bit : ∃ s, bitVectorMachine.Reachable s ∧
    (s.vectors 0).members = {0, 35} ∧ (s.vectors 0).iter.items 2 = some [35] ∧
    ¬(s.vectors 0).IteratesExactly := by
  have hrun : (bitVectorMachine.run initial [.set 0 0 dirtyChunk, .set 0 35 dirtyChunk]).map
      (fun s => ((s.vectors 0).members, (s.vectors 0).iter.items 2)) =
        some ({0, 35}, some [35]) := by decide +kernel
  obtain ⟨s, hs, heq⟩ := Option.map_eq_some_iff.mp hrun
  obtain ⟨hmembers, hitems⟩ := Prod.mk.inj heq
  have hinit : bitVectorMachine.init initial := rfl
  have hreach := Machine.run_reachable (Machine.Via.init hinit) hs
  refine ⟨s, hreach, hmembers, hitems, fun hexact => ?_⟩
  have hzero := (BitVector.iteratesExactly_iff (wellFormed_of_reachable hreach 0)).mp hexact
  exact hzero (by simp [hmembers])

end BitVectors

end Rsgc.Utils
