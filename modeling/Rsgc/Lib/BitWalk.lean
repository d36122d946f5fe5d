import Rsgc.Lib.Enumerates

namespace Rsgc

namespace BitWalk

variable {w : Nat}

-- The loop that takes the lowest set bit of a word and clears it, until none is
-- left; `fuel` bounds the number of bits.
def walk : Nat → BitVec w → List Nat
  | 0, _ => []
  | fuel + 1, x =>
      if x = 0 then []
      else x.ctz.toNat :: walk fuel (x ^^^ BitVec.twoPow w x.ctz.toNat)

theorem walk_length_le (fuel : Nat) (x : BitVec w) : (walk fuel x).length ≤ fuel := by
  induction fuel generalizing x with
  | zero => exact Nat.le_refl 0
  | succ fuel ih =>
      unfold walk
      split
      · exact Nat.zero_le _
      · exact Nat.succ_le_succ (ih _)

theorem getLsbD_clear {x : BitVec w} (hne : x ≠ 0) (i : Nat) :
    (x ^^^ BitVec.twoPow w x.ctz.toNat).getLsbD i = true ↔
      x.getLsbD i = true ∧ i ≠ x.ctz.toNat := by
  have hset := BitVec.getLsbD_true_ctz_of_ne_zero hne
  rw [BitVec.getLsbD_xor, BitVec.getLsbD_twoPow]
  by_cases hi : i = x.ctz.toNat
  · subst hi
    have hlt := BitVec.lt_of_getLsbD hset
    simp [hset, hlt]
  · simp [hi, Ne.symm hi]

-- By induction on the fuel: the bits that are left are at `low` or above.
theorem walk_enumerates_from {fuel low : Nat} {x : BitVec w} (hfuel : w ≤ low + fuel)
    (hlow : ∀ i, x.getLsbD i = true → low ≤ i) :
    Enumerates (walk fuel x) fun i => x.getLsbD i = true := by
  induction fuel generalizing low x with
  | zero =>
      refine Enumerates.nil fun i hi => ?_
      have hle := hlow i hi
      have hlt := BitVec.lt_of_getLsbD hi
      omega
  | succ fuel ih =>
      unfold walk
      by_cases hzero : x = 0
      · rw [if_pos hzero]
        subst hzero
        exact Enumerates.nil fun i hi => by simp at hi
      · rw [if_neg hzero]
        have hset := BitVec.getLsbD_true_ctz_of_ne_zero hzero
        have hle := hlow _ hset
        have habove : ∀ i, (x ^^^ BitVec.twoPow w x.ctz.toNat).getLsbD i = true →
            x.ctz.toNat < i := by
          intro i hi
          obtain ⟨hbit, hne⟩ := (getLsbD_clear hzero i).mp hi
          by_contra hge
          rw [BitVec.getLsbD_false_of_lt_ctz (by omega)] at hbit
          cases hbit
        have hrest := ih (by omega) habove
        refine (hrest.cons habove).congr fun i => ?_
        rw [getLsbD_clear hzero]
        constructor
        · rintro (rfl | ⟨hbit, _⟩)
          · exact hset
          · exact hbit
        · intro hbit
          by_cases hi : i = x.ctz.toNat
          · exact Or.inl hi
          · exact Or.inr ⟨hbit, hi⟩

theorem walk_enumerates (x : BitVec w) : Enumerates (walk w x) fun i => x.getLsbD i = true :=
  walk_enumerates_from (by omega) fun _ _ => Nat.zero_le _

end BitWalk

end Rsgc
