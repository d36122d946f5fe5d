import Mathlib.Algebra.BigOperators.Group.Finset.Basic
import Mathlib.Algebra.Order.BigOperators.Group.Finset

namespace Rsgc

-- The sum over a family of which one member is replaced.
theorem sum_update {ι α β : Type*} [DecidableEq ι] [Fintype ι] [AddCommMonoid β]
    (g : α → β) (f : ι → α) (i : ι) (x : α) :
    ∑ j, g (Function.update f i x j) = g x + ∑ j ∈ Finset.univ.erase i, g (f j) := by
  have hrest : ∑ j ∈ Finset.univ.erase i, g (Function.update f i x j) =
      ∑ j ∈ Finset.univ.erase i, g (f j) :=
    Finset.sum_congr rfl fun j hj => by rw [Function.update_of_ne (Finset.ne_of_mem_erase hj)]
  rw [← Finset.add_sum_erase _ (fun j => g (Function.update f i x j)) (Finset.mem_univ i), hrest,
    Function.update_self]

-- One member apart from the others.
theorem sum_split {ι α β : Type*} [DecidableEq ι] [Fintype ι] [AddCommMonoid β]
    (g : α → β) (f : ι → α) (i : ι) :
    ∃ others, ∀ x, ∑ j, g (Function.update f i x j) = g x + others :=
  ⟨_, sum_update g f i⟩

theorem sum_update_add {ι α β : Type*} [DecidableEq ι] [Fintype ι] [AddCommMonoid β]
    (g : α → β) (f : ι → α) (i : ι) (x : α) :
    ∑ j, g (Function.update f i x j) + g (f i) = ∑ j, g (f j) + g x := by
  rw [sum_update, ← Finset.add_sum_erase _ (fun j => g (f j)) (Finset.mem_univ i)]
  ac_rfl

-- How many members of a family are of a kind.
def census {ι α : Type*} [Fintype ι] (kind : α → Bool) (f : ι → α) : Nat :=
  ∑ i, (kind (f i)).toNat

section Census

variable {ι α : Type*} [Fintype ι] {kind other : α → Bool} {f g : ι → α}

theorem census_update [DecidableEq ι] (kind : α → Bool) (f : ι → α) (i : ι) (x : α) :
    census kind (Function.update f i x) + (kind (f i)).toNat =
      census kind f + (kind x).toNat :=
  sum_update_add (fun y => (kind y).toNat) f i x

theorem toNat_le_of_imp {a b : Bool} (h : a = true → b = true) : a.toNat ≤ b.toNat := by
  cases a with
  | false => simp
  | true => simp [h rfl]

theorem census_le (h : ∀ i, kind (f i) = true → other (g i) = true) :
    census kind f ≤ census other g := by
  apply Finset.sum_le_sum
  intro i _
  exact toNat_le_of_imp (h i)

-- A kind as numerous as one that it is part of is all of it.
theorem of_census_eq (h : ∀ i, kind (f i) = true → other (g i) = true)
    (heq : census kind f = census other g) (i : ι) (hi : other (g i) = true) :
    kind (f i) = true := by
  have hterm := (Finset.sum_eq_sum_iff_of_le fun j _ => toNat_le_of_imp (h j)).mp heq i
    (Finset.mem_univ i)
  cases hk : kind (f i) with
  | true => rfl
  | false => simp [hk, hi] at hterm

theorem census_eq_zero : census kind f = 0 ↔ ∀ i, kind (f i) = false := by
  simp [census, Finset.sum_eq_zero_iff]

theorem census_le_card : census kind f ≤ Fintype.card ι := by
  have h : census kind f ≤ census (fun _ => true) f := census_le fun _ _ => rfl
  simpa [census] using h

theorem of_census_eq_card (heq : census kind f = Fintype.card ι) (i : ι) : kind (f i) = true := by
  have hall : census kind f = census (fun _ => true) f := by simpa [census] using heq
  exact of_census_eq (fun _ _ => rfl) hall i rfl

end Census

end Rsgc
