import Mathlib.Data.List.Basic
import Mathlib.Data.List.Perm.Basic
import Mathlib.Logic.Function.Basic

namespace Rsgc

namespace Buckets

variable {α : Type*}

-- The elements of the first `n` chains.
def entries (n : Nat) (heads : Nat → List α) : List α := (List.range n).flatMap heads

theorem flatMap_update_perm (heads : Nat → List α) (index : Nat) (chain : List α)
    (indices : List Nat) (hnodup : indices.Nodup) (hmem : index ∈ indices) :
    (indices.flatMap (Function.update heads index chain) ++ heads index).Perm
      (chain ++ indices.flatMap heads) := by
  induction indices with
  | nil => simp at hmem
  | cons i rest ih =>
      obtain ⟨hnot, hrest⟩ := List.nodup_cons.mp hnodup
      simp only [List.flatMap_cons]
      by_cases hi : i = index
      · subst hi
        have hsame : rest.flatMap (Function.update heads i chain) = rest.flatMap heads := by
          apply List.flatMap_congr
          intro j hj
          have hne : j ≠ i := fun he => hnot (he ▸ hj)
          rw [Function.update_of_ne hne]
        rw [hsame, Function.update_self, List.append_assoc]
        exact (List.perm_append_comm).append_left chain
      · have hin : index ∈ rest := (List.mem_cons.mp hmem).resolve_left (Ne.symm hi)
        have hrec := (ih hrest hin).append_left (heads i)
        rw [Function.update_of_ne hi, List.append_assoc]
        refine hrec.trans ?_
        rw [← List.append_assoc, ← List.append_assoc]
        exact List.perm_append_comm.append_right _

theorem mem_entries {n : Nat} {heads : Nat → List α} {a : α} :
    a ∈ entries n heads ↔ ∃ i < n, a ∈ heads i := by
  unfold entries
  simp only [List.mem_flatMap, List.mem_range]

@[simp] theorem entries_nil (n : Nat) : entries n (fun _ => ([] : List α)) = [] := by
  simp [entries]

-- One chain apart from the others, which do not depend on it.
theorem entries_split {n index : Nat} (heads : Nat → List α) (hlt : index < n) :
    ∃ others, ∀ chain, (entries n (Function.update heads index chain)).Perm (chain ++ others) := by
  refine ⟨entries n (Function.update heads index []), fun chain => ?_⟩
  have hperm := flatMap_update_perm (Function.update heads index []) index chain (List.range n)
    List.nodup_range (List.mem_range.mpr hlt)
  rw [Function.update_idem, Function.update_self, List.append_nil] at hperm
  exact hperm

theorem entries_cons_perm {n index : Nat} (heads : Nat → List α) (hlt : index < n) (a : α) :
    (entries n (Function.update heads index (a :: heads index))).Perm (a :: entries n heads) := by
  obtain ⟨others, hothers⟩ := entries_split heads hlt
  have hself := hothers (heads index)
  rw [Function.update_eq_self] at hself
  exact (hothers _).trans (hself.symm.cons a)

-- The same for a part of one chain.
theorem entries_splice {n index : Nat} (heads : Nat → List α) (hlt : index < n)
    (before after : List α) :
    ∃ others, ∀ part, (entries n (Function.update heads index (before ++ (part ++ after)))).Perm
      (part ++ others) := by
  obtain ⟨others, hothers⟩ := entries_split heads hlt
  refine ⟨before ++ after ++ others, fun part => (hothers _).trans ?_⟩
  rw [List.append_assoc, List.append_assoc, List.append_assoc before after,
    ← List.append_assoc before part, ← List.append_assoc part before]
  exact List.perm_append_comm.append_right _

end Buckets

end Rsgc
