import Mathlib.Data.List.Sort
import Mathlib.Order.Monotone.Basic

namespace Rsgc

-- `l` lists the numbers with `p`, each once and in increasing order.
structure Enumerates (l : List Nat) (p : Nat → Prop) : Prop where
  sorted : l.Pairwise (· < ·)
  mem_iff : ∀ a, a ∈ l ↔ p a

namespace Enumerates

variable {l l' : List Nat} {p q : Nat → Prop}

theorem congr (h : Enumerates l p) (hpq : ∀ a, p a ↔ q a) : Enumerates l q :=
  ⟨h.sorted, fun a => (h.mem_iff a).trans (hpq a)⟩

theorem nil (h : ∀ a, ¬p a) : Enumerates [] p :=
  ⟨List.Pairwise.nil, fun a => by simp [h a]⟩

theorem cons {a : Nat} (h : Enumerates l p) (hlt : ∀ b, p b → a < b) :
    Enumerates (a :: l) fun b => b = a ∨ p b := by
  refine ⟨List.pairwise_cons.mpr ⟨fun b hb => hlt b ((h.mem_iff b).mp hb), h.sorted⟩, fun b => ?_⟩
  rw [List.mem_cons, h.mem_iff]

theorem append (h : Enumerates l p) (h' : Enumerates l' q) (hlt : ∀ a b, p a → q b → a < b) :
    Enumerates (l ++ l') fun a => p a ∨ q a := by
  refine ⟨List.pairwise_append.mpr ⟨h.sorted, h'.sorted, fun a ha b hb => ?_⟩, fun a => ?_⟩
  · exact hlt a b ((h.mem_iff a).mp ha) ((h'.mem_iff b).mp hb)
  · rw [List.mem_append, h.mem_iff, h'.mem_iff]

theorem map {f : Nat → Nat} (h : Enumerates l p) (hf : StrictMono f) :
    Enumerates (l.map f) fun b => ∃ a, p a ∧ f a = b := by
  refine ⟨List.pairwise_map.mpr (h.sorted.imp fun hlt => hf hlt), fun b => ?_⟩
  simp only [List.mem_map, h.mem_iff]

-- Consecutive blocks, one behind the other.
theorem flatMap_range (start n : Nat) {f : Nat → List Nat} {r : Nat → Nat → Prop}
    (h : ∀ i, start ≤ i → i < start + n → Enumerates (f i) (r i))
    (hlt : ∀ i j a b, i < j → r i a → r j b → a < b) :
    Enumerates ((List.range' start n).flatMap f)
      fun a => ∃ i, start ≤ i ∧ i < start + n ∧ r i a := by
  induction n generalizing start with
  | zero =>
      refine nil fun a hex => ?_
      obtain ⟨i, hl, hr, _⟩ := hex
      omega
  | succ n ih =>
      rw [List.range'_succ, List.flatMap_cons]
      have hfirst := h start (Nat.le_refl _) (by omega)
      have hrest := ih (start + 1) fun i hl hr => h i (by omega) (by omega)
      refine (hfirst.append hrest fun a b ha hb => ?_).congr fun a => ?_
      · obtain ⟨i, hl, _, hb⟩ := hb
        exact hlt start i a b (by omega) ha hb
      · constructor
        · rintro (ha | ⟨i, hl, hr, ha⟩)
          · exact ⟨start, Nat.le_refl _, by omega, ha⟩
          · exact ⟨i, by omega, by omega, ha⟩
        · rintro ⟨i, hl, hr, ha⟩
          rcases Nat.eq_or_lt_of_le hl with rfl | hl
          · exact Or.inl ha
          · exact Or.inr ⟨i, hl, by omega, ha⟩

theorem filter_range (p : Nat → Bool) (start n : Nat) :
    Enumerates ((List.range' start n).filter p)
      fun a => start ≤ a ∧ a < start + n ∧ p a = true := by
  refine ⟨(List.pairwise_lt_range' 1 Nat.one_pos).filter p, fun a => ?_⟩
  rw [List.mem_filter, List.mem_range'_1, and_assoc]

-- There is only one such list.
theorem unique (h : Enumerates l p) (h' : Enumerates l' p) : l = l' := by
  apply List.Perm.eq_of_pairwise' h.sorted h'.sorted
  apply (List.perm_ext_iff_of_nodup _ _).mpr
  · intro a
    rw [h.mem_iff, h'.mem_iff]
  · exact h.sorted.imp fun hlt => hlt.ne
  · exact h'.sorted.imp fun hlt => hlt.ne

end Enumerates

end Rsgc
