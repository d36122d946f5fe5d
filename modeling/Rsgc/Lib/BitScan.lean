import Mathlib.Data.Nat.Bitwise

namespace Rsgc

namespace BitScan

variable {bits : Nat → Bool} {w n : Nat}

-- `k` is the last bit up to `n` that is set.
structure IsLast (bits : Nat → Bool) (n k : Nat) : Prop where
  set : bits k = true
  le : k ≤ n
  clear : ∀ m, k < m → m ≤ n → bits m = false

theorem IsLast.unique {k k' : Nat} (h : IsLast bits n k) (h' : IsLast bits n k') : k = k' := by
  rcases Nat.lt_trichotomy k k' with hlt | heq | hlt
  · have hclear := h.clear k' hlt h'.le
    rw [h'.set] at hclear
    cases hclear
  · exact heq
  · have hclear := h'.clear k hlt h.le
    rw [h.set] at hclear
    cases hclear

-- The `w` bits of a cell as a number.
def cell (bits : Nat → Bool) (w index : Nat) : Nat := Nat.ofBits fun i : Fin w => bits (w * index + i)

theorem testBit_cell (index i : Nat) :
    (cell bits w index).testBit i = true ↔ i < w ∧ bits (w * index + i) = true := by
  unfold cell
  by_cases hi : i < w
  · rw [Nat.testBit_ofBits_lt _ i hi]
    simp [hi]
  · rw [Nat.testBit_ofBits_ge _ i (by omega)]
    simp [hi]

-- The scan goes on to the cell before as long as it has seen no set bit.
def scanBack (cells : Nat → Nat) : Nat → Nat → Nat × Nat
  | 0, seen => (0, seen)
  | index + 1, seen => if seen = 0 then scanBack cells index (cells index) else (index + 1, seen)

-- `seen` are the bits of a cell that are not behind `n`.
def Shows (bits : Nat → Bool) (w n index seen : Nat) : Prop :=
  ∀ i, seen.testBit i = true ↔ i < w ∧ w * index + i ≤ n ∧ bits (w * index + i) = true

theorem Shows.isLast {index seen : Nat} (h : Shows bits w n index seen) (hne : seen ≠ 0)
    (hbehind : ∀ m, w * (index + 1) ≤ m → m ≤ n → bits m = false) :
    seen.log2 < w ∧ IsLast bits n (w * index + seen.log2) := by
  obtain ⟨hlt, hle, hset⟩ := (h seen.log2).mp (Nat.testBit_log2 hne)
  refine ⟨hlt, hset, hle, fun m hm hmn => ?_⟩
  by_cases hin : m < w * (index + 1)
  · rw [Nat.mul_succ] at hin
    obtain ⟨i, rfl⟩ := Nat.exists_eq_add_of_le (show w * index ≤ m by omega)
    have hhigh : seen.testBit i = false := by
      apply Nat.testBit_lt_two_pow
      exact Nat.lt_of_lt_of_le Nat.lt_log2_self (Nat.pow_le_pow_right Nat.two_pos (by omega))
    by_contra hbit
    have htrue := (h i).mpr ⟨by omega, hmn, by simpa using hbit⟩
    rw [hhigh] at htrue
    cases htrue
  · exact hbehind m (by omega) hmn

theorem Shows.clear {index : Nat} (h : Shows bits w n index 0)
    (hbehind : ∀ m, w * (index + 1) ≤ m → m ≤ n → bits m = false) :
    ∀ m, w * index ≤ m → m ≤ n → bits m = false := by
  intro m hm hmn
  by_cases hin : m < w * (index + 1)
  · rw [Nat.mul_succ] at hin
    obtain ⟨i, rfl⟩ := Nat.exists_eq_add_of_le hm
    by_contra hbit
    have htrue := (h i).mpr ⟨by omega, hmn, by simpa using hbit⟩
    simp at htrue
  · exact hbehind m (by omega) hmn

theorem shows_cell {index : Nat} (hle : w * (index + 1) ≤ n) :
    Shows bits w n index (cell bits w index) := by
  intro i
  rw [testBit_cell]
  rw [Nat.mul_succ] at hle
  refine ⟨fun ⟨hi, hbit⟩ => ⟨hi, by omega, hbit⟩, fun ⟨hi, _, hbit⟩ => ⟨hi, hbit⟩⟩

-- By induction on the cell: everything behind it was seen to be clear.
theorem scanBack_spec {index seen : Nat} (h : Shows bits w n index seen) (hle : w * index ≤ n)
    (hbehind : ∀ m, w * (index + 1) ≤ m → m ≤ n → bits m = false) :
    ((scanBack (cell bits w) index seen).2 = 0 ∧ ∀ m, m ≤ n → bits m = false) ∨
      ((scanBack (cell bits w) index seen).2 ≠ 0 ∧
        (scanBack (cell bits w) index seen).2.log2 < w ∧
        IsLast bits n (w * (scanBack (cell bits w) index seen).1 +
          (scanBack (cell bits w) index seen).2.log2)) := by
  induction index generalizing seen with
  | zero =>
      by_cases hseen : seen = 0
      · subst hseen
        exact Or.inl ⟨rfl, fun m hm => h.clear hbehind m (by omega) hm⟩
      · exact Or.inr ⟨hseen, h.isLast hseen hbehind⟩
  | succ index ih =>
      unfold scanBack
      by_cases hseen : seen = 0
      · subst hseen
        rw [if_pos rfl]
        rw [Nat.mul_succ] at hle
        exact ih (shows_cell (by rw [Nat.mul_succ]; omega)) (by omega) (h.clear hbehind)
      · rw [if_neg hseen]
        exact Or.inr ⟨hseen, h.isLast hseen hbehind⟩

-- The first cell is masked, so that the scan starts at bit `n`.
theorem shows_masked (hw : 0 < w) :
    Shows bits w n (n / w) (cell bits w (n / w) &&& (2 ^ (n % w + 1) - 1)) := by
  intro i
  have hn := Nat.div_add_mod n w
  have hmod := Nat.mod_lt n hw
  rw [Nat.testBit_and, Nat.testBit_two_pow_sub_one, Bool.and_eq_true, testBit_cell,
    decide_eq_true_eq]
  constructor
  · rintro ⟨⟨hi, hbit⟩, hle⟩
    exact ⟨hi, by omega, hbit⟩
  · rintro ⟨hi, hle, hbit⟩
    exact ⟨⟨hi, hbit⟩, by omega⟩

theorem scanBack_masked (bits : Nat → Bool) (hw : 0 < w) (n : Nat) {found : Nat × Nat}
    (hfound : found = scanBack (cell bits w) (n / w)
      (cell bits w (n / w) &&& (2 ^ (n % w + 1) - 1))) :
    (found.2 = 0 ∧ ∀ m, m ≤ n → bits m = false) ∨
      (found.2 ≠ 0 ∧ found.2.log2 < w ∧ IsLast bits n (w * found.1 + found.2.log2)) := by
  rw [hfound]
  refine scanBack_spec (shows_masked hw) (Nat.mul_div_le n w) fun m hm hmn => ?_
  have hlt := Nat.lt_mul_div_succ n hw
  omega

end BitScan

end Rsgc
