import Mathlib.Data.List.Basic
import Mathlib.Data.Nat.ModEq
import Mathlib.Logic.Function.Basic

namespace Rsgc

-- The `count` cells of a ring of `size` cells from `start` on.
def ring {α : Type*} (cells : Nat → α) (size start count : Nat) : List α :=
  (List.range count).map fun i => cells ((start + i) % size)

section Ring

variable {α : Type*} {cells : Nat → α} {size start count : Nat}

theorem ring_zero : ring cells size start 0 = [] := rfl

theorem ring_last : ring cells size start (count + 1) =
    ring cells size start count ++ [cells ((start + count) % size)] := by
  unfold ring
  rw [List.range_succ, List.map_append, List.map_singleton]

theorem ring_first (hlt : start < size) : ring cells size start (count + 1) =
    cells start :: ring cells size ((start + 1) % size) count := by
  unfold ring
  rw [List.range_succ_eq_map, List.map_cons, List.map_map, Nat.add_zero, Nat.mod_eq_of_lt hlt]
  congr 1
  apply List.map_congr_left
  intro i _
  have hshift : start + (i + 1) = start + 1 + i := by omega
  simp only [Function.comp_apply, Nat.succ_eq_add_one]
  rw [hshift, Nat.mod_add_mod]

-- Steps of less than a whole turn from one cell lead to different cells.
theorem ring_index_inj (start : Nat) {i j : Nat} (hi : i < size) (hj : j < size)
    (heq : (start + i) % size = (start + j) % size) : i = j := by
  have hmod : i % size = j % size := Nat.ModEq.add_left_cancel' start heq
  rwa [Nat.mod_eq_of_lt hi, Nat.mod_eq_of_lt hj] at hmod

-- The cell behind the last one may be written.
theorem ring_update (hcount : count < size) (x : α) :
    ring (Function.update cells ((start + count) % size) x) size start count =
      ring cells size start count := by
  unfold ring
  apply List.map_congr_left
  intro i hi
  have hlt := List.mem_range.mp hi
  rw [Function.update_of_ne]
  intro heq
  have hsame := ring_index_inj start (by omega) hcount heq
  omega

end Ring

end Rsgc
