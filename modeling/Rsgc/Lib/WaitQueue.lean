import Mathlib.Data.List.Nodup
import Mathlib.Logic.Function.Basic

namespace Rsgc

-- `queue` has the parties whose place is `place`, each once.
structure WaitQueue {τ σ : Type*} (place : σ) (slot : τ → σ) (queue : List τ) : Prop where
  nodup : queue.Nodup
  mem_iff : ∀ t, t ∈ queue ↔ slot t = place

namespace WaitQueue

variable {τ σ : Type*} {place other : σ} {slot : τ → σ} {queue : List τ} {t : τ}

theorem eq_nil_iff (h : WaitQueue place slot queue) : queue = [] ↔ ∀ t, slot t ≠ place := by
  rw [List.eq_nil_iff_forall_not_mem]
  simp only [h.mem_iff, ne_eq]

variable [DecidableEq τ]

-- A party that was elsewhere goes elsewhere.
theorem move (h : WaitQueue place slot queue) (ht : slot t ≠ place) {x : σ} (hx : x ≠ place) :
    WaitQueue place (Function.update slot t x) queue := by
  refine ⟨h.nodup, fun u => ?_⟩
  rw [h.mem_iff]
  rcases eq_or_ne u t with rfl | hu
  · rw [Function.update_self]
    exact iff_of_false ht hx
  · rw [Function.update_of_ne hu]

theorem enqueue (h : WaitQueue place slot queue) (ht : slot t ≠ place) :
    WaitQueue place (Function.update slot t place) (queue ++ [t]) := by
  have hfresh : t ∉ queue := fun hmem => ht ((h.mem_iff t).mp hmem)
  refine ⟨?_, fun u => ?_⟩
  · rw [List.nodup_append_comm]
    exact List.nodup_cons.mpr ⟨hfresh, h.nodup⟩
  · rw [List.mem_append, List.mem_singleton, h.mem_iff]
    rcases eq_or_ne u t with rfl | hu
    · simp
    · simp [hu]

theorem dequeue (h : WaitQueue place slot queue) {x : σ} (hx : x ≠ place) :
    WaitQueue place (Function.update slot t x) (queue.erase t) := by
  refine ⟨h.nodup.erase t, fun u => ?_⟩
  rw [h.nodup.mem_erase_iff, h.mem_iff]
  rcases eq_or_ne u t with rfl | hu
  · simp [hx]
  · simp [hu]

-- All parties of one queue go behind those of another, but for one that goes elsewhere.
theorem requeue {rest moved : List τ} (h : WaitQueue place slot queue)
    (h' : WaitQueue other slot rest) (hne : other ≠ place) (hmoved : moved.Nodup)
    (hsub : ∀ u ∈ moved, u ∈ rest) {x : σ} (hx : x ≠ place) :
    WaitQueue place (fun u => if u ∈ moved then place else if u ∈ rest then x else slot u)
      (queue ++ moved) := by
  refine ⟨?_, fun u => ?_⟩
  · refine List.nodup_append.mpr ⟨h.nodup, hmoved, fun a ha b hb hab => ?_⟩
    subst hab
    have hplace := (h.mem_iff a).mp ha
    have hother := (h'.mem_iff a).mp (hsub a hb)
    exact hne (hother.symm.trans hplace)
  · rw [List.mem_append, h.mem_iff]
    have hu := h'.mem_iff u
    split_ifs with hm hr
    · simp [hm]
    · simp [hm, hx, hu.mp hr, hne]
    · simp [hm]

theorem requeued {moved : List τ} (h : WaitQueue place slot queue) (hne : other ≠ place) {x : σ}
    (hx : x ≠ place) :
    WaitQueue place (fun u => if u ∈ moved then other else if u ∈ queue then x else slot u) [] := by
  refine ⟨List.nodup_nil, fun u => ?_⟩
  have hu := h.mem_iff u
  split_ifs with hm hr
  · simp [hne]
  · simp [hx]
  · simp [← hu, hr]

end WaitQueue

end Rsgc
