import Mathlib.Data.Fintype.Basic
import Rsgc.Storage.ObjStorage.Coverage

namespace Rsgc.Storage

namespace ObjStorage

variable {τ : Type*} [DecidableEq τ] [Fintype τ] {s u : ObjStorage τ} {t : τ}

section Decidable

instance (s : ObjStorage τ) : DecidablePred s.SmoothAt
  | .judging _ block => inferInstanceAs
      (Decidable (s.list.next block = none ∨ block ∈ s.listed ∧ s.mask block ≠ 0))
  | .linking block => inferInstanceAs (Decidable (s.deferredNext block = none))
  | .takingAll block new _ => inferInstanceAs (Decidable
      (new = ~~~s.mask block ∨ block ∈ s.queued ∨ ∃ v, (s.place v).queues block = true))
  | .idle | .choosing _ | .popping _ _ | .exchanging _ _ _ | .popped _ _ | .adding _
  | .taking _ _ | .taken _ _ | .clearing _ _ | .checking _ | .loading _ | .storing _ _
  | .pushing _ _ => .isTrue trivial

instance (s : ObjStorage τ) : DecidablePred s.Fits
  | .go t => inferInstanceAs (Decidable (s.SmoothAt (s.place t)))
  | .allocate _ _ | .release _ _ _ | .fail _ => .isTrue trivial

end Decidable

omit [DecidableEq τ] in
theorem Bits.idle (h : s.Bits) (hidle : ∀ v, s.place v = .idle) (b : Nat) :
    s.held b = s.mask b := by
  apply BitVec.eq_of_getLsbD_eq
  intro i _
  have howners := h.owners b i
  simp only [hidle, StoragePlace.pending, zero_bit, Bool.toNat_false, Finset.sum_const_zero,
    Nat.add_zero] at howners
  rw [Bool.eq_iff_iff, ← Bool.toNat_eq_one, ← Bool.toNat_eq_one, howners]

end ObjStorage

end Rsgc.Storage
