import Rsgc.System.GcString.Calls

namespace Rsgc.System.GcString

-- A list or a string is divided where the tail has at most one element or byte.
theorem split_off_exact_iff {α : Type} (p : Profile) (elemSize : Nat) (available : Allocator)
    (at' : Nat) :
    (∀ (a : ArrayList α) (l : List α), a.Denotes l → at' ≤ l.length →
      (Divides (ArrayList.splitOff p a elemSize available at') l at' ↔
        l.length ≤ at' + 1 ∧ available (l.length - at') = true)) ∧
    ∀ (s : GcString) (cs : List Char), s.Spells cs → Utf8.IsBoundary cs at' →
      (Divides (splitOff p s available at') (Utf8.encode cs) at' ↔
        (Utf8.encode cs).length ≤ at' + 1 ∧
          available ((Utf8.encode cs).length - at') = true) := by
  refine ⟨fun a l h hle => ArrayList.splitOff_divides_iff h hle, fun s cs h hboundary => ?_⟩
  obtain ⟨front, rest, _, hcs, rfl⟩ := Utf8.splitAt_of_boundary hboundary
  apply ArrayList.splitOff_divides_iff h
  rw [hcs, Utf8.encode_append, List.length_append]
  exact Nat.le_add_right _ _

-- The last of three elements, and the last byte behind a longer character.
theorem split_off_exact_iff_last :
    Divides (ArrayList.splitOff .release (ArrayList.full [10, 20, 30]) 4 anyMemory 2) [10, 20, 30] 2 ∧
      Divides (splitOff .release (ArrayList.full (Utf8.encode ['é', 'a'])) anyMemory 2)
        (Utf8.encode ['é', 'a']) 2 := by
  have hlist : (ArrayList.full [10, 20, 30]).Denotes [10, 20, 30] :=
    ArrayList.full_denotes (by decide)
  have hstring : Spells (ArrayList.full (Utf8.encode ['é', 'a'])) ['é', 'a'] :=
    ArrayList.full_denotes (by decide +kernel)
  constructor
  · exact ((split_off_exact_iff .release 4 anyMemory 2).1 _ _ hlist (by decide)).mpr ⟨by decide, rfl⟩
  · exact ((split_off_exact_iff (α := Nat) .release 4 anyMemory 2).2 _ _ hstring (by decide +kernel)).mpr
      ⟨by decide +kernel, rfl⟩

-- The removal of the first element moves the second one to its place, which the loop has
-- left behind.
theorem two_elements_panic : (ArrayList.full [10, 20]).Denotes [10, 20] ∧
    ∀ p, ArrayList.splitOff p (ArrayList.full [10, 20]) 4 anyMemory 0 = .error .panic ∧
      ¬Divides (ArrayList.splitOff p (ArrayList.full [10, 20]) 4 anyMemory 0) [10, 20] 0 := by
  have hlist : (ArrayList.full [10, 20]).Denotes [10, 20] := ArrayList.full_denotes (by decide)
  refine ⟨hlist, fun p => ?_⟩
  have hpanic : ArrayList.splitOff p (ArrayList.full [10, 20]) 4 anyMemory 0 = .error .panic := by
    unfold ArrayList.splitOff
    rw [plainSub_eq p (by decide) (by decide)]
    rfl
  exact ⟨hpanic, Stops.not_divides (Or.inl hpanic)⟩

end Rsgc.System.GcString
