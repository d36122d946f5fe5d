import Rsgc.System.ArrayList.Refines

namespace Rsgc.System

-- A list is indexed from its start, or with an `i32`, which counts from the end when it
-- is negative.
inductive ListIndex
  | usize (idx : Nat)
  | i32 (idx : Int32)
deriving DecidableEq

namespace ArrayList

variable {α : Type}

-- The slot that the reference points to.
def at' (a : ArrayList α) (idx : Nat) : Except Fault Nat := do
  ensure (idx < a.len) Fault.panic
  RawArray.index a idx

-- `-idx` overflows for the smallest `i32`, and the subtraction before the first element.
-- The cast between them extends the sign.
def fromEnd (p : Profile) (a : ArrayList α) (idx : Int32) : Except Fault Nat := do
  let back ← orPanic (p.signed 32 (-idx.toInt))
  orPanic (p.unsigned 64 ((a.len : Int) - back % 2 ^ 64))

def normalize (p : Profile) (a : ArrayList α) (idx : Int32) : Except Fault Nat :=
  if idx.toInt < 0 then fromEnd p a idx else pure idx.toInt.toNat

end ArrayList

namespace ListIndex

variable {α : Type}

def index (p : Profile) (a : ArrayList α) : ListIndex → Except Fault Nat
  | usize idx => a.at' idx
  | i32 idx => do
      let index ← ArrayList.normalize p a idx
      a.at' index

-- `IndexMut` reaches into the slice of the whole array.
def indexMut (p : Profile) (a : ArrayList α) : ListIndex → Except Fault Nat
  | usize idx => RawArray.index a idx
  | i32 idx => do
      let index ← ArrayList.normalize p a idx
      RawArray.index a index

end ListIndex

namespace ArrayList

variable {α : Type} {p : Profile} {a : ArrayList α} {l : List α} {x : α} {slot : Nat}

-- Both lead to the slot of one element, or both panic.
def Agree (a : ArrayList α) (shared unique : Except Fault Nat) : Prop :=
  (∃ slot < a.len, shared = .ok slot ∧ unique = .ok slot) ∨
    shared = .error .panic ∧ unique = .error .panic

-- The position is that of a free slot.
def Free (a : ArrayList α) (idx : Nat) : Prop := a.len ≤ idx ∧ idx < a.cap

-- Counted from the end there is none, but that a release build takes the smallest `i32`
-- for a position behind the elements.
def Exposes (p : Profile) (a : ArrayList α) : ListIndex → Prop
  | .usize idx => a.Free idx
  | .i32 idx => 0 ≤ idx.toInt ∧ a.Free idx.toInt.toNat ∨
      p = .release ∧ idx.toInt = -2 ^ 31 ∧ a.Free (a.len + 2 ^ 31)

theorem at_agrees_iff (a : ArrayList α) (idx : Nat) :
    a.Agree (a.at' idx) (RawArray.index a idx) ↔ ¬a.Free idx := by
  unfold Agree Free at' RawArray.index
  by_cases hlen : idx < a.len
  · rw [ensure_bind hlen]
    refine iff_of_true ?_ fun hfree => absurd hfree.1 (by omega)
    by_cases hcap : idx < a.cap
    · rw [ensure_bind hcap]
      exact Or.inl ⟨idx, hlen, rfl, rfl⟩
    · rw [ensure_bind_error hcap]
      exact Or.inr ⟨rfl, rfl⟩
  · rw [ensure_bind_error hlen]
    by_cases hcap : idx < a.cap
    · rw [ensure_bind hcap]
      refine iff_of_false ?_ fun hnot => hnot ⟨by omega, hcap⟩
      rintro (⟨slot, _, hshared, _⟩ | ⟨_, hunique⟩)
      · cases hshared
      · cases hunique
    · rw [ensure_bind_error hcap]
      exact iff_of_true (Or.inr ⟨rfl, rfl⟩) fun hfree => hcap hfree.2

theorem fromEnd_min (hlen : a.len < 2 ^ 32) {idx : Int32} (hmin : idx.toInt = -2 ^ 31) :
    fromEnd .debug a idx = .error .panic ∧ fromEnd .release a idx = .ok (a.len + 2 ^ 31) := by
  have hback : (-(-2 ^ 31) : Int).bmod (2 ^ 32) % 2 ^ 64 = 2 ^ 64 - 2 ^ 31 := by decide
  have hwrap : ((a.len : Int) - (2 ^ 64 - 2 ^ 31)) % 2 ^ 64 = a.len + 2 ^ 31 := by omega
  unfold fromEnd
  rw [hmin]
  constructor
  · rfl
  · have hsigned : Profile.release.signed 32 (-(-2 ^ 31)) =
        some ((-(-2 ^ 31) : Int).bmod (2 ^ 32)) := if_neg (by decide)
    have hunsigned : Profile.release.unsigned 64 ((a.len : Int) - (2 ^ 64 - 2 ^ 31)) =
        some (a.len + 2 ^ 31) := by
      unfold Profile.unsigned
      rw [if_neg (by omega), hwrap]
      rfl
    rw [hsigned]
    change orPanic (Profile.release.unsigned 64 _) = _
    rw [hback, hunsigned]
    rfl

-- Any other negative index ends before the elements, or far behind them where a release
-- build has wrapped.
theorem fromEnd_cases (p : Profile) (hlen : a.len < 2 ^ 32) {idx : Int32} (hneg : idx.toInt < 0)
    (hmin : idx.toInt ≠ -2 ^ 31) :
    fromEnd p a idx = .error .panic ∨
      ∃ slot, fromEnd p a idx = .ok slot ∧ (slot < a.len ∨ 2 ^ 32 ≤ slot) := by
  have hlow := idx.le_toInt
  have hback : p.signed 32 (-idx.toInt) = some (-idx.toInt) :=
    Profile.signed_eq (by omega) (by omega)
  have hcast : -idx.toInt % 2 ^ 64 = -idx.toInt := Int.emod_eq_of_lt (by omega) (by omega)
  unfold fromEnd
  rw [hback]
  change orPanic (p.unsigned 64 ((a.len : Int) - -idx.toInt % 2 ^ 64)) = _ ∨
    ∃ slot, orPanic (p.unsigned 64 ((a.len : Int) - -idx.toInt % 2 ^ 64)) = .ok slot ∧ _
  rw [hcast]
  cases hvalue : p.unsigned 64 ((a.len : Int) - -idx.toInt) with
  | none => exact Or.inl rfl
  | some slot =>
      have hslot := Profile.unsigned_mod hvalue
      exact Or.inr ⟨slot, rfl, by omega⟩

theorem normalize_neg (p : Profile) (a : ArrayList α) {idx : Int32} (hneg : idx.toInt < 0) :
    normalize p a idx = fromEnd p a idx := if_pos hneg

theorem normalize_nonneg (p : Profile) (a : ArrayList α) {idx : Int32} (hpos : 0 ≤ idx.toInt) :
    normalize p a idx = .ok idx.toInt.toNat := if_neg (by omega)

theorem at_read (h : a.Denotes l) {idx : Nat} (hat : a.at' idx = .ok slot) :
    ∃ x, l[slot]? = some x ∧ a.read slot = .ok x := by
  obtain ⟨_, hlen, hindex⟩ := Except.bind_eq_ok.mp hat
  obtain ⟨_, _, hslot⟩ := Except.bind_eq_ok.mp hindex
  obtain rfl := Except.pure_eq_ok.mp hslot
  have hlt := Except.ensure_eq_ok.mp hlen
  rw [h.len_eq] at hlt
  have hx := List.getElem?_eq_getElem hlt
  exact ⟨_, hx, h.read hx⟩

-- Where the index is turned into a position the two agree but for a free one.
theorem i32_agrees_iff {idx : Int32} {position : Nat}
    (hposition : normalize p a idx = .ok position) :
    a.Agree ((ListIndex.i32 idx).index p a) ((ListIndex.i32 idx).indexMut p a) ↔
      ¬a.Free position := by
  unfold ListIndex.index ListIndex.indexMut
  simp only [hposition, Except.ok_bind]
  exact at_agrees_iff a position

theorem i32_panics {idx : Int32} (hpanic : normalize p a idx = .error .panic) :
    a.Agree ((ListIndex.i32 idx).index p a) ((ListIndex.i32 idx).indexMut p a) := by
  unfold ListIndex.index ListIndex.indexMut
  simp only [hpanic, Except.error_bind]
  exact Or.inr ⟨rfl, rfl⟩

theorem exposes_nonneg {idx : Int32} (hpos : 0 ≤ idx.toInt) :
    a.Exposes p (.i32 idx) ↔ a.Free idx.toInt.toNat := by
  have hmin : ¬(p = .release ∧ idx.toInt = -2 ^ 31 ∧ a.Free (a.len + 2 ^ 31)) := by omega
  exact (or_iff_left hmin).trans (and_iff_right hpos)

theorem exposes_neg {idx : Int32} (hneg : idx.toInt < 0) :
    a.Exposes p (.i32 idx) ↔ p = .release ∧ idx.toInt = -2 ^ 31 ∧ a.Free (a.len + 2 ^ 31) :=
  or_iff_right fun h => absurd h.1 (by omega)

theorem i32_exact_iff (hlen : a.len < 2 ^ 32) (hcap : a.cap < 2 ^ 32) (idx : Int32) :
    a.Agree ((ListIndex.i32 idx).index p a) ((ListIndex.i32 idx).indexMut p a) ↔
      ¬a.Exposes p (.i32 idx) := by
  by_cases hpos : 0 ≤ idx.toInt
  · rw [i32_agrees_iff (normalize_nonneg p a hpos), exposes_nonneg hpos]
  · have hneg : idx.toInt < 0 := by omega
    rw [exposes_neg hneg]
    by_cases hmin : idx.toInt = -2 ^ 31
    · obtain ⟨hdebug, hrelease⟩ := fromEnd_min hlen hmin
      cases p with
      | debug =>
          rw [← normalize_neg _ a hneg] at hdebug
          exact iff_of_true (i32_panics hdebug) (by simp)
      | release =>
          rw [← normalize_neg _ a hneg] at hrelease
          rw [i32_agrees_iff hrelease, and_iff_right rfl, and_iff_right hmin]
    · refine iff_of_true ?_ fun h => hmin h.2.1
      obtain hpanic | ⟨slot, hslot, hfar⟩ := fromEnd_cases p hlen hneg hmin
      · rw [← normalize_neg p a hneg] at hpanic
        exact i32_panics hpanic
      · rw [← normalize_neg p a hneg] at hslot
        rw [i32_agrees_iff hslot]
        rintro ⟨hlow, hhigh⟩
        omega

-- The list is indexed in the same way by all, except for its free slots. An array keeps
-- its length and its capacity in 32 bits.
theorem index_paths_agree_iff (p : Profile) (a : ArrayList α) (idx : ListIndex)
    (hlen : a.len < 2 ^ 32) (hcap : a.cap < 2 ^ 32) :
    (a.Agree (idx.index p a) (idx.indexMut p a) ↔ ¬a.Exposes p idx) ∧
      ∀ l, a.Denotes l → ∀ slot, idx.index p a = .ok slot →
        ∃ x, l[slot]? = some x ∧ a.read slot = .ok x := by
  cases idx with
  | usize idx => exact ⟨at_agrees_iff a idx, fun l h slot hat => at_read h hat⟩
  | i32 idx =>
      refine ⟨i32_exact_iff hlen hcap idx, fun l h slot hindex => ?_⟩
      obtain ⟨position, _, hat⟩ := Except.bind_eq_ok.mp hindex
      exact at_read h hat

-- The last of three elements, from the end.
theorem index_paths_agree_iff_last :
    (full [10, 20, 30]).Agree ((ListIndex.i32 (-1)).index .release (full [10, 20, 30]))
        ((ListIndex.i32 (-1)).indexMut .release (full [10, 20, 30])) ∧
      ∃ x, [10, 20, 30][2]? = some x ∧ RawArray.read (full [10, 20, 30]) 2 = .ok x := by
  have hlist : (full [10, 20, 30]).Denotes [10, 20, 30] := full_denotes (by decide)
  have hnegative : ¬(full [10, 20, 30]).Exposes .release (.i32 (-1)) := by
    rintro (hpos | ⟨_, hmin, _⟩)
    · exact absurd hpos.1 (by decide)
    · exact absurd hmin (by decide)
  obtain ⟨hagree, helement⟩ :=
    index_paths_agree_iff .release (full [10, 20, 30]) (.i32 (-1)) (by decide) (by decide)
  exact ⟨hagree.mpr hnegative, helement [10, 20, 30] hlist 2 (by decide +kernel)⟩

end ArrayList

namespace ArrayListRun

-- One element is in the four slots. The next slot but one can be written to.
theorem free_slot_exposed : ∃ s : ArrayListRun Nat, (arrayListMachine Nat 4).Reachable s ∧
    s.model = [10] ∧ ∀ p, (ListIndex.usize 2).index p s.list = .error .panic ∧
      (ListIndex.usize 2).indexMut p s.list = .ok 2 ∧
      ¬s.list.Agree ((ListIndex.usize 2).index p s.list)
        ((ListIndex.usize 2).indexMut p s.list) := by
  have hrun : ((arrayListMachine Nat 4).run ⟨ArrayListRun.newList 4, [], []⟩
      [(.push 10, anyMemory)]).map (fun s => (s.model, s.list.len, s.list.cap)) =
        some ([10], 1, 4) := by decide +kernel
  obtain ⟨s, hs, hvalues⟩ := Option.map_eq_some_iff.mp hrun
  simp only [Prod.mk.injEq] at hvalues
  obtain ⟨hmodel, hlen, hcap⟩ := hvalues
  have hinit : (arrayListMachine Nat 4).init ⟨newList 4, [], []⟩ := newList_init 4 (by decide)
  refine ⟨s, Machine.run_reachable (Machine.Via.init hinit) hs, hmodel, fun p => ?_⟩
  have hshared : (ListIndex.usize 2).index p s.list = .error .panic :=
    ensure_bind_error (by omega)
  have hunique : (ListIndex.usize 2).indexMut p s.list = .ok 2 := RawArray.index_eq (by omega)
  refine ⟨hshared, hunique, ?_⟩
  rw [hshared, hunique]
  rintro (⟨slot, _, hslot, _⟩ | ⟨_, hpanic⟩)
  · cases hslot
  · cases hpanic

end ArrayListRun

end Rsgc.System
