import Mathlib.Data.List.Basic
import Mathlib.Logic.Function.Basic

namespace Rsgc

-- The slots of an array. One without a value was never written.
abbrev Slots (α : Type*) := Nat → Option α

namespace Slots

variable {α : Type*} {s t : Slots α} {l r : List α} {base i j : Nat} {x : α}

-- The list lies in the slots from `base` on.
def HoldsAt (s : Slots α) (base : Nat) (l : List α) : Prop :=
  ∀ i x, l[i]? = some x → s (base + i) = some x

-- A copy between ranges that may overlap.
def move (s : Slots α) (src dst count : Nat) : Slots α := fun i =>
  if dst ≤ i ∧ i < dst + count then s (src + (i - dst)) else s i

def fill (s : Slots α) (dst : Nat) (values : List α) : Slots α := fun i =>
  if dst ≤ i ∧ i < dst + values.length then values[i - dst]? else s i

def swap (s : Slots α) (i j : Nat) : Slots α :=
  Function.update (Function.update s i (s j)) j (s i)

theorem holdsAt_nil : s.HoldsAt base [] := by
  intro i x h
  rw [List.getElem?_nil] at h
  cases h

theorem holdsAt_singleton : s.HoldsAt base [x] ↔ s base = some x := by
  constructor
  · intro h
    exact h 0 x rfl
  · intro h i y hy
    cases i with
    | zero =>
        obtain rfl := Option.some.inj hy
        exact h
    | succ i => cases hy

theorem holdsAt_append :
    s.HoldsAt base (l ++ r) ↔ s.HoldsAt base l ∧ s.HoldsAt (base + l.length) r := by
  constructor
  · intro h
    constructor
    · intro i x hx
      apply h
      rw [List.getElem?_append_left (List.getElem?_eq_some_iff.mp hx).1]
      exact hx
    · intro i x hx
      rw [Nat.add_assoc]
      apply h
      rw [List.getElem?_append_right (Nat.le_add_right _ _), Nat.add_sub_cancel_left]
      exact hx
  · rintro ⟨hl, hr⟩ i x hx
    rcases Nat.lt_or_ge i l.length with hlt | hge
    · rw [List.getElem?_append_left hlt] at hx
      exact hl i x hx
    · rw [List.getElem?_append_right hge] at hx
      have hslot := hr _ x hx
      rwa [Nat.add_assoc, Nat.add_sub_cancel' hge] at hslot

theorem holdsAt_cons :
    s.HoldsAt base (x :: l) ↔ s base = some x ∧ s.HoldsAt (base + 1) l := by
  rw [← List.singleton_append, holdsAt_append, holdsAt_singleton, List.length_singleton]

theorem HoldsAt.congr (h : s.HoldsAt base l)
    (hsame : ∀ i, base ≤ i → i < base + l.length → t i = s i) : t.HoldsAt base l := by
  intro i x hx
  have hlt := (List.getElem?_eq_some_iff.mp hx).1
  rw [hsame _ (by omega) (by omega)]
  exact h i x hx

theorem HoldsAt.take (h : s.HoldsAt base l) (n : Nat) : s.HoldsAt base (l.take n) := by
  rw [← List.take_append_drop n l, holdsAt_append] at h
  exact h.1

-- Two lists of one length in the same slots are the same.
theorem HoldsAt.unique (h : s.HoldsAt base l) (h' : s.HoldsAt base r)
    (hlength : l.length = r.length) : l = r := by
  apply List.ext_getElem hlength
  intro i hl hr
  have hleft := h i _ (List.getElem?_eq_getElem hl)
  have hright := h' i _ (List.getElem?_eq_getElem hr)
  exact Option.some.inj (hleft.symm.trans hright)

theorem move_of_not {src dst count : Nat} (h : i < dst ∨ dst + count ≤ i) :
    s.move src dst count i = s i := if_neg (by omega)

theorem HoldsAt.move {src : Nat} (h : s.HoldsAt src l) (dst : Nat) :
    (s.move src dst l.length).HoldsAt dst l := by
  intro i x hx
  have hlt := (List.getElem?_eq_some_iff.mp hx).1
  unfold Slots.move
  rw [if_pos (by omega), Nat.add_sub_cancel_left]
  exact h i x hx

theorem fill_of_not {dst : Nat} (h : i < dst ∨ dst + l.length ≤ i) : s.fill dst l i = s i :=
  if_neg (by omega)

theorem fill_holdsAt (s : Slots α) (dst : Nat) (l : List α) : (s.fill dst l).HoldsAt dst l := by
  intro i x hx
  have hlt := (List.getElem?_eq_some_iff.mp hx).1
  unfold fill
  rw [if_pos (by omega), Nat.add_sub_cancel_left]
  exact hx

-- A part of the list is left out: what comes behind it is moved.
theorem HoldsAt.cut {front old rest : List α} (h : s.HoldsAt 0 (front ++ old ++ rest)) :
    (s.move (front.length + old.length) front.length rest.length).HoldsAt 0 (front ++ rest) := by
  rw [holdsAt_append, holdsAt_append, Nat.zero_add, Nat.zero_add, List.length_append] at h
  rw [holdsAt_append, Nat.zero_add]
  obtain ⟨⟨hfront, _⟩, hrest⟩ := h
  refine ⟨?_, hrest.move front.length⟩
  apply hfront.congr
  intro i _ hi
  exact move_of_not (Or.inl (by omega))

-- A part of the list is replaced by one of any length: what comes behind it is moved,
-- and the gap is filled.
theorem HoldsAt.splice {front old rest : List α} (new : List α)
    (h : s.HoldsAt 0 (front ++ old ++ rest)) :
    ((s.move (front.length + old.length) (front.length + new.length) rest.length).fill
      front.length new).HoldsAt 0 (front ++ new ++ rest) := by
  rw [holdsAt_append, holdsAt_append, Nat.zero_add, Nat.zero_add, List.length_append] at h
  rw [holdsAt_append, holdsAt_append, Nat.zero_add, Nat.zero_add, List.length_append]
  obtain ⟨⟨hfront, _⟩, hrest⟩ := h
  refine ⟨⟨?_, fill_holdsAt _ _ _⟩, ?_⟩
  · apply hfront.congr
    intro i _ hi
    rw [Nat.zero_add] at hi
    rw [fill_of_not (Or.inl hi), move_of_not (Or.inl (by omega))]
  · apply (hrest.move (front.length + new.length)).congr
    intro i hi _
    exact fill_of_not (Or.inr hi)

theorem HoldsAt.push (h : s.HoldsAt base l) :
    HoldsAt (Function.update s (base + l.length) (some x)) base (l ++ [x]) := by
  rw [holdsAt_append, holdsAt_singleton]
  constructor
  · apply h.congr
    intro i _ hlt
    exact Function.update_of_ne (by omega) _ _
  · exact Function.update_self _ _ _

theorem HoldsAt.set (h : s.HoldsAt base l) :
    HoldsAt (Function.update s (base + i) (some x)) base (l.set i x) := by
  intro j y hy
  rcases eq_or_ne i j with rfl | hne
  · have hlt := (List.getElem?_eq_some_iff.mp hy).1
    rw [List.length_set] at hlt
    rw [List.getElem?_set_self hlt] at hy
    rw [Function.update_self]
    exact hy
  · rw [List.getElem?_set_ne hne] at hy
    rw [Function.update_of_ne (by omega)]
    exact h j y hy

theorem swap_left : s.swap i j i = s j := by
  unfold swap
  rcases eq_or_ne i j with rfl | hne
  · exact Function.update_self _ _ _
  · rw [Function.update_of_ne hne, Function.update_self]

theorem swap_right : s.swap i j j = s i := Function.update_self _ _ _

theorem swap_of_ne {k : Nat} (hi : k ≠ i) (hj : k ≠ j) : s.swap i j k = s k := by
  unfold swap
  rw [Function.update_of_ne hj, Function.update_of_ne hi]

end Slots

end Rsgc
