import Rsgc.System.ArrayList.Lists

namespace Rsgc.System

namespace ArrayList

open RawArray

variable {α : Type} {a : ArrayList α} {l : List α} {elemSize : Nat} {x : α}

-- The list after the swaps of its first `count` elements with its last.
def Turned (l m : List α) (count : Nat) : Prop :=
  m.length = l.length ∧ ∀ i < l.length,
    m[i]? = if i < count ∨ l.length - count ≤ i then l[l.length - 1 - i]? else l[i]?

theorem Turned.swap {m : List α} {count : Nat} {y : α} (h : Turned l m count)
    (hlt : count < l.length / 2) (hx : m[count]? = some x)
    (hy : m[l.length - 1 - count]? = some y) :
    Turned l ((m.set count y).set (l.length - 1 - count) x) (count + 1) := by
  obtain ⟨hlength, hturned⟩ := h
  have hleft := hturned count (by omega)
  have hright := hturned (l.length - 1 - count) (by omega)
  rw [if_neg (by omega), hx] at hleft
  rw [if_neg (by omega), hy] at hright
  refine ⟨by rw [List.length_set, List.length_set, hlength], fun i hi => ?_⟩
  rcases eq_or_ne (l.length - 1 - count) i with rfl | hne
  · rw [List.getElem?_set_self (by rw [List.length_set]; omega), if_pos (by omega), hleft]
    congr 1
    omega
  · rw [List.getElem?_set_ne hne]
    rcases eq_or_ne count i with rfl | hne'
    · rw [List.getElem?_set_self (by omega), if_pos (by omega), hright]
    · rw [List.getElem?_set_ne hne', hturned i hi]
      congr 1
      simp only [eq_iff_iff]
      omega

theorem Turned.eq_reverse {m : List α} (h : Turned l m (l.length / 2)) : m = l.reverse := by
  obtain ⟨hlength, hturned⟩ := h
  apply List.ext_getElem?
  intro i
  rcases Nat.lt_or_ge i l.length with hlt | hge
  · rw [hturned i hlt, List.getElem?_reverse hlt]
    split
    · rfl
    · congr 1
      omega
  · rw [List.getElem?_eq_none (by omega), List.getElem?_eq_none (by rwa [List.length_reverse])]

theorem revswap_eq {m : List α} {count fuel : Nat} (h : a.Denotes m) (hturned : Turned l m count)
    (hsum : count + fuel = l.length / 2) :
    ∃ b, a.revswap l.length count fuel = .ok b ∧ b.Denotes l.reverse := by
  induction fuel generalizing a m count with
  | zero =>
      obtain rfl : count = l.length / 2 := hsum
      exact ⟨a, rfl, hturned.eq_reverse ▸ h⟩
  | succ fuel ih =>
      have hlength := hturned.1
      have hx : m[count]? = some _ := List.getElem?_eq_getElem (by omega)
      have hy : m[l.length - 1 - count]? = some _ := List.getElem?_eq_getElem (by omega)
      obtain ⟨b, hb, hdenotes⟩ := h.swap hx hy
      obtain ⟨c, hc, hreverse⟩ := ih hdenotes (hturned.swap (by omega) hx hy) (by omega)
      refine ⟨c, ?_, hreverse⟩
      unfold revswap
      rw [hb, Except.ok_bind, hc]

theorem reverseInPlace_eq (h : a.Denotes l) :
    ∃ b, a.reverseInPlace = .ok b ∧ b.Denotes l.reverse := by
  unfold reverseInPlace
  rw [h.len_eq]
  apply revswap_eq h
  · exact ⟨rfl, fun i hi => (if_neg (by omega)).symm⟩
  · exact Nat.zero_add _

-- What `retain_mut` leaves of a list.
def retained (f : Closure α) : List α → List α → List α
  | _, [] => []
  | seen, x :: rest =>
      let (y, shouldRetain) := f seen x
      if shouldRetain then y :: retained f (x :: seen) rest else retained f (x :: seen) rest

-- In the loop the kept elements come first, then slots with any values, then the
-- elements that were not read yet.
structure Compacts (a : ArrayList α) (kept rest : List α) (read : Nat) : Prop where
  kept_at : a.data.HoldsAt 0 kept
  rest_at : a.data.HoldsAt read rest
  kept_le : kept.length ≤ read
  room : read + rest.length ≤ a.allocated
  values : ∀ i < read + rest.length, ∃ x, a.data i = some x

-- The element that was read is written to the slot behind the kept ones, which may
-- be its own.
theorem Compacts.keep {kept rest : List α} {read : Nat} {data : Slots α}
    (h : Compacts a kept (x :: rest) read)
    (hslot : data kept.length = some x)
    (hsame : ∀ i, i ≠ kept.length → i ≠ read → data i = a.data i)
    (hread : ∃ y, data read = some y) :
    Compacts { a with data := data } (kept ++ [x]) rest (read + 1) := by
  have hle := h.kept_le
  have hroom := h.room
  rw [List.length_cons] at hroom
  refine ⟨?_, ?_, ?_, by simp only; omega, fun i hi => ?_⟩
  · rw [Slots.holdsAt_append, Slots.holdsAt_singleton, Nat.zero_add]
    exact ⟨h.kept_at.congr fun i _ hi => hsame i (by omega) (by omega), hslot⟩
  · exact (Slots.holdsAt_cons.mp h.rest_at).2.congr fun i hi _ => hsame i (by omega) (by omega)
  · rw [List.length_append, List.length_singleton]
    omega
  · rcases eq_or_ne i kept.length with rfl | hne
    · exact ⟨x, hslot⟩
    · rcases eq_or_ne i read with rfl | hne'
      · exact hread
      · obtain ⟨y, hy⟩ := h.values i (by rw [List.length_cons]; omega)
        exact ⟨y, (hsame i hne hne').trans hy⟩

theorem Compacts.drop {kept rest : List α} {read : Nat} (h : Compacts a kept (x :: rest) read) :
    Compacts a kept rest (read + 1) := by
  have hroom := h.room
  have hvalues := h.values
  rw [List.length_cons] at hroom hvalues
  exact ⟨h.kept_at, (Slots.holdsAt_cons.mp h.rest_at).2, Nat.le_succ_of_le h.kept_le, by omega,
    fun i hi => hvalues i (by omega)⟩

-- The closure changes the element that it is asked about.
theorem Compacts.write {kept rest : List α} {read : Nat} (h : Compacts a kept (x :: rest) read)
    (y : α) : ∃ b, RawArray.write a read y = .ok b ∧ Compacts b kept (y :: rest) read ∧
      b.len = a.len ∧ b.cap = a.cap ∧ b.allocated = a.allocated := by
  have hle := h.kept_le
  have hroom := h.room
  have hvalues := h.values
  rw [List.length_cons] at hroom hvalues
  refine ⟨_, write_eq (by omega), ⟨?_, ?_, hle, hroom, fun i hi => ?_⟩, rfl, rfl, rfl⟩
  · exact h.kept_at.congr fun i _ hi => Function.update_of_ne (by omega) _ _
  · rw [Slots.holdsAt_cons]
    exact ⟨Function.update_self _ _ _, (Slots.holdsAt_cons.mp h.rest_at).2.congr fun i hi _ =>
      Function.update_of_ne (by omega) _ _⟩
  · rcases eq_or_ne i read with rfl | hne
    · exact ⟨y, Function.update_self _ _ _⟩
    · obtain ⟨z, hz⟩ := hvalues i hi
      exact ⟨z, (Function.update_of_ne hne _ _).trans hz⟩

theorem Compacts.swap {kept rest : List α} {read : Nat} (h : Compacts a kept (x :: rest) read) :
    ∃ b, RawArray.swap a read kept.length = .ok b ∧ Compacts b (kept ++ [x]) rest (read + 1) ∧
      b.len = a.len ∧ b.cap = a.cap ∧ b.allocated = a.allocated := by
  have hle := h.kept_le
  have hroom := h.room
  have hread := (Slots.holdsAt_cons.mp h.rest_at).1
  rw [List.length_cons] at hroom
  obtain ⟨y, hy⟩ := h.values kept.length (by rw [List.length_cons]; omega)
  refine ⟨_, swap_eq (by omega) (by omega) hread hy, h.keep ?_ (fun i hk hr => ?_) ⟨y, ?_⟩,
    rfl, rfl, rfl⟩
  · rw [Slots.swap_right]
    exact hread
  · exact Slots.swap_of_ne hr hk
  · rw [Slots.swap_left]
    exact hy

theorem retainLoop_eq (f : Closure α) (seen : List α) {kept rest : List α} {read : Nat}
    (h : Compacts a kept rest read) :
    ∃ b, a.retainLoop f read kept.length seen rest.length =
        .ok (b, (kept ++ retained f seen rest).length) ∧
      b.data.HoldsAt 0 (kept ++ retained f seen rest) ∧
      b.len = a.len ∧ b.cap = a.cap ∧ b.allocated = a.allocated := by
  induction rest generalizing a kept seen read with
  | nil =>
      unfold retained retainLoop
      rw [List.append_nil]
      exact ⟨a, rfl, h.kept_at, rfl, rfl, rfl⟩
  | cons x rest ih =>
      have hroom := h.room
      have hread := (Slots.holdsAt_cons.mp h.rest_at).1
      rw [List.length_cons] at hroom
      obtain ⟨b, hb, hwritten, hlen, hcap, hallocated⟩ := h.write (f seen x).1
      unfold retained retainLoop
      simp only [List.length_cons]
      rw [read_eq (by omega) hread, Except.ok_bind, hb, Except.ok_bind]
      cases hkeep : (f seen x).2 with
      | false =>
          simp only [Bool.false_eq_true, false_and, if_false, Except.pure_bind']
          rw [← hlen, ← hcap, ← hallocated]
          exact ih _ hwritten.drop
      | true =>
          have hmoved : ∃ c, (if read ≠ kept.length then b.swap read kept.length else pure b) =
              .ok c ∧ Compacts c (kept ++ [(f seen x).1]) rest (read + 1) ∧
              c.len = b.len ∧ c.cap = b.cap ∧ c.allocated = b.allocated := by
            by_cases hne : read = kept.length
            · rw [if_neg (not_not.mpr hne)]
              have hslot := (Slots.holdsAt_cons.mp hwritten.rest_at).1
              exact ⟨b, rfl, hwritten.keep (hne ▸ hslot) (fun _ _ _ => rfl) ⟨_, hslot⟩,
                rfl, rfl, rfl⟩
            · rw [if_pos hne]
              exact hwritten.swap
          obtain ⟨c, hc, hcompacts, hlen', hcap', hallocated'⟩ := hmoved
          have hnext := ih (x :: seen) hcompacts
          rw [List.length_append, List.length_singleton, List.append_assoc,
            List.singleton_append, hlen', hlen, hcap', hcap, hallocated', hallocated] at hnext
          simp only [true_and, if_true]
          by_cases hne : read ≠ kept.length
          · rw [if_pos hne] at hc ⊢
            rw [hc]
            exact hnext
          · rw [if_neg hne] at hc ⊢
            rw [hc]
            exact hnext

theorem retained_length_le (f : Closure α) (seen l : List α) :
    (retained f seen l).length ≤ l.length := by
  induction l generalizing seen with
  | nil => exact Nat.le_refl _
  | cons x rest ih =>
      have hrest := ih (x :: seen)
      unfold retained
      simp only
      split
      · exact Nat.succ_le_succ hrest
      · exact Nat.le_succ_of_le hrest

theorem retainMut_eq (f : Closure α) (h : a.Denotes l) (hsize : 0 < elemSize) :
    ∃ b, a.retainMut elemSize f = .ok b ∧ b.Denotes (retained f [] l) := by
  have hlen := h.len_eq
  have hle := h.len_le
  have hroom := h.cap_le
  have hlt := h.cap_lt
  have hkept := retained_length_le f [] l
  have hstart : Compacts a [] l 0 := by
    refine ⟨Slots.holdsAt_nil, h.data, Nat.le_refl _, by omega, fun i hi => ?_⟩
    have hx : l[i]? = some _ := List.getElem?_eq_getElem (by omega)
    exact ⟨_, h.data_eq hx⟩
  obtain ⟨b, hb, hdata, hlen', hcap, hallocated⟩ := retainLoop_eq f [] hstart
  rw [List.nil_append] at hb hdata
  rw [List.length_nil] at hb
  refine ⟨b.truncate (retained f [] l).length, ?_, ?_⟩
  · unfold retainMut
    rw [hlen, hb, Except.ok_bind]
    simp only
    rw [ensure_bind (Nat.pos_iff_ne_zero.mp hsize), Nat.mul_div_cancel _ hsize]
    rfl
  · unfold truncate
    split
    · exact ⟨by omega, by omega, by omega, by omega, hdata⟩
    · refine ⟨Nat.mod_eq_of_lt (by omega), ?_, ?_, ?_, hdata⟩
      · exact hcap ▸ Nat.le_trans hkept hle
      · rw [← hcap, ← hallocated] at hroom
        exact hroom
      · exact hcap ▸ hlt

end ArrayList

end Rsgc.System
