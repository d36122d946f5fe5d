import Rsgc.System.ArrayList.Growth

namespace Rsgc.System

namespace ArrayList

open RawArray

variable {α : Type} {a : ArrayList α} {l : List α} {elemSize additional : Nat}
  {available : Allocator}

-- What `try_reserve` is to do, when the heap has the memory.
def Reserves (a : ArrayList α) (l : List α) (additional : Nat)
    (call : Except Fault (Bool × ArrayList α)) : Prop :=
  if maxElems < l.length + additional then call = .ok (false, a)
  else Yields call fun r => r.1 = true ∧ r.2.Denotes l ∧ l.length + additional ≤ r.2.cap ∧
    r.2.cap = r.2.allocated

-- Without growth, the capacity is right already. With growth, a doubling of the capacity
-- is large enough and yet fits in 32 bits. A list that gets too large is not empty.
def Reservable (a : ArrayList α) (elemSize additional : Nat) : Prop :=
  if a.len + additional ≤ a.cap then a.cap = a.allocated
  else if maxElems < a.len + additional then a.len ≠ 0
  else ∃ k, a.len + additional ≤ nextCapacity elemSize a.cap * 2 ^ k ∧
    nextCapacity elemSize a.cap * 2 ^ k < 2 ^ 32

-- The capacity that fits is the first one that is large enough.
theorem lt_iff_exists_doubling {totalRequired capacity : Nat} (hle : totalRequired ≤ capacity) :
    capacity < 2 ^ 32 ↔ ∃ k, totalRequired ≤ capacity * 2 ^ k ∧ capacity * 2 ^ k < 2 ^ 32 := by
  constructor
  · intro hlt
    exact ⟨0, by omega, by omega⟩
  · rintro ⟨k, _, hlt⟩
    exact Nat.lt_of_le_of_lt (Nat.le_mul_of_pos_right _ (Nat.two_pow_pos k)) hlt

theorem reserveCapacity_lt_iff {totalRequired fuel capacity : Nat} (hpos : 0 < capacity)
    (htotal : totalRequired < 2 ^ 32) (hreach : totalRequired ≤ capacity * 2 ^ fuel) :
    reserveCapacity elemSize totalRequired fuel capacity < 2 ^ 32 ↔
      ∃ k, totalRequired ≤ capacity * 2 ^ k ∧ capacity * 2 ^ k < 2 ^ 32 := by
  induction fuel generalizing capacity with
  | zero =>
      unfold reserveCapacity
      exact lt_iff_exists_doubling (by omega)
  | succ fuel ih =>
      unfold reserveCapacity
      split
      · rename_i hlt
        have hnext : nextCapacity elemSize capacity = capacity * 2 := by
          unfold nextCapacity usizeMax
          rw [if_neg (by omega), Nat.min_eq_left (by omega)]
        have hdouble : ∀ k, capacity * 2 * 2 ^ k = capacity * 2 ^ (k + 1) := fun k => by
          rw [Nat.mul_assoc, ← Nat.pow_succ']
        rw [hnext, ih (by omega) (by rwa [hdouble])]
        constructor
        · rintro ⟨k, hle, hfits⟩
          rw [hdouble] at hle hfits
          exact ⟨k + 1, hle, hfits⟩
        · rintro ⟨k, hle, hfits⟩
          cases k with
          | zero => omega
          | succ k =>
              rw [← hdouble] at hle hfits
              exact ⟨k, hle, hfits⟩
      · exact lt_iff_exists_doubling (by omega)

section Cases

variable (h : a.Denotes l)

include h

theorem reserves_of_enough (hle : l.length + additional ≤ a.cap) :
    Reserves a l additional (a.tryReserve elemSize available additional) ↔ a.cap = a.allocated := by
  have hcap := h.cap_lt
  have hfits : ¬maxElems < l.length + additional := by
    unfold maxElems
    omega
  unfold Reserves
  rw [tryReserve_enough h hle, if_neg hfits]
  constructor
  · rintro (hfail | ⟨r, hr, _, _, _, hsame⟩)
    · cases hfail
    · obtain rfl := Except.ok.inj hr
      exact hsame
  · intro hsame
    exact .of_ok rfl ⟨rfl, h, hle, hsame⟩

-- A list that gets too large is refused, but not when it is empty: then its capacity
-- becomes the largest one.
theorem reserves_of_exceeds (hgt : maxElems < l.length + additional) :
    Reserves a l additional (a.tryReserve elemSize available additional) ↔ a.len ≠ 0 := by
  have hlen := h.len_eq
  have hcap := h.cap_lt
  have hfull : ¬min (a.len + additional) usizeMax ≤ a.cap := by
    unfold maxElems at hgt
    unfold usizeMax
    omega
  have htotal : maxElems < min (a.len + additional) usizeMax := by
    unfold maxElems at hgt ⊢
    unfold usizeMax
    omega
  unfold Reserves tryReserve isEmpty
  simp only
  rw [if_pos hgt, if_neg hfull, ensure_bind (by rw [hlen]; exact h.len_le), Except.pure_bind']
  by_cases hempty : a.len = 0
  · have hmany : maxElems < additional := by omega
    rw [if_neg (by simp [hempty]), if_pos hmany]
    refine iff_of_false (fun hok => ?_) fun hne => hne hempty
    obtain ⟨b, _, hb⟩ := Except.bind_eq_ok.mp hok
    have htrue := congrArg Prod.fst (Except.pure_eq_ok.mp hb)
    cases htrue
  · rw [if_pos ⟨by simp [hempty], htotal⟩]
    exact iff_of_true rfl hempty

theorem reserves_of_grows (hlt : a.cap < l.length + additional)
    (hle : l.length + additional ≤ maxElems) :
    (∀ available, Reserves a l additional (a.tryReserve elemSize available additional)) ↔
      a.grownCapacity elemSize (l.length + additional) < 2 ^ 32 := by
  have hlen := h.len_eq
  have hcap := h.len_le
  have hroom := h.cap_le
  have hsmall := h.cap_lt
  have hfits : ¬maxElems < l.length + additional := Nat.not_lt.mpr hle
  unfold Reserves
  simp only [if_neg hfits, tryReserve_grows h hlt hle]
  constructor
  · intro hall
    by_contra hlarge
    have hgrow : a.grow anyMemory (a.grownCapacity elemSize (l.length + additional)) = .ok _ :=
      grow_eq (by omega) rfl (by omega) (by omega)
    have hyields := hall anyMemory
    rw [hgrow, Except.ok_bind] at hyields
    obtain hfail | ⟨r, hr, _, _, _, hsame⟩ := hyields
    · cases hfail
    · obtain rfl := Except.ok.inj hr
      have hstored : a.grownCapacity elemSize (l.length + additional) % 2 ^ 32 =
          a.grownCapacity elemSize (l.length + additional) := hsame
      omega
  · intro hgrown available
    have hreach := le_grownCapacity h.cap_lt hgrown
    apply (grow_fits h (by omega) (by omega) hgrown).bind
    rintro b ⟨hdenotes, hcap', hallocated⟩
    exact .of_ok rfl ⟨rfl, hdenotes, by rw [hcap']; exact hreach, hcap'.trans hallocated.symm⟩

end Cases

-- The loop ends by itself, and its result is the new capacity.
theorem try_reserve_exact_iff (elemSize additional : Nat) (h : a.Denotes l) :
    min (a.len + additional) usizeMax ≤
        a.grownCapacity elemSize (min (a.len + additional) usizeMax) ∧
      ((∀ available, Reserves a l additional (a.tryReserve elemSize available additional)) ↔
        a.Reservable elemSize additional) := by
  have hlen := h.len_eq
  have hnext := le_nextCapacity elemSize a.cap h.cap_lt
  refine ⟨?_, ?_⟩
  · have hreach : usizeMax ≤ nextCapacity elemSize a.cap * 2 ^ 64 := by
      unfold usizeMax
      omega
    have hle : min (min (a.len + additional) usizeMax) usizeMax ≤
        a.grownCapacity elemSize (min (a.len + additional) usizeMax) :=
      le_reserveCapacity hreach
    omega
  · unfold Reservable
    rw [hlen]
    split
    · rename_i hle
      simp only [reserves_of_enough h hle, forall_const]
    · rename_i hlt
      split
      · rename_i hgt
        simp only [reserves_of_exceeds h hgt, forall_const]
        rw [hlen]
      · rename_i hfits
        have htotal : l.length + additional ≤ maxElems := by omega
        unfold maxElems at htotal
        rw [reserves_of_grows h (by omega) (by omega)]
        exact reserveCapacity_lt_iff (by omega) (by omega) (by omega)

-- The capacity is doubled twice.
theorem try_reserve_exact_iff_doubled :
    Reserves (full [1, 2, 3]) [1, 2, 3] 5 ((full [1, 2, 3]).tryReserve 4 anyMemory 5) := by
  have hlist : (full [1, 2, 3]).Denotes [1, 2, 3] := full_denotes (by decide)
  have hdoubled : (full [1, 2, 3]).Reservable 4 5 := by
    unfold Reservable
    rw [if_neg (by decide), if_neg (by decide)]
    exact ⟨1, by decide, by decide⟩
  exact (try_reserve_exact_iff 4 5 hlist).2.mpr hdoubled anyMemory

-- An empty list promises one element more than a list can have.
theorem empty_list_not_refused :
    (∃ b : ArrayList Nat, (full []).tryReserve 4 anyMemory (2 ^ 32) = .ok (true, b) ∧
      b.cap = 2 ^ 32 - 1) ∧
    ¬Reserves (full []) ([] : List Nat) (2 ^ 32)
      ((full []).tryReserve 4 anyMemory (2 ^ 32)) := by
  have hrun : ((full ([] : List Nat)).tryReserve 4 anyMemory (2 ^ 32)).toOption.map
      (fun r => (r.1, r.2.cap)) = some (true, 2 ^ 32 - 1) := by decide +kernel
  obtain ⟨r, hr, hvalues⟩ := Option.map_eq_some_iff.mp hrun
  obtain ⟨htrue, hcap⟩ := Prod.mk.inj hvalues
  have hok := Except.toOption_eq_some.mp hr
  refine ⟨⟨r.2, by rw [hok, ← htrue], hcap⟩, ?_⟩
  unfold Reserves
  rw [if_pos (by decide), hok]
  intro hrefused
  have hfalse : r.1 = false := congrArg Prod.fst (Except.ok.inj hrefused)
  rw [htrue] at hfalse
  cases hfalse

end ArrayList

end Rsgc.System
