import Rsgc.System.ArrayList.Lists

namespace Rsgc.System

namespace ArrayList

open RawArray

variable {α : Type} {a : ArrayList α} {l : List α} {elemSize : Nat} {available : Allocator} {x : α}

theorem grow_fits {newCap : Nat} (h : a.Denotes l) (hne : a.cap ≠ newCap)
    (hle : l.length ≤ newCap) (hlt : newCap < 2 ^ 32) :
    Yields (a.grow available newCap) fun b =>
      b.Denotes l ∧ b.cap = newCap ∧ b.allocated = newCap := by
  unfold grow
  rw [if_neg hne]
  apply (RawArray.new_yields available newCap).bind
  rintro b rfl
  have hlen := h.len_eq
  have hcap := h.len_le
  have hroom := h.cap_le
  rw [ensure_bind ⟨by omega, by rw [hlen]; exact hle⟩]
  refine .pure ⟨⟨?_, ?_, ?_, Nat.mod_lt _ (by decide), ?_⟩, Nat.mod_eq_of_lt hlt, rfl⟩
  · rw [hlen]
    exact Nat.mod_eq_of_lt (by omega)
  · rw [← Nat.mod_eq_of_lt hlt] at hle
    exact hle
  · exact Nat.mod_le _ _
  · refine h.data.congr fun i _ hi => ?_
    exact if_pos (by omega)

theorem grow_yields (newCap : Nat) (h : a.Denotes l) (hle : l.length ≤ newCap)
    (hlt : newCap < 2 ^ 32) :
    Yields (a.grow available newCap) fun b => b.Denotes l ∧ b.cap = newCap := by
  by_cases hsame : a.cap = newCap
  · unfold grow
    rw [if_pos hsame]
    exact .pure ⟨h, hsame⟩
  · exact (grow_fits h hsame hle hlt).mono fun b hb => ⟨hb.1, hb.2.1⟩

theorem le_nextCapacity (elemSize capacity : Nat) (hlt : capacity < 2 ^ 32) :
    capacity < nextCapacity elemSize capacity := by
  unfold nextCapacity usizeMax
  split
  · split
    · omega
    · split <;> omega
  · omega

-- The space for one more element does not come from a capacity of 2^32 or more.
theorem growForPush_yields (h : a.Denotes l)
    (hfits : a.len = a.cap → nextCapacity elemSize a.cap < 2 ^ 32) :
    Yields (a.growForPush elemSize available) fun b => b.Denotes l ∧ l.length < b.cap ∧
      b.cap = if a.len = a.cap then nextCapacity elemSize a.cap else a.cap := by
  have hlen := h.len_eq
  have hle := h.len_le
  unfold growForPush
  by_cases hfull : a.len = a.cap
  · rw [if_pos hfull]
    have hnext := le_nextCapacity elemSize a.cap h.cap_lt
    apply (grow_yields _ h (by omega) (hfits hfull)).mono
    rintro b ⟨hdenotes, hcap⟩
    exact ⟨hdenotes, by omega, by rw [if_pos hfull, hcap]⟩
  · rw [if_neg hfull]
    exact .pure ⟨h, by omega, (if_neg hfull).symm⟩

-- The write behind the last element.
theorem write_len (h : a.Denotes l) (hlt : l.length < a.cap) :
    ∃ b, a.write l.length x = .ok b ∧ (b.setLen (l.length + 1)).Denotes (l ++ [x]) ∧
      b.cap = a.cap := by
  have hroom := h.cap_le
  have hcap := h.cap_lt
  refine ⟨_, write_eq (by omega), ⟨?_, ?_, hroom, hcap, ?_⟩, rfl⟩
  · rw [List.length_append, List.length_singleton]
    exact Nat.mod_eq_of_lt (by omega)
  · rw [List.length_append, List.length_singleton]
    exact hlt
  · have hpush := h.data.push (x := x)
    rwa [Nat.zero_add] at hpush

theorem push_yields (h : a.Denotes l)
    (hfits : a.len = a.cap → nextCapacity elemSize a.cap < 2 ^ 32) :
    Yields (a.push elemSize available x) fun b => b.Denotes (l ++ [x]) ∧
      b.cap = if a.len = a.cap then nextCapacity elemSize a.cap else a.cap := by
  unfold push
  simp only
  apply (growForPush_yields h hfits).bind
  rintro b ⟨hdenotes, hlt, hcap⟩
  obtain ⟨c, hc, hpushed, hsame⟩ := write_len (x := x) hdenotes hlt
  rw [h.len_eq, hc]
  exact .of_ok rfl ⟨hpushed, by rw [← h.len_eq, ← hcap]; exact hsame⟩

-- With a free slot a push does not ask for memory.
theorem push_eq (elemSize : Nat) (available : Allocator) (x : α) (h : a.Denotes l)
    (hlt : l.length < a.cap) :
    ∃ b, a.push elemSize available x = .ok b ∧ b.Denotes (l ++ [x]) ∧ b.cap = a.cap := by
  have hlen := h.len_eq
  obtain ⟨b, hb, hpushed, hcap⟩ := write_len (x := x) h hlt
  refine ⟨_, ?_, hpushed, hcap⟩
  unfold push growForPush
  rw [if_neg (by omega)]
  simp only [Except.pure_bind', hlen, hb, Except.ok_bind]
  rfl

-- Doubling reaches every size that can be asked for.
theorem le_reserveCapacity {totalRequired fuel capacity : Nat}
    (hfuel : usizeMax ≤ capacity * 2 ^ fuel) :
    min totalRequired usizeMax ≤ reserveCapacity elemSize totalRequired fuel capacity := by
  induction fuel generalizing capacity with
  | zero =>
      unfold reserveCapacity
      omega
  | succ fuel ih =>
      unfold reserveCapacity
      split
      · apply ih
        have hpos : 0 < capacity := Nat.pos_of_ne_zero fun hzero => by
          rw [hzero, Nat.zero_mul] at hfuel
          exact absurd hfuel (by decide)
        have hpow : 1 ≤ 2 ^ fuel := Nat.one_le_two_pow
        unfold nextCapacity
        rw [if_neg (by omega)]
        rcases Nat.le_total (capacity * 2) usizeMax with hle | hge
        · rw [Nat.min_eq_left hle, Nat.mul_assoc, ← Nat.pow_succ']
          exact hfuel
        · rw [Nat.min_eq_right hge]
          exact Nat.le_mul_of_pos_right _ hpow
      · omega

-- A loop that has reached the size does not go on with more fuel.
theorem reserveCapacity_succ {totalRequired fuel capacity : Nat}
    (hreach : totalRequired ≤ reserveCapacity elemSize totalRequired fuel capacity) :
    reserveCapacity elemSize totalRequired (fuel + 1) capacity =
      reserveCapacity elemSize totalRequired fuel capacity := by
  induction fuel generalizing capacity with
  | zero =>
      unfold reserveCapacity at hreach
      unfold reserveCapacity
      rw [if_neg (by omega)]
  | succ fuel ih =>
      unfold reserveCapacity at hreach
      unfold reserveCapacity
      split
      · rename_i hlt
        rw [if_pos hlt] at hreach
        exact ih hreach
      · rfl

-- The capacity that `reserve` grows to, when the list is to have `newLen` elements.
def grownCapacity (a : ArrayList α) (elemSize newLen : Nat) : Nat :=
  reserveCapacity elemSize newLen 64 (nextCapacity elemSize a.cap)

theorem le_grownCapacity (hcap : a.cap < 2 ^ 32) {newLen : Nat}
    (hfits : a.grownCapacity elemSize newLen < 2 ^ 32) :
    newLen ≤ a.grownCapacity elemSize newLen := by
  have hnext := le_nextCapacity elemSize a.cap hcap
  have hreach : usizeMax ≤ nextCapacity elemSize a.cap * 2 ^ 64 := by
    unfold usizeMax
    omega
  have hle : min newLen usizeMax ≤
      reserveCapacity elemSize newLen 64 (nextCapacity elemSize a.cap) :=
    le_reserveCapacity hreach
  unfold usizeMax at hle
  unfold grownCapacity at hfits ⊢
  omega

theorem tryReserve_enough {additional : Nat} (h : a.Denotes l)
    (hle : l.length + additional ≤ a.cap) :
    a.tryReserve elemSize available additional = .ok (true, a) := by
  have hlen := h.len_eq
  unfold tryReserve
  simp only
  rw [if_pos (by omega)]
  rfl

theorem tryReserve_grows {additional : Nat} (h : a.Denotes l)
    (hlt : a.cap < l.length + additional) (hle : l.length + additional ≤ maxElems) :
    a.tryReserve elemSize available additional =
      a.grow available (a.grownCapacity elemSize (l.length + additional)) >>=
        fun b => .ok (true, b) := by
  have hlen := h.len_eq
  unfold maxElems at hle
  have htotal : min (a.len + additional) usizeMax = l.length + additional := by
    unfold usizeMax
    omega
  have hfits : ¬maxElems < l.length + additional := by
    unfold maxElems
    omega
  unfold tryReserve isEmpty
  simp only
  rw [htotal, if_neg (by omega), ensure_bind (by rw [hlen]; exact h.len_le), Except.pure_bind',
    if_neg fun hboth => hfits hboth.2, if_neg (by omega)]
  rfl

theorem tryReserve_yields {additional : Nat} (h : a.Denotes l)
    (hfits : a.cap < l.length + additional →
      a.grownCapacity elemSize (l.length + additional) < 2 ^ 32) :
    Yields (a.tryReserve elemSize available additional) fun r =>
      r.1 = true ∧ r.2.Denotes l ∧ l.length + additional ≤ r.2.cap := by
  have hlen := h.len_le
  rcases Nat.lt_or_ge a.cap (l.length + additional) with hlt | hge
  · have hgrown := hfits hlt
    have hle := le_grownCapacity h.cap_lt hgrown
    have hmax : l.length + additional ≤ maxElems := by
      unfold maxElems
      omega
    rw [tryReserve_grows h hlt hmax]
    apply (grow_yields (a.grownCapacity elemSize _) h (by omega) hgrown).bind
    rintro b ⟨hdenotes, hgrow⟩
    exact .pure ⟨rfl, hdenotes, by rw [hgrow]; exact hle⟩
  · rw [tryReserve_enough h hge]
    exact .of_ok rfl ⟨rfl, h, hge⟩

theorem reserve_yields (additional : Nat) (h : a.Denotes l)
    (hfits : a.cap < l.length + additional →
      a.grownCapacity elemSize (l.length + additional) < 2 ^ 32) :
    Yields (a.reserve elemSize available additional) fun b =>
      b.Denotes l ∧ l.length + additional ≤ b.cap := by
  unfold reserve
  apply (tryReserve_yields h hfits).bind
  rintro ⟨reserved, b⟩ ⟨rfl, hdenotes, hle⟩
  exact .pure ⟨hdenotes, hle⟩

theorem pushAll_eq (elemSize : Nat) (available : Allocator) (x : α) (count : Nat)
    (h : a.Denotes l) (hle : l.length + count ≤ a.cap) :
    ∃ b, a.pushAll elemSize available x count = .ok b ∧
      b.Denotes (l ++ List.replicate count x) ∧ b.cap = a.cap := by
  induction count generalizing a l with
  | zero => exact ⟨a, rfl, by rwa [List.replicate_zero, List.append_nil], rfl⟩
  | succ count ih =>
      obtain ⟨b, hb, hdenotes, hcap⟩ := push_eq elemSize available x h (by omega)
      obtain ⟨c, hc, hall, hcap'⟩ := ih hdenotes (by
        rw [List.length_append, List.length_singleton, hcap]
        omega)
      refine ⟨c, ?_, ?_, hcap'.trans hcap⟩
      · unfold pushAll
        rw [hb, Except.ok_bind, hc]
      · rwa [List.append_assoc, List.singleton_append, ← List.replicate_succ] at hall

theorem resize_yields {newLen : Nat} (h : a.Denotes l)
    (hfits : a.cap < newLen → a.grownCapacity elemSize newLen < 2 ^ 32) :
    Yields (a.resize elemSize available newLen x) fun b =>
      b.Denotes (l.take newLen ++ List.replicate (newLen - l.length) x) := by
  have hlen := h.len_eq
  unfold resize
  simp only
  rcases Nat.lt_trichotomy l.length newLen with hlt | heq | hgt
  · have htotal : l.length + (newLen - l.length) = newLen := by omega
    rw [if_pos (by omega), hlen, List.take_of_length_le (Nat.le_of_lt hlt)]
    apply (reserve_yields (newLen - l.length) h (by rwa [htotal])).bind
    rintro b ⟨hdenotes, hle⟩
    obtain ⟨c, hc, hall, _⟩ := pushAll_eq elemSize available x _ hdenotes hle
    exact .of_ok hc hall
  · rw [if_neg (by omega), if_neg (by omega), List.take_of_length_le (by omega), heq,
      Nat.sub_self, List.replicate_zero, List.append_nil]
    exact .pure h
  · rw [if_neg (by omega), if_pos (by omega), Nat.sub_eq_zero_of_le (Nat.le_of_lt hgt),
      List.replicate_zero, List.append_nil]
    exact .pure (truncate_denotes h newLen)

-- With enough capacity nothing is asked for.
theorem resize_eq (elemSize : Nat) (available : Allocator) (x : α) {newLen : Nat}
    (h : a.Denotes l) (hlt : l.length < newLen)
    (hle : newLen ≤ a.cap) :
    ∃ b, a.resize elemSize available newLen x = .ok b ∧
      b.Denotes (l ++ List.replicate (newLen - l.length) x) ∧ b.cap = a.cap := by
  have hlen := h.len_eq
  obtain ⟨b, hb, hall⟩ := pushAll_eq elemSize available x (newLen - l.length) h (by omega)
  refine ⟨b, ?_, hall⟩
  have hreserve : a.reserve elemSize available (newLen - l.length) = .ok a := by
    unfold reserve tryReserve
    simp only
    rw [if_pos (by omega)]
    rfl
  unfold resize
  simp only
  rw [if_pos (by omega), hlen, hreserve, Except.ok_bind, hb]

theorem grow_eq {newCap : Nat} (hne : a.cap ≠ newCap) (havailable : available newCap = true)
    (hroom : a.len ≤ a.allocated) (hle : a.len ≤ newCap) :
    a.grow available newCap = .ok ⟨newCap % 2 ^ 32, a.len % 2 ^ 32, newCap,
      fun i => if i < a.len then a.data i else none⟩ := by
  have hnew : RawArray.new available newCap =
      .ok (⟨newCap % 2 ^ 32, 0, newCap, fun _ => none⟩ : RawArray α) := ensure_bind havailable
  unfold grow
  rw [if_neg hne, hnew, Except.ok_bind]
  exact ensure_bind ⟨hroom, hle⟩

-- The capacity does not fit in 32 bits any more.
theorem push_truncates (elemSize : Nat) (x : α) (h : a.Denotes l) (hfull : l.length = 2 ^ 31)
    (hcap : a.cap = 2 ^ 31) (havailable : available (2 ^ 32) = true) :
    ∃ b, a.push elemSize available x = .ok b ∧ b.len = 2 ^ 31 + 1 ∧ b.cap = 0 := by
  have hlen := h.len_eq
  have hroom := h.cap_le
  have hnext : nextCapacity elemSize a.cap = 2 ^ 32 := by
    unfold nextCapacity usizeMax
    rw [hcap, if_neg (by decide)]
    decide
  have hgrow : ∃ b, a.grow available (2 ^ 32) = .ok b ∧ b.allocated = 2 ^ 32 ∧ b.cap = 0 :=
    ⟨_, grow_eq (by omega) havailable (by omega) (by omega), rfl, rfl⟩
  obtain ⟨b, hb, hallocated, hzero⟩ := hgrow
  unfold push growForPush
  simp only
  rw [if_pos (by omega), hnext, hb, Except.ok_bind, hlen, hfull, write_eq (by omega),
    Except.ok_bind]
  exact ⟨_, rfl, rfl, hzero⟩

-- The list can take so many more elements without asking for 2^32 of them.
def HasRoomFor (a : ArrayList α) (elemSize additional : Nat) : Prop :=
  a.cap < a.len + additional → a.grownCapacity elemSize (a.len + additional) < 2 ^ 32

instance (a : ArrayList α) (elemSize additional : Nat) :
    Decidable (a.HasRoomFor elemSize additional) := inferInstanceAs (Decidable (_ → _))

theorem HasRoomFor.next {additional : Nat} (h : a.Denotes l)
    (hroom : a.HasRoomFor elemSize (additional + 1)) :
    (a.len = a.cap → nextCapacity elemSize a.cap < 2 ^ 32) ∧
      ∀ b : ArrayList α, b.len = a.len + 1 →
        b.cap = (if a.len = a.cap then nextCapacity elemSize a.cap else a.cap) →
          b.HasRoomFor elemSize additional := by
  have hcap := h.cap_lt
  by_cases hfull : a.len = a.cap
  · have hgrown := hroom (by omega)
    have hreach := le_grownCapacity hcap hgrown
    rw [if_pos hfull]
    unfold grownCapacity at hgrown hreach
    rcases Nat.lt_or_ge (nextCapacity elemSize a.cap) (a.len + (additional + 1)) with hlt | hge
    · refine ⟨fun _ => by omega, fun b hlen hcap' _ => ?_⟩
      unfold reserveCapacity at hgrown hreach
      rw [if_pos hlt] at hgrown hreach
      have htotal : b.len + additional = a.len + (additional + 1) := by omega
      unfold grownCapacity
      rw [htotal, hcap', reserveCapacity_succ hreach]
      exact hgrown
    · unfold reserveCapacity at hgrown
      rw [if_neg (by omega)] at hgrown
      exact ⟨fun _ => hgrown, fun b hlen hcap' hlt => absurd hlt (by omega)⟩
  · rw [if_neg hfull]
    refine ⟨fun h => absurd h hfull, fun b hlen hcap' hlt => ?_⟩
    have htotal : b.len + additional = a.len + (additional + 1) := by omega
    have hgrown := hroom (by omega)
    unfold grownCapacity at hgrown ⊢
    rw [htotal, hcap']
    exact hgrown

end ArrayList

end Rsgc.System
