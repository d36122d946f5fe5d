import Rsgc.System.ArrayList.Growth

namespace Rsgc.System

-- The call returns two lists that make up `l`, the first of them with `at'` elements.
def Divides {α : Type} (call : Except Fault (ArrayList α × ArrayList α)) (l : List α)
    (at' : Nat) : Prop :=
  ∃ r front rest, call = .ok r ∧ r.1.Denotes front ∧ r.2.Denotes rest ∧ front ++ rest = l ∧
    front.length = at'

-- A call that does not return.
def Stops {β : Type} (call : Except Fault β) : Prop :=
  call = .error .panic ∨ call = .error .outOfMemory

theorem Stops.bind {β γ : Type} {call : Except Fault β} (h : Stops call)
    (next : β → Except Fault γ) : Stops (call >>= next) := by
  obtain hpanic | hfail := h
  · exact Or.inl (by rw [hpanic, Except.error_bind])
  · exact Or.inr (by rw [hfail, Except.error_bind])

theorem Yields.bind_stops {β γ : Type} {call : Except Fault β} {post : β → Prop}
    {next : β → Except Fault γ} (h : Yields call post) (hnext : ∀ b, post b → Stops (next b)) :
    Stops (call >>= next) := by
  obtain hfail | ⟨b, hok, hpost⟩ := h
  · exact Or.inr (by rw [hfail, Except.error_bind])
  · rw [hok, Except.ok_bind]
    exact hnext b hpost

theorem Stops.not_divides {α : Type} {call : Except Fault (ArrayList α × ArrayList α)}
    {l : List α} {at' : Nat} (h : Stops call) : ¬Divides call l at' := by
  rintro ⟨r, _, _, hok, _⟩
  obtain hpanic | hfail := h
  · rw [hpanic] at hok
    cases hok
  · rw [hfail] at hok
    cases hok

namespace ArrayList

open RawArray

variable {α : Type} {p : Profile} {a other : ArrayList α} {l l' : List α} {elemSize : Nat}
  {available : Allocator} {i fuel : Nat}

-- Each removal moves the elements that are left one down, and the index goes one up:
-- the loop gets to the end of the list before it is through.
theorem splitOffLoop_stops (h : a.Denotes l) (hother : other.Denotes l')
    (hroom : l'.length + fuel ≤ other.cap) (hfuel : 0 < fuel) (hlt : l.length < i + fuel) :
    Stops (splitOffLoop elemSize available a other i fuel) := by
  induction fuel generalizing a other l l' i with
  | zero => cases hfuel
  | succ fuel ih =>
      obtain ⟨b, hb, hdenotes⟩ := remove_eq h i
      unfold splitOffLoop
      rw [hb, Except.ok_bind]
      rcases Nat.lt_or_ge i l.length with hin | hout
      · obtain ⟨other', hpush, hpushed, hcap⟩ := push_eq elemSize available l[i]
          hother (by omega)
        rw [List.getElem?_eq_getElem hin]
        simp only
        rw [hpush, Except.ok_bind]
        apply ih hdenotes hpushed
        · rw [List.length_append, List.length_singleton, hcap]
          omega
        · omega
        · rw [List.length_eraseIdx_of_lt hin]
          omega
      · rw [List.getElem?_eq_none hout]
        exact Or.inl rfl

theorem splitOff_panics (h : a.Denotes l) {at' : Nat} (hgt : l.length < at') :
    splitOff .debug a elemSize available at' = .error .panic := by
  have hlen := h.len_eq
  obtain hpanic | ⟨hle, _⟩ := plainSub_debug a.len at'
  · unfold splitOff
    rw [hpanic, Except.error_bind]
  · omega

-- A tail of two elements or more is never split off.
theorem splitOff_stops (h : a.Denotes l) {at' : Nat} (hlt : at' + 1 < l.length) :
    Stops (splitOff p a elemSize available at') := by
  have hlen := h.len_eq
  have hle := h.len_le
  have hcap := h.cap_lt
  unfold splitOff
  rw [plainSub_eq p (by omega) (by omega), Except.ok_bind]
  apply (withCapacity_yields available (a.len - at')).bind_stops
  rintro other ⟨hother, hothercap⟩
  rw [Nat.mod_eq_of_lt (by omega)] at hothercap
  obtain ⟨b, hb, hdenotes⟩ := remove_eq h at'
  obtain ⟨fuel, hfuel⟩ := Nat.exists_eq_add_of_lt (show 0 < a.len - at' by omega)
  rw [Nat.zero_add] at hfuel
  have hin : at' < l.length := by omega
  obtain ⟨other', hpush, hpushed, hcap'⟩ := push_eq elemSize available l[at']
      hother (by rw [List.length_nil]; omega)
  rw [hfuel]
  unfold splitOffLoop
  rw [hb, Except.ok_bind, List.getElem?_eq_getElem hin]
  simp only
  rw [hpush, Except.ok_bind]
  apply splitOffLoop_stops hdenotes hpushed
  · rw [List.nil_append, List.length_singleton, hcap']
    omega
  · omega
  · rw [List.length_eraseIdx_of_lt hin]
    omega

-- What is left of it are the two cases that return.
theorem splitOff_eq (h : a.Denotes l) {at' : Nat} (hle : at' ≤ l.length)
    (hge : l.length ≤ at' + 1) (havailable : available (l.length - at') = true) :
    ∃ r, splitOff p a elemSize available at' = .ok r ∧
      r.1.Denotes (l.take at') ∧ r.2.Denotes (l.drop at') := by
  have hlen := h.len_eq
  have hlen_le := h.len_le
  have hcap := h.cap_lt
  obtain ⟨other, hnew, hother, hothercap⟩ := withCapacity_eq (α := α) havailable
  rw [Nat.mod_eq_of_lt (by omega)] at hothercap
  unfold splitOff
  rw [plainSub_eq p (by omega) (by omega), Except.ok_bind, hlen, hnew, Except.ok_bind]
  rcases Nat.eq_or_lt_of_le hle with heq | hlt
  · rw [heq, Nat.sub_self, List.take_length, List.drop_length]
    exact ⟨_, rfl, h, hother⟩
  · have hone : l.length - at' = 1 := by omega
    obtain ⟨b, hb, hdenotes⟩ := remove_eq h at'
    obtain ⟨other', hpush, hpushed, _⟩ := push_eq elemSize available l[at']
      hother (by rw [List.length_nil]; omega)
    rw [hone]
    unfold splitOffLoop splitOffLoop
    rw [hb, Except.ok_bind, List.getElem?_eq_getElem hlt]
    simp only
    rw [hpush, Except.ok_bind]
    rw [List.eraseIdx_eq_take_drop_succ, List.drop_eq_nil_of_le hge, List.append_nil] at hdenotes
    rw [List.drop_eq_getElem_cons hlt, List.drop_eq_nil_of_le hge]
    exact ⟨_, rfl, hdenotes, hpushed⟩

theorem splitOff_fails (h : a.Denotes l) {at' : Nat} (hle : at' ≤ l.length)
    (havailable : ¬available (l.length - at') = true) :
    splitOff p a elemSize available at' = .error .outOfMemory := by
  have hlen := h.len_eq
  have hsmall := h.len_small
  unfold splitOff
  rw [plainSub_eq p (by omega) (by omega), Except.ok_bind, hlen, withCapacity_fails havailable,
    Except.error_bind]

theorem splitOff_divides_iff (h : a.Denotes l) {at' : Nat} (hle : at' ≤ l.length) :
    Divides (splitOff p a elemSize available at') l at' ↔
      l.length ≤ at' + 1 ∧ available (l.length - at') = true := by
  constructor
  · intro hdivides
    by_contra hcond
    rcases Nat.lt_or_ge (at' + 1) l.length with hmany | hfew
    · exact (splitOff_stops h hmany).not_divides hdivides
    · have hfail : Stops (splitOff p a elemSize available at') :=
        Or.inr (splitOff_fails h hle fun havailable => hcond ⟨hfew, havailable⟩)
      exact hfail.not_divides hdivides
  · rintro ⟨hge, havailable⟩
    obtain ⟨r, hr, hfront, hrest⟩ := splitOff_eq h hle hge havailable
    exact ⟨r, _, _, hr, hfront, hrest, List.take_append_drop .., List.length_take_of_le hle⟩

theorem splitOff_yields (h : a.Denotes l) {at' : Nat} (hle : at' ≤ l.length)
    (hge : l.length ≤ at' + 1) :
    Yields (splitOff p a elemSize available at') fun r =>
      r.1.Denotes (l.take at') ∧ r.2.Denotes (l.drop at') := by
  by_cases havailable : available (l.length - at') = true
  · exact Or.inr (splitOff_eq h hle hge havailable)
  · exact Or.inl (splitOff_fails h hle havailable)

end ArrayList

end Rsgc.System
