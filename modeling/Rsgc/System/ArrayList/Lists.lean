import Rsgc.System.ArrayList

namespace Rsgc.System

-- A call that returns, unless the heap is out of memory.
def Yields {β : Type} (call : Except Fault β) (post : β → Prop) : Prop :=
  call = .error .outOfMemory ∨ ∃ b, call = .ok b ∧ post b

namespace Yields

variable {β γ : Type} {call : Except Fault β} {next : β → Except Fault γ} {post : β → Prop}
  {post' : γ → Prop} {b : β}

theorem of_ok (hcall : call = .ok b) (hpost : post b) : Yields call post :=
  Or.inr ⟨b, hcall, hpost⟩

theorem pure (hpost : post b) : Yields (Pure.pure b) post := of_ok rfl hpost

theorem bind (h : Yields call post) (hnext : ∀ b, post b → Yields (next b) post') :
    Yields (call >>= next) post' := by
  obtain hfail | ⟨b, hok, hpost⟩ := h
  · apply Or.inl
    rw [hfail, Except.error_bind]
  · rw [hok, Except.ok_bind]
    exact hnext b hpost

theorem mono {weaker : β → Prop} (h : Yields call post) (hw : ∀ b, post b → weaker b) :
    Yields call weaker := by
  obtain hfail | ⟨b, hok, hpost⟩ := h
  · exact Or.inl hfail
  · exact of_ok hok (hw b hpost)

theorem map (h : Yields call post) {f : β → γ} (hpost : ∀ b, post b → post' (f b)) :
    Yields (call.map f) post' := by
  obtain hfail | ⟨b, hok, hb⟩ := h
  · apply Or.inl
    rw [hfail]
    rfl
  · rw [hok]
    exact of_ok rfl (hpost b hb)

theorem map_ok {f : β → γ} (hcall : call = .ok b) (hpost : post' (f b)) :
    Yields (call.map f) post' := by
  rw [hcall]
  exact of_ok rfl hpost

end Yields

namespace RawArray

variable {α : Type} {a b : RawArray α} {l : List α} {x y : α} {i j : Nat}

theorem new_yields (available : Allocator) (cap : Nat) :
    Yields (new available cap : Except Fault (RawArray α)) fun a =>
      a = ⟨cap % 2 ^ 32, 0, cap, fun _ => none⟩ := by
  unfold new
  by_cases havailable : available cap = true
  · rw [ensure_bind havailable]
    exact .pure rfl
  · rw [ensure_bind_error havailable]
    exact Or.inl rfl

theorem index_eq (h : i < a.cap) : a.index i = .ok i := by
  unfold index
  rw [ensure_bind h]
  rfl

theorem read_eq (hslot : i < a.allocated) (hvalue : a.data i = some x) : a.read i = .ok x := by
  unfold read
  rw [ensure_bind hslot, hvalue]
  rfl

theorem write_eq (hslot : i < a.allocated) :
    a.write i x = .ok { a with data := Function.update a.data i (some x) } := by
  unfold write
  rw [ensure_bind hslot]
  rfl

theorem copy_eq {src dst count : Nat} (hsrc : src + count ≤ a.allocated)
    (hdst : dst + count ≤ a.allocated) :
    a.copy src dst count = .ok { a with data := a.data.move src dst count } := by
  unfold copy
  rw [ensure_bind ⟨hsrc, hdst⟩]
  rfl

theorem swap_eq (hi : i < a.allocated) (hj : j < a.allocated) (hx : a.data i = some x)
    (hy : a.data j = some y) : a.swap i j = .ok { a with data := a.data.swap i j } := by
  unfold swap Slots.swap
  rw [read_eq hi hx, Except.ok_bind, read_eq hj hy, Except.ok_bind, write_eq hi, Except.ok_bind,
    hx, hy]
  exact write_eq hj

-- The first elements of the array are the list.
structure Denotes (a : RawArray α) (l : List α) : Prop where
  len_eq : a.len = l.length
  len_le : l.length ≤ a.cap
  cap_le : a.cap ≤ a.allocated
  cap_lt : a.cap < 2 ^ 32
  data : a.data.HoldsAt 0 l

theorem Denotes.len_small (h : a.Denotes l) : a.len < 2 ^ 32 := by
  rw [h.len_eq]
  exact Nat.lt_of_le_of_lt h.len_le h.cap_lt

theorem Denotes.slot_lt (h : a.Denotes l) (hi : i < l.length) : i < a.allocated :=
  Nat.lt_of_lt_of_le hi (Nat.le_trans h.len_le h.cap_le)

theorem Denotes.data_eq (h : a.Denotes l) (hx : l[i]? = some x) : a.data i = some x := by
  have hslot := h.data i x hx
  rwa [Nat.zero_add] at hslot

theorem Denotes.index (h : a.Denotes l) (hi : i < l.length) : a.index i = .ok i :=
  index_eq (Nat.lt_of_lt_of_le hi h.len_le)

theorem Denotes.read (h : a.Denotes l) (hx : l[i]? = some x) : a.read i = .ok x :=
  read_eq (h.slot_lt (List.getElem?_eq_some_iff.mp hx).1) (h.data_eq hx)

theorem Denotes.write (h : a.Denotes l) (hi : i < l.length) (x : α) :
    ∃ b, a.write i x = .ok b ∧ b.Denotes (l.set i x) := by
  refine ⟨_, write_eq (h.slot_lt hi), ?_, ?_, h.cap_le, h.cap_lt, ?_⟩
  · rw [List.length_set]
    exact h.len_eq
  · rw [List.length_set]
    exact h.len_le
  · have hset := h.data.set (i := i) (x := x)
    rwa [Nat.zero_add] at hset

theorem Denotes.swap (h : a.Denotes l) (hx : l[i]? = some x) (hy : l[j]? = some y) :
    ∃ b, a.swap i j = .ok b ∧ b.Denotes ((l.set i y).set j x) := by
  have hi := (List.getElem?_eq_some_iff.mp hx).1
  have hj := (List.getElem?_eq_some_iff.mp hy).1
  obtain ⟨b, hb, hdenotes⟩ := h.write hi y
  obtain ⟨c, hc, hdenotes'⟩ := hdenotes.write (i := j) (by rwa [List.length_set]) x
  refine ⟨c, ?_, hdenotes'⟩
  unfold RawArray.swap
  rw [h.read hx, Except.ok_bind, h.read hy, Except.ok_bind, hb, Except.ok_bind, hc]

-- A shorter list in the same slots.
theorem Denotes.setLen {r : List α} (h : a.Denotes l) (hle : r.length ≤ l.length)
    (hdata : a.data.HoldsAt 0 r) : (a.setLen r.length).Denotes r := by
  have hlen := h.len_le
  have hcap := h.cap_lt
  exact ⟨Nat.mod_eq_of_lt (by omega), Nat.le_trans hle hlen, h.cap_le, hcap, hdata⟩

theorem Denotes.take (h : a.Denotes l) (n : Nat) :
    (a.setLen (l.take n).length).Denotes (l.take n) :=
  h.setLen (by rw [List.length_take]; omega) (h.data.take n)

end RawArray

namespace ArrayList

open RawArray

variable {α : Type} {a : ArrayList α} {l : List α} {elemSize : Nat} {available : Allocator}
  {x : α} {i : Nat}

theorem withCapacity_eq {capacity : Nat} (havailable : available capacity = true) :
    ∃ a : ArrayList α, withCapacity available capacity = .ok a ∧ a.Denotes [] ∧
      a.cap = capacity % 2 ^ 32 :=
  ⟨_, ensure_bind havailable,
    ⟨rfl, Nat.zero_le _, Nat.mod_le _ _, Nat.mod_lt _ (by decide), Slots.holdsAt_nil⟩, rfl⟩

theorem withCapacity_fails {capacity : Nat} (havailable : ¬available capacity = true) :
    (withCapacity available capacity : Except Fault (ArrayList α)) = .error .outOfMemory :=
  ensure_bind_error havailable

theorem withCapacity_yields (available : Allocator) (capacity : Nat) :
    Yields (withCapacity available capacity : Except Fault (ArrayList α)) fun a =>
      a.Denotes [] ∧ a.cap = capacity % 2 ^ 32 := by
  by_cases havailable : available capacity = true
  · exact Or.inr (withCapacity_eq havailable)
  · exact Or.inl (withCapacity_fails havailable)

-- A list without free slots.
def full (l : List α) : ArrayList α := ⟨l.length, l.length, l.length, fun i => l[i]?⟩

theorem full_denotes (hlt : l.length < 2 ^ 32) : (full l).Denotes l := by
  refine ⟨rfl, Nat.le_refl _, Nat.le_refl _, hlt, fun i x hx => ?_⟩
  rw [Nat.zero_add]
  exact hx

theorem slice_eq (h : a.Denotes l) : a.slice = .ok l := by
  unfold slice
  rw [ensure_bind (by rw [h.len_eq]; exact h.len_le), h.len_eq]
  exact Except.mapM_range_ok fun i x hx => h.read hx

theorem pop_eq (h : a.Denotes l) :
    ∃ b, a.pop = .ok (l.getLast?, b) ∧ b.Denotes l.dropLast := by
  have hlen := h.len_eq
  unfold pop
  rcases List.eq_nil_or_concat' l with rfl | ⟨front, last, rfl⟩
  · rw [if_pos (show a.len = 0 from hlen)]
    exact ⟨a, rfl, h⟩
  · rw [List.length_append, List.length_singleton] at hlen
    have hread : a.read front.length = .ok last := h.read (by simp)
    have htake := h.take front.length
    rw [List.take_left] at htake
    refine ⟨RawArray.setLen a front.length, ?_, ?_⟩
    · rw [if_neg (by omega), hlen, Nat.add_sub_cancel, hread]
      simp
    · rw [List.dropLast_concat]
      exact htake

theorem get_eq (h : a.Denotes l) (i : Nat) : a.get i = .ok l[i]? := by
  have hlen := h.len_eq
  unfold ArrayList.get
  by_cases hlt : i < l.length
  · have hx : l[i]? = some l[i] := List.getElem?_eq_getElem hlt
    rw [if_neg (by omega), h.index hlt, Except.ok_bind, h.read hx, hx]
    rfl
  · rw [if_pos (by omega), List.getElem?_eq_none (by omega)]
    rfl

theorem set_eq (h : a.Denotes l) (i : Nat) (x : α) :
    ∃ b, a.set i x = .ok (l[i]?, b) ∧ b.Denotes (l.set i x) := by
  have hlen := h.len_eq
  unfold ArrayList.set
  by_cases hlt : i < l.length
  · have hx : l[i]? = some l[i] := List.getElem?_eq_getElem hlt
    obtain ⟨b, hb, hdenotes⟩ := h.write hlt x
    rw [if_neg (by omega), h.index hlt, Except.ok_bind, h.read hx, Except.ok_bind, hb, hx]
    exact ⟨b, rfl, hdenotes⟩
  · rw [if_pos (by omega), List.getElem?_eq_none (by omega), List.set_eq_of_length_le (by omega)]
    exact ⟨a, rfl, h⟩

-- A `copy` that leaves a part of the list out.
theorem cut_eq {front old rest : List α} (h : a.Denotes (front ++ old ++ rest)) :
    ∃ b, RawArray.copy a (front.length + old.length) front.length rest.length = .ok b ∧
      (b.setLen (front ++ rest).length).Denotes (front ++ rest) := by
  have hlen := h.len_le
  have hcap := h.cap_le
  have hlt := h.cap_lt
  rw [List.length_append, List.length_append] at hlen
  have hlength : (front ++ rest).length = front.length + rest.length := List.length_append
  refine ⟨_, copy_eq (by omega) (by omega), ?_, ?_, hcap, hlt, h.data.cut⟩
  · exact Nat.mod_eq_of_lt (by omega)
  · exact show (front ++ rest).length ≤ a.cap by omega

-- The elements behind the removed one move down by one slot.
theorem remove_eq (h : a.Denotes l) (i : Nat) :
    ∃ b, a.remove i = .ok (l[i]?, b) ∧ b.Denotes (l.eraseIdx i) := by
  have hlen := h.len_eq
  unfold ArrayList.remove
  simp only
  by_cases hlt : i < l.length
  · have hx : l[i]? = some l[i] := List.getElem?_eq_getElem hlt
    have hle := h.len_le
    have hfront : (l.take i).length = i := List.length_take_of_le (Nat.le_of_lt hlt)
    have hrest : (l.drop (i + 1)).length = a.len - i - 1 := by
      rw [List.length_drop]
      omega
    have hparts : l.take i ++ [l[i]] ++ l.drop (i + 1) = l := by
      rw [List.append_assoc, List.singleton_append, ← List.drop_eq_getElem_cons hlt,
        List.take_append_drop]
    have hsplit : a.Denotes (l.take i ++ [l[i]] ++ l.drop (i + 1)) := by rwa [hparts]
    obtain ⟨b, hb, hdenotes⟩ := cut_eq hsplit
    have hlength : (l.take i ++ l.drop (i + 1)).length = a.len - 1 := by
      rw [List.length_append]
      omega
    rw [hfront, List.length_singleton, hrest] at hb
    rw [hlength] at hdenotes
    rw [if_neg (by omega), h.index hlt, Except.ok_bind, h.read hx, Except.ok_bind,
      ensure_bind (by omega), hb, hx, List.eraseIdx_eq_take_drop_succ]
    exact ⟨_, rfl, hdenotes⟩
  · rw [if_pos (by omega), List.getElem?_eq_none (by omega), List.eraseIdx_of_length_le (by omega)]
    exact ⟨a, rfl, h⟩

theorem truncate_denotes (h : a.Denotes l) (n : Nat) :
    RawArray.Denotes (a.truncate n) (l.take n) := by
  have hlen := h.len_eq
  unfold truncate
  by_cases hle : a.len ≤ n
  · rw [if_pos hle, List.take_of_length_le (by omega)]
    exact h
  · have htake := h.take n
    rw [List.length_take_of_le (by omega)] at htake
    rw [if_neg hle]
    exact htake

theorem swapRemove_eq (h : a.Denotes l) {last : α} (hx : l[i]? = some x)
    (hlast : l.getLast? = some last) :
    ∃ b, a.swapRemove i = .ok (x, b) ∧ b.Denotes (l.set i last).dropLast := by
  have hlen := h.len_eq
  have hlt := (List.getElem?_eq_some_iff.mp hx).1
  rw [List.getLast?_eq_getElem?] at hlast
  obtain ⟨b, hb, hdenotes⟩ := h.write hlt last
  have htake := hdenotes.take (l.length - 1)
  rw [List.length_take_of_le (by rw [List.length_set]; omega)] at htake
  unfold swapRemove
  simp only
  refine ⟨RawArray.setLen b (l.length - 1), ?_, ?_⟩
  · rw [ensure_bind (by omega), hlen, h.index (by omega), Except.ok_bind, h.read hlast,
      Except.ok_bind, h.index hlt, Except.ok_bind, h.read hx, Except.ok_bind, hb]
    rfl
  · rw [List.dropLast_eq_take, List.length_set]
    exact htake

theorem swapRemove_panics (h : a.Denotes l) (hge : l.length ≤ i) :
    a.swapRemove i = .error .panic := by
  have hlen := h.len_eq
  exact ensure_bind_error (by omega)

-- What `copy` and `fill` do together, when they replace a part of the list.
theorem splice_eq {front old rest : List α} (new : List α) (h : a.Denotes (front ++ old ++ rest))
    (hroom : (front ++ new ++ rest).length ≤ a.cap) :
    ∃ b c, RawArray.copy a (front.length + old.length) (front.length + new.length) rest.length =
        .ok b ∧
      b.fill front.length new = .ok c ∧
      (c.setLen (front ++ new ++ rest).length).Denotes (front ++ new ++ rest) := by
  have hlen := h.len_le
  have hcap := h.cap_le
  have hlt := h.cap_lt
  rw [List.length_append, List.length_append] at hlen
  have hend := hroom
  rw [List.length_append, List.length_append] at hend
  refine ⟨_, _, copy_eq (by omega) (by omega), ensure_bind ?_, ?_, hroom, hcap, hlt, ?_⟩
  · exact show front.length + new.length ≤ a.allocated by omega
  · exact Nat.mod_eq_of_lt (by omega)
  · exact h.data.splice new

end ArrayList

end Rsgc.System
