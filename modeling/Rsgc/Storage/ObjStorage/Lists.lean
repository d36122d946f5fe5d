import Rsgc.Storage.ObjStorage

namespace Rsgc.Storage

namespace AllocationList

variable {l : AllocationList} {al front back : List Nat} {b : Nat}

-- The links forward and back go over the blocks of `al`.
structure Chained (l : AllocationList) (al : List Nat) : Prop where
  forward : Path l.next l.head al
  backward : Path l.prev l.tail al.reverse
  nodup : al.Nodup

theorem Chained.head_eq (h : l.Chained al) : l.head = al.head? := h.forward.head_eq

theorem Chained.tail_eq (h : l.Chained al) : l.tail = al.getLast? := by
  rw [h.backward.head_eq, List.head?_reverse]

theorem Chained.next_eq (h : l.Chained (front ++ b :: back)) : l.next b = back.head? :=
  h.forward.next_eq

theorem Chained.prev_eq (h : l.Chained (front ++ b :: back)) : l.prev b = front.getLast? := by
  have hbackward := h.backward
  rw [List.reverse_append, List.reverse_cons, List.append_assoc, List.singleton_append]
    at hbackward
  rw [hbackward.next_eq, List.head?_reverse]

-- A block is found by its link forward or as the last one.
theorem Chained.contains_iff (h : l.Chained al) :
    l.contains b = true ↔ b ∈ al ∨ l.next b ≠ none := by
  unfold contains
  rw [Bool.or_eq_true, Option.isSome_iff_ne_none, decide_eq_true_eq, h.tail_eq]
  constructor
  · rintro (hnext | hlast)
    · exact Or.inr hnext
    · exact Or.inl (List.mem_of_getLast? hlast)
  · rintro (hmem | hnext)
    · obtain ⟨front, back, rfl⟩ := List.append_of_mem hmem
      rw [h.next_eq]
      cases back with
      | nil => simp
      | cons next back => simp
    · exact Or.inl hnext

theorem Chained.single (hhead : l.head = some b) (htail : l.tail = some b) (hnext : l.next b = none)
    (hprev : l.prev b = none) : l.Chained [b] := by
  refine ⟨?_, ?_, List.nodup_singleton b⟩
  · simp [hhead, hnext]
  · simp [htail, hprev]

theorem Chained.pushFront (h : l.Chained al) (hb : b ∉ al) (hnext : l.next b = none)
    (hprev : l.prev b = none) : (l.pushFront b).Chained (b :: al) := by
  have hhead := h.head_eq
  unfold AllocationList.pushFront
  cases al with
  | nil =>
      simp only [hhead, List.head?_nil]
      exact .single rfl rfl hnext hprev
  | cons old rest =>
      obtain ⟨hold, _⟩ := List.nodup_cons.mp h.nodup
      have hbackward := h.backward
      rw [List.reverse_cons] at hbackward
      simp only [hhead, List.head?_cons]
      refine ⟨?_, ?_, List.nodup_cons.mpr ⟨hb, h.nodup⟩⟩
      · have hforward := h.forward.push hb
        rwa [hhead, List.head?_cons] at hforward
      · rw [List.reverse_cons, List.reverse_cons, List.append_assoc, List.singleton_append]
        refine hbackward.concat (by simpa using hold) ?_ hprev
        simpa [and_comm] using hb

theorem Chained.pushBack (h : l.Chained al) (hb : b ∉ al) (hnext : l.next b = none)
    (hprev : al = [] → l.prev b = none) : (l.pushBack b).Chained (al ++ [b]) := by
  have htail := h.tail_eq
  unfold AllocationList.pushBack
  rcases List.eq_nil_or_concat' al with rfl | ⟨front, old, rfl⟩
  · simp only [htail, List.getLast?_nil]
    exact .single rfl rfl hnext (hprev rfl)
  · have hnodup := List.nodup_append.mp h.nodup
    have hold : old ∉ front := fun hmem => hnodup.2.2 old hmem old List.mem_cons_self rfl
    simp only [htail, List.getLast?_concat]
    refine ⟨?_, ?_, ?_⟩
    · rw [List.append_assoc, List.singleton_append]
      exact h.forward.concat hold hb hnext
    · rw [List.reverse_append, List.reverse_append, List.reverse_singleton,
        List.reverse_singleton, List.singleton_append, List.singleton_append]
      have hpush := h.backward.push (y := b) fun hmem => hb (List.mem_reverse.mp hmem)
      rwa [htail, List.getLast?_concat, List.reverse_append, List.reverse_singleton,
        List.singleton_append] at hpush
    · refine List.nodup_append.mpr ⟨h.nodup, List.nodup_singleton b, fun x hx y hy => ?_⟩
      rw [List.mem_singleton.mp hy]
      exact ne_of_mem_of_not_mem hx hb

-- A push changes no link of a block that is elsewhere.
theorem Chained.pushFront_apart (h : l.Chained al) {x : Nat} (hx : x ∉ b :: al) :
    (l.pushFront b).next x = l.next x ∧ (l.pushFront b).prev x = l.prev x := by
  have hhead := h.head_eq
  rw [List.mem_cons, not_or] at hx
  unfold AllocationList.pushFront
  cases al with
  | nil =>
      simp only [hhead, List.head?_nil]
      exact ⟨trivial, trivial⟩
  | cons old rest =>
      have hold : x ≠ old := fun heq => hx.2 (heq ▸ List.mem_cons_self)
      simp only [hhead, List.head?_cons]
      exact ⟨Function.update_of_ne hx.1 .., Function.update_of_ne hold ..⟩

theorem Chained.pushBack_apart (h : l.Chained al) {x : Nat} (hx : x ∉ al ++ [b]) :
    (l.pushBack b).next x = l.next x ∧ (l.pushBack b).prev x = l.prev x := by
  have htail := h.tail_eq
  rw [List.mem_append, List.mem_singleton, not_or] at hx
  unfold AllocationList.pushBack
  rcases List.eq_nil_or_concat' al with rfl | ⟨front, old, rfl⟩
  · simp only [htail, List.getLast?_nil]
    exact ⟨trivial, trivial⟩
  · have hold : x ≠ old := fun heq => hx.1 (heq ▸ List.mem_append_right front List.mem_cons_self)
    simp only [htail, List.getLast?_concat]
    exact ⟨Function.update_of_ne hold .., Function.update_of_ne hx.2 ..⟩

-- The blocks without one of them, forward and back.
theorem Chained.skip_forward {prev : Nat} (h : l.Chained (front ++ [prev] ++ b :: back)) :
    Path (Function.update l.next prev back.head?) l.head (front ++ [prev] ++ back) := by
  obtain ⟨hfront, _, hapart⟩ := List.nodup_append.mp h.nodup
  have hforward := h.forward
  rw [List.append_assoc, List.singleton_append] at hforward ⊢
  refine hforward.bypass (fun hmem => ?_) fun hmem => ?_
  · exact (List.nodup_append.mp hfront).2.2 prev hmem prev List.mem_cons_self rfl
  · exact hapart prev (List.mem_append_right front List.mem_cons_self) prev
      (List.mem_cons_of_mem b hmem) rfl

theorem Chained.skip_backward {next : Nat} (h : l.Chained (front ++ b :: next :: back)) :
    Path (Function.update l.prev next front.getLast?) l.tail (front ++ next :: back).reverse := by
  obtain ⟨_, hback, hapart⟩ := List.nodup_append.mp h.nodup
  have hbackward := h.backward
  have hnext := (List.nodup_cons.mp (List.nodup_cons.mp hback).2).1
  rw [List.reverse_append, List.reverse_cons, List.reverse_cons, List.append_assoc,
    List.append_assoc, List.singleton_append, List.singleton_append] at hbackward
  rw [List.reverse_append, List.reverse_cons, List.append_assoc, List.singleton_append,
    ← List.head?_reverse]
  refine hbackward.bypass (fun hmem => hnext (List.mem_reverse.mp hmem)) fun hmem => ?_
  exact hapart next (List.mem_reverse.mp hmem) next
    (List.mem_cons_of_mem b List.mem_cons_self) rfl

-- Any block can be unlinked. Its own links stay, and so do those of the blocks elsewhere.
theorem Chained.unlink (h : l.Chained (front ++ b :: back)) :
    ∃ l', l.unlink b = some l' ∧ l'.Chained (front ++ back) ∧
      (∀ x ∉ front, l'.next x = l.next x) ∧ ∀ x ∉ back, l'.prev x = l.prev x := by
  have hnext := h.next_eq
  have hprev := h.prev_eq
  have hhead := h.head_eq
  have htail := h.tail_eq
  have hnodup : (front ++ back).Nodup := h.nodup.sublist
    (List.Sublist.append_left (List.sublist_cons_self b back) front)
  have hother {x y : Nat} {zs : List Nat} (hx : x ∉ zs) (hy : y ∈ zs) : x ≠ y :=
    fun heq => hx (heq ▸ hy)
  unfold AllocationList.unlink
  rcases List.eq_nil_or_concat' front with rfl | ⟨init, prev, rfl⟩
  · have hforward := (Path.cons_iff.mp h.forward).2
    rw [List.getLast?_nil] at hprev
    rw [hnext] at hforward
    cases back with
    | nil =>
        simp only [hprev, hnext, List.head?_nil]
        exact ⟨_, if_pos ⟨hhead, htail⟩, ⟨rfl, rfl, hnodup⟩, fun _ _ => rfl, fun _ _ => rfl⟩
    | cons next rest =>
        simp only [hprev, hnext, List.head?_cons]
        exact ⟨_, if_pos hhead, ⟨hforward, h.skip_backward, hnodup⟩, fun _ _ => rfl,
          fun x hx => Function.update_of_ne (hother hx List.mem_cons_self) ..⟩
  · have hlast : prev ∈ init ++ [prev] := List.mem_append_right init List.mem_cons_self
    have hforward := h.skip_forward
    rw [List.getLast?_concat] at hprev
    cases back with
    | nil =>
        have hbackward := h.backward
        rw [List.reverse_append, List.reverse_singleton, List.singleton_append] at hbackward
        have hrest := (Path.cons_iff.mp hbackward).2
        rw [hprev] at hrest
        rw [List.getLast?_concat] at htail
        simp only [hprev, hnext, List.head?_nil]
        rw [List.append_nil] at hnodup hforward ⊢
        exact ⟨_, if_pos htail, ⟨hforward, hrest, hnodup⟩,
          fun x hx => Function.update_of_ne (hother hx hlast) .., fun _ _ => rfl⟩
    | cons next rest =>
        have hbackward := h.skip_backward
        rw [List.getLast?_concat] at hbackward
        simp only [hprev, hnext, List.head?_cons]
        exact ⟨_, rfl, ⟨hforward, hbackward, hnodup⟩,
          fun x hx => Function.update_of_ne (hother hx hlast) ..,
          fun x hx => Function.update_of_ne (hother hx List.mem_cons_self) ..⟩

-- The links forward and back go over the blocks of `al`. No other block has a link back.
structure Holds (l : AllocationList) (al : List Nat) : Prop where
  forward : Path l.next l.head al
  backward : Path l.prev l.tail al.reverse
  outside : ∀ b ∉ al, l.prev b = none
  nodup : al.Nodup

theorem Holds.chained (h : l.Holds al) : l.Chained al := ⟨h.forward, h.backward, h.nodup⟩

theorem Holds.of_chained (h : l.Chained al) (houtside : ∀ b ∉ al, l.prev b = none) : l.Holds al :=
  ⟨h.forward, h.backward, houtside, h.nodup⟩

theorem Holds.head_eq (h : l.Holds al) : l.head = al.head? := h.forward.head_eq

theorem Holds.tail_eq (h : l.Holds al) : l.tail = al.getLast? := h.chained.tail_eq

theorem Holds.prev_eq (h : l.Holds (front ++ b :: back)) : l.prev b = front.getLast? :=
  h.chained.prev_eq

theorem Holds.contains_iff (h : l.Holds al) (hclean : b ∉ al → l.next b = none) :
    l.contains b = true ↔ b ∈ al := by
  rw [h.chained.contains_iff]
  refine ⟨fun hfound => ?_, Or.inl⟩
  by_contra hnot
  exact hfound.elim hnot fun hlinked => hlinked (hclean hnot)

theorem Holds.pushFront (h : l.Holds al) (hb : b ∉ al) (hnext : l.next b = none) :
    (l.pushFront b).Holds (b :: al) := by
  refine .of_chained (h.chained.pushFront hb hnext (h.outside b hb)) fun x hx => ?_
  rw [(h.chained.pushFront_apart hx).2]
  exact h.outside x fun hmem => hx (List.mem_cons_of_mem b hmem)

theorem Holds.pushBack (h : l.Holds al) (hb : b ∉ al) (hnext : l.next b = none) :
    (l.pushBack b).Holds (al ++ [b]) := by
  refine .of_chained (h.chained.pushBack hb hnext fun _ => h.outside b hb) fun x hx => ?_
  rw [(h.chained.pushBack_apart hx).2]
  exact h.outside x fun hmem => hx (List.mem_append_left [b] hmem)

-- The links of a block that is not on the list do not matter.
theorem Holds.reset (h : l.Holds al) (hb : b ∉ al) :
    Holds { l with
      prev := Function.update l.prev b none
      next := Function.update l.next b none } al := by
  refine ⟨h.forward.congr fun x hx => ?_, h.backward.congr fun x hx => ?_, fun x hx => ?_, h.nodup⟩
  · exact Function.update_of_ne (ne_of_mem_of_not_mem hx hb) ..
  · exact Function.update_of_ne (ne_of_mem_of_not_mem (List.mem_reverse.mp hx) hb) ..
  · by_cases hxb : x = b
    · simp only [hxb, Function.update_self]
    · simp only [Function.update_of_ne hxb]
      exact h.outside x hx

-- The first block goes, and keeps its link forward.
theorem Holds.unlink (h : l.Holds (b :: back)) :
    ∃ l', l.unlink b = some l' ∧ l'.Holds back ∧ l'.next = l.next := by
  have hsplit : l.Chained ([] ++ b :: back) := h.chained
  obtain ⟨l', hunlink, hchained, hnext, hprev⟩ := hsplit.unlink
  have hb : l.prev b = none := hsplit.prev_eq
  refine ⟨l', hunlink, .of_chained hchained fun x hx => ?_, funext fun x => hnext x (by simp)⟩
  rw [hprev x hx]
  by_cases hxb : x = b
  · rw [hxb]
    exact hb
  · exact h.outside x (by simpa [hxb] using hx)

-- The last block stays the last one.
theorem Holds.requeue (h : l.Holds (front ++ [b])) :
    (l.unlink b).map (fun l' => l'.pushBack b) = some l := by
  have hnext : l.next b = none := h.forward.next_eq
  have hprev : l.prev b = front.getLast? := h.prev_eq
  have htail : l.tail = some b := by rw [h.tail_eq, List.getLast?_concat]
  have heta : l = ⟨l.head, l.tail, l.prev, l.next⟩ := rfl
  unfold AllocationList.unlink
  rcases List.eq_nil_or_concat' front with rfl | ⟨init, old, rfl⟩
  · have hhead : l.head = some b := h.head_eq
    rw [List.getLast?_nil] at hprev
    simp only [hprev, hnext, if_pos (And.intro hhead htail), Option.map_some]
    conv_rhs => rw [heta, hhead, htail]
    rfl
  · have hlink : l.next old = some b := by
      have hforward := h.forward
      rw [List.append_assoc, List.singleton_append] at hforward
      exact hforward.next_eq
    rw [List.getLast?_concat] at hprev
    simp only [hprev, hnext, if_pos htail, Option.map_some]
    unfold AllocationList.pushBack
    simp only [Function.update_idem, ← hprev, ← hlink, Function.update_eq_self]
    conv_rhs => rw [heta, htail]
    rw [hlink]

end AllocationList

end Rsgc.Storage
