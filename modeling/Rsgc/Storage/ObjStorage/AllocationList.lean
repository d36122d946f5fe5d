import Rsgc.Storage.ObjStorage.Lists

namespace Rsgc.Storage

inductive AllocationListCall
  | pushFront (block : Nat)
  | pushBack (block : Nat)
  | unlink (block : Nat)
deriving DecidableEq, Repr

-- The list with the links of all blocks, and the blocks that were pushed and not unlinked
-- since, in the order that the calls give them.
structure AllocationListRun where
  list : AllocationList
  blocks : List Nat

namespace AllocationListRun

variable {s t : AllocationListRun} {b : Nat}

def initial : AllocationListRun := ⟨⟨none, none, fun _ => none, fun _ => none⟩, []⟩

-- A block is pushed only when it is not in the list, and unlinked only when it is.
def Allows (s : AllocationListRun) : AllocationListCall → Prop
  | .pushFront b | .pushBack b => b ∉ s.blocks
  | .unlink b => b ∈ s.blocks

instance (s : AllocationListRun) : (c : AllocationListCall) → Decidable (s.Allows c)
  | .pushFront b | .pushBack b => inferInstanceAs (Decidable (b ∉ s.blocks))
  | .unlink b => inferInstanceAs (Decidable (b ∈ s.blocks))

def perform (s : AllocationListRun) : AllocationListCall → Option AllocationListRun
  | .pushFront b => some ⟨s.list.pushFront b, b :: s.blocks⟩
  | .pushBack b => some ⟨s.list.pushBack b, s.blocks ++ [b]⟩
  | .unlink b => (s.list.unlink b).map fun l => ⟨l, s.blocks.erase b⟩

def step (s : AllocationListRun) (c : AllocationListCall) : Option AllocationListRun :=
  if s.Allows c then s.perform c else none

-- From the head the blocks of the list are met, and from the tail they are met backwards;
-- `contains` finds just these.
structure WellFormed (s : AllocationListRun) : Prop where
  forward : Path s.list.next s.list.head s.blocks
  backward : Path s.list.prev s.list.tail s.blocks.reverse
  nodup : s.blocks.Nodup
  contains : ∀ b, s.list.contains b = true ↔ b ∈ s.blocks

-- A block that is pushed has no link back from the last time, except when it is pushed
-- behind another block; and only the last block is unlinked.
def Clean (s : AllocationListRun) : AllocationListCall → Prop
  | .pushFront b => s.list.prev b = none
  | .pushBack b => s.list.tail = none → s.list.prev b = none
  | .unlink b => s.list.next b = none

instance (s : AllocationListRun) : (c : AllocationListCall) → Decidable (s.Clean c)
  | .pushFront b => inferInstanceAs (Decidable (s.list.prev b = none))
  | .pushBack b => inferInstanceAs (Decidable (s.list.tail = none → s.list.prev b = none))
  | .unlink b => inferInstanceAs (Decidable (s.list.next b = none))

theorem WellFormed.chained (h : s.WellFormed) : s.list.Chained s.blocks :=
  ⟨h.forward, h.backward, h.nodup⟩

-- What `contains` needs is that the blocks elsewhere have no link forward.
theorem wellFormed_iff :
    s.WellFormed ↔ s.list.Chained s.blocks ∧ ∀ b ∉ s.blocks, s.list.next b = none := by
  constructor
  · intro h
    refine ⟨h.chained, fun b hb => ?_⟩
    by_contra hlinked
    exact hb ((h.contains b).mp (h.chained.contains_iff.mpr (Or.inr hlinked)))
  · rintro ⟨hchained, hclean⟩
    refine ⟨hchained.forward, hchained.backward, hchained.nodup, fun b => ?_⟩
    rw [hchained.contains_iff]
    refine ⟨fun hfound => ?_, Or.inl⟩
    by_contra hnot
    exact hfound.elim hnot fun hlinked => hlinked (hclean b hnot)

theorem tail_eq_none (h : s.list.Chained s.blocks) : s.list.tail = none ↔ s.blocks = [] := by
  rw [h.tail_eq, List.getLast?_eq_none_iff]

theorem pushFront_wellFormed_iff (h : s.WellFormed) (hb : b ∉ s.blocks) :
    WellFormed ⟨s.list.pushFront b, b :: s.blocks⟩ ↔ s.list.prev b = none := by
  obtain ⟨hchained, hclean⟩ := wellFormed_iff.mp h
  constructor
  · intro hpushed
    have hsplit : (s.list.pushFront b).Chained ([] ++ b :: s.blocks) := hpushed.chained
    have hprev : (s.list.pushFront b).prev b = none := hsplit.prev_eq
    -- the push sets the link back of another block only
    have hsame : (s.list.pushFront b).prev b = s.list.prev b := by
      unfold AllocationList.pushFront
      split
      · rfl
      · rename_i old hold
        have hmem : old ∈ s.blocks := List.mem_of_head? (hchained.head_eq ▸ hold)
        exact Function.update_of_ne (ne_of_mem_of_not_mem hmem hb).symm ..
    rwa [hsame] at hprev
  · intro hprev
    refine wellFormed_iff.mpr ⟨hchained.pushFront hb (hclean b hb) hprev, fun x hx => ?_⟩
    rw [(hchained.pushFront_apart hx).1]
    exact hclean x fun hmem => hx (List.mem_cons_of_mem b hmem)

theorem pushBack_wellFormed_iff (h : s.WellFormed) (hb : b ∉ s.blocks) :
    WellFormed ⟨s.list.pushBack b, s.blocks ++ [b]⟩ ↔
      (s.list.tail = none → s.list.prev b = none) := by
  obtain ⟨hchained, hclean⟩ := wellFormed_iff.mp h
  constructor
  · intro hpushed htail
    have hnil := (tail_eq_none hchained).mp htail
    have hprev := AllocationList.Chained.prev_eq hpushed.chained
    simp only [hnil, List.getLast?_nil] at hprev
    unfold AllocationList.pushBack at hprev
    rwa [htail] at hprev
  · intro hprev
    have hempty : s.blocks = [] → s.list.prev b = none := fun hnil =>
      hprev ((tail_eq_none hchained).mpr hnil)
    refine wellFormed_iff.mpr ⟨hchained.pushBack hb (hclean b hb) hempty, fun x hx => ?_⟩
    rw [(hchained.pushBack_apart hx).1]
    exact hclean x fun hmem => hx (List.mem_append_left [b] hmem)

-- The list stays linked whatever is unlinked, but `contains` finds a block that was not
-- the last one.
theorem unlink_wellFormed_iff (h : s.WellFormed) (hb : b ∈ s.blocks) :
    ∃ l, s.list.unlink b = some l ∧
      (WellFormed ⟨l, s.blocks.erase b⟩ ↔ s.list.next b = none) := by
  obtain ⟨hchained, hclean⟩ := wellFormed_iff.mp h
  obtain ⟨front, back, hblocks⟩ := List.append_of_mem hb
  rw [hblocks] at hchained hclean ⊢
  have hfront : b ∉ front := fun hmem =>
    (List.nodup_append.mp hchained.nodup).2.2 b hmem b List.mem_cons_self rfl
  have hback : b ∉ back := (List.nodup_cons.mp (List.nodup_append.mp hchained.nodup).2.1).1
  have herase : (front ++ b :: back).erase b = front ++ back := by
    rw [List.erase_append_right _ hfront, List.erase_cons_head]
  obtain ⟨l, hunlink, hrest, hnext, -⟩ := hchained.unlink
  refine ⟨l, hunlink, ?_⟩
  rw [herase, wellFormed_iff, ← hnext b hfront]
  constructor
  · rintro ⟨-, hout⟩
    exact hout b fun hmem => (List.mem_append.mp hmem).elim hfront hback
  · refine fun hnone => ⟨hrest, fun x hx => ?_⟩
    have hx' := fun hmem : x ∈ front => hx (List.mem_append_left back hmem)
    by_cases hxb : x = b
    · rw [hxb]
      exact hnone
    · rw [hnext x hx']
      refine hclean x fun hmem => ?_
      rcases List.mem_append.mp hmem with hmem | hmem
      · exact hx' hmem
      · exact hx (List.mem_append_right front ((List.mem_cons.mp hmem).resolve_left hxb))

-- In a well-formed list every call that is allowed returns, and keeps it well formed just
-- if it is clean.
theorem WellFormed.step_iff (h : s.WellFormed) (c : AllocationListCall) (hc : s.Allows c) :
    ∃ t, s.step c = some t ∧ (t.WellFormed ↔ s.Clean c) := by
  unfold step
  rw [if_pos hc]
  cases c with
  | pushFront b => exact ⟨_, rfl, pushFront_wellFormed_iff h hc⟩
  | pushBack b => exact ⟨_, rfl, pushBack_wellFormed_iff h hc⟩
  | unlink b =>
      obtain ⟨l, hunlink, hiff⟩ := unlink_wellFormed_iff h hc
      exact ⟨_, Option.map_eq_some_iff.mpr ⟨l, hunlink, rfl⟩, hiff⟩

end AllocationListRun

def allocationListMachine : Machine AllocationListRun AllocationListCall where
  init s := s = AllocationListRun.initial
  step := AllocationListRun.step

namespace AllocationListRun

variable {s t : AllocationListRun}

theorem initial_wellFormed : initial.WellFormed := by
  refine ⟨rfl, rfl, List.nodup_nil, fun b => ?_⟩
  simp [initial, AllocationList.contains]

theorem WellFormed.next {c : AllocationListCall} (h : s.WellFormed) (hclean : s.Clean c)
    (hstep : s.step c = some t) : t.WellFormed := by
  have hc : s.Allows c := by
    by_contra hnot
    unfold step at hstep
    rw [if_neg hnot] at hstep
    cases hstep
  obtain ⟨u, hu, hiff⟩ := h.step_iff c hc
  obtain rfl := Option.some.inj (hu.symm.trans hstep)
  exact hiff.mpr hclean

-- After any calls that are clean the list is well formed, the next call returns, and the
-- list is well formed after it just if it is clean.
theorem allocationList_wellFormed (hs : allocationListMachine.Via Clean s) :
    s.WellFormed ∧ ∀ c, s.Allows c →
      ∃ t, allocationListMachine.step s c = some t ∧ (t.WellFormed ↔ s.Clean c) := by
  have h : s.WellFormed := by
    refine Machine.Via.invariant (P := WellFormed) (fun s hinit => ?_)
      (fun s c t h hclean hstep => h.next hclean hstep) hs
    obtain rfl : s = initial := hinit
    exact initial_wellFormed
  exact ⟨h, h.step_iff⟩

-- A block is unlinked and pushed again.
theorem allocationList_wellFormed_again : ∃ s, allocationListMachine.Via Clean s ∧
    s.blocks = [2, 1, 3] ∧ s.WellFormed ∧ ∀ c, s.Allows c →
      ∃ t, allocationListMachine.step s c = some t ∧ (t.WellFormed ↔ s.Clean c) := by
  have hrun : (allocationListMachine.runVia Clean initial
      [.pushBack 1, .pushFront 2, .pushBack 3, .unlink 3, .pushBack 3]).map
        (fun s => s.blocks) = some [2, 1, 3] := by decide
  obtain ⟨s, hs, hblocks⟩ := Option.map_eq_some_iff.mp hrun
  have hinit : allocationListMachine.init initial := rfl
  have hvia := Machine.via_of_runVia (Machine.Via.init hinit) hs
  exact ⟨s, hvia, hblocks, allocationList_wellFormed hvia⟩

-- Of the blocks 1 and 2 the first is unlinked. It is still found; and when it is pushed
-- behind the other, the links forward go round in a circle.
theorem unlinked_block_found : ∃ s t, allocationListMachine.Reachable s ∧
    allocationListMachine.step s (.pushBack 1) = some t ∧ s.blocks = [2] ∧
    s.list.contains 1 = true ∧ t.list.next 1 = some 2 ∧ t.list.next 2 = some 1 ∧
    ¬s.WellFormed ∧ ¬t.WellFormed := by
  have hrun : (allocationListMachine.run initial [.pushBack 1, .pushBack 2, .unlink 1]).bind
      (fun s => (allocationListMachine.step s (.pushBack 1)).map fun t => (s.blocks, t.blocks,
        s.list.contains 1, t.list.next 1, t.list.next 2)) =
      some ([2], [2, 1], true, some 2, some 1) := by decide
  obtain ⟨s, hs, hnext⟩ := Option.bind_eq_some_iff.mp hrun
  obtain ⟨t, ht, heq⟩ := Option.map_eq_some_iff.mp hnext
  simp only [Prod.mk.injEq] at heq
  obtain ⟨hblocks, hblocks', hcontains, hfirst, hsecond⟩ := heq
  have hinit : allocationListMachine.init initial := rfl
  refine ⟨s, t, Machine.run_reachable (Machine.Via.init hinit) hs, ht, hblocks, hcontains, hfirst,
    hsecond, fun h => ?_, fun h => ?_⟩
  · have hmem := (h.contains 1).mp hcontains
    rw [hblocks] at hmem
    exact absurd hmem (by decide)
  · have hforward := h.forward
    rw [hblocks'] at hforward
    have hend := (Path.cons_iff.mp (Path.cons_iff.mp hforward).2).2
    rw [hfirst] at hend
    cases hend

end AllocationListRun

end Rsgc.Storage
