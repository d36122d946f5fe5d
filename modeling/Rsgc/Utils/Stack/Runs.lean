import Rsgc.Utils.Stack.Lifo

namespace Rsgc.Utils

namespace Stack

-- The bytes of the slot lie in the segment, and not in its link.
def SlotSafe (s : Stack) (index : Nat) : Prop :=
  (index + 1) * s.elemSize ≤ s.segmentBytes ∧
    ((index + 1) * s.elemSize ≤ s.linkOffset ∨ s.linkOffset + 8 ≤ index * s.elemSize)

variable {s : Stack} {list : List Nat}

theorem Fits.slotSafe (h : s.Fits) {index : Nat}
    (hle : (index + 1) * s.elemSize ≤ s.linkOffset) : s.SlotSafe index := by
  have hbytes := h.segmentBytes_eq
  exact ⟨by omega, Or.inl hle⟩

-- A slot that fits and does not end before the link overlaps with it.
theorem Fits.slotSafe_iff (h : s.Fits) {index : Nat} :
    s.SlotSafe index ↔ (index + 1) * s.elemSize ≤ s.linkOffset := by
  refine ⟨fun ⟨hstop, hapart⟩ => ?_, h.slotSafe⟩
  have hbytes := h.segmentBytes_eq
  rcases hapart with hbefore | hbehind
  · exact hbefore
  · rw [Nat.succ_mul] at hstop
    omega

theorem Shape.slotSafe (h : s.Shape list) {index : Nat} (hlt : index < list.length) :
    s.SlotSafe index := by
  cases h with
  | idle _ => cases hlt
  | cached _ => cases hlt
  | active h => exact h.fits.slotSafe (Nat.le_trans (Nat.mul_le_mul_right _ hlt) h.room)

end Stack

namespace StackRun

-- Every push finds a slot before the link.
def PushFits (s : StackRun) : StackEvent → Prop
  | .push _ _ => s.stack.HasRoom
  | _ => True

-- The stack is the list.
structure Lifo (s : StackRun) : Prop where
  size_eq : s.stack.size = s.list.length
  isEmpty_iff : s.stack.isEmpty = true ↔ s.list = []
  popped_eq : ∀ p ∈ s.popped, p.1 = p.2
  slots : ∀ index < s.list.length, s.stack.SlotSafe index

-- What the steps keep.
structure Kept (s : StackRun) : Prop where
  shape : s.stack.Shape s.list
  segment_pos : 0 < s.stack.segSize
  fullSegSize_eq : s.stack.fullSegSize = 0
  popped_eq : ∀ p ∈ s.popped, p.1 = p.2

variable {s t : StackRun} {e : StackEvent}

theorem Kept.lifo (h : s.Kept) : s.Lifo where
  size_eq := h.shape.size_eq h.fullSegSize_eq
  isEmpty_iff := h.shape.isEmpty_iff
  popped_eq := h.popped_eq
  slots := fun _ hlt => h.shape.slotSafe hlt

theorem Kept.next {stack : Stack} {list : List Nat} (h : s.Kept) (hshape : stack.Shape list)
    (hsame : s.stack.SameSizes stack) : ({ s with stack := stack, list := list }).Kept where
  shape := hshape
  segment_pos := hsame.segSize_eq ▸ h.segment_pos
  fullSegSize_eq := hsame.fullSegSize_eq.trans h.fullSegSize_eq
  popped_eq := h.popped_eq

theorem Kept.step (h : s.Kept) (hfits : s.PushFits e) (hstep : s.step e = some t) : t.Kept := by
  cases e with
  | push item addr =>
      obtain ⟨hitem, hstep⟩ := Option.ite_none_right_eq_some.mp hstep
      obtain ⟨stack, hpush, rfl⟩ := Option.map_eq_some_iff.mp hstep
      obtain ⟨stack', hpush', hshape, hsame⟩ := h.shape.push h.segment_pos h.fullSegSize_eq hfits
        hitem (h.shape.fresh_of_push hpush)
      obtain rfl : stack = stack' := Option.some.inj (hpush.symm.trans hpush')
      exact h.next hshape hsame
  | pop =>
      obtain ⟨⟨item, stack⟩, hpop, rfl⟩ := Option.map_eq_some_iff.mp hstep
      obtain ⟨stack', hpop', hshape, hsame⟩ := h.shape.pop h.fullSegSize_eq
      obtain ⟨rfl, rfl⟩ := Prod.mk.inj (Option.some.inj (hpop.symm.trans hpop'))
      obtain ⟨-, hsegment, hfull, hpopped⟩ := h.next hshape hsame
      refine ⟨hshape, hsegment, hfull, fun p hp => ?_⟩
      rcases List.mem_cons.mp hp with rfl | hp
      · rfl
      · exact hpopped p hp
  | clear resetCache =>
      obtain ⟨stack, hclear, rfl⟩ := Option.map_eq_some_iff.mp hstep
      obtain ⟨stack', hclear', hshape, hsame⟩ := h.shape.clear h.fullSegSize_eq resetCache
      obtain rfl : stack = stack' := Option.some.inj (hclear.symm.trans hclear')
      exact h.next hshape hsame
  | store addr byte =>
      obtain ⟨hother, rfl⟩ := guard_eq_some.mp hstep
      have hset := s.stack.rewritten (Function.update s.stack.memory addr byte)
      refine h.next (h.shape.congr hset fun c hc a hl hr => ?_) hset.sizes
      have hne := hother c hc
      exact Function.update_of_ne (by omega) _ _

variable {elemSize segmentSize maxCacheSize : Nat}

theorem kept_of_via (hs : (stackMachine elemSize segmentSize maxCacheSize).Via PushFits s) :
    s.Kept := by
  refine Machine.Via.invariant (P := Kept) (fun s hinit => ?_) (fun s e t h hgood hstep => ?_) hs
  · obtain ⟨hpos, memory, rfl⟩ := hinit
    exact ⟨.idle ⟨rfl, rfl, rfl, rfl, rfl⟩, hpos, rfl, by simp⟩
  · exact h.step hgood hstep

-- As long as every push finds a slot before the link, the stack is a list, and no
-- call fails.
theorem stack_lifo (hs : (stackMachine elemSize segmentSize maxCacheSize).Via PushFits s) :
    s.Lifo ∧
      (∀ item addr, s.stack.HasRoom → item < 256 ^ s.stack.elemSize → s.stack.Fresh addr →
        ∃ t, s.step (.push item addr) = some t) ∧
      (∃ t, s.step .pop = some t) ∧ ∀ resetCache, ∃ t, s.step (.clear resetCache) = some t := by
  have h := kept_of_via hs
  refine ⟨h.lifo, fun item addr hroom hitem hfresh => ?_, ?_, fun resetCache => ?_⟩
  · obtain ⟨stack, hpush, _⟩ := h.shape.push h.segment_pos h.fullSegSize_eq hroom hitem
      fun _ => hfresh
    exact ⟨_, (if_pos hitem).trans (Option.map_eq_some_iff.mpr ⟨stack, hpush, rfl⟩)⟩
  · obtain ⟨stack, hpop, _⟩ := h.shape.pop h.fullSegSize_eq
    exact ⟨_, Option.map_eq_some_iff.mpr ⟨_, hpop, rfl⟩⟩
  · obtain ⟨stack, hclear, _⟩ := h.shape.clear h.fullSegSize_eq resetCache
    exact ⟨_, Option.map_eq_some_iff.mpr ⟨stack, hclear, rfl⟩⟩

instance (s : Stack) : Decidable s.HasRoom :=
  decidable_of_iff ((8 ≤ s.elemSize ∧ s.linkOffset + s.elemSize < 2 ^ 64) ∧
    (s.size + 1) * s.elemSize ≤ s.linkOffset)
    ⟨fun ⟨⟨hword, hbytes⟩, hroom⟩ => ⟨⟨hword, hbytes⟩, hroom⟩,
      fun ⟨⟨hword, hbytes⟩, hroom⟩ => ⟨⟨hword, hbytes⟩, hroom⟩⟩

instance (s : StackRun) : (e : StackEvent) → Decidable (s.PushFits e)
  | .push _ _ => inferInstanceAs (Decidable s.stack.HasRoom)
  | .pop | .clear _ | .store _ _ => inferInstanceAs (Decidable True)

def dirtyHeap : Memory := fun _ => 255

-- Six elements come before the link of a segment for eight. The segment is used
-- again after it was in the cache.
theorem stack_lifo_cached : ∃ s, (stackMachine 8 8 1).Via PushFits s ∧ s.list = [4] ∧
    s.popped = [(none, none), (some 1, some 1), (some 2, some 2), (some 3, some 3)] ∧ s.Lifo ∧
      (∀ item addr, s.stack.HasRoom → item < 256 ^ s.stack.elemSize → s.stack.Fresh addr →
        ∃ t, s.step (.push item addr) = some t) ∧
      (∃ t, s.step .pop = some t) ∧ ∀ resetCache, ∃ t, s.step (.clear resetCache) = some t := by
  have hrun : ((stackMachine 8 8 1).runVia PushFits ⟨.new 8 8 1 dirtyHeap, [], []⟩
      [.push 1 4096, .push 2 0, .store 0 7, .push 3 0, .pop, .pop, .pop, .pop, .push 5 0,
        .clear true, .push 4 8192]).map (fun s => (s.list, s.popped)) =
      some ([4], [(none, none), (some 1, some 1), (some 2, some 2), (some 3, some 3)]) := by
    decide +kernel
  obtain ⟨s, hs, heq⟩ := Option.map_eq_some_iff.mp hrun
  obtain ⟨hlist, hpopped⟩ := Prod.mk.inj heq
  have hinit : (stackMachine 8 8 1).init ⟨.new 8 8 1 dirtyHeap, [], []⟩ :=
    ⟨by decide, dirtyHeap, rfl⟩
  have hvia := Machine.via_of_runVia (Machine.Via.init hinit) hs
  exact ⟨s, hvia, hlist, hpopped, stack_lifo hvia⟩

-- The third element of a segment for four lies where its link is. When all are
-- popped, the stack follows the element.
theorem link_is_overwritten :
    ∃ s, (stackMachine 8 4 0).Reachable s ∧ s.list = [] ∧ s.stack.isEmpty = false := by
  have hrun : ((stackMachine 8 4 0).run ⟨.new 8 4 0 dirtyHeap, [], []⟩
      [.push 5 4096, .push 6 0, .push 7 0, .pop, .pop, .pop]).map
      (fun s => (s.list, s.stack.isEmpty)) = some ([], false) := by decide +kernel
  obtain ⟨s, hs, heq⟩ := Option.map_eq_some_iff.mp hrun
  obtain ⟨hlist, hempty⟩ := Prod.mk.inj heq
  have hinit : (stackMachine 8 4 0).init ⟨.new 8 4 0 dirtyHeap, [], []⟩ :=
    ⟨by decide, dirtyHeap, rfl⟩
  exact ⟨s, Machine.run_reachable (Machine.Via.init hinit) hs, hlist, hempty⟩

end StackRun

end Rsgc.Utils
