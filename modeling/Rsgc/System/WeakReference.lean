import Mathlib.Data.List.Nodup
import Mathlib.Data.List.Perm.Subperm
import Rsgc.Lib.Linked
import Rsgc.Lib.Machine

namespace Rsgc.System

-- An address of an object; 0 is the null pointer.
abbrev Pointer := Nat

-- The list of `HEAD_REF` through the fields `next` and `ptr` of the references.
structure WeakList where
  head : Pointer
  next : Pointer → Pointer
  ptr : Pointer → Pointer

-- The closure the collectors give to `process`: `marked p` is the mark bit of
-- the header before `p`.
def updateReference (marked : Pointer → Bool) (p : Pointer) : Pointer :=
  if marked p then p else 0

namespace WeakList

def setNext (m : WeakList) (weak next : Pointer) : WeakList :=
  { m with next := Function.update m.next weak next }

def setPtr (m : WeakList) (weak target : Pointer) : WeakList :=
  { m with ptr := Function.update m.ptr weak target }

-- `next` of the last kept reference, or the head where none has been kept yet.
def setTail (m : WeakList) (tail next : Pointer) : WeakList :=
  if tail ≠ 0 then m.setNext tail next else { m with head := next }

-- The loop of `WeakReference::process` with the pointers it has asked about.
def processFrom (marked : Pointer → Bool) :
    Nat → WeakList → Pointer → Pointer → List Pointer → Option (WeakList × List Pointer)
  | 0, m, wr, _, asked => if wr = 0 then some (m, asked) else none
  | fuel + 1, m, wr, tail, asked =>
      if wr = 0 then some (m, asked)
      else
        let next := m.next wr
        if updateReference marked wr = 0 then
          processFrom marked fuel (m.setTail tail next) next tail (asked ++ [wr])
        else
          let target := updateReference marked (m.ptr wr)
          processFrom marked fuel ((m.setPtr wr target).setTail tail wr) next wr
            (asked ++ [wr, m.ptr wr])

def process (marked : Pointer → Bool) (fuel : Nat) (m : WeakList) :
    Option (WeakList × List Pointer) :=
  m.processFrom marked fuel m.head 0 []

-- The registered references, the newest one first.
def Lists (m : WeakList) (refs : List Pointer) : Prop :=
  Segment m.next m.head refs 0 ∧ 0 ∉ refs

end WeakList

-- `objects` are the allocated objects. Not in the source: `asked`, the pointers
-- the last processing asked about, and `cleared`, the registered references
-- whose target some processing has cleared.
structure WeakRefs where
  list : WeakList
  objects : List Pointer
  asked : List Pointer
  cleared : List Pointer

inductive WeakEvent
  | allocate (object : Pointer)
  | register (weak target : Pointer)
  | collect (marked : Pointer → Bool)

namespace WeakRefs

-- `WeakReference::new` for the fresh object `weak`.
def register (s : WeakRefs) (weak target : Pointer) : WeakRefs :=
  { s with list := { (s.list.setPtr weak target).setNext weak s.list.head with head := weak }
           objects := weak :: s.objects }

-- The weak processing of a cycle; the unmarked objects are freed by its sweep.
def collect (s : WeakRefs) (marked : Pointer → Bool) : Option WeakRefs :=
  (s.list.process marked s.objects.length).map fun (list, asked) =>
    { list, asked
      objects := s.objects.filter marked
      cleared := (s.objects.filter fun w => list.ptr w = 0 && s.list.ptr w ≠ 0) ++
        s.cleared.filter marked }

def step (s : WeakRefs) : WeakEvent → Option WeakRefs
  | .allocate object =>
      if object ≠ 0 ∧ object ∉ s.objects then some { s with objects := object :: s.objects }
      else none
  | .register weak target =>
      if weak ≠ 0 ∧ weak ∉ s.objects ∧ target ∈ s.objects then some (s.register weak target)
      else none
  | .collect marked => s.collect marked

end WeakRefs

def weakRefs : Machine WeakRefs WeakEvent where
  init s := s = ⟨⟨0, fun _ => 0, fun _ => 0⟩, [], [], []⟩
  step := WeakRefs.step

namespace WeakList

-- The pointers that are asked about for one reference of the list.
def asks (marked : Pointer → Bool) (m : WeakList) (w : Pointer) : List Pointer :=
  if marked w then [w, m.ptr w] else [w]

def IsTail (kept : List Pointer) (tail : Pointer) : Prop :=
  kept = [] ∧ tail = 0 ∨ ∃ init, kept = init ++ [tail]

@[simp] theorem setTail_ptr (m : WeakList) (tail next : Pointer) :
    (m.setTail tail next).ptr = m.ptr := by
  unfold setTail
  split <;> rfl

@[simp] theorem setPtr_next (m : WeakList) (weak target : Pointer) :
    (m.setPtr weak target).next = m.next := rfl

@[simp] theorem setPtr_head (m : WeakList) (weak target : Pointer) :
    (m.setPtr weak target).head = m.head := rfl

theorem setTail_links (m : WeakList) (tail next : Pointer) :
    (m.setTail tail next).next = (if tail = 0 then m.next else Function.update m.next tail next) ∧
      (m.setTail tail next).head = if tail = 0 then next else m.head := by
  unfold setTail
  by_cases htail : tail = 0
  · simp [htail]
  · simp [htail, setNext]

theorem setTail_kept {m : WeakList} {kept : List Pointer} {tail b : Pointer} (c : Pointer)
    (hkept : Segment m.next m.head kept b) (htail : IsTail kept tail) (hnull : 0 ∉ kept)
    (hnodup : kept.Nodup) :
    Segment (m.setTail tail c).next (m.setTail tail c).head kept c := by
  obtain ⟨hnext, hhead⟩ := setTail_links m tail c
  rw [hnext, hhead]
  exact hkept.retarget c htail hnull hnodup

theorem setTail_rest {m : WeakList} {kept rest : List Pointer} {tail a b : Pointer} (c : Pointer)
    (hrest : Segment m.next a rest b) (htail : IsTail kept tail)
    (hapart : ∀ w ∈ kept, w ∉ rest) : Segment (m.setTail tail c).next a rest b := by
  rw [(setTail_links m tail c).1]
  exact hrest.retarget_apart c htail hapart

-- By induction on what is left of the list: `kept` is linked from the head up to
-- the cell that comes next.
theorem processFrom_eq (marked : Pointer → Bool) {todo : List Pointer} :
    ∀ {fuel : Nat} {m : WeakList} {wr tail : Pointer} {kept : List Pointer}
      (asked : List Pointer), todo.length ≤ fuel → Segment m.next m.head kept wr →
      Segment m.next wr todo 0 → IsTail kept tail → (kept ++ todo).Nodup → 0 ∉ kept ++ todo →
      ∃ m', m.processFrom marked fuel wr tail asked = some (m', asked ++ todo.flatMap (m.asks marked)) ∧
        Segment m'.next m'.head (kept ++ todo.filter marked) 0 ∧
        ∀ w, m'.ptr w =
          if w ∈ todo ∧ marked w = true then updateReference marked (m.ptr w) else m.ptr w := by
  induction todo with
  | nil =>
      intro fuel m wr tail kept asked _ hkept hrest _ _ _
      have hwr : wr = 0 := hrest
      refine ⟨m, ?_, by simpa [hwr] using hkept, by simp⟩
      cases fuel <;> simp [processFrom, hwr]
  | cons w rest ih =>
      intro fuel m wr tail kept asked hfuel hkept hrest htail hnodup hnull
      obtain ⟨rfl, hrest⟩ := hrest
      obtain ⟨fuel, rfl⟩ : ∃ n, fuel = n + 1 := ⟨fuel - 1, by simp at hfuel; omega⟩
      have hfuel' : rest.length ≤ fuel := by simpa using hfuel
      have hwr : wr ≠ 0 := fun h => hnull (by simp [h])
      have hkeptNull : 0 ∉ kept := fun h => hnull (List.mem_append_left _ h)
      obtain ⟨hkeptNodup, hrestNodup, hapart⟩ := List.nodup_append.mp hnodup
      have hapart' : ∀ v ∈ kept, v ∉ rest := fun v hv hr =>
        hapart v hv v (List.mem_cons_of_mem _ hr) rfl
      unfold processFrom
      rw [if_neg hwr]
      by_cases hmarked : marked wr = true
      · have hkeep : updateReference marked wr = wr := if_pos hmarked
        simp only [hkeep, if_neg hwr]
        have hkept' := setTail_kept (m := m.setPtr wr (updateReference marked (m.ptr wr))) wr
          hkept htail hkeptNull hkeptNodup
        have hwrTail : wr ∉ kept := fun h => hapart wr h wr List.mem_cons_self rfl
        have hnext : ((m.setPtr wr (updateReference marked (m.ptr wr))).setTail tail wr).next wr =
            m.next wr := by
          unfold setTail
          split
          · obtain ⟨-, hz⟩ | ⟨init, rfl⟩ := htail
            · contradiction
            · exact Function.update_of_ne (fun h => hwrTail (by simp [h])) ..
          · rfl
        obtain ⟨m', hrun, hlist, hptr⟩ := ih (asked ++ [wr, m.ptr wr]) hfuel'
          (Segment.concat_iff.mpr ⟨hkept', hnext⟩)
          (setTail_rest wr hrest htail hapart') (Or.inr ⟨kept, rfl⟩)
          (by simpa using hnodup) (by simpa using hnull)
        refine ⟨m', ?_, ?_, fun v => ?_⟩
        · rw [hrun]
          have hasks : rest.flatMap
              (((m.setPtr wr (updateReference marked (m.ptr wr))).setTail tail wr).asks marked) =
                rest.flatMap (m.asks marked) := by
            refine List.flatMap_congr fun v hv => ?_
            have hne : v ≠ wr := fun h => (List.nodup_cons.mp hrestNodup).1 (h ▸ hv)
            simp [asks, setPtr, Function.update_of_ne hne]
          rw [hasks]
          simp [asks, hmarked]
        · simpa [hmarked] using hlist
        · rw [hptr v]
          by_cases hv : v = wr
          · subst hv
            have hnot : v ∉ rest := (List.nodup_cons.mp hrestNodup).1
            simp [hnot, hmarked, setPtr]
          · simp [hv, setPtr]
      · have hunlink : updateReference marked wr = 0 := if_neg hmarked
        simp only [hunlink, if_true]
        obtain ⟨m', hrun, hlist, hptr⟩ := ih (asked ++ [wr]) hfuel'
          (setTail_kept (m.next wr) hkept htail hkeptNull hkeptNodup)
          (setTail_rest (m.next wr) hrest htail hapart') htail
          (List.nodup_append.mpr ⟨hkeptNodup, (List.nodup_cons.mp hrestNodup).2,
            fun v hv u hu => hapart v hv u (List.mem_cons_of_mem _ hu)⟩)
          (fun h => hnull (by simpa using (List.mem_append.mp h).imp_right Or.inr))
        refine ⟨m', ?_, ?_, fun v => ?_⟩
        · rw [hrun]
          have hasks : rest.flatMap ((m.setTail tail (m.next wr)).asks marked) =
              rest.flatMap (m.asks marked) :=
            List.flatMap_congr fun v _ => by simp [asks]
          rw [hasks]
          simp [asks, hmarked]
        · simpa [hmarked] using hlist
        · rw [hptr v]
          by_cases hv : v = wr
          · subst hv
            simp [hmarked]
          · simp [hv]

theorem process_eq (marked : Pointer → Bool) {fuel : Nat} {m : WeakList} {refs : List Pointer}
    (hlists : m.Lists refs) (hnodup : refs.Nodup) (hfuel : refs.length ≤ fuel) :
    ∃ m', m.process marked fuel = some (m', refs.flatMap (m.asks marked)) ∧
      m'.Lists (refs.filter marked) ∧
      ∀ w, m'.ptr w =
        if w ∈ refs ∧ marked w = true then updateReference marked (m.ptr w) else m.ptr w := by
  have hkept : Segment m.next m.head [] m.head := rfl
  have htail : IsTail [] 0 := Or.inl ⟨rfl, rfl⟩
  obtain ⟨m', hrun, hlist, hptr⟩ :=
    processFrom_eq marked [] hfuel hkept hlists.1 htail hnodup hlists.2
  exact ⟨m', hrun, ⟨hlist, fun h0 => hlists.2 (List.mem_of_mem_filter h0)⟩, hptr⟩

end WeakList

namespace WeakRefs

-- What a processing with these mark bits leaves of the references `refs`.
structure Processed (s : WeakRefs) (refs : List Pointer) (marked : Pointer → Bool) (t : WeakRefs) :
    Prop where
  listed : t.list.Lists (refs.filter marked)
  targets : ∀ w ∈ refs.filter marked,
    t.list.ptr w = if marked (s.list.ptr w) then s.list.ptr w else 0
  asked : ∀ p ∈ t.asked, p ≠ 0 ∧ p ∈ s.objects

structure Inv (s : WeakRefs) (refs : List Pointer) : Prop where
  lists : s.list.Lists refs
  nodup : refs.Nodup
  allocated : ∀ w ∈ refs, w ∈ s.objects
  nonnull : 0 ∉ s.objects
  targets : ∀ w ∈ refs, s.list.ptr w = 0 ∨ s.list.ptr w ∈ s.objects
  cleared : ∀ w ∈ s.cleared, w ∈ refs ∧ s.list.ptr w = 0

theorem Inv.register {s : WeakRefs} {refs : List Pointer} (h : s.Inv refs) {weak target : Pointer}
    (hnull : weak ≠ 0) (hfresh : weak ∉ s.objects) (htarget : target ∈ s.objects) :
    (s.register weak target).Inv (weak :: refs) := by
  have hnew : weak ∉ refs := fun hw => hfresh (h.allocated weak hw)
  have hptr : ∀ w ∈ refs, (s.register weak target).list.ptr w = s.list.ptr w := fun w hw =>
    Function.update_of_ne (ne_of_mem_of_not_mem hw hnew) ..
  refine ⟨⟨⟨rfl, ?_⟩, ?_⟩, List.nodup_cons.mpr ⟨hnew, h.nodup⟩, ?_, ?_, ?_, ?_⟩
  · have hnext : (s.register weak target).list.next weak = s.list.head := Function.update_self ..
    rw [hnext]
    exact (Segment.update_iff hnew).mpr h.lists.1
  · simpa [eq_comm] using ⟨hnull, h.lists.2⟩
  · intro w hw
    exact List.mem_cons.mpr ((List.mem_cons.mp hw).imp_right (h.allocated w))
  · simpa [WeakRefs.register, eq_comm] using ⟨hnull, h.nonnull⟩
  · intro w hw
    obtain rfl | hw := List.mem_cons.mp hw
    · exact Or.inr (List.mem_cons_of_mem _ (by simpa [WeakRefs.register, WeakList.setPtr,
        WeakList.setNext] using htarget))
    · rw [hptr w hw]
      exact (h.targets w hw).imp_right (List.mem_cons_of_mem _)
  · intro w hw
    obtain ⟨hrefs, hzero⟩ := h.cleared w hw
    exact ⟨List.mem_cons_of_mem _ hrefs, (hptr w hrefs).trans hzero⟩

-- The walk of a processing: what it asks and what it leaves.
theorem Inv.collect_eq {s : WeakRefs} {refs : List Pointer} (h : s.Inv refs)
    (marked : Pointer → Bool) :
    ∃ t, s.collect marked = some t ∧ t.asked = refs.flatMap (s.list.asks marked) ∧
      t.objects = s.objects.filter marked ∧ t.list.Lists (refs.filter marked) ∧
      (∀ w, t.list.ptr w =
        if w ∈ refs ∧ marked w = true then updateReference marked (s.list.ptr w)
        else s.list.ptr w) ∧
      t.cleared = (s.objects.filter fun w => t.list.ptr w = 0 && s.list.ptr w ≠ 0) ++
        s.cleared.filter marked := by
  have hfuel : refs.length ≤ s.objects.length :=
    (List.subperm_of_subset h.nodup h.allocated).length_le
  obtain ⟨list, hrun, hlists, hptr⟩ := WeakList.process_eq marked h.lists h.nodup hfuel
  refine ⟨{ list
            asked := refs.flatMap (s.list.asks marked)
            objects := s.objects.filter marked
            cleared := (s.objects.filter fun w => list.ptr w = 0 && s.list.ptr w ≠ 0) ++
              s.cleared.filter marked }, ?_, rfl, rfl, hlists, hptr, rfl⟩
  unfold collect
  rw [hrun]
  rfl

theorem Inv.collect {s t : WeakRefs} {refs : List Pointer} (h : s.Inv refs)
    {marked : Pointer → Bool} (hstep : s.collect marked = some t) :
    t.Inv (refs.filter marked) := by
  obtain ⟨t', hrun, -, hobjects, hlists, hptr, hcleared⟩ := h.collect_eq marked
  obtain rfl : t' = t := Option.some.inj (hrun.symm.trans hstep)
  have hkept : ∀ w ∈ refs.filter marked, t'.list.ptr w = updateReference marked (s.list.ptr w) := by
    intro w hw
    rw [hptr w, if_pos (by simpa using hw)]
  refine ⟨hlists, h.nodup.filter _, ?_, ?_, ?_, ?_⟩
  · intro w hw
    obtain ⟨hrefs, hmarked⟩ := List.mem_filter.mp hw
    rw [hobjects]
    exact List.mem_filter.mpr ⟨h.allocated w hrefs, hmarked⟩
  · rw [hobjects]
    exact fun h0 => h.nonnull (List.mem_of_mem_filter h0)
  · intro w hw
    rw [hkept w hw, hobjects]
    unfold updateReference
    split
    · rename_i hmarked
      exact (h.targets w (List.mem_of_mem_filter hw)).imp_right fun ht =>
        List.mem_filter.mpr ⟨ht, hmarked⟩
    · exact Or.inl rfl
  · intro w hw
    rw [hcleared] at hw
    obtain hnew | hold := List.mem_append.mp hw
    · -- its pointer has changed, so it is a marked reference of the list
      obtain ⟨hzero, hne⟩ : t'.list.ptr w = 0 ∧ s.list.ptr w ≠ 0 := by
        simpa using (List.mem_filter.mp hnew).2
      have hin : w ∈ refs ∧ marked w = true := by
        by_contra hout
        rw [hptr w, if_neg hout] at hzero
        exact hne hzero
      exact ⟨List.mem_filter.mpr hin, hzero⟩
    · obtain ⟨hw, hmarked⟩ := List.mem_filter.mp hold
      obtain ⟨hrefs, hzero⟩ := h.cleared w hw
      have hin : w ∈ refs.filter marked := List.mem_filter.mpr ⟨hrefs, hmarked⟩
      refine ⟨hin, ?_⟩
      rw [hkept w hin, hzero]
      unfold updateReference
      split <;> rfl

theorem Reachable.inv {s : WeakRefs} (hs : weakRefs.Reachable s) : ∃ refs, s.Inv refs := by
  refine Machine.Reachable.invariant (P := fun s => ∃ refs, s.Inv refs) ?_ ?_ hs
  · rintro s rfl
    exact ⟨[], ⟨rfl, List.not_mem_nil⟩, List.nodup_nil, nofun, List.not_mem_nil, nofun, nofun⟩
  · rintro s e t ⟨refs, h⟩ hstep
    cases e with
    | allocate object =>
        obtain ⟨⟨hnull, -⟩, rfl⟩ := guard_eq_some.mp hstep
        exact ⟨refs, h.lists, h.nodup, fun w hw => List.mem_cons_of_mem _ (h.allocated w hw),
          by simpa [eq_comm] using ⟨hnull, h.nonnull⟩,
          fun w hw => (h.targets w hw).imp_right (List.mem_cons_of_mem _), h.cleared⟩
    | register weak target =>
        obtain ⟨⟨hnull, hfresh, htarget⟩, rfl⟩ := guard_eq_some.mp hstep
        exact ⟨weak :: refs, h.register hnull hfresh htarget⟩
    | collect marked => exact ⟨refs.filter marked, h.collect hstep⟩

theorem processed_iff {s : WeakRefs} (hs : weakRefs.Reachable s) (marked : Pointer → Bool) :
    (∀ w ∈ s.cleared, s.list.ptr w = 0) ∧
      ∃ refs t, s.list.Lists refs ∧ weakRefs.step s (.collect marked) = some t ∧
        (s.Processed refs marked t ↔ ∀ w ∈ refs, marked w = true → s.list.ptr w ≠ 0) := by
  obtain ⟨refs, h⟩ := Reachable.inv hs
  obtain ⟨t, hrun, hasked, -, hlists, hptr, -⟩ := h.collect_eq marked
  refine ⟨fun w hw => (h.cleared w hw).2, refs, t, h.lists, hrun, fun hp w hw hmarked hzero => ?_,
    fun hgood => ⟨hlists, fun w hw => ?_, fun p hp => ?_⟩⟩
  · -- the null target is asked about
    refine (hp.asked 0 ?_).1 rfl
    rw [hasked, List.mem_flatMap]
    exact ⟨w, hw, by simp [WeakList.asks, hmarked, hzero]⟩
  · rw [hptr w, if_pos (by simpa using hw)]
    rfl
  · rw [hasked] at hp
    obtain ⟨w, hw, hp⟩ := List.mem_flatMap.mp hp
    have hown : w ≠ 0 ∧ w ∈ s.objects :=
      ⟨fun h0 => h.lists.2 (h0 ▸ hw), h.allocated w hw⟩
    unfold WeakList.asks at hp
    split at hp
    · rename_i hmarked
      obtain rfl | rfl : p = w ∨ p = s.list.ptr w := by simpa using hp
      · exact hown
      · exact ⟨hgood w hw hmarked, (h.targets w hw).resolve_left (hgood w hw hmarked)⟩
    · obtain rfl : p = w := by simpa using hp
      exact hown

private def noRefs : WeakRefs := ⟨⟨0, fun _ => 0, fun _ => 0⟩, [], [], []⟩

-- Of three references the middle one dies and the newest one loses its target.
theorem processed_iff_unlinked :
    ∃ s t, weakRefs.Reachable s ∧ s.list.Lists [80, 48, 16] ∧
      weakRefs.step s (.collect fun p => p ∈ [80, 16, 32]) = some t ∧
      s.Processed [80, 48, 16] (fun p => p ∈ [80, 16, 32]) t ∧
      t.list.Lists [80, 16] ∧ t.list.ptr 80 = 0 ∧ t.list.ptr 16 = 32 := by
  have hrun : (weakRefs.run noRefs [.allocate 32, .register 16 32, .register 48 32, .allocate 96,
      .register 80 96]).map (fun s => [s.list.head, s.list.next 80, s.list.next 48, s.list.next 16,
        s.list.ptr 80, s.list.ptr 16]) = some [80, 48, 16, 0, 96, 32] := by
    decide
  obtain ⟨s, hs, hlist⟩ := Option.map_eq_some_iff.mp hrun
  simp only [List.cons.injEq] at hlist
  obtain ⟨hhead, h80, h48, h16, hptr80, hptr16, _⟩ := hlist
  have hreach := Machine.run_reachable (Machine.Via.init (m := weakRefs) rfl) hs
  have hlists : s.list.Lists [80, 48, 16] := ⟨⟨hhead, h80, h48, h16⟩, by decide⟩
  obtain ⟨_, refs, t, hrefs, hstep, hprocessed⟩ :=
    processed_iff hreach fun p => p ∈ [80, 16, 32]
  obtain rfl : refs = [80, 48, 16] := hrefs.1.unique hlists.1 hrefs.2 hlists.2
  have hp := hprocessed.mpr (by simp [hptr80, hptr16])
  refine ⟨s, t, hreach, hlists, hstep, hp, hp.listed, ?_, ?_⟩
  · rw [hp.targets 80 (by decide), hptr80]
    rfl
  · rw [hp.targets 16 (by decide), hptr16]
    rfl

-- The reference 16 loses its target in the first cycle; the second one asks
-- about the null pointer.
theorem cleared_reference_asks_null : ∃ s, weakRefs.Reachable s ∧ 0 ∈ s.asked := by
  have hrun : (weakRefs.run noRefs [.allocate 32, .register 16 32, .collect fun p => p = 16,
      .collect fun p => p = 16]).map (·.asked) = some [16, 0] := by decide
  obtain ⟨s, hs, hasked⟩ := Option.map_eq_some_iff.mp hrun
  refine ⟨s, Machine.run_reachable (Machine.Via.init (m := weakRefs) rfl) hs, ?_⟩
  rw [hasked]
  decide

end WeakRefs

end Rsgc.System
