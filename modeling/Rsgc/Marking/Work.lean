import Rsgc.Lib.Tricolor
import Rsgc.Marking.ChunkedArray

namespace Rsgc.Marking

namespace Op

-- What an operation makes of the mark bits and which operations it leaves.
-- To push a task and to pop and begin it are one step here.
def step (graph : Graph) (marks : Nat → Bool) : Op → Option ((Nat → Bool) × List Op)
  | .scan obj part next stop =>
      if next < stop then
        some (marks, ((graph obj).ref ⟨part, next⟩).toList.map .visit ++
          [.scan obj part (next + 1) stop])
      else some (marks, [])
  | .visit ref =>
      if marks ref then some (marks, [])
      else some (Function.update marks ref true, [.push (.new ref false false)])
  | .push task => (doTask graph task).map fun ops => (marks, ops)
  | .spill _ => some (marks, [])

-- The slots that the operation will read, of those the iterators enumerate.
def Covers (graph : Graph) (obj : Nat) (slot : Slot) : Op → Prop
  | .scan o part next stop => o = obj ∧ part = slot.part ∧ next ≤ slot.index ∧ slot.index < stop
  | .push t =>
      t.obj = obj ∧ (t.isNotChunked = true ∨
        slot.part = .item ∧ t.Elements (slot.index / (graph obj).itemSlots))
  | _ => False

-- The objects that the operation, or what comes of it, will visit.
def Delivers (graph : Graph) (x : Nat) (op : Op) : Prop :=
  op = .visit x ∨ ∃ obj slot, op.Covers graph obj slot ∧ (graph obj).ref slot = some x

-- A chunk task whose bounds are right.
def Ok : Op → Prop
  | .push t => t.isNotChunked = true ∨ Sane t.obj t
  | _ => True

-- An array that `do_chunked_array_start` cuts up correctly is not longer.
def Short (graph : Graph) : Op → Prop
  | .push t => t.isNotChunked = true → (graph t.obj).iterateRange = true →
      (graph t.obj).length ≤ 2 ^ 30
  | _ => True

end Op

def Graph.Edge (graph : Graph) (a b : Nat) : Prop := ∃ slot, (graph a).ref slot = some b

def Graph.Reaches (graph : Graph) (roots : List Nat) (o : Nat) : Prop :=
  ∃ r ∈ roots, Relation.ReflTransGen graph.Edge r o

-- What the marking knows: `work` are the operations left.
def coloring (graph : Graph) (marks : Nat → Bool) (work : Op → Prop) : Coloring Nat where
  marked a := marks a = true
  source x := ∃ op, work op ∧ op.Delivers graph x
  edge := graph.Edge

theorem Object.traced_of_ref {o : Object} {slot : Slot} {x : Nat} (h : o.ref slot = some x) :
    o.Traced slot := by
  obtain ⟨entry, hentry, -⟩ := Option.map_eq_some_iff.mp h
  have heq : entry.1 = slot := by simpa using List.find?_some hentry
  exact heq ▸ o.traced entry (List.mem_of_find?_eq_some hentry)

theorem VarSize.itemSlots_pos {o : Object} {slot : Slot} (hs : o.Traced slot)
    (hitem : slot.part = .item) : 0 < o.itemSlots ∧ slot.index / o.itemSlots < o.length := by
  obtain ⟨part, index⟩ := slot
  obtain rfl : part = .item := hitem
  have hlt : index < o.length * o.itemSlots := hs.2
  have hpos : 0 < o.itemSlots := Nat.pos_of_ne_zero fun h => by simp [h] at hlt
  exact ⟨hpos, (Nat.div_lt_iff_lt_mul hpos).mpr hlt⟩

theorem handed_toList_pos {range : Option (Nat × Nat)} {i : Nat} :
    0 < handed range.toList i ↔ ∃ r ∈ range, r.1 ≤ i ∧ i < r.2 := by
  simp [handed, List.countP_pos_iff]

-- What the operations for an array read of its elements.
theorem ChunkWork.ops_covers {w : ChunkWork} {obj : Nat} {o : Object} {graph : Graph}
    (hgraph : graph obj = o) (hobj : ∀ t ∈ w.pushes, Sane obj t) {slot : Slot}
    (hpos : slot.part = .item → 0 < o.itemSlots) :
    (∃ op ∈ w.ops obj o, op.Covers graph obj slot) ↔
      slot.part = .item ∧ 0 < covering w.pushes (slot.index / o.itemSlots) +
        handed w.range.toList (slot.index / o.itemSlots) := by
  subst hgraph
  have hsum (a b : Nat) : 0 < a + b ↔ 0 < a ∨ 0 < b := by omega
  have hscan (r : Nat × Nat) (hitem : slot.part = .item) :
      r.1 * (graph obj).itemSlots ≤ slot.index ∧ slot.index < r.2 * (graph obj).itemSlots ↔
        r.1 ≤ slot.index / (graph obj).itemSlots ∧ slot.index / (graph obj).itemSlots < r.2 := by
    rw [Nat.le_div_iff_mul_le (hpos hitem), Nat.div_lt_iff_lt_mul (hpos hitem)]
  rw [hsum, covering_pos, handed_toList_pos]
  constructor
  · rintro ⟨op, hop, hcovers⟩
    rcases List.mem_append.mp hop with h | h
    · obtain ⟨t, ht, rfl⟩ := List.mem_map.mp h
      obtain ⟨-, hchunked | ⟨hitem, helem⟩⟩ := hcovers
      · rw [(hobj t ht).fits.isNotChunked] at hchunked
        cases hchunked
      · exact ⟨hitem, Or.inl ⟨t, ht, helem⟩⟩
    · obtain ⟨r, hr, rfl⟩ := List.mem_map.mp h
      obtain ⟨-, hpart, hle, hlt⟩ := hcovers
      exact ⟨hpart.symm, Or.inr ⟨r, by simpa using hr, (hscan r hpart.symm).mp ⟨hle, hlt⟩⟩⟩
  · rintro ⟨hitem, ⟨t, ht, helem⟩ | ⟨r, hr, hin⟩⟩
    · refine ⟨.push t, List.mem_append_left _ (List.mem_map_of_mem ht), (hobj t ht).obj_eq, ?_⟩
      exact Or.inr ⟨hitem, helem⟩
    · refine ⟨.scan obj .item (r.1 * (graph obj).itemSlots) (r.2 * (graph obj).itemSlots), ?_, ?_⟩
      · exact List.mem_append_right _ (List.mem_map.mpr ⟨r, by simpa using hr, rfl⟩)
      · exact ⟨rfl, hitem.symm, (hscan r hitem).mpr hin⟩

theorem chunkedArray_sane {t : MarkTask} (h : Sane t.obj t) :
    (∀ u ∈ (chunkedArray t.obj t.chunk t.pow).pushes, Sane t.obj u) ∧
      (∀ r ∈ (chunkedArray t.obj t.chunk t.pow).range, i32AsUsize r.1 = r.1 ∧
        i32AsUsize r.2 = r.2) ∧
      ∀ i, covering (chunkedArray t.obj t.chunk t.pow).pushes i +
        handed (chunkedArray t.obj t.chunk t.pow).range.toList i = if t.Elements i then 1 else 0 := by
  obtain ⟨w, hrun, hpushes, -, hcount⟩ := runChunk_sane h
  obtain ⟨hfit, hw⟩ := guard_eq_some.mp hrun
  subst hw
  exact ⟨hpushes, fun r hr => ⟨i32AsUsize_eq (hfit r hr).1, i32AsUsize_eq (hfit r hr).2⟩, hcount⟩

-- The operations on an array before they are put into the words of the source.
theorem doChunkedArray_eq {t : MarkTask} (h : Sane t.obj t) (o : Object) :
    doChunkedArray t.obj o t.chunk t.pow =
      ChunkWork.ops ⟨(chunkedArray t.obj t.chunk t.pow).pushes,
        if o.iterateRange then (chunkedArray t.obj t.chunk t.pow).range else none⟩ t.obj o := by
  obtain ⟨-, hfit, -⟩ := chunkedArray_sane h
  obtain ⟨h1, h2⟩ := hfit _ rfl
  simp only at h1 h2
  by_cases hiter : o.iterateRange
  · simp [doChunkedArray, chunkedArray, hiter, h1, h2]
  · simp [doChunkedArray, chunkedArray, hiter]

-- The operations of a task are about its object.
def Op.On (obj : Nat) : Op → Prop
  | .scan o _ _ _ => o = obj
  | .push t => t.obj = obj
  | _ => False

theorem Op.Covers.on {graph : Graph} {op : Op} {obj o : Nat} {slot : Slot} (hon : op.On obj)
    (h : op.Covers graph o slot) : o = obj := by
  cases op with
  | scan => exact h.1.symm.trans hon
  | push => exact h.1.symm.trans hon
  | visit | spill => cases hon

theorem ChunkWork.ops_on {w : ChunkWork} {obj : Nat} {o : Object}
    (hobj : ∀ t ∈ w.pushes, Sane obj t) : ∀ op ∈ w.ops obj o, op.Ok ∧ op.On obj := by
  intro op hop
  rcases List.mem_append.mp hop with h | h
  · obtain ⟨t, ht, rfl⟩ := List.mem_map.mp h
    have hsane := hobj t ht
    exact ⟨Or.inr (hsane.obj_eq ▸ hsane), hsane.obj_eq⟩
  · obtain ⟨r, -, rfl⟩ := List.mem_map.mp h
    exact ⟨trivial, rfl⟩

section

variable {graph : Graph} {t : MarkTask} {ops : List Op}

-- The three kinds of tasks: a plain object, the start of an array and a chunk.
theorem doTask_cases (h : doTask graph t = some ops) (hok : (Op.push t).Ok)
    (hshort : (Op.push t).Short graph) :
    (t.isNotChunked = true ∧ (graph t.obj).varsize = none ∧
      ops = if (graph t.obj).noHeapPtrs then [] else
        [.scan t.obj .field 0 (graph t.obj).fieldSlots]) ∨
    (t.isNotChunked = true ∧ (graph t.obj).varsize ≠ none ∧ ∃ w : ChunkWork,
      ops = .scan t.obj .field 0 (graph t.obj).fieldSlots :: w.ops t.obj (graph t.obj) ∧
      (∀ u ∈ w.pushes, Sane t.obj u) ∧ ((graph t.obj).iterateRange = true →
        ∀ i, covering w.pushes i + handed w.range.toList i =
          if i < (graph t.obj).length then 1 else 0)) ∨
    (t.isNotChunked = false ∧ ∃ w : ChunkWork, ops = w.ops t.obj (graph t.obj) ∧
      (∀ u ∈ w.pushes, Sane t.obj u) ∧ ((graph t.obj).iterateRange = true →
        ∀ i, covering w.pushes i + handed w.range.toList i =
          if t.Elements i then 1 else 0)) := by
  cases hchunked : t.isNotChunked with
  | true =>
      simp only [doTask, hchunked, if_true] at h
      by_cases hvar : (graph t.obj).varsize = none
      · rw [hvar] at h
        exact Or.inl ⟨rfl, hvar, (Option.some.inj h).symm⟩
      · rw [if_neg (by simpa using hvar)] at h
        refine Or.inr (Or.inl ⟨rfl, hvar, ?_⟩)
        unfold doChunkedArrayStart at h
        by_cases hiter : (graph t.obj).iterateRange = true
        · obtain ⟨w, hw, hsane, hcount⟩ :=
            chunkedArrayStart_short t.obj (hshort hchunked hiter)
          rw [if_pos hiter, hw] at h
          exact ⟨w, (Option.some.inj h).symm, hsane, fun _ => hcount⟩
        · rw [if_neg hiter] at h
          refine ⟨⟨[], none⟩, (Option.some.inj h).symm, by simp, ?_⟩
          exact fun hiter' => absurd hiter' hiter
  | false =>
      have hsane : Sane t.obj t := hok.resolve_left (by simp [hchunked])
      obtain ⟨hpushes, -, hcount⟩ := chunkedArray_sane hsane
      simp only [doTask, hchunked] at h
      obtain rfl := Option.some.inj h
      refine Or.inr (Or.inr ⟨rfl, _, doChunkedArray_eq hsane _, hpushes, ?_⟩)
      intro hiter
      simpa [hiter] using hcount

theorem doTask_ops (h : doTask graph t = some ops) (hok : (Op.push t).Ok)
    (hshort : (Op.push t).Short graph) : ∀ op ∈ ops, op.Ok ∧ op.On t.obj := by
  intro op hop
  rcases doTask_cases h hok hshort with ⟨-, -, rfl⟩ | ⟨-, -, w, rfl, hsane, -⟩ |
    ⟨-, w, rfl, hsane, -⟩
  · split at hop
    · cases hop
    · obtain rfl := List.mem_singleton.mp hop
      exact ⟨trivial, rfl⟩
  · rcases List.mem_cons.mp hop with rfl | hop
    · exact ⟨trivial, rfl⟩
    · exact ChunkWork.ops_on hsane op hop
  · exact ChunkWork.ops_on hsane op hop

-- To begin a task takes nothing from what it covers and adds nothing.
theorem doTask_covers (h : doTask graph t = some ops) (hok : (Op.push t).Ok)
    (hshort : (Op.push t).Short graph) {obj : Nat} {slot : Slot} (hs : (graph obj).Traced slot) :
    (∃ op ∈ ops, op.Covers graph obj slot) ↔ (Op.push t).Covers graph obj slot := by
  by_cases hobj : t.obj = obj
  · subst hobj
    have hpos (hitem : slot.part = .item) := VarSize.itemSlots_pos hs hitem
    have hcovers (w : ChunkWork) (hsane : ∀ u ∈ w.pushes, Sane t.obj u) :
        (∃ op ∈ w.ops t.obj (graph t.obj), op.Covers graph t.obj slot) ↔ _ :=
      ChunkWork.ops_covers rfl hsane fun hitem => (hpos hitem).1
    obtain ⟨part, index⟩ := slot
    cases part with
    | field =>
        have hlt : index < (graph t.obj).fieldSlots := hs.1
        rcases doTask_cases h hok hshort with ⟨hnot, hvar, rfl⟩ | ⟨hnot, -, w, rfl, hsane, -⟩ |
          ⟨hnot, w, rfl, hsane, -⟩
        · rw [if_neg (by simp [hs.2 hvar])]
          simp [Op.Covers, hlt, hnot]
        · simp [Op.Covers, hlt, hnot]
        · rw [hcovers w hsane]
          simp [Op.Covers, hnot]
    | item =>
        have hiter : (graph t.obj).iterateRange = true := hs.1
        rcases doTask_cases h hok hshort with ⟨-, hvar, rfl⟩ |
          ⟨hnot, -, w, rfl, hsane, hcount⟩ | ⟨hnot, w, rfl, hsane, hcount⟩
        · simp [Shape.iterateRange, hvar] at hiter
        · have hin := hcount hiter (index / (graph t.obj).itemSlots)
          rw [if_pos (hpos rfl).2] at hin
          have hw := (hcovers w hsane).mpr ⟨rfl, by rw [hin]; exact Nat.one_pos⟩
          obtain ⟨op, hop, hc⟩ := hw
          exact ⟨fun _ => ⟨rfl, Or.inl hnot⟩, fun _ => ⟨op, List.mem_cons_of_mem _ hop, hc⟩⟩
        · rw [hcovers w hsane, hcount hiter]
          by_cases helem : t.Elements (index / (graph t.obj).itemSlots) <;>
            simp [Op.Covers, hnot, helem]
  · refine ⟨?_, fun hc => absurd hc.1 hobj⟩
    rintro ⟨op, hop, hc⟩
    exact absurd (hc.on (doTask_ops h hok hshort op hop).2).symm hobj

end

namespace Op

variable {graph : Graph} {marks marks' : Nat → Bool} {op : Op} {ops : List Op}

-- All the operations of a step: only a visit touches the marks.
theorem step_marks (h : op.step graph marks = some (marks', ops)) (a : Nat) :
    marks' a = true ↔ marks a = true ∨ op = .visit a := by
  cases op with
  | scan obj part next stop =>
      simp only [step] at h
      split at h <;> obtain ⟨rfl, rfl⟩ := Prod.mk.inj (Option.some.inj h) <;> simp
  | visit ref =>
      simp only [step] at h
      split at h <;> rename_i href <;> obtain ⟨rfl, rfl⟩ := Prod.mk.inj (Option.some.inj h)
      · simp only [visit.injEq]
        exact ⟨Or.inl, fun ha => ha.elim id fun ha => ha ▸ href⟩
      · by_cases ha : a = ref
        · simp [ha]
        · simp [Function.update_of_ne ha, Ne.symm ha]
  | push task =>
      obtain ⟨_, -, heq⟩ := Option.map_eq_some_iff.mp h
      obtain ⟨rfl, -⟩ := Prod.mk.inj heq
      simp
  | spill target =>
      obtain ⟨rfl, -⟩ := Prod.mk.inj (Option.some.inj h)
      simp

theorem step_ok (h : op.step graph marks = some (marks', ops)) (hok : op.Ok)
    (hshort : op.Short graph) : ∀ o ∈ ops, o.Ok := by
  intro o ho
  cases op with
  | scan obj part next stop =>
      simp only [step] at h
      split at h <;> obtain ⟨-, rfl⟩ := Prod.mk.inj (Option.some.inj h)
      · rcases List.mem_append.mp ho with ho | ho
        · obtain ⟨r, -, rfl⟩ := List.mem_map.mp ho
          trivial
        · obtain rfl := List.mem_singleton.mp ho
          trivial
      · cases ho
  | visit ref =>
      simp only [step] at h
      split at h <;> obtain ⟨-, rfl⟩ := Prod.mk.inj (Option.some.inj h)
      · cases ho
      · obtain rfl := List.mem_singleton.mp ho
        exact Or.inl rfl
  | push task =>
      obtain ⟨_, hops, heq⟩ := Option.map_eq_some_iff.mp h
      obtain ⟨-, rfl⟩ := Prod.mk.inj heq
      exact (doTask_ops hops hok hshort o ho).1
  | spill target =>
      obtain ⟨-, rfl⟩ := Prod.mk.inj (Option.some.inj h)
      cases ho

-- A slot that was to be read is read by the step or still is to be read.
theorem step_covers (h : op.step graph marks = some (marks', ops)) (hok : op.Ok)
    (hshort : op.Short graph) {obj : Nat} {slot : Slot} (hs : (graph obj).Traced slot)
    (hc : op.Covers graph obj slot) :
    (∃ stop, op = .scan obj slot.part slot.index stop) ∨ ∃ o ∈ ops, o.Covers graph obj slot := by
  cases op with
  | scan o part next stop =>
      obtain ⟨rfl, rfl, hle, hlt⟩ := hc
      simp only [step] at h
      rw [if_pos (by omega)] at h
      obtain ⟨-, rfl⟩ := Prod.mk.inj (Option.some.inj h)
      by_cases heq : next = slot.index
      · exact Or.inl ⟨stop, by rw [heq]⟩
      · refine Or.inr ⟨_, List.mem_append_right _ (List.mem_singleton_self _), rfl, rfl, ?_, hlt⟩
        omega
  | visit ref => cases hc
  | push task =>
      obtain ⟨_, hops, heq⟩ := Option.map_eq_some_iff.mp h
      obtain ⟨-, rfl⟩ := Prod.mk.inj heq
      exact Or.inr ((doTask_covers hops hok hshort hs).mpr hc)
  | spill target => cases hc

-- What was to be visited is marked by the step or still is to be visited.
theorem step_delivers (h : op.step graph marks = some (marks', ops)) (hok : op.Ok)
    (hshort : op.Short graph) {x : Nat} (hx : op.Delivers graph x) :
    marks' x = true ∨ ∃ o ∈ ops, o.Delivers graph x := by
  rcases hx with rfl | ⟨obj, slot, hc, href⟩
  · exact Or.inl ((step_marks h x).mpr (Or.inr rfl))
  · rcases step_covers h hok hshort (Object.traced_of_ref href) hc with ⟨stop, rfl⟩ | ⟨o, ho, hco⟩
    · have hlt : slot.index < stop := hc.2.2.2
      simp only [step] at h
      rw [if_pos hlt, href] at h
      obtain ⟨-, rfl⟩ := Prod.mk.inj (Option.some.inj h)
      exact Or.inr ⟨.visit x, by simp, Or.inl rfl⟩
    · exact Or.inr ⟨o, ho, Or.inr ⟨obj, slot, hco, href⟩⟩

-- What the step leaves to be visited was so before, or a visited object refers
-- to it.
theorem delivers_of_step (h : op.step graph marks = some (marks', ops)) (hok : op.Ok)
    (hshort : op.Short graph) {x : Nat} {o : Op} (ho : o ∈ ops) (hx : o.Delivers graph x) :
    op.Delivers graph x ∨ ∃ ref, op = .visit ref ∧ marks ref = false ∧ graph.Edge ref x := by
  cases op with
  | scan obj part next stop =>
      simp only [step] at h
      split at h <;> rename_i hlt <;> obtain ⟨-, rfl⟩ := Prod.mk.inj (Option.some.inj h)
      · rcases List.mem_append.mp ho with ho | ho
        · obtain ⟨r, hr, rfl⟩ := List.mem_map.mp ho
          rcases hx with hx | ⟨_, _, hc, -⟩
          · obtain rfl := visit.inj hx
            exact Or.inl (Or.inr ⟨obj, ⟨part, next⟩, ⟨rfl, rfl, le_rfl, hlt⟩, by simpa using hr⟩)
          · cases hc
        · obtain rfl := List.mem_singleton.mp ho
          rcases hx with hx | ⟨obj', slot, ⟨rfl, rfl, hle, hlt'⟩, href⟩
          · cases hx
          · exact Or.inl (Or.inr ⟨_, slot, ⟨rfl, rfl, Nat.le_of_succ_le hle, hlt'⟩, href⟩)
      · cases ho
  | visit ref =>
      simp only [step] at h
      split at h <;> rename_i hmark <;> obtain ⟨-, rfl⟩ := Prod.mk.inj (Option.some.inj h)
      · cases ho
      · obtain rfl := List.mem_singleton.mp ho
        rcases hx with hx | ⟨obj, slot, ⟨rfl, -⟩, href⟩
        · cases hx
        · exact Or.inr ⟨ref, rfl, by simpa using hmark, slot, href⟩
  | push task =>
      obtain ⟨_, hops, heq⟩ := Option.map_eq_some_iff.mp h
      obtain ⟨-, rfl⟩ := Prod.mk.inj heq
      rcases hx with rfl | ⟨obj, slot, hc, href⟩
      · exact absurd (doTask_ops hops hok hshort _ ho).2 id
      · have hs := Object.traced_of_ref href
        exact Or.inl (Or.inr ⟨obj, slot, (doTask_covers hops hok hshort hs).mp ⟨o, ho, hc⟩, href⟩)
  | spill target =>
      obtain ⟨-, rfl⟩ := Prod.mk.inj (Option.some.inj h)
      cases ho

variable {work work' : Op → Prop}

-- A step of the marking is an advance of the colours.
theorem step_advances (h : op.step graph marks = some (marks', ops)) (hok : op.Ok)
    (hshort : op.Short graph) (hkeep : ∀ o, work o → o = op ∨ work' o)
    (hnew : ∀ o ∈ ops, work' o) :
    (coloring graph marks work).Advances (coloring graph marks' work') where
  marked a ha := (step_marks h a).mpr (Or.inl ha)
  source := by
    rintro x ⟨o, ho, hx⟩ -
    rcases hkeep o ho with rfl | ho
    · rcases step_delivers h hok hshort hx with hm | ⟨o', ho', hx'⟩
      · exact Or.inl hm
      · exact Coloring.Safe.of_source ⟨o', hnew o' ho', hx'⟩
    · exact Coloring.Safe.of_source ⟨o, ho, hx⟩
  edge := by
    rintro a b ⟨hab, hb⟩ ha
    by_cases hva : op = .visit a
    · -- The task for `a` covers all its slots.
      subst hva
      simp only [step] at h
      rw [if_neg (show ¬marks a = true from ha)] at h
      obtain ⟨-, rfl⟩ := Prod.mk.inj (Option.some.inj h)
      obtain ⟨slot, href⟩ := hab
      refine Or.inl (Coloring.Safe.of_source ⟨_, hnew _ (List.mem_singleton_self _), ?_⟩)
      exact Or.inr ⟨a, slot, ⟨rfl, Or.inl rfl⟩, href⟩
    · exact Or.inr ⟨fun hm => ((step_marks h a).mp hm).elim ha hva, hab⟩

theorem safe_of_step (h : op.step graph marks = some (marks', ops)) (hok : op.Ok)
    (hshort : op.Short graph) (hop : work op) (hback : ∀ o, work' o → work o ∨ o ∈ ops) {w : Nat}
    (hw : (coloring graph marks' work').Safe w) : (coloring graph marks work).Safe w := by
  have hvisit (r : Nat) (hr : op = .visit r) : (coloring graph marks work).Safe r :=
    Coloring.Safe.of_source ⟨op, hop, Or.inl hr⟩
  have hmarked (a : Nat) (ha : (coloring graph marks work).marked a) :
      (coloring graph marks' work').marked a := (step_marks h a).mpr (Or.inl ha)
  refine Coloring.Safe.of_advance hmarked (fun a ha => ?_) ?_ (fun _ _ hab => hab) hw
  · exact ((step_marks h a).mp ha).elim Or.inl (hvisit a)
  · rintro x ⟨o, ho, hx⟩
    rcases hback o ho with ho | ho
    · exact Coloring.Safe.of_source ⟨o, ho, hx⟩
    · rcases delivers_of_step h hok hshort ho hx with hx | ⟨r, hr, hwhite, hedge⟩
      · exact Coloring.Safe.of_source ⟨op, hop, hx⟩
      · by_cases hmark : marks x = true
        · exact Or.inl hmark
        · have hprot := (hvisit r hr).resolve_left (by simp [coloring, hwhite])
          exact Or.inr (hprot.tail ⟨hedge, hmark⟩)

end Op

end Rsgc.Marking
