import Mathlib.Logic.Function.Basic
import Rsgc.Lib.Except
import Rsgc.System.Header

namespace Rsgc.Collection

open Rsgc.System (HEADER_SIZE)

-- Where a barrier call stops: at the assertion of the flush, or in the recursion.
inductive BarrierStop
  | notInHeap
  | recursion
deriving DecidableEq, Repr

-- `index` counts down; the entries are those from it to the size of the buffer.
structure LocalSSB where
  index : Nat
  buf : Nat → Nat

def LocalSSB.tryEnqueue (q : LocalSSB) (obj : Nat) : Option LocalSSB :=
  if q.index = 0 then none
  else some ⟨q.index - 1, Function.update q.buf (q.index - 1) obj⟩

def LocalSSB.setIndex (q : LocalSSB) (index : Nat) : LocalSSB := { q with index := index }

-- What the barrier of a thread sees, and the objects that were pushed to the injector.
structure BarrierState where
  cmInProgress : Bool
  satbMarkQueue : LocalSSB
  marked : Nat → Bool
  injector : List Nat

variable {size : Nat} {isIn : Nat → Bool} {s t : BarrierState} {obj : Nat} {l : List Nat}

-- One round of the flush: only what is not marked is pushed.
def pushUnmarked (isIn marked : Nat → Bool) (injector : List Nat) (obj : Nat) :
    Except BarrierStop (List Nat) := do
  ensure (isIn obj = true) BarrierStop.notInHeap
  pure (if marked obj then injector else injector ++ [obj])

def flushSsb (size : Nat) (isIn : Nat → Bool) (s : BarrierState) :
    Except BarrierStop BarrierState := do
  let q := s.satbMarkQueue
  let entries := (List.range' q.index (size - q.index)).map q.buf
  let injector ← entries.foldlM (pushUnmarked isIn s.marked) s.injector
  pure { s with injector := injector, satbMarkQueue := q.setIndex size }

-- `raw` is the barrier with the filter.
def slowWriteBarrier (size : Nat) (isIn : Nat → Bool)
    (raw : BarrierState → Nat → Except BarrierStop BarrierState) (s : BarrierState) (obj : Nat) :
    Except BarrierStop BarrierState := do
  let s ← flushSsb size isIn s
  raw s obj

-- With `gc-satb`; `fuel` bounds the depth of the recursion through the slow path.
def rawWriteBarrier (size : Nat) (isIn : Nat → Bool) :
    Nat → Bool → BarrierState → Nat → Except BarrierStop BarrierState
  | 0, _, _, _ => throw BarrierStop.recursion
  | fuel + 1, filterSatb, s, obj =>
      if s.cmInProgress then
        if filterSatb && !s.marked obj then
          match s.satbMarkQueue.tryEnqueue obj with
          | some q => pure { s with satbMarkQueue := q }
          | none => slowWriteBarrier size isIn (rawWriteBarrier size isIn fuel true) s obj
        else pure s
      else pure s

def writeBarrier (size : Nat) (isIn : Nat → Bool) (fuel : Nat) (s : BarrierState) (handle : Nat) :
    Except BarrierStop BarrierState :=
  rawWriteBarrier size isIn fuel true s (handle - HEADER_SIZE)

def writeBarrierNoFilter (size : Nat) (isIn : Nat → Bool) (fuel : Nat) (s : BarrierState)
    (handle : Nat) : Except BarrierStop BarrierState :=
  rawWriteBarrier size isIn fuel false s (handle - HEADER_SIZE)

-- A thread as `register` leaves it.
def registered (size : Nat) (cmInProgress : Bool) (buf : Nat → Nat) (marked : Nat → Bool) :
    BarrierState :=
  ⟨cmInProgress, ⟨size, buf⟩, marked, []⟩

-- What happens to a thread: a barrier call, an object that the marker marks behind
-- its back, and `toggle_write_barrier`.
inductive BarrierEvent
  | barrier (handle : Nat)
  | mark (obj : Nat)
  | toggle (value : Bool)
deriving DecidableEq, Repr

def barrierStep (barrier : BarrierState → Nat → Except BarrierStop BarrierState)
    (s : BarrierState) : BarrierEvent → Except BarrierStop BarrierState
  | .barrier handle => barrier s handle
  | .mark obj => pure { s with marked := Function.update s.marked obj true }
  | .toggle value => pure { s with cmInProgress := value }

-- The calls of a run with one of the barriers, and the flush at its end.
def runBarriers (size : Nat) (isIn : Nat → Bool)
    (barrier : BarrierState → Nat → Except BarrierStop BarrierState) (s : BarrierState)
    (events : List BarrierEvent) : Except BarrierStop BarrierState := do
  let s ← events.foldlM (barrierStep barrier) s
  flushSsb size isIn s

section Passed

-- The marks at the end of the events.
def marksAfter (marked : Nat → Bool) : List BarrierEvent → Nat → Bool
  | [] => marked
  | .mark obj :: rest => marksAfter (Function.update marked obj true) rest
  | .barrier _ :: rest | .toggle _ :: rest => marksAfter marked rest

-- The objects that are passed to the barrier, not marked, while marking is in progress.
def passed (cmInProgress : Bool) (marked : Nat → Bool) : List BarrierEvent → List Nat
  | [] => []
  | .barrier handle :: rest =>
      (if cmInProgress && !marked (handle - HEADER_SIZE) then [handle - HEADER_SIZE] else []) ++
        passed cmInProgress marked rest
  | .mark obj :: rest => passed cmInProgress (Function.update marked obj true) rest
  | .toggle value :: rest => passed value marked rest

end Passed

section Filtered

def Buffered (size : Nat) (s : BarrierState) (obj : Nat) : Prop :=
  ∃ i, s.satbMarkQueue.index ≤ i ∧ i < size ∧ s.satbMarkQueue.buf i = obj

-- The injector and the buffer hold of the objects in `l` all that are not marked, and
-- nothing else.
structure Tracks (size : Nat) (isIn : Nat → Bool) (s : BarrierState) (l : List Nat) : Prop where
  index_le : s.satbMarkQueue.index ≤ size
  in_heap : ∀ obj, Buffered size s obj → isIn obj = true
  sound : ∀ obj, obj ∈ s.injector ∨ Buffered size s obj → obj ∈ l
  complete : ∀ obj ∈ l, s.marked obj = false → obj ∈ s.injector ∨ Buffered size s obj

theorem foldlM_pushUnmarked (marked : Nat → Bool) (injector : List Nat) {entries : List Nat}
    (hin : ∀ obj ∈ entries, isIn obj = true) :
    entries.foldlM (pushUnmarked isIn marked) injector =
      .ok (injector ++ entries.filter fun obj => !marked obj) := by
  induction entries generalizing injector with
  | nil => rw [List.filter_nil, List.append_nil]; rfl
  | cons obj rest ih =>
      have hfirst : pushUnmarked isIn marked injector obj =
          .ok (if marked obj then injector else injector ++ [obj]) := by
        unfold pushUnmarked
        rw [Except.bind_eq_ok]
        exact ⟨(), Except.ensure_eq_ok.mpr (hin obj List.mem_cons_self), rfl⟩
      rw [List.foldlM_cons, hfirst, Except.ok_bind,
        ih _ fun other hother => hin other (List.mem_cons_of_mem obj hother)]
      cases hmark : marked obj <;> simp [hmark]

theorem mem_entries : obj ∈ (List.range' s.satbMarkQueue.index
    (size - s.satbMarkQueue.index)).map s.satbMarkQueue.buf ↔ Buffered size s obj := by
  unfold Buffered
  rw [List.mem_map]
  refine exists_congr fun i => ?_
  rw [List.mem_range'_1, and_assoc]
  refine and_congr_right fun hle => and_congr_left fun _ => ?_
  omega

-- The flush empties the buffer into the injector.
theorem Tracks.flush (h : Tracks size isIn s l) : ∃ t, flushSsb size isIn s = .ok t ∧
    Tracks size isIn t l ∧ t.cmInProgress = s.cmInProgress ∧ t.marked = s.marked ∧
      t.satbMarkQueue.index = size := by
  have hfold := foldlM_pushUnmarked s.marked s.injector
    fun obj hobj => h.in_heap obj (mem_entries.mp hobj)
  refine ⟨{ s with
    injector := s.injector ++ ((List.range' s.satbMarkQueue.index
      (size - s.satbMarkQueue.index)).map s.satbMarkQueue.buf).filter fun obj => !s.marked obj
    satbMarkQueue := s.satbMarkQueue.setIndex size }, ?_, ?_, rfl, rfl, rfl⟩
  · unfold flushSsb
    simp only [hfold, Except.ok_bind, Except.pure_eq_ok]
  · have hempty : ∀ (t : BarrierState) obj, t.satbMarkQueue.index = size →
        ¬Buffered size t obj := by
      rintro t obj hindex ⟨i, hl, hr, _⟩
      omega
    refine ⟨Nat.le_refl _, fun obj hobj => absurd hobj (hempty _ obj rfl), fun obj hobj => ?_,
      fun obj hobj hmark => Or.inl ?_⟩
    · have hmem := hobj.resolve_right (hempty _ obj rfl)
      rw [List.mem_append, List.mem_filter, mem_entries] at hmem
      exact h.sound obj (hmem.imp id And.left)
    · rw [List.mem_append, List.mem_filter, mem_entries]
      refine (h.complete obj hobj hmark).imp id fun hbuffered => ⟨hbuffered, ?_⟩
      simpa using hmark

theorem Tracks.enqueue (h : Tracks size isIn s l) (hpos : s.satbMarkQueue.index ≠ 0)
    (hin : isIn obj = true) : ∃ q, s.satbMarkQueue.tryEnqueue obj = some q ∧
      Tracks size isIn { s with satbMarkQueue := q } (l ++ [obj]) := by
  have hle := h.index_le
  refine ⟨_, if_neg hpos, ?_⟩
  have hbuffered : ∀ other, Buffered size { s with
      satbMarkQueue := ⟨s.satbMarkQueue.index - 1,
        Function.update s.satbMarkQueue.buf (s.satbMarkQueue.index - 1) obj⟩ } other ↔
      Buffered size s other ∨ other = obj := by
    intro other
    constructor
    · rintro ⟨i, hl, hr, hbuf⟩
      by_cases hnew : i = s.satbMarkQueue.index - 1
      · right
        rw [← hbuf, hnew]
        exact Function.update_self _ _ _
      · left
        refine ⟨i, by simp only at hl; omega, hr, ?_⟩
        rw [← hbuf]
        exact (Function.update_of_ne hnew _ _).symm
    · rintro (⟨i, hl, hr, hbuf⟩ | rfl)
      · refine ⟨i, by simp only; omega, hr, ?_⟩
        rw [← hbuf]
        exact Function.update_of_ne (by omega) _ _
      · exact ⟨s.satbMarkQueue.index - 1, Nat.le_refl _, by omega, Function.update_self _ _ _⟩
  refine ⟨by simp only; omega, fun other hother => ?_, fun other hother => ?_,
    fun other hother hmark => ?_⟩
  · rcases (hbuffered other).mp hother with hold | rfl
    · exact h.in_heap other hold
    · exact hin
  · rw [hbuffered, ← or_assoc] at hother
    rw [List.mem_append, List.mem_singleton]
    exact hother.imp (h.sound other) id
  · rw [hbuffered, ← or_assoc]
    rw [List.mem_append, List.mem_singleton] at hother
    exact hother.imp (fun hold => h.complete other hold hmark) id

theorem rawWriteBarrier_skip (hskip : (s.cmInProgress && !s.marked obj) = false) (fuel : Nat) :
    rawWriteBarrier size isIn (fuel + 1) true s obj = .ok s := by
  unfold rawWriteBarrier
  cases hprogress : s.cmInProgress
  · rfl
  · rw [hprogress, Bool.true_and] at hskip
    simp only [hskip, Bool.and_false, Bool.false_eq_true, if_false, if_true, Except.pure_eq_ok]

-- The filtered barrier takes one flush at most, if the buffer has room for an entry.
theorem Tracks.rawWriteBarrier (h : Tracks size isIn s l)
    (hsize : 0 < size ∨ (s.cmInProgress && !s.marked obj) = false) (hin : isIn obj = true) (fuel : Nat) :
    ∃ t, rawWriteBarrier size isIn (fuel + 2) true s obj = .ok t ∧
      Tracks size isIn t (l ++ if s.cmInProgress && !s.marked obj then [obj] else []) ∧
        t.cmInProgress = s.cmInProgress ∧ t.marked = s.marked := by
  by_cases hgo : s.cmInProgress = true ∧ s.marked obj = false
  · obtain ⟨hprogress, hmark⟩ := hgo
    unfold Collection.rawWriteBarrier
    simp only [hprogress, hmark, Bool.not_false, Bool.and_true, if_true]
    by_cases hfull : s.satbMarkQueue.index = 0
    · have hnone : s.satbMarkQueue.tryEnqueue obj = none := if_pos hfull
      obtain ⟨mid, hflush, hmid, hprogress', hmarked', hindex⟩ := h.flush
      have hroom : 0 < size := hsize.resolve_right (by rw [hprogress, hmark]; decide)
      obtain ⟨q, hsome, hq⟩ := hmid.enqueue (by omega) hin
      refine ⟨_, ?_, hq, hprogress'.trans hprogress, hmarked'⟩
      simp only [hnone]
      unfold slowWriteBarrier
      rw [hflush, Except.ok_bind]
      unfold Collection.rawWriteBarrier
      simp only [hprogress', hmarked', hprogress, hmark, Bool.not_false, Bool.and_true, if_true,
        hsome]
      rfl
    · obtain ⟨q, hsome, hq⟩ := h.enqueue hfull hin
      refine ⟨_, ?_, hq, hprogress, rfl⟩
      simp only [hsome, hprogress, Except.pure_eq_ok]
  · have hskip : (s.cmInProgress && !s.marked obj) = false := by
      rw [Bool.and_eq_false_imp]
      intro hprogress
      simpa [hprogress] using hgo
    refine ⟨s, rawWriteBarrier_skip hskip (fuel + 1), ?_, rfl, rfl⟩
    rw [hskip]
    simpa using h

-- A run of filtered calls ends, and loses nothing.
theorem Tracks.run {events : List BarrierEvent} (h : Tracks size isIn s l)
    (hsize : 0 < size ∨ passed s.cmInProgress s.marked events = [])
    (hin : ∀ handle, .barrier handle ∈ events → isIn (handle - HEADER_SIZE) = true) (fuel : Nat) :
    ∃ t, events.foldlM (barrierStep (writeBarrier size isIn (fuel + 2))) s = .ok t ∧
      Tracks size isIn t (l ++ passed s.cmInProgress s.marked events) ∧
        t.marked = marksAfter s.marked events := by
  induction events generalizing s l with
  | nil => exact ⟨s, rfl, by simpa [passed] using h, rfl⟩
  | cons e rest ih =>
      have hlater : ∀ handle, .barrier handle ∈ rest → isIn (handle - HEADER_SIZE) = true :=
        fun handle hmem => hin handle (List.mem_cons_of_mem e hmem)
      rw [List.foldlM_cons]
      cases e with
      | barrier handle =>
          unfold passed at hsize ⊢
          have hone : 0 < size ∨ (s.cmInProgress && !s.marked (handle - HEADER_SIZE)) = false := by
            refine hsize.imp id fun hnil => ?_
            by_contra hgo
            rw [if_pos (by simpa using hgo)] at hnil
            cases hnil
          obtain ⟨mid, hcall, hmid, hprogress, hmarked⟩ :=
            h.rawWriteBarrier hone (hin handle List.mem_cons_self) fuel
          have hrest : 0 < size ∨ passed mid.cmInProgress mid.marked rest = [] := by
            rw [hprogress, hmarked]
            exact hsize.imp id fun hnil => (List.append_eq_nil_iff.mp hnil).2
          obtain ⟨t, hrun, htracks, hmarks⟩ := ih hmid hrest hlater
          rw [hprogress, hmarked, List.append_assoc] at htracks
          rw [hmarked] at hmarks
          refine ⟨t, ?_, htracks, hmarks⟩
          rw [barrierStep, writeBarrier, hcall, Except.ok_bind]
          exact hrun
      | mark obj =>
          have hmid : Tracks size isIn { s with marked := Function.update s.marked obj true } l := by
            refine ⟨h.index_le, h.in_heap, h.sound, fun other hother hmark => ?_⟩
            refine h.complete other hother ?_
            simp only [Function.update_apply] at hmark
            by_cases hsame : other = obj
            · rw [if_pos hsame] at hmark
              cases hmark
            · rwa [if_neg hsame] at hmark
          exact ih hmid hsize hlater
      | toggle value =>
          have hmid : Tracks size isIn { s with cmInProgress := value } l :=
            ⟨h.index_le, h.in_heap, h.sound, h.complete⟩
          exact ih hmid hsize hlater

end Filtered

section Unfiltered

-- Without the filter a call does nothing at all.
theorem rawWriteBarrier_noFilter (fuel : Nat) :
    rawWriteBarrier size isIn (fuel + 1) false s obj = .ok s := by
  unfold rawWriteBarrier
  rw [Bool.false_and, if_neg Bool.false_ne_true, ite_self]
  rfl

theorem noFilter_run (events : List BarrierEvent) (s : BarrierState) (fuel : Nat) :
    ∃ t, events.foldlM (barrierStep (writeBarrierNoFilter size isIn (fuel + 1))) s = .ok t ∧
      t.satbMarkQueue = s.satbMarkQueue ∧ t.injector = s.injector := by
  induction events generalizing s with
  | nil => exact ⟨s, rfl, rfl, rfl⟩
  | cons e rest ih =>
      rw [List.foldlM_cons]
      cases e with
      | barrier handle =>
          rw [barrierStep, writeBarrierNoFilter, rawWriteBarrier_noFilter]
          exact ih s
      | mark obj => exact ih { s with marked := Function.update s.marked obj true }
      | toggle value => exact ih { s with cmInProgress := value }

-- Without fuel there is no run with a call in it.
theorem noFilter_fuel {fuel : Nat} {events : List BarrierEvent}
    (hrun : events.foldlM (barrierStep (writeBarrierNoFilter size isIn fuel)) s = .ok t) :
    events.foldlM (barrierStep (writeBarrierNoFilter size isIn (fuel + 1))) s = .ok t := by
  induction events generalizing s with
  | nil => exact hrun
  | cons e rest ih =>
      rw [List.foldlM_cons, Except.bind_eq_ok] at hrun ⊢
      obtain ⟨mid, hstep, hrest⟩ := hrun
      refine ⟨mid, ?_, ih hrest⟩
      cases e with
      | barrier handle =>
          have hcall : rawWriteBarrier size isIn fuel false s (handle - HEADER_SIZE) = .ok mid :=
            hstep
          cases fuel with
          | zero => exact absurd hcall Except.throw_ne_ok
          | succ fuel =>
              rw [rawWriteBarrier_noFilter] at hcall
              rw [barrierStep, writeBarrierNoFilter, rawWriteBarrier_noFilter, hcall]
      | mark obj => exact hstep
      | toggle value => exact hstep

-- With a buffer of size zero the slow path ends where it began.
theorem rawWriteBarrier_full (hindex : s.satbMarkQueue.index = 0) (hprogress : s.cmInProgress = true)
    (hmark : s.marked obj = false) (fuel : Nat) : rawWriteBarrier 0 isIn fuel true s obj ≠ .ok t := by
  induction fuel generalizing s with
  | zero => exact Except.throw_ne_ok
  | succ fuel ih =>
      have hnone : s.satbMarkQueue.tryEnqueue obj = none := if_pos hindex
      have hflush : flushSsb 0 isIn s =
          .ok { s with satbMarkQueue := s.satbMarkQueue.setIndex 0 } := by
        unfold flushSsb
        simp only [hindex, Nat.sub_zero, List.range'_zero, List.map_nil, List.foldlM_nil]
        rfl
      unfold rawWriteBarrier
      simp only [hprogress, hmark, Bool.not_false, Bool.and_true, if_true, hnone]
      unfold slowWriteBarrier
      rw [hflush, Except.ok_bind]
      exact ih rfl hprogress hmark

theorem zero_run {events : List BarrierEvent} {fuel : Nat} (hindex : s.satbMarkQueue.index = 0)
    (hrun : events.foldlM (barrierStep (writeBarrier 0 isIn fuel)) s = .ok t) :
    passed s.cmInProgress s.marked events = [] := by
  induction events generalizing s with
  | nil => rfl
  | cons e rest ih =>
      rw [List.foldlM_cons, Except.bind_eq_ok] at hrun
      obtain ⟨mid, hstep, hrest⟩ := hrun
      cases e with
      | barrier handle =>
          have hcall : rawWriteBarrier 0 isIn fuel true s (handle - HEADER_SIZE) = .ok mid := hstep
          have hskip : (s.cmInProgress && !s.marked (handle - HEADER_SIZE)) = false := by
            rw [Bool.and_eq_false_imp]
            intro hprogress
            rw [Bool.not_eq_false']
            by_contra hmark
            exact rawWriteBarrier_full hindex hprogress (by simpa using hmark) fuel hcall
          cases fuel with
          | zero => exact absurd hcall Except.throw_ne_ok
          | succ fuel =>
              rw [rawWriteBarrier_skip hskip fuel] at hcall
              obtain rfl := Except.ok.inj hcall
              unfold passed
              rw [hskip, if_neg Bool.false_ne_true, List.nil_append]
              exact ih hindex hrest
      | mark obj =>
          obtain rfl := Except.ok.inj hstep
          exact ih (s := { s with marked := Function.update s.marked obj true }) hindex hrest
      | toggle value =>
          obtain rfl := Except.ok.inj hstep
          exact ih (s := { s with cmInProgress := value }) hindex hrest

end Unfiltered

section Agree

variable {buf : Nat → Nat} {marked : Nat → Bool} {cmInProgress : Bool}
  {events : List BarrierEvent}

theorem registered_tracks : Tracks size isIn (registered size cmInProgress buf marked) [] := by
  have hempty : ∀ obj, ¬Buffered size (registered size cmInProgress buf marked) obj := by
    rintro obj ⟨i, hl, hr, _⟩
    exact absurd hr (Nat.not_lt.mpr hl)
  refine ⟨Nat.le_refl _, fun obj h => absurd h (hempty obj), fun obj h => ?_, fun obj h => ?_⟩
  · exact absurd (h.resolve_left List.not_mem_nil) (hempty obj)
  · cases h

-- With the filter, what reaches the marker of the unmarked objects is what was passed.
theorem writeBarrier_run
    (hsize : 0 < size ∨ passed cmInProgress marked events = [])
    (hin : ∀ handle, .barrier handle ∈ events → isIn (handle - HEADER_SIZE) = true) (fuel : Nat) :
    ∃ t, runBarriers size isIn (writeBarrier size isIn (fuel + 2))
        (registered size cmInProgress buf marked) events = .ok t ∧
      (∀ obj ∈ t.injector, obj ∈ passed cmInProgress marked events) ∧
      ∀ obj ∈ passed cmInProgress marked events, marksAfter marked events obj = false →
        obj ∈ t.injector := by
  obtain ⟨mid, hrun, hmid, hmarks⟩ := (registered_tracks).run hsize hin fuel
  obtain ⟨t, hflush, ht, _, hmarked, hindex⟩ := hmid.flush
  have hempty : ∀ obj, ¬Buffered size t obj := by
    rintro obj ⟨i, hl, hr, _⟩
    omega
  refine ⟨t, ?_, fun obj hobj => ht.sound obj (Or.inl hobj), fun obj hobj hmark => ?_⟩
  · unfold runBarriers
    rw [hrun, Except.ok_bind, hflush]
  · refine (ht.complete obj hobj ?_).resolve_right (hempty obj)
    rw [hmarked, hmarks]
    exact hmark

theorem writeBarrierNoFilter_run (size : Nat) (isIn : Nat → Bool) (cmInProgress : Bool)
    (buf : Nat → Nat) (marked : Nat → Bool) (events : List BarrierEvent) (fuel : Nat) :
    ∃ t, runBarriers size isIn (writeBarrierNoFilter size isIn (fuel + 1))
        (registered size cmInProgress buf marked) events = .ok t ∧ t.injector = [] := by
  obtain ⟨mid, hrun, hqueue, hinjector⟩ :=
    noFilter_run events (registered size cmInProgress buf marked) fuel
  have hnone : mid.satbMarkQueue.index = size := by
    rw [hqueue]
    rfl
  refine ⟨{ mid with satbMarkQueue := mid.satbMarkQueue.setIndex size }, ?_, hinjector⟩
  unfold runBarriers
  rw [hrun, Except.ok_bind]
  unfold flushSsb
  simp only [hnone, Nat.sub_self, List.range'_zero, List.map_nil, List.foldlM_nil]
  rfl

-- The run without the filter hands the marker nothing.
theorem writeBarrierNoFilter_hands {fuel : Nat}
    (hrun : runBarriers size isIn (writeBarrierNoFilter size isIn fuel)
      (registered size cmInProgress buf marked) events = .ok t) : t.injector = [] := by
  obtain ⟨mid, hcalls, hflush⟩ := Except.bind_eq_ok.mp hrun
  obtain ⟨last, hlast, hnil⟩ :=
    writeBarrierNoFilter_run size isIn cmInProgress buf marked events fuel
  unfold runBarriers at hlast
  rw [noFilter_fuel hcalls, Except.ok_bind, hflush] at hlast
  rwa [Except.ok.inj hlast]

-- Both runs end, and of the objects that are still unmarked both hand the marker
-- those that were passed to the barrier while it was marking.
def BarriersAgree (size : Nat) (isIn : Nat → Bool) (cmInProgress : Bool) (buf : Nat → Nat)
    (marked : Nat → Bool) (events : List BarrierEvent) : Prop :=
  ∃ fuel t t', runBarriers size isIn (writeBarrier size isIn fuel)
      (registered size cmInProgress buf marked) events = .ok t ∧
    runBarriers size isIn (writeBarrierNoFilter size isIn fuel)
      (registered size cmInProgress buf marked) events = .ok t' ∧
    ∀ obj, marksAfter marked events obj = false →
      (obj ∈ t.injector ↔ obj ∈ passed cmInProgress marked events) ∧
        (obj ∈ t'.injector ↔ obj ∈ passed cmInProgress marked events)

-- They agree only where no unmarked object has to be handed over.
theorem write_barriers_agree_iff
    (hin : ∀ handle, .barrier handle ∈ events → isIn (handle - HEADER_SIZE) = true) :
    BarriersAgree size isIn cmInProgress buf marked events ↔
      (∀ obj ∈ passed cmInProgress marked events, marksAfter marked events obj = true) ∧
        (size = 0 → passed cmInProgress marked events = []) := by
  constructor
  · rintro ⟨fuel, t, t', hrun, hrun', hsame⟩
    constructor
    · intro obj hobj
      by_contra hmark
      have hhanded := (hsame obj (by simpa using hmark)).2.mpr hobj
      rw [writeBarrierNoFilter_hands hrun'] at hhanded
      cases hhanded
    · rintro rfl
      unfold runBarriers at hrun
      rw [Except.bind_eq_ok] at hrun
      obtain ⟨mid, hcalls, _⟩ := hrun
      exact zero_run (s := registered 0 cmInProgress buf marked) rfl hcalls
  · rintro ⟨hmarked, hzero⟩
    have hsize : 0 < size ∨ passed cmInProgress marked events = [] := by
      rcases Nat.eq_zero_or_pos size with hnone | hpos
      · exact Or.inr (hzero hnone)
      · exact Or.inl hpos
    obtain ⟨t, hrun, hsound, _⟩ := writeBarrier_run hsize hin 0
    obtain ⟨t', hrun', hnil⟩ := writeBarrierNoFilter_run size isIn cmInProgress buf marked events 1
    have hnot : ∀ obj, marksAfter marked events obj = false →
        obj ∉ passed cmInProgress marked events := fun obj hmark hobj => by
      rw [hmarked obj hobj] at hmark
      cases hmark
    refine ⟨2, t, t', hrun, hrun', fun obj hmark => ⟨⟨hsound obj, ?_⟩, ?_⟩⟩
    · exact fun hobj => absurd hobj (hnot obj hmark)
    · rw [hnil]
      exact ⟨fun hobj => absurd hobj List.not_mem_nil, fun hobj => absurd hobj (hnot obj hmark)⟩

-- The one object that is passed to the barrier is marked before the flush.
theorem write_barriers_agree_iff_marked :
    BarriersAgree 1 (fun _ => true) true (fun _ => 0) (fun _ => false)
        [.barrier 4104, .mark 4096] ↔
      (∀ obj ∈ passed true (fun _ => false) [.barrier 4104, .mark 4096],
          marksAfter (fun _ => false) [.barrier 4104, .mark 4096] obj = true) ∧
        (1 = 0 → passed true (fun _ => false) [.barrier 4104, .mark 4096] = []) :=
  write_barriers_agree_iff fun _ _ => rfl

-- One call on an object that is not marked, with the default size of the buffer.
theorem no_filter_hands_nothing :
    ¬BarriersAgree 1024 (fun _ => true) true (fun _ => 0) (fun _ => false) [.barrier 4104] := by
  rintro ⟨fuel, t, t', _, hrun, hsame⟩
  have hpassed : 4096 ∈ passed true (fun _ => false) [.barrier 4104] := by decide
  have hhanded := (hsame 4096 rfl).2.mpr hpassed
  rw [writeBarrierNoFilter_hands hrun] at hhanded
  cases hhanded

end Agree

end Rsgc.Collection
