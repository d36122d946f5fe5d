import Rsgc.Sync.Monitor.Steps

namespace Rsgc.Sync

-- What a thread does within the code. No call begins, and no deadline comes.
def MonitorEvent.IsInternal {τ : Type*} : MonitorEvent τ → Prop
  | step .. | requeue .. => True
  | _ => False

namespace Monitor

variable {τ : Type*} [DecidableEq τ] {s u : Monitor τ} {t v : τ}

-- At any time one thread at most has the mutex, and one has it exactly where the bit is
-- set. A mutex that is handed over is that of the thread that has been unparked.
theorem exclusive (h : (monitor τ).Reachable s) :
    (∀ t u, s.Owns t → s.Owns u → t = u) ∧ (isLocked s.state = true ↔ ∃ t, s.Owns t) :=
  ⟨fun _ _ => (inv_of_reachable h).owner_unique, (inv_of_reachable h).locked_iff⟩

-- The first thread has the mutex while the second one is parked.
theorem exclusive_parked :
    ∃ s : Monitor (Fin 2), (monitor (Fin 2)).Reachable s ∧ s.slot 1 = .atMutex ∧
      isLocked s.state = true ∧ ∀ t, s.Owns t → t = 0 := by
  have hrun : ((monitor (Fin 2)).run
      ⟨0#8, false, [], [], none, fun _ => .idle, fun _ => .running, fun _ => false⟩
      [.lock 0, .step 0 true, .lock 1, .step 1 true, .step 1 true, .step 1 true,
        .step 1 true]).map (fun s => (s.code 0, s.slot 1)) = some (.holding, .atMutex) := by decide
  obtain ⟨s, hs, hr⟩ := Option.map_eq_some_iff.mp hrun
  obtain ⟨hcode, hslot⟩ := Prod.mk.inj hr
  have hreach := Machine.run_reachable (Machine.Via.init rfl) hs
  have howns : s.Owns 0 := Or.inl (by rw [hcode]; rfl)
  obtain ⟨hunique, hlocked⟩ := exclusive hreach
  exact ⟨s, hreach, hslot, hlocked.mpr ⟨0, howns⟩, fun t ht => hunique t 0 ht howns⟩

-- Steps within the code lead to a state in which the thread has the mutex.
inductive Acquires : Monitor τ → τ → Prop
  | done {s : Monitor τ} {t : τ} (hc : s.code t = .holding) : Acquires s t
  | step {s u : Monitor τ} {t : τ} {e : MonitorEvent τ} (he : e.IsInternal)
      (hstep : s.step e = some u) (h : Acquires u t) : Acquires s t

theorem goto_self (s : Monitor τ) (t : τ) (c : Code) : (s.goto t c).code t = c :=
  Function.update_self ..

theorem lockLoop_of_unlocked {state : BitVec 8} (h : isLocked state = false) :
    Code.lockLoop state = .slow state := by
  simp [Code.lockLoop, h]

-- The value that it has read is the state still, and the exchange succeeds.
theorem acquires_of_slow (hfree : isLocked s.state = false) (hc : s.code t = .slow s.state) :
    s.Acquires t := by
  apply Acquires.step (e := .step t true) trivial
    (u := { s.goto t .holding with state := s.state ||| LOCKED_BIT })
  · simp [Monitor.step, stepCode, hc, hfree, exchange, goto]
  · exact .done (goto_self s t .holding)

theorem acquires_of_lockLoop (hfree : isLocked s.state = false) :
    (s.goto t (.lockLoop s.state)).Acquires t := by
  refine acquires_of_slow (s := s.goto t (.lockLoop s.state)) hfree ?_
  rw [goto_self, lockLoop_of_unlocked hfree]
  rfl

theorem acquires_of_reloading (hfree : isLocked s.state = false) (hc : s.code t = .reloading) :
    s.Acquires t := by
  apply Acquires.step (e := .step t true) trivial _ (acquires_of_lockLoop hfree)
  simp [Monitor.step, stepCode, hc]

theorem acquires_of_locking (hfree : isLocked s.state = false) (hc : s.code t = .locking) :
    s.Acquires t := by
  apply Acquires.step (e := .step t false) trivial (u := s.goto t .reloading)
  · simp [Monitor.step, stepCode, hc, exchange]
  · exact acquires_of_reloading hfree (goto_self ..)

theorem acquires_of_seeks (hfree : isLocked s.state = false) (hq : s.queueLock = none)
    (hc : (s.code t).seeks = true) : s.Acquires t := by
  cases h : s.code t with
  | locking => exact acquires_of_locking hfree h
  | reloading => exact acquires_of_reloading hfree h
  | slow state =>
      apply Acquires.step (e := .step t false) trivial _ (acquires_of_lockLoop hfree)
      simp [Monitor.step, stepCode, h, exchange]
  | parking =>
      -- the mutex is free, and so the validation fails
      have hs : s.state ≠ LOCKED_BIT ||| PARKED_BIT := by
        rintro heq
        rw [heq] at hfree
        simp [isLocked, LOCKED_BIT, PARKED_BIT] at hfree
      apply Acquires.step (e := .step t true) trivial (u := s.goto t .reloading)
      · simp [Monitor.step, stepCode, h, hq, parkMutex, hs]
      · exact acquires_of_reloading hfree (goto_self ..)
  | _ => simp [h, Code.seeks] at hc

theorem acquires_of_busy (hfree : isLocked s.state = false) (hq : s.queueLock = none)
    (hbusy : s.Busy t) : s.Acquires t := by
  rcases hbusy with hseeks | ⟨hsleeps, hslot⟩
  · exact acquires_of_seeks hfree hq hseeks
  · cases hc : s.code t with
    | parked =>
        apply Acquires.step (e := .step t true) trivial
          (u := (s.goto t .reloading).setSlot t .running)
        · simp [Monitor.step, stepCode, hc, wake, hslot]
        · exact acquires_of_reloading hfree (goto_self ..)
    | waiting timed =>
        apply Acquires.step (e := .step t true) trivial
          (u := { (s.goto t .locking).setSlot t .running with
            timedOut := Function.update s.timedOut t false })
        · simp [Monitor.step, stepCode, hc, wake, hslot]
        · exact acquires_of_locking hfree (goto_self ..)
    | _ => simp [hc, Code.sleeps] at hsleeps

-- A step of another thread that leaves the queues unlocked
theorem acquires_of_step {e : MonitorEvent τ} (hstep : s.step e = some u) (he : e.IsInternal)
    (hfree : isLocked u.state = false) (hq : u.queueLock = none) (hcode : u.code t = s.code t)
    (hslot : u.slot t = s.slot t) (hbusy : s.Busy t) : s.Acquires t := by
  apply Acquires.step he hstep
  apply acquires_of_busy hfree hq
  rw [Busy, hcode, hslot]
  exact hbusy

omit [DecidableEq τ] in
theorem Busy.ne (hbusy : s.Busy t) (hqueues : (s.code v).inQueues ≠ none) : t ≠ v := by
  rintro rfl
  rcases hbusy with hseeks | ⟨hsleeps, -⟩
  · exact hqueues (Code.free_of_seeks (Or.inl hseeks)).2.1
  · exact hqueues (Code.of_sleeps hsleeps).2.2.1

-- The end of a notification that has found the mutex free
theorem Inv.acquires_of_requeueing (h : s.Inv) (hfree : isLocked s.state = false)
    (hbusy : s.Busy t) {op : Notify} {held : Bool} (hc : s.code v = .requeueing op held false) :
    s.Acquires t := by
  have hne : t ≠ v := hbusy.ne (by simp [hc, Code.inQueues])
  have hcode : (s.goto v (.after held)).code t = s.code t := Function.update_of_ne hne ..
  cases hq : s.condQueue with
  | nil =>
      have hstep : s.step (.requeue v none) = some { s.goto v (.after held) with
          queueLock := none
          condState := if op = .one then false else s.condState } := by
        simp only [Monitor.step, Monitor.stepRequeue, hc, hq, if_true]
      exact acquires_of_step hstep trivial hfree rfl hcode rfl hbusy
  | cons w rest =>
      have hw : w ∈ s.condQueue := by simp [hq]
      have hout : t ∉ s.condQueue := fun hmem => by
        have hplace := (h.condQueue.mem_iff t).mp hmem
        have hwaits := Code.waits_of_fits (hplace ▸ h.fits t)
        rcases hbusy with hseeks | ⟨-, hslot⟩
        · have := Code.free_of_seeks (Or.inl hseeks)
          simp [hwaits] at this
        · simp [hplace] at hslot
      have hnew : t ≠ w := fun heq => hout (heq ▸ hw)
      obtain ⟨owner, p, hstate, -⟩ := h.owned
      cases op with
      | one =>
          have hstep : s.step (.requeue v (some w)) =
              some { (s.requeueOne w false).goto v (.after held) with queueLock := none } := by
            simp only [Monitor.step, Monitor.stepRequeue, hc, hw, if_true]
          apply acquires_of_step hstep trivial hfree rfl hcode _ hbusy
          exact Function.update_of_ne hnew ..
      | all =>
          have hstep : s.step (.requeue v (some w)) =
              some { (s.requeueAll w false).goto v (.after held) with queueLock := none } := by
            simp only [Monitor.step, Monitor.stepRequeue, hc, hw, if_true]
          apply acquires_of_step hstep trivial _ rfl hcode _ hbusy
          · rw [hstate, isLocked_word] at hfree
            simp only [requeueAll, goto]
            split_ifs <;> simp [hstate, PARKED_BIT_eq_word, hfree]
          · have hrest : t ∉ s.condQueue.erase w := fun hmem => hout (List.mem_of_mem_erase hmem)
            simp [requeueAll, goto, hout, hrest]

theorem Inv.acquires_of_marking (h : s.Inv) (hfree : isLocked s.state = false)
    (hbusy : s.Busy t) (op : Notify) (held : Bool) (hne : t ≠ v)
    (hstep : s.step (.step v false) = some (s.goto v (.markLoop op held s.state))) :
    s.Acquires t := by
  have hloop : Code.markLoop op held s.state = .requeueing op held false := by
    simp [Code.markLoop, hfree]
  rw [hloop] at hstep
  have hbusy' : (s.goto v (.requeueing op held false)).Busy t := by
    simpa [Busy, goto, hne] using hbusy
  apply Acquires.step (e := .step v false) trivial hstep
  exact (h.step hstep).acquires_of_requeueing hfree hbusy' (goto_self ..)

theorem acquires_of_free (h : (monitor τ).Reachable s) (hfree : isLocked s.state = false)
    (hwants : s.slot t = .atMutex ∨ s.Busy t) : ∃ u, s.Acquires u := by
  have hinv := inv_of_reachable h
  obtain ⟨u, hbusy⟩ : ∃ u, s.Busy u := by
    rcases hwants with hslot | hbusy
    · have hmem := (hinv.mutexQueue.mem_iff t).mpr hslot
      rcases hinv.busy (List.ne_nil_of_mem hmem) with hl | hex
      · simp [hfree] at hl
      · exact hex
    · exact ⟨t, hbusy⟩
  refine ⟨u, ?_⟩
  cases hq : s.queueLock with
  | none => exact acquires_of_busy hfree hq hbusy
  | some v =>
      have hqueues := (hinv.queueLock v).mpr hq
      cases hc : s.code v with
      | marking op held =>
          apply hinv.acquires_of_marking hfree hbusy op held (hbusy.ne hqueues)
          simp [Monitor.step, Monitor.stepCode, hc]
      | marked op held state =>
          apply hinv.acquires_of_marking hfree hbusy op held (hbusy.ne hqueues)
          simp [Monitor.step, Monitor.stepCode, hc, exchange]
      | requeueing op held locked =>
          cases locked with
          | false => exact hinv.acquires_of_requeueing hfree hbusy hc
          | true =>
              have hl := (hinv.marked v (by simp [hc, Code.hasMarked])).1
              simp [hfree] at hl
      | _ => simp [hc, Code.inQueues] at hqueues

-- No thread waits in vain for the mutex. For a parked one the bit is set, so that whoever
-- has the mutex will look into the queue; and where nobody has it, steps of the threads
-- that are in the code already lead to a state in which one of them does.
theorem not_forgotten (h : (monitor τ).Reachable s) (hwants : s.slot t = .atMutex ∨ s.Busy t) :
    (s.slot t = .atMutex → isParked s.state = true) ∧
      (isLocked s.state = true ∨ ∃ u, s.Acquires u) := by
  have hinv := inv_of_reachable h
  constructor
  · intro hslot
    exact hinv.parked (List.ne_nil_of_mem ((hinv.mutexQueue.mem_iff t).mpr hslot))
  · cases hl : isLocked s.state with
    | true => exact Or.inl rfl
    | false => exact Or.inr (acquires_of_free h hl hwants)

-- The first thread has unlocked the mutex and unparked the second one.
theorem not_forgotten_unparked :
    ∃ s : Monitor (Fin 2), (monitor (Fin 2)).Reachable s ∧ s.code 1 = .parked ∧
      isLocked s.state = false ∧ ∃ t, s.Acquires t := by
  have hrun : ((monitor (Fin 2)).run
      ⟨0#8, false, [], [], none, fun _ => .idle, fun _ => .running, fun _ => false⟩
      [.lock 0, .step 0 true, .lock 1, .step 1 true, .step 1 true, .step 1 true, .step 1 true,
        .unlock 0 false, .unpark 0 (some 1) false]).map
        (fun s => (s.state, s.code 1, s.slot 1)) = some (0#8, .parked, .unparked false) := by decide
  obtain ⟨s, hs, hr⟩ := Option.map_eq_some_iff.mp hrun
  obtain ⟨hstate, hr⟩ := Prod.mk.inj hr
  obtain ⟨hcode, hslot⟩ := Prod.mk.inj hr
  have hreach := Machine.run_reachable (Machine.Via.init rfl) hs
  have hfree : isLocked s.state = false := by rw [hstate]; rfl
  obtain ⟨-, hl | hex⟩ := not_forgotten hreach (t := 1) (Or.inr (Or.inr ⟨by rw [hcode]; rfl, hslot⟩))
  · simp [hfree] at hl
  · exact ⟨s, hreach, hcode, hfree, hex⟩

end Monitor

end Rsgc.Sync
