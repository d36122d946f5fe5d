import Rsgc.Sync.Monitor.Invariant

namespace Rsgc.Sync

namespace Code

theorem inQueues_of_hasMarked {c : Code} (h : c.hasMarked = true) : c.inQueues ≠ none := by
  cases c <;> simp_all [hasMarked, inQueues]

-- What locks the mutex had it not before.
theorem free_of_seeks {c : Code} (h : c.seeks = true ∨ ∃ state, c = .trying state) :
    c.holds = false ∧ c.inQueues = none ∧ c.waits = false ∧ ∀ slot, c.Fits slot → slot = .running := by
  cases c <;> simp_all [seeks, holds, inQueues, waits, Fits]

theorem of_sleeps {c : Code} (h : c.sleeps = true) :
    c.holds = false ∧ c.seeks = false ∧ c.inQueues = none ∧ c.hasMarked = false := by
  cases c <;> simp_all [sleeps, holds, seeks, inQueues, hasMarked]

theorem fits_unparked {c : Code} (h : c.sleeps = true) (handoff : Bool) :
    c.Fits (.unparked handoff) := by
  cases c <;> simp_all [sleeps, Fits]

-- Who is in the queue of the mutex sleeps, or unlocks it before the sleep.
theorem of_fits_atMutex {c : Code} (h : c.Fits .atMutex) :
    c.sleeps = true ∨ c.holds = true ∧ c.waits = true := by
  cases c with
  | parked | waiting timed | beforeSleep timed => simp [sleeps, holds, waits]
  | unlockSlow forceFair next => cases next <;> simp_all [Fits, holds, waits]
  | _ => simp_all [Fits]

-- Who is in the queue of the condition variable waits.
theorem waits_of_fits {c : Code} (h : c.Fits .atCondvar) : c.waits = true := by
  cases c with
  | unlockSlow forceFair next => cases next <;> simp_all [Fits, waits]
  | _ => simp_all [Fits, waits]

theorem fits_of_waits {c : Code} (h : c.waits = true) {slot : Slot} (hslot : slot ≠ .running)
    (hfair : slot ≠ .unparked true) : c.Fits slot := by
  cases c with
  | unlockSlow forceFair next => cases next <;> simp_all [Fits, waits]
  | _ => simp_all [Fits, waits]

theorem holds_or_sleeps {c : Code} (h : c.waits = true) : c.holds = true ∨ c.sleeps = true := by
  cases c <;> simp_all [waits, holds, sleeps]

theorem resumed_spec (forceFair : Bool) (next : Resume) :
    (resumed next).holds = false ∧ (resumed next).inQueues = none ∧
      (resumed next).hasMarked = false ∧
      (resumed next).waits = (unlockSlow forceFair next).waits ∧
      ∀ slot, (unlockSlow forceFair next).Fits slot → (resumed next).Fits slot := by
  cases next with
  | leave => simp [resumed, holds, inQueues, hasMarked, waits, Fits]
  | relock => simp [resumed, holds, inQueues, hasMarked, waits, Fits]
  | sleep timed =>
      simp only [resumed, holds, inQueues, hasMarked, waits, Fits, true_and]
      exact fun slot h => h.1

theorem unlockSlow_fits {forceFair : Bool} {next : Resume} {slot : Slot}
    (h : (unlockSlow forceFair next).Fits slot) : slot ≠ .unparked true := by
  cases next <;> simp_all [Fits]

theorem resumed_sleeps {forceFair : Bool} {next : Resume}
    (h : (unlockSlow forceFair next).waits = true) : (resumed next).sleeps = true := by
  cases next <;> simp_all [waits, resumed, sleeps]

theorem after_spec (held : Bool) :
    (after held).holds = held ∧ (after held).inQueues = none ∧ (after held).hasMarked = false ∧
      (after held).waits = false ∧ (after held).Fits .running := by
  cases held <;> simp [after, holds, inQueues, hasMarked, waits, Fits]

theorem lockLoop_spec (state : BitVec 8) :
    (lockLoop state).kind = reloading.kind ∧ (lockLoop state).hasMarked ≠ true ∧
      (lockLoop state).seeks = true ∧ ∀ slot, (lockLoop state).Fits slot ↔ slot = .running := by
  unfold lockLoop
  split_ifs <;> simp [kind, holds, inQueues, waits, sleeps, hasMarked, seeks, Fits]

theorem markLoop_spec (op : Notify) (held : Bool) (state : BitVec 8) :
    (markLoop op held state).kind = (marking op held).kind ∧
      (markLoop op held state).hasMarked ≠ true ∧ (markLoop op held state).seeks = false ∧
      ∀ slot, slot = .running → (markLoop op held state).Fits slot := by
  unfold markLoop
  split_ifs with h <;> cases held <;>
    simp [kind, holds, inQueues, waits, sleeps, hasMarked, seeks, Fits, h]

theorem after_kind (op : Notify) (held : Bool) :
    (after held).kind = (notifying op held).kind ∧ (after held).hasMarked ≠ true ∧
      ∀ slot, slot = .running → (after held).Fits slot := by
  cases held <;> simp [after, kind, holds, inQueues, waits, sleeps, hasMarked, Fits]

end Code

namespace Monitor

variable {τ : Type*} [DecidableEq τ] {s : Monitor τ} {t : τ}

-- A step within the code of one thread, without the parking lot and the state.
theorem Inv.moves (h : s.Inv) {c c' : Code} (hc : s.code t = c) (hkind : c'.kind = c.kind)
    (hmarked : c'.hasMarked = true → isLocked s.state = true ∧ isParked s.state = true)
    (hseeks : c.seeks = true → c'.seeks = true)
    (hfits : c.Fits (s.slot t) → c'.Fits (s.slot t)) : (s.goto t c').Inv := by
  subst hc
  simp only [Code.kind, Prod.mk.injEq] at hkind
  obtain ⟨hholds, hqueues, hwaits, hsleeps⟩ := hkind
  obtain ⟨⟨owner, p, hw, ho⟩, hmutex, hcond, hfit, hparked, hbusy, hlock, hstate, hmark⟩ := h
  constructor
  case owned =>
    refine ⟨owner, p, hw, fun v => ?_⟩
    simp only [goto, Owns, Function.update_apply] at ho ⊢
    grind
  case mutexQueue => exact hmutex
  case condQueue => exact hcond
  case parked => exact hparked
  all_goals simp only [goto, Busy, Function.update_apply] at *
  all_goals grind

theorem Inv.acquire (h : s.Inv) (hl : isLocked s.state = false)
    (hc : (s.code t).seeks = true ∨ ∃ state, s.code t = .trying state) :
    Inv { s.goto t .holding with state := s.state ||| LOCKED_BIT } := by
  obtain ⟨hholds, hqueues, hwaits, hrunning⟩ := Code.free_of_seeks hc
  have hslot := hrunning _ (h.fits t)
  obtain ⟨⟨owner, p, hw, ho⟩, hmutex, hcond, hfit, hparked, hbusy, hlock, hstate, hmark⟩ := h
  rw [hw, isLocked_word] at hl
  rw [Option.isSome_eq_false_iff, Option.isNone_iff_eq_none] at hl
  subst hl
  constructor
  case owned =>
    refine ⟨some t, p, by simp [hw, LOCKED_BIT_eq_word], fun v => ?_⟩
    simp only [goto, Owns, Function.update_apply] at ho ⊢
    grind [Code.holds]
  case mutexQueue => exact hmutex
  case condQueue => exact hcond
  all_goals
    simp only [goto, Busy, Function.update_apply, hw, LOCKED_BIT_eq_word, word_or, isLocked_word,
      isParked_word] at *
  all_goals grind [Code.Fits, Code.inQueues, Code.waits, Code.hasMarked]

omit [DecidableEq τ] in
-- A thread that has found the mutex locked has set the other bit.
theorem Inv.setParked (h : s.Inv) : Inv { s with state := s.state ||| PARKED_BIT } := by
  obtain ⟨⟨owner, p, hw, ho⟩, hmutex, hcond, hfit, hparked, hbusy, hlock, hstate, hmark⟩ := h
  constructor
  case owned => exact ⟨owner, true, by simp [hw, PARKED_BIT_eq_word], ho⟩
  case mutexQueue => exact hmutex
  case condQueue => exact hcond
  all_goals
    simp only [Busy, hw, PARKED_BIT_eq_word, word_or, isLocked_word, isParked_word] at *
  all_goals grind

-- With nothing else in the state nobody is parked, and there is nobody to wake.
theorem Inv.release (h : s.Inv) (hs : s.state = LOCKED_BIT) {c : Code}
    (hc : s.code t = .holding ∧ c = .idle ∨
      ∃ timed, s.code t = .beforeSleep timed ∧ c = .waiting timed) :
    Inv { s.goto t c with state := 0#8 } := by
  obtain ⟨⟨owner, p, hw, ho⟩, hmutex, hcond, hfit, hparked, hbusy, hlock, hstate, hmark⟩ := h
  have hp : p = false := by
    rw [hs, LOCKED_BIT_eq_word, word_inj] at hw
    exact hw.2.symm
  subst hp
  constructor
  case owned =>
    refine ⟨none, false, zero_eq_word, fun v => ?_⟩
    simp only [goto, Owns, Function.update_apply] at ho ⊢
    grind [Code.holds, Code.Fits]
  case mutexQueue => exact hmutex
  case condQueue => exact hcond
  all_goals
    simp only [goto, Busy, Function.update_apply, hs, zero_eq_word, LOCKED_BIT_eq_word,
      isLocked_word, isParked_word] at *
  all_goals grind [Code.Fits, Code.inQueues, Code.waits, Code.hasMarked]

theorem Inv.parksMutex (h : s.Inv) (hc : s.code t = .parking)
    (hs : s.state = LOCKED_BIT ||| PARKED_BIT) :
    Inv { (s.goto t .parked).setSlot t .atMutex with mutexQueue := s.mutexQueue ++ [t] } := by
  have hslot : s.slot t = .running := by simpa [hc, Code.Fits] using h.fits t
  obtain ⟨⟨owner, p, hw, ho⟩, hmutex, hcond, hfit, hparked, hbusy, hlock, hstate, hmark⟩ := h
  constructor
  case owned =>
    refine ⟨owner, p, hw, fun v => ?_⟩
    simp only [goto, setSlot, Owns, Function.update_apply] at ho ⊢
    grind [Code.holds]
  case mutexQueue => exact hmutex.enqueue (by simp [hslot])
  case condQueue => exact hcond.move (by simp [hslot]) (by decide)
  all_goals
    simp only [goto, setSlot, Busy, Function.update_apply, hs, PARKED_BIT_eq_word,
      LOCKED_BIT_eq_word, word_or, isLocked_word, isParked_word] at *
  all_goals grind [Code.Fits, Code.inQueues, Code.waits, Code.hasMarked]

theorem Inv.parksCondvar (h : s.Inv) (hc : s.code t = .holding) (timed : Bool) :
    (s.parkCondvar t timed).Inv := by
  have hslot : s.slot t = .running := by simpa [hc, Code.Fits] using h.fits t
  obtain ⟨⟨owner, p, hw, ho⟩, hmutex, hcond, hfit, hparked, hbusy, hlock, hstate, hmark⟩ := h
  constructor
  case owned =>
    refine ⟨owner, p, hw, fun v => ?_⟩
    simp only [parkCondvar, goto, setSlot, Owns, Function.update_apply] at ho ⊢
    grind [Code.holds]
  case mutexQueue => exact hmutex.move (by simp [hslot]) (by decide)
  case condQueue => exact hcond.enqueue (by simp [hslot])
  all_goals simp only [parkCondvar, goto, setSlot, Busy, Function.update_apply] at *
  all_goals grind [Code.Fits, Code.inQueues, Code.waits, Code.hasMarked, Code.seeks, Code.sleeps]

-- The thread finds that the mutex is its own.
theorem Inv.handedOver (h : s.Inv) (hslot : s.slot t = .unparked true)
    (hc : (s.code t).sleeps = true) (timedOut : τ → Bool) :
    Inv { (s.goto t .holding).setSlot t .running with timedOut := timedOut } := by
  obtain ⟨hholds, hseek, hqueues, hmarked⟩ := Code.of_sleeps hc
  obtain ⟨⟨owner, p, hw, ho⟩, hmutex, hcond, hfit, hparked, hbusy, hlock, hstate, hmark⟩ := h
  constructor
  case owned =>
    refine ⟨owner, p, hw, fun v => ?_⟩
    simp only [goto, setSlot, Owns, Function.update_apply] at ho ⊢
    grind [Code.holds]
  case mutexQueue => exact hmutex.move (by simp [hslot]) (by decide)
  case condQueue => exact hcond.move (by simp [hslot]) (by decide)
  all_goals simp only [goto, setSlot, Busy, Function.update_apply] at *
  all_goals grind [Code.Fits, Code.inQueues, Code.waits, Code.hasMarked]

-- The thread that has been unparked, or whose deadline has come, goes for the mutex.
theorem Inv.awakes (h : s.Inv) (hslot : s.slot t = .unparked false) {c : Code}
    (hc : (s.code t).sleeps = true) (hseeks : c = .reloading ∨ c = .locking)
    (timedOut : τ → Bool) :
    Inv { (s.goto t c).setSlot t .running with timedOut := timedOut } := by
  obtain ⟨hholds, hseek, hqueues, hmarked⟩ := Code.of_sleeps hc
  obtain ⟨⟨owner, p, hw, ho⟩, hmutex, hcond, hfit, hparked, hbusy, hlock, hstate, hmark⟩ := h
  constructor
  case owned =>
    refine ⟨owner, p, hw, fun v => ?_⟩
    simp only [goto, setSlot, Owns, Function.update_apply] at ho ⊢
    grind [Code.holds, Code.sleeps]
  case mutexQueue => exact hmutex.move (by simp [hslot]) (by decide)
  case condQueue => exact hcond.move (by simp [hslot]) (by decide)
  all_goals simp only [goto, setSlot, Busy, Function.update_apply] at *
  all_goals grind [Code.Fits, Code.inQueues, Code.waits, Code.hasMarked, Code.seeks]

theorem Inv.locksQueues (h : s.Inv) {op : Notify} {held : Bool} (hq : s.queueLock = none)
    (hc : s.code t = .notifying op held) :
    Inv { s.goto t (.marking op held) with
      queueLock := some t
      condState := if op = .all then false else s.condState } := by
  obtain ⟨⟨owner, p, hw, ho⟩, hmutex, hcond, hfit, hparked, hbusy, hlock, hstate, hmark⟩ := h
  constructor
  case owned =>
    refine ⟨owner, p, hw, fun v => ?_⟩
    simp only [goto, Owns, Function.update_apply] at ho ⊢
    cases held <;> grind [Code.holds]
  case mutexQueue => exact hmutex
  case condQueue => exact hcond
  all_goals simp only [goto, Busy, Function.update_apply] at *
  all_goals grind [Code.Fits, Code.inQueues, Code.waits, Code.hasMarked, Code.seeks, Code.sleeps]

-- `unlock_slow` that finds nobody in the queue
theorem Inv.unlocks (h : s.Inv) {forceFair : Bool} {next : Resume}
    (hc : s.code t = .unlockSlow forceFair next) (hq : s.queueLock = none)
    (hempty : s.mutexQueue = []) :
    Inv { s.goto t (.resumed next) with state := 0#8 } := by
  obtain ⟨hholds, hqueues, hmarked, hwaits, hfits⟩ := Code.resumed_spec forceFair next
  have hmine := h.fits t
  rw [hc] at hmine
  have hslot := hfits _ hmine
  obtain ⟨⟨owner, p, hw, ho⟩, hmutex, hcond, hfit, hparked, hbusy, hlock, hstate, hmark⟩ := h
  have hunmarked : ∀ v, (s.code v).hasMarked = false := fun v => by
    have := hlock v
    grind [Code.inQueues_of_hasMarked]
  constructor
  case owned =>
    refine ⟨none, false, zero_eq_word, fun v => ?_⟩
    have hfair := Code.unlockSlow_fits hmine
    simp only [goto, Owns, Function.update_apply] at ho ⊢
    grind [Code.holds]
  case mutexQueue => exact hmutex
  case condQueue => exact hcond
  all_goals simp only [goto, Busy, Function.update_apply] at *
  all_goals grind [Code.inQueues, Code.hasMarked]

-- A thread in the queue of the mutex sleeps when another or itself has unlocked it.
theorem Inv.sleeps_of_mem (h : s.Inv) {forceFair : Bool} {next : Resume}
    (hc : s.code t = .unlockSlow forceFair next) {u : τ} (hu : u ∈ s.mutexQueue) :
    ((s.goto t (.resumed next)).code u).sleeps = true := by
  have hwas := (h.mutexQueue.mem_iff u).mp hu
  have hcases := Code.of_fits_atMutex (hwas ▸ h.fits u)
  simp only [goto, Function.update_apply]
  split_ifs with htu
  · subst htu
    rw [hc] at hcases
    exact Code.resumed_sleeps (hcases.resolve_left (by simp [Code.sleeps])).2
  · refine hcases.resolve_right fun hholds => htu ?_
    exact h.owner_unique (Or.inl hholds.1) (Or.inl (by rw [hc]; rfl))

-- It wakes a thread from the queue, and the mutex is handed over or free.
theorem Inv.unparks (h : s.Inv) {forceFair : Bool} {next : Resume}
    (hc : s.code t = .unlockSlow forceFair next) (hq : s.queueLock = none) {u : τ}
    (hu : u ∈ s.mutexQueue) (fair : Bool) :
    Inv { (s.goto t (.resumed next)).setSlot u (.unparked fair) with
      mutexQueue := s.mutexQueue.erase u
      state := if fair then if s.mutexQueue.erase u = [] then LOCKED_BIT else s.state
        else if s.mutexQueue.erase u = [] then 0#8 else PARKED_BIT } := by
  obtain ⟨hholds, hqueues, hmarked, hwaits, hfits⟩ := Code.resumed_spec forceFair next
  have hmine := h.fits t
  rw [hc] at hmine
  have hslot := hfits _ hmine
  have hwas := (h.mutexQueue.mem_iff u).mp hu
  have hsleeps := h.sleeps_of_mem hc hu
  obtain ⟨⟨owner, p, hw, ho⟩, hmutex, hcond, hfit, hparked, hbusy, hlock, hstate, hmark⟩ := h
  have hunmarked : ∀ v, (s.code v).hasMarked = false := fun v => by
    have := hlock v
    grind [Code.inQueues_of_hasMarked]
  have howner : owner = some t := (ho t).mp (Or.inl (by simp [hc, Code.holds]))
  have hp : p = true := by
    have := hparked (List.ne_nil_of_mem hu)
    simpa [hw] using this
  subst howner hp
  have hfair := Code.unlockSlow_fits hmine
  constructor
  case owned =>
    refine ⟨if fair then some u else none, decide (s.mutexQueue.erase u ≠ []), ?_, fun v => ?_⟩
    · cases fair <;> by_cases he : s.mutexQueue.erase u = [] <;>
        simp [he, hw, zero_eq_word, LOCKED_BIT_eq_word, PARKED_BIT_eq_word]
    · simp only [goto, setSlot, Owns, Function.update_apply] at ho ⊢
      cases fair <;> grind [Code.holds]
  case mutexQueue => exact hmutex.dequeue (by simp)
  case condQueue => exact hcond.move (by simp [hwas]) (by simp)
  all_goals simp only [goto, setSlot, Busy, Function.update_apply] at *
  case fits => grind [Code.fits_unparked]
  case parked => cases fair <;> grind [isParked_word, PARKED_BIT_eq_word]
  case busy => cases fair <;> grind [isLocked_word, zero_eq_word, PARKED_BIT_eq_word]
  all_goals grind [Code.inQueues, Code.hasMarked, Code.Fits]

-- A notification that finds nobody in the queue
theorem Inv.requeuesNone (h : s.Inv) {op : Notify} {held locked : Bool}
    (hc : s.code t = .requeueing op held locked) (hempty : s.condQueue = []) (condState : Bool) :
    Inv { s.goto t (.after held) with queueLock := none, condState := condState } := by
  obtain ⟨hholds, hqueues, hmarked, hwaits, hfits⟩ := Code.after_spec held
  obtain ⟨⟨owner, p, hw, ho⟩, hmutex, hcond, hfit, hparked, hbusy, hlock, hstate, hmark⟩ := h
  constructor
  case owned =>
    refine ⟨owner, p, hw, fun v => ?_⟩
    simp only [goto, Owns, Function.update_apply] at ho ⊢
    cases held <;> grind [Code.holds]
  case mutexQueue => exact hmutex
  case condQueue => exact hcond
  all_goals simp only [goto, Busy, Function.update_apply] at *
  all_goals grind [Code.Fits, Code.inQueues, Code.waits, Code.seeks, Code.sleeps]

theorem Inv.requeuesOne (h : s.Inv) {held locked : Bool}
    (hc : s.code t = .requeueing .one held locked) {u : τ} (hu : u ∈ s.condQueue) :
    Inv { (s.requeueOne u locked).goto t (.after held) with queueLock := none } := by
  obtain ⟨hholds, hqueues, hmarked, hwaits, hfits⟩ := Code.after_spec held
  have hwas := (h.condQueue.mem_iff u).mp hu
  have huwaits := Code.waits_of_fits (hwas ▸ h.fits u)
  obtain ⟨⟨owner, p, hw, ho⟩, hmutex, hcond, hfit, hparked, hbusy, hlock, hstate, hmark⟩ := h
  -- no other thread is in a notification
  have hnonnull : s.condState = true := by
    rcases hstate (List.ne_nil_of_mem hu) with hs | ⟨v, hv⟩
    · exact hs
    · have hmine := (hlock t).mp (by simp [hc, Code.inQueues])
      have hother := (hlock v).mp (by simp [hv])
      obtain rfl : t = v := Option.some.inj (hmine.symm.trans hother)
      simp [hc, Code.inQueues] at hv
  constructor
  case owned =>
    refine ⟨owner, p, hw, fun v => ?_⟩
    simp only [requeueOne, goto, setSlot, Owns, Function.update_apply] at ho ⊢
    cases held <;> cases locked <;> grind [Code.holds]
  case mutexQueue =>
    cases locked with
    | false => exact hmutex.move (by simp [hwas]) (by simp)
    | true => exact hmutex.enqueue (by simp [hwas])
  case condQueue => exact hcond.dequeue (by cases locked <;> simp)
  case condState =>
    intro hne
    exact Or.inl (by simp only [requeueOne, goto] at hne ⊢; rw [if_neg hne, hnonnull])
  all_goals simp only [requeueOne, goto, setSlot, Busy, Function.update_apply] at *
  all_goals
    cases locked <;>
      grind [Code.Fits, Code.fits_of_waits, Code.inQueues, Code.waits, Code.seeks, Code.sleeps,
        Code.hasMarked]

theorem Inv.requeuesAll (h : s.Inv) {held locked : Bool}
    (hc : s.code t = .requeueing .all held locked) {u : τ} (hu : u ∈ s.condQueue) :
    Inv { (s.requeueAll u locked).goto t (.after held) with queueLock := none } := by
  obtain ⟨hholds, hqueues, hmarked, hwaits, hfits⟩ := Code.after_spec held
  have hwas : ∀ v ∈ s.condQueue, s.slot v = .atCondvar ∧ (s.code v).waits = true := fun v hv => by
    have hslot := (h.condQueue.mem_iff v).mp hv
    exact ⟨hslot, Code.waits_of_fits (hslot ▸ h.fits v)⟩
  obtain ⟨⟨owner, p, hw, ho⟩, hmutex, hcond, hfit, hparked, hbusy, hlock, hstate, hmark⟩ := h
  have ht : t ∉ s.condQueue := fun hmem => by
    have hwaiting := (hwas t hmem).2
    simp [hc, Code.waits] at hwaiting
  constructor
  case owned =>
    refine ⟨owner, p || !locked && decide (s.condQueue.erase u ≠ []), ?_, fun v => ?_⟩
    · cases locked with
      | true => simpa [requeueAll, goto] using hw
      | false =>
          by_cases hrest : s.condQueue.erase u = [] <;>
            simp [requeueAll, goto, hrest, hw, PARKED_BIT_eq_word]
    · simp only [requeueAll, goto, Owns, Function.update_apply] at ho ⊢
      cases held <;> cases locked <;> grind [Code.holds]
  case mutexQueue =>
    cases locked with
    | true => exact hmutex.requeue hcond (by decide) hcond.nodup (fun v hv => hv) (by decide)
    | false =>
        exact hmutex.requeue hcond (by decide) (hcond.nodup.erase u)
          (fun v hv => List.mem_of_mem_erase hv) (by decide)
  case condQueue => exact hcond.requeued (by decide) (by decide)
  case condState => exact fun hne => absurd rfl hne
  all_goals simp only [requeueAll, goto, Busy, Function.update_apply] at *
  case fits => cases locked <;> grind [Code.fits_of_waits, Code.Fits]
  case parked => cases locked <;> grind [Code.hasMarked, isParked_word, PARKED_BIT_eq_word, word_or]
  case busy =>
    intro _
    cases locked with
    | true => exact Or.inl (by simpa using (hmark t (by simp [hc, Code.hasMarked])).1)
    | false =>
        -- the thread that is unparked holds the mutex or will go for it
        have hout : u ∉ s.condQueue.erase u := hcond.nodup.not_mem_erase
        have hne : u ≠ t := fun heq => ht (heq ▸ hu)
        rcases Code.holds_or_sleeps (hwas u hu).2 with hh | hsleeps
        · have howner := (ho u).mp (Or.inl hh)
          left
          split_ifs <;> simp [hw, howner, PARKED_BIT_eq_word]
        · exact Or.inr ⟨u, Or.inr ⟨by simp [hne, hsleeps], by simp [hout, hu]⟩⟩
  case queueLock => grind [Code.inQueues]
  case marked => grind [Code.inQueues_of_hasMarked, Code.inQueues, Code.hasMarked]

-- The end of a timed sleep: in the queue of the condition variable the thread has timed
-- out, in that of the mutex a notification has reached it.
theorem Inv.timesOut (h : s.Inv) (hc : s.code t = .waiting true) (hslot : s.slot t = .atCondvar) :
    Inv { (s.goto t .locking).setSlot t .running with
      condQueue := s.condQueue.erase t
      condState := if s.condQueue.erase t = [] then false else s.condState
      timedOut := Function.update s.timedOut t true } := by
  obtain ⟨⟨owner, p, hw, ho⟩, hmutex, hcond, hfit, hparked, hbusy, hlock, hstate, hmark⟩ := h
  constructor
  case owned =>
    refine ⟨owner, p, hw, fun v => ?_⟩
    simp only [goto, setSlot, Owns, Function.update_apply] at ho ⊢
    grind [Code.holds]
  case mutexQueue => exact hmutex.move (by simp [hslot]) (by decide)
  case condQueue => exact hcond.dequeue (by decide)
  all_goals simp only [goto, setSlot, Busy, Function.update_apply] at *
  case condState =>
    intro hne
    have hwas : s.condQueue ≠ [] := fun hnil => hne (by rw [hnil]; rfl)
    grind [Code.inQueues]
  all_goals grind [Code.Fits, Code.inQueues, Code.waits, Code.hasMarked, Code.seeks]

theorem Inv.wasRequeued (h : s.Inv) (hc : s.code t = .waiting true) (hslot : s.slot t = .atMutex) :
    Inv { (s.goto t .locking).setSlot t .running with
      mutexQueue := s.mutexQueue.erase t
      timedOut := Function.update s.timedOut t false } := by
  obtain ⟨⟨owner, p, hw, ho⟩, hmutex, hcond, hfit, hparked, hbusy, hlock, hstate, hmark⟩ := h
  constructor
  case owned =>
    refine ⟨owner, p, hw, fun v => ?_⟩
    simp only [goto, setSlot, Owns, Function.update_apply] at ho ⊢
    grind [Code.holds]
  case mutexQueue => exact hmutex.dequeue (by decide)
  case condQueue => exact hcond.move (by simp [hslot]) (by decide)
  all_goals simp only [goto, setSlot, Busy, Function.update_apply] at *
  all_goals grind [Code.Fits, Code.inQueues, Code.waits, Code.hasMarked, Code.seeks]

omit [DecidableEq τ] in
-- A weak exchange that succeeds has found the value that it expects.
theorem exchange_eq_some {succeeds : Bool} {old new : BitVec 8} {u : Monitor τ}
    (h : s.exchange succeeds old new = some u) :
    (s.state = old ∧ succeeds = true) ∧ u = { s with state := new } := by
  rw [exchange, guard_eq_some] at h
  exact ⟨h.1, h.2.symm⟩

omit [DecidableEq τ] in
theorem exchange_eq_none {succeeds : Bool} {old new : BitVec 8}
    (h : s.exchange succeeds old new = none) : ¬(s.state = old ∧ succeeds = true) := by
  simpa [exchange] using h

-- The state of the thread that has marked the mutex as parked
theorem Inv.marks (h : s.Inv) {op : Notify} {held : Bool} (hc : s.code t = .marked op held s.state) :
    ({ s with state := s.state ||| PARKED_BIT }.goto t (.requeueing op held true)).Inv := by
  have hl : isLocked s.state = true := by
    have hfits := h.fits t
    rw [hc] at hfits
    exact hfits.2
  have hkind : (Code.requeueing op held true).kind = (Code.marked op held s.state).kind := by
    cases held <;> rfl
  refine h.setParked.moves hc hkind (fun _ => ?_) nofun fun hf => hf.1
  obtain ⟨owner, p, hw, -⟩ := h.owned
  rw [hw] at hl ⊢
  simp_all [PARKED_BIT_eq_word]

section StepCode

variable {succeeds : Bool} {u : Monitor τ} (h : s.Inv) (hstep : s.stepCode t succeeds = some u)

include h hstep

theorem Inv.stepTrying {state : BitVec 8} (hc : s.code t = .trying state) : u.Inv := by
  have hfits := h.fits t
  rw [hc] at hfits
  simp only [Monitor.stepCode, hc] at hstep
  split at hstep
  · rename_i v hv
    obtain ⟨⟨rfl, -⟩, rfl⟩ := exchange_eq_some hv
    cases hstep
    exact h.acquire hfits.2 (Or.inr ⟨_, hc⟩)
  · cases hstep
    split_ifs with hl
    · exact h.moves hc rfl nofun nofun fun hf => hf.1
    · exact h.moves hc rfl nofun nofun fun hf => ⟨hf.1, Bool.eq_false_iff.mpr hl⟩

theorem Inv.stepSlow {state : BitVec 8} (hc : s.code t = .slow state) : u.Inv := by
  obtain ⟨hkind, hmarked, hseeks, hfit⟩ := Code.lockLoop_spec s.state
  have hloop : (s.goto t (.lockLoop s.state)).Inv :=
    h.moves hc hkind (absurd · hmarked) (fun _ => hseeks) fun hf => (hfit _).mpr hf
  simp only [Monitor.stepCode, hc] at hstep
  split_ifs at hstep with hl
  · split at hstep
    · rename_i v hv
      obtain ⟨⟨rfl, -⟩, rfl⟩ := exchange_eq_some hv
      cases hstep
      exact h.setParked.moves hc rfl nofun (fun _ => rfl) id
    · cases hstep
      exact hloop
  · split at hstep
    · rename_i v hv
      obtain ⟨⟨rfl, -⟩, rfl⟩ := exchange_eq_some hv
      cases hstep
      exact h.acquire (Bool.eq_false_iff.mpr hl) (Or.inl (by simp [hc, Code.seeks]))
    · cases hstep
      exact hloop

theorem Inv.stepMarked {op : Notify} {held : Bool} {state : BitVec 8}
    (hc : s.code t = .marked op held state) : u.Inv := by
  have hfits := h.fits t
  rw [hc] at hfits
  simp only [Monitor.stepCode, hc] at hstep
  split at hstep
  · rename_i v hv
    obtain ⟨⟨rfl, -⟩, rfl⟩ := exchange_eq_some hv
    cases hstep
    exact h.marks hc
  · cases hstep
    obtain ⟨hkind, hmarked, -, hfit⟩ := Code.markLoop_spec op held s.state
    exact h.moves hc (hkind.trans (by cases held <;> rfl)) (absurd · hmarked) nofun
      fun hf => hfit _ hf.1

theorem Inv.stepCode : u.Inv := by
  cases hc : s.code t with
  | trying state => exact h.stepTrying hstep hc
  | locking =>
      simp only [Monitor.stepCode, hc] at hstep
      split at hstep
      · rename_i v hv
        obtain ⟨⟨hzero, -⟩, rfl⟩ := exchange_eq_some hv
        cases hstep
        have hinv := h.acquire (t := t) (by rw [hzero]; rfl) (Or.inl (by simp [hc, Code.seeks]))
        rw [hzero] at hinv
        exact hinv
      · cases hstep
        exact h.moves hc rfl nofun (fun _ => rfl) id
  | reloading =>
      simp only [Monitor.stepCode, hc, Option.some.injEq] at hstep
      subst hstep
      obtain ⟨hkind, hmarked, hseeks, hfit⟩ := Code.lockLoop_spec s.state
      exact h.moves hc hkind (absurd · hmarked) (fun _ => hseeks) fun hf => (hfit _).mpr hf
  | slow state => exact h.stepSlow hstep hc
  | parking =>
      simp only [Monitor.stepCode, hc, guard_eq_some] at hstep
      obtain ⟨-, rfl⟩ := hstep
      unfold parkMutex
      split_ifs with hs
      · exact h.parksMutex hc hs
      · exact h.moves hc rfl nofun (fun _ => rfl) id
  | parked =>
      simp only [Monitor.stepCode, hc, wake] at hstep
      split at hstep
      · rename_i hslot
        cases hstep
        exact h.handedOver hslot (by simp [hc, Code.sleeps]) _
      · rename_i hslot
        cases hstep
        exact h.awakes hslot (by simp [hc, Code.sleeps]) (Or.inl rfl) _
      · cases hstep
  | beforeSleep timed =>
      simp only [Monitor.stepCode, hc] at hstep
      split_ifs at hstep with hs
      · cases hstep
        exact h.release hs (Or.inr ⟨timed, hc, rfl⟩)
      · cases hstep
        exact h.moves hc rfl nofun nofun id
  | waiting timed =>
      simp only [Monitor.stepCode, hc, wake] at hstep
      split at hstep
      · rename_i hslot
        cases hstep
        exact h.handedOver hslot (by simp [hc, Code.sleeps]) _
      · rename_i hslot
        cases hstep
        exact h.awakes hslot (by simp [hc, Code.sleeps]) (Or.inr rfl) _
      · cases hstep
  | notifying op held =>
      simp only [Monitor.stepCode, hc] at hstep
      split at hstep
      · rename_i hq
        split at hstep
        · cases hstep
          exact h.locksQueues hq hc
        · cases hstep
          obtain ⟨hkind, hmarked, hfit⟩ := Code.after_kind op held
          exact h.moves hc hkind (absurd · hmarked) nofun (hfit _)
      · cases hstep
  | marking op held =>
      simp only [Monitor.stepCode, hc, Option.some.injEq] at hstep
      subst hstep
      obtain ⟨hkind, hmarked, -, hfit⟩ := Code.markLoop_spec op held s.state
      exact h.moves hc hkind (absurd · hmarked) nofun (hfit _)
  | marked op held state => exact h.stepMarked hstep hc
  | idle | holding | unlockSlow _ _ | requeueing _ _ _ => simp [Monitor.stepCode, hc] at hstep

end StepCode

theorem Inv.stepUnpark (h : s.Inv) {chosen : Option τ} {beFair : Bool} {u : Monitor τ}
    (hstep : s.stepUnpark t chosen beFair = some u) : u.Inv := by
  cases hc : s.code t with
  | unlockSlow forceFair next =>
      cases chosen with
      | none =>
          simp only [Monitor.stepUnpark, hc, guard_eq_some] at hstep
          obtain ⟨⟨hq, hempty⟩, rfl⟩ := hstep
          exact h.unlocks hc hq hempty
      | some v =>
          simp only [Monitor.stepUnpark, hc] at hstep
          split_ifs at hstep with hmem hfair hrest hrest
          all_goals cases hstep
          all_goals
            have hinv := h.unparks hc hmem.1 hmem.2 (forceFair || beFair)
            simpa [hfair, hrest, goto, setSlot] using hinv
  | _ => simp [Monitor.stepUnpark, hc] at hstep

theorem Inv.stepRequeue (h : s.Inv) {chosen : Option τ} {u : Monitor τ}
    (hstep : s.stepRequeue t chosen = some u) : u.Inv := by
  cases hc : s.code t with
  | requeueing op held locked =>
      cases chosen with
      | none =>
          simp only [Monitor.stepRequeue, hc, guard_eq_some] at hstep
          obtain ⟨hempty, rfl⟩ := hstep
          exact h.requeuesNone hc hempty _
      | some v =>
          simp only [Monitor.stepRequeue, hc, guard_eq_some] at hstep
          obtain ⟨hmem, rfl⟩ := hstep
          cases op with
          | one => exact h.requeuesOne hc hmem
          | all => exact h.requeuesAll hc hmem
  | _ => simp [Monitor.stepRequeue, hc] at hstep

theorem Inv.stepTimeout (h : s.Inv) {u : Monitor τ} (hstep : s.stepTimeout t = some u) :
    u.Inv := by
  unfold Monitor.stepTimeout at hstep
  split at hstep
  · rename_i hc hslot
    rw [guard_eq_some] at hstep
    obtain ⟨-, rfl⟩ := hstep
    exact h.timesOut hc hslot
  · rename_i hc hslot
    rw [guard_eq_some] at hstep
    obtain ⟨-, rfl⟩ := hstep
    exact h.wasRequeued hc hslot
  · cases hstep

theorem Inv.step (h : s.Inv) {e : MonitorEvent τ} {u : Monitor τ} (hstep : s.step e = some u) :
    u.Inv := by
  cases e with
  | lock t =>
      simp only [Monitor.step, guard_eq_some] at hstep
      obtain ⟨hc, rfl⟩ := hstep
      exact h.moves hc rfl nofun nofun id
  | tryLock t =>
      simp only [Monitor.step, guard_eq_some] at hstep
      obtain ⟨hc, rfl⟩ := hstep
      split_ifs with hl
      · exact h
      · exact h.moves hc rfl nofun nofun fun hf => ⟨hf, Bool.eq_false_iff.mpr hl⟩
  | unlock t forceFair =>
      simp only [Monitor.step, guard_eq_some] at hstep
      obtain ⟨hc, rfl⟩ := hstep
      split_ifs with hs
      · exact h.release hs (Or.inl ⟨hc, rfl⟩)
      · exact h.moves hc rfl nofun nofun id
  | bump t =>
      simp only [Monitor.step, guard_eq_some] at hstep
      obtain ⟨hc, rfl⟩ := hstep
      split_ifs with hp
      · exact h.moves hc rfl nofun nofun id
      · exact h
  | wait t timed =>
      simp only [Monitor.step, guard_eq_some] at hstep
      obtain ⟨⟨hc, -⟩, rfl⟩ := hstep
      exact h.parksCondvar hc timed
  | notify t op =>
      simp only [Monitor.step] at hstep
      split at hstep
      · rename_i hc
        cases hstep
        split_ifs with hs
        · exact h.moves hc rfl nofun nofun id
        · exact h
      · rename_i hc
        cases hstep
        split_ifs with hs
        · exact h.moves hc rfl nofun nofun id
        · exact h
      · cases hstep
  | step t succeeds => exact h.stepCode hstep
  | spin t =>
      simp only [Monitor.step] at hstep
      split at hstep
      · rename_i state hc
        rw [guard_eq_some] at hstep
        obtain ⟨-, rfl⟩ := hstep
        obtain ⟨hkind, hmarked, hseeks, hfit⟩ := Code.lockLoop_spec s.state
        exact h.moves hc hkind (absurd · hmarked) (fun _ => hseeks) fun hf => (hfit _).mpr hf
      · cases hstep
  | unpark t chosen beFair => exact h.stepUnpark hstep
  | requeue t chosen => exact h.stepRequeue hstep
  | timeout t => exact h.stepTimeout hstep

theorem inv_of_init {s : Monitor τ} (h : (monitor τ).init s) : s.Inv := by
  have heq : s = ⟨0#8, false, [], [], none, fun _ => .idle, fun _ => .running, fun _ => false⟩ := h
  subst heq
  exact {
    owned := ⟨none, false, zero_eq_word, fun t => by simp [Owns, Code.holds]⟩
    mutexQueue := ⟨List.nodup_nil, fun t => by simp⟩
    condQueue := ⟨List.nodup_nil, fun t => by simp⟩
    fits := fun t => rfl
    parked := fun h => absurd rfl h
    busy := fun h => absurd rfl h
    queueLock := fun t => by simp [Code.inQueues]
    condState := fun h => absurd rfl h
    marked := fun t h => by simp [Code.hasMarked] at h }


theorem inv_of_reachable (h : (monitor τ).Reachable s) : s.Inv :=
  Machine.Reachable.invariant (P := Inv) (fun _ hinit => inv_of_init hinit)
    (fun _ _ _ hs hstep => hs.step hstep) h

end Monitor

end Rsgc.Sync
