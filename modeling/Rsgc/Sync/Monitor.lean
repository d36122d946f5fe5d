import Mathlib.Data.List.Basic
import Mathlib.Logic.Function.Basic
import Rsgc.Lib.Machine

namespace Rsgc.Sync

def LOCKED_BIT : BitVec 8 := 0b01#8

def PARKED_BIT : BitVec 8 := 0b10#8

def isLocked (state : BitVec 8) : Bool := state &&& LOCKED_BIT != 0#8

def isParked (state : BitVec 8) : Bool := state &&& PARKED_BIT != 0#8

-- `notify_one` and `notify_all`
inductive Notify
  | one
  | all
deriving DecidableEq, Repr

-- What a thread does when it has unlocked: it goes its way, locks again in `bump`,
-- or sleeps in a wait, with a deadline or without.
inductive Resume
  | leave
  | relock
  | sleep (timed : Bool)
deriving DecidableEq, Repr

-- Where a thread is in the code of the mutex and of the condition variable. A
-- `state` is what it has read of the mutex, `held` says that the thread that
-- notifies holds the mutex.
inductive Code
  | idle
  | holding
  | trying (state : BitVec 8)
  | locking
  | reloading
  | slow (state : BitVec 8)
  | parking
  | parked
  | unlockSlow (forceFair : Bool) (next : Resume)
  | beforeSleep (timed : Bool)
  | waiting (timed : Bool)
  | notifying (op : Notify) (held : Bool)
  | marking (op : Notify) (held : Bool)
  | marked (op : Notify) (held : Bool) (state : BitVec 8)
  | requeueing (op : Notify) (held : Bool) (locked : Bool)
deriving DecidableEq

-- What the parking lot has for a thread: no entry, an entry in the queue of the
-- mutex or of the condition variable, or a token of a thread that has unparked it.
inductive Slot
  | running
  | atMutex
  | atCondvar
  | unparked (handoff : Bool)
deriving DecidableEq, Repr

-- A `Monitor` with the parking lot under it. `condState` says that the state of the
-- condition variable is the address of the mutex. `queueLock` is the thread that
-- holds the locks of both queues from one step to the next. `timedOut` is the result
-- of the last wait of a thread.
structure Monitor (τ : Type*) where
  state : BitVec 8
  condState : Bool
  mutexQueue : List τ
  condQueue : List τ
  queueLock : Option τ
  code : τ → Code
  slot : τ → Slot
  timedOut : τ → Bool

-- `step` is the next step of a thread in the code, in which a weak exchange that
-- could succeed does so or does not. In `spin` the spin wait has spun. The thread
-- that `unpark` and `requeue` take from a queue is any thread of the queue, and
-- `timeout` is the end of a sleep by its deadline.
inductive MonitorEvent (τ : Type*)
  | lock (t : τ)
  | tryLock (t : τ)
  | unlock (t : τ) (forceFair : Bool)
  | bump (t : τ)
  | wait (t : τ) (timed : Bool)
  | notify (t : τ) (op : Notify)
  | step (t : τ) (succeeds : Bool)
  | spin (t : τ)
  | unpark (t : τ) (chosen : Option τ) (beFair : Bool)
  | requeue (t : τ) (chosen : Option τ)
  | timeout (t : τ)
deriving DecidableEq

-- The head of the loop in `lock_slow` for the value that it has read. With both
-- bits set there is nothing left to do but to park.
def Code.lockLoop (state : BitVec 8) : Code :=
  if isLocked state && isParked state then .parking else .slow state

def Code.resumed : Resume → Code
  | .leave => .idle
  | .relock => .locking
  | .sleep timed => .waiting timed

-- The end of `notify_one` and `notify_all`.
def Code.after (held : Bool) : Code := if held then .holding else .idle

-- What the loop of `mark_parked_if_locked` makes of a value that it has read.
def Code.markLoop (op : Notify) (held : Bool) (state : BitVec 8) : Code :=
  if isLocked state then .marked op held state else .requeueing op held false

namespace Monitor

variable {τ : Type*} [DecidableEq τ]

def goto (s : Monitor τ) (t : τ) (c : Code) : Monitor τ :=
  { s with code := Function.update s.code t c }

def setSlot (s : Monitor τ) (t : τ) (slot : Slot) : Monitor τ :=
  { s with slot := Function.update s.slot t slot }

-- A weak exchange of the state.
def exchange (s : Monitor τ) (succeeds : Bool) (old new : BitVec 8) : Option (Monitor τ) :=
  if s.state = old ∧ succeeds = true then some { s with state := new } else none

-- `park` in `lock_slow`: the validation and the entry are made under the queue's lock.
def parkMutex (s : Monitor τ) (t : τ) : Monitor τ :=
  if s.state = LOCKED_BIT ||| PARKED_BIT then
    { (s.goto t .parked).setSlot t .atMutex with mutexQueue := s.mutexQueue ++ [t] }
  else s.goto t .reloading

-- `park` in `wait_until_internal`, up to the unlocking before the sleep.
def parkCondvar (s : Monitor τ) (t : τ) (timed : Bool) : Monitor τ :=
  { (s.goto t (.beforeSleep timed)).setSlot t .atCondvar with
    condState := true
    condQueue := s.condQueue ++ [t] }

-- The thread that unparked this one has left it a token.
def wake (s : Monitor τ) (t : τ) (normal : Code) : Option (Monitor τ) :=
  match s.slot t with
  | .unparked true => some ((s.goto t .holding).setSlot t .running)
  | .unparked false => some ((s.goto t normal).setSlot t .running)
  | _ => none

def stepCode (s : Monitor τ) (t : τ) (succeeds : Bool) : Option (Monitor τ) :=
  match s.code t with
  | .trying state =>
      match s.exchange succeeds state (state ||| LOCKED_BIT) with
      | some u => some (u.goto t .holding)
      | none => some (s.goto t (if isLocked s.state then .idle else .trying s.state))
  | .locking =>
      match s.exchange succeeds 0#8 LOCKED_BIT with
      | some u => some (u.goto t .holding)
      | none => some (s.goto t .reloading)
  | .reloading => some (s.goto t (.lockLoop s.state))
  | .slow state =>
      if isLocked state then
        match s.exchange succeeds state (state ||| PARKED_BIT) with
        | some u => some (u.goto t .parking)
        | none => some (s.goto t (.lockLoop s.state))
      else
        match s.exchange succeeds state (state ||| LOCKED_BIT) with
        | some u => some (u.goto t .holding)
        | none => some (s.goto t (.lockLoop s.state))
  | .parking => if s.queueLock = none then some (s.parkMutex t) else none
  | .parked => s.wake t .reloading
  | .beforeSleep timed =>
      if s.state = LOCKED_BIT then some { s.goto t (.waiting timed) with state := 0#8 }
      else some (s.goto t (.unlockSlow false (.sleep timed)))
  | .waiting _ =>
      (s.wake t .locking).map fun u =>
        { u with timedOut := Function.update s.timedOut t false }
  | .notifying op held =>
      if s.queueLock = none then
        if s.condState then
          some { s.goto t (.marking op held) with
            queueLock := some t
            condState := if op = .all then false else s.condState }
        else some (s.goto t (.after held))
      else none
  | .marking op held => some (s.goto t (.markLoop op held s.state))
  | .marked op held state =>
      match s.exchange succeeds state (state ||| PARKED_BIT) with
      | some u => some (u.goto t (.requeueing op held true))
      | none => some (s.goto t (.markLoop op held s.state))
  | .idle | .holding | .unlockSlow .. | .requeueing .. => none

-- The callback of `unpark_one` in `unlock_slow`, made under the queue's lock.
def stepUnpark (s : Monitor τ) (t : τ) (chosen : Option τ) (beFair : Bool) :
    Option (Monitor τ) :=
  match s.code t, chosen with
  | .unlockSlow _ next, none =>
      if s.queueLock = none ∧ s.mutexQueue = [] then
        some { s.goto t (.resumed next) with state := 0#8 }
      else none
  | .unlockSlow forceFair next, some u =>
      let rest := s.mutexQueue.erase u
      if s.queueLock = none ∧ u ∈ s.mutexQueue then
        let s := { (s.goto t (.resumed next)).setSlot u (.unparked (forceFair || beFair)) with
          mutexQueue := rest }
        if forceFair || beFair then
          some { s with state := if rest = [] then LOCKED_BIT else s.state }
        else some { s with state := if rest = [] then 0#8 else PARKED_BIT }
      else none
  | _, _ => none

-- `unpark_requeue` takes a thread or all from the queue of the condition variable: it
-- unparks one where the mutex was not locked, and all others wait for the mutex.
def requeueOne (s : Monitor τ) (u : τ) (locked : Bool) : Monitor τ :=
  let rest := s.condQueue.erase u
  { s.setSlot u (if locked then .atMutex else .unparked false) with
    condQueue := rest
    mutexQueue := if locked then s.mutexQueue ++ [u] else s.mutexQueue
    condState := if rest = [] then false else s.condState }

def requeueAll (s : Monitor τ) (u : τ) (locked : Bool) : Monitor τ :=
  let moved := if locked then s.condQueue else s.condQueue.erase u
  { s with
    state := if !locked && !moved.isEmpty then s.state ||| PARKED_BIT else s.state
    condQueue := []
    mutexQueue := s.mutexQueue ++ moved
    slot := fun v =>
      if v ∈ moved then .atMutex else if v ∈ s.condQueue then .unparked false else s.slot v }

def stepRequeue (s : Monitor τ) (t : τ) (chosen : Option τ) : Option (Monitor τ) :=
  match s.code t, chosen with
  | .requeueing op held _, none =>
      if s.condQueue = [] then
        some { s.goto t (.after held) with
          queueLock := none
          condState := if op = .one then false else s.condState }
      else none
  | .requeueing op held locked, some u =>
      if u ∈ s.condQueue then
        let s := match op with
          | .one => s.requeueOne u locked
          | .all => s.requeueAll u locked
        some { s.goto t (.after held) with queueLock := none }
      else none
  | _, _ => none

-- The `timed_out` callback of a wait with a deadline. A thread that a notification
-- has sent to the mutex did not time out.
def stepTimeout (s : Monitor τ) (t : τ) : Option (Monitor τ) :=
  match s.code t, s.slot t with
  | .waiting true, .atCondvar =>
      let rest := s.condQueue.erase t
      if s.queueLock = none then
        some { (s.goto t .locking).setSlot t .running with
          condQueue := rest
          condState := if rest = [] then false else s.condState
          timedOut := Function.update s.timedOut t true }
      else none
  | .waiting true, .atMutex =>
      if s.queueLock = none then
        some { (s.goto t .locking).setSlot t .running with
          mutexQueue := s.mutexQueue.erase t
          timedOut := Function.update s.timedOut t false }
      else none
  | _, _ => none

def step (s : Monitor τ) : MonitorEvent τ → Option (Monitor τ)
  | .lock t => if s.code t = .idle then some (s.goto t .locking) else none
  | .tryLock t =>
      if s.code t = .idle then
        some (if isLocked s.state then s else s.goto t (.trying s.state))
      else none
  | .unlock t forceFair =>
      if s.code t = .holding then
        some (if s.state = LOCKED_BIT then { s.goto t .idle with state := 0#8 }
          else s.goto t (.unlockSlow forceFair .leave))
      else none
  | .bump t =>
      if s.code t = .holding then
        some (if isParked s.state then s.goto t (.unlockSlow true .relock) else s)
      else none
  | .wait t timed =>
      if s.code t = .holding ∧ s.queueLock = none then some (s.parkCondvar t timed) else none
  | .notify t op =>
      match s.code t with
      | .idle => some (if s.condState then s.goto t (.notifying op false) else s)
      | .holding => some (if s.condState then s.goto t (.notifying op true) else s)
      | _ => none
  | .step t succeeds => s.stepCode t succeeds
  | .spin t =>
      match s.code t with
      | .slow state =>
          if isLocked state then some (s.goto t (.lockLoop s.state)) else none
      | _ => none
  | .unpark t chosen beFair => s.stepUnpark t chosen beFair
  | .requeue t chosen => s.stepRequeue t chosen
  | .timeout t => s.stepTimeout t

end Monitor

-- A monitor that nobody has used, with any number of threads.
def monitor (τ : Type*) [DecidableEq τ] : Machine (Monitor τ) (MonitorEvent τ) where
  init s := s = ⟨0#8, false, [], [], none, fun _ => .idle, fun _ => .running, fun _ => false⟩
  step := Monitor.step

end Rsgc.Sync
