import Rsgc.Lib.WaitQueue
import Rsgc.Sync.Monitor

namespace Rsgc.Sync

-- A state of the mutex that has no other bits.
def word (locked parked : Bool) : BitVec 8 :=
  (if locked then LOCKED_BIT else 0#8) ||| if parked then PARKED_BIT else 0#8

theorem zero_eq_word : 0#8 = word false false := rfl

theorem LOCKED_BIT_eq_word : LOCKED_BIT = word true false := rfl

theorem PARKED_BIT_eq_word : PARKED_BIT = word false true := rfl

@[simp] theorem isLocked_word (l p : Bool) : isLocked (word l p) = l := by
  cases l <;> cases p <;> rfl

@[simp] theorem isParked_word (l p : Bool) : isParked (word l p) = p := by
  cases l <;> cases p <;> rfl

@[simp] theorem word_or (l p l' p' : Bool) :
    word l p ||| word l' p' = word (l || l') (p || p') := by
  cases l <;> cases p <;> cases l' <;> cases p' <;> rfl

theorem word_inj {l p l' p' : Bool} : word l p = word l' p' ↔ l = l' ∧ p = p' := by
  constructor
  · intro h
    have hl := congrArg isLocked h
    have hp := congrArg isParked h
    simpa using And.intro hl hp
  · rintro ⟨rfl, rfl⟩
    rfl

namespace Code

-- The code that a thread runs with the mutex locked.
def holds : Code → Bool
  | holding | unlockSlow .. | beforeSleep _ | notifying _ true | marking _ true
  | marked _ true _ | requeueing _ true _ => true
  | _ => false

-- The thread is awake and goes on until it has the mutex or parks.
def seeks : Code → Bool
  | locking | reloading | slow _ | parking => true
  | _ => false

-- The thread sleeps in the parking lot or is about to find its token there.
def sleeps : Code → Bool
  | parked | waiting _ => true
  | _ => false

-- The thread has not left `park` in a wait.
def waits : Code → Bool
  | beforeSleep _ | unlockSlow _ (.sleep _) | waiting _ => true
  | _ => false

-- The notification for which the thread has the locks of the queues.
def inQueues : Code → Option Notify
  | marking op _ | marked op _ _ | requeueing op _ _ => some op
  | _ => none

-- It has found the mutex locked and marked it as parked.
def hasMarked : Code → Bool
  | requeueing _ _ locked => locked
  | _ => false

-- What the invariant says of a thread by its place in the code, apart from its entry.
def kind (c : Code) : Bool × Option Notify × Bool × Bool := (c.holds, c.inQueues, c.waits, c.sleeps)

-- What the parking lot can have for a thread by its place in the code.
def Fits : Code → Slot → Prop
  | parked, slot => slot ≠ .running ∧ slot ≠ .atCondvar
  | waiting _, slot => slot ≠ .running
  | beforeSleep _, slot | unlockSlow _ (.sleep _), slot =>
      slot ≠ .running ∧ slot ≠ .unparked true
  | trying state, slot => slot = .running ∧ isLocked state = false
  | marked _ _ state, slot => slot = .running ∧ isLocked state = true
  | _, slot => slot = .running

end Code

namespace Monitor

variable {τ : Type*}

-- The mutex is the thread's: it has locked it, or another has handed it over.
def Owns (s : Monitor τ) (t : τ) : Prop := (s.code t).holds = true ∨ s.slot t = .unparked true

-- The thread will lock the mutex, or see it locked.
def Busy (s : Monitor τ) (t : τ) : Prop :=
  (s.code t).seeks = true ∨ (s.code t).sleeps = true ∧ s.slot t = .unparked false

structure Inv (s : Monitor τ) : Prop where
  owned : ∃ (owner : Option τ) (parked : Bool), s.state = word owner.isSome parked ∧
    ∀ t, s.Owns t ↔ owner = some t
  mutexQueue : WaitQueue .atMutex s.slot s.mutexQueue
  condQueue : WaitQueue .atCondvar s.slot s.condQueue
  fits : ∀ t, (s.code t).Fits (s.slot t)
  parked : s.mutexQueue ≠ [] → isParked s.state = true
  -- the queue is not left alone: a thread has the mutex, or is on the way to it
  busy : s.mutexQueue ≠ [] → isLocked s.state = true ∨ ∃ t, s.Busy t
  queueLock : ∀ t, (s.code t).inQueues ≠ none ↔ s.queueLock = some t
  condState : s.condQueue ≠ [] → s.condState = true ∨ ∃ t, (s.code t).inQueues = some .all
  marked : ∀ t, (s.code t).hasMarked = true → isLocked s.state = true ∧ isParked s.state = true

theorem Inv.owner_unique {s : Monitor τ} (h : s.Inv) {t u : τ} (ht : s.Owns t) (hu : s.Owns u) :
    t = u := by
  obtain ⟨owner, p, hw, ho⟩ := h.owned
  exact Option.some.inj (((ho t).mp ht).symm.trans ((ho u).mp hu))

theorem Inv.locked_iff {s : Monitor τ} (h : s.Inv) : isLocked s.state = true ↔ ∃ t, s.Owns t := by
  obtain ⟨owner, p, hw, ho⟩ := h.owned
  rw [hw, isLocked_word]
  cases owner with
  | none => simp [ho]
  | some t => simp [ho]

end Monitor

end Rsgc.Sync
