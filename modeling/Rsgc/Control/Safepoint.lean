import Mathlib.Data.List.Basic
import Mathlib.Logic.Function.Basic
import Rsgc.Lib.Machine

namespace Rsgc.Control

-- The values of `Thread::gc_state`: 0, `GC_STATE_WAITING` and `GC_STATE_SAFE`. A
-- thread in state 0 runs code that the collector must stop.
inductive GcState
  | running
  | waiting
  | safe
deriving DecidableEq, Repr

-- With signals the poll that faulted is executed again when the handler returns.
inductive PollMode
  | signal
  | conditional
deriving DecidableEq, Repr

-- Where a thread is in `safepoint`, `set_gc_and_wait` and `wait_gc`; `state` is
-- the state that `set_gc_and_wait` has saved. `wait_gc` leaves its loop after two
-- reads of `GC_RUNNING`, the first of which has been made where `seen` is set.
inductive Place
  | run
  | polling
  | entering
  | waitGc (state : GcState) (seen : Bool)
  | locking (state : GcState)
  | locked (state : GcState)
  | blocked (state : GcState)
  | notified (state : GcState)
  | relocked (state : GcState)
  | leaving (state : GcState)
deriving DecidableEq, Repr

-- Where the collector is in `SafepointSynchronize::begin` and `end`; `todo` are
-- the threads not found outside state 0 yet, `seen` as above.
inductive Collector (τ : Type*)
  | outside
  | lockedThreads
  | entering
  | enabling
  | enabled
  | checking (todo : List τ) (seen : Bool)
  | stopped
  | ending
  | disabling
  | disabled
  | ended
  | notifying
deriving DecidableEq

inductive LockHolder (τ : Type*)
  | thread (t : τ)
  | collector
deriving DecidableEq

structure Safepoints (τ : Type*) where
  page : Bool
  enableCnt : Nat
  gcRunning : Bool
  safepointLock : Option (LockHolder τ)
  threadsLocked : Bool
  threads : List τ
  gcState : τ → GcState
  place : τ → Place
  collector : Collector τ

inductive SafepointEvent (τ : Type*)
  | mutate (t : τ)
  | safepoint (t : τ)
  | gcStateSet (t : τ) (state : GcState)
  | advance (t : τ)
  | register (t : τ)
  | unregister (t : τ)
  | collect
deriving DecidableEq

def Place.notify : Place → Place
  | .blocked state => .notified state
  | p => p

namespace Safepoints

variable {τ : Type*} [DecidableEq τ]

def goto (s : Safepoints τ) (t : τ) (p : Place) : Safepoints τ :=
  { s with place := Function.update s.place t p }

def store (s : Safepoints τ) (t : τ) (state : GcState) : Safepoints τ :=
  { s with gcState := Function.update s.gcState t state }

-- `safepoint::enable` and `safepoint::disable`
def enable (s : Safepoints τ) : Safepoints τ :=
  if s.enableCnt ≠ 0 then { s with enableCnt := s.enableCnt + 1 }
  else { s with enableCnt := s.enableCnt + 1, page := true }

def disable (s : Safepoints τ) : Safepoints τ :=
  if s.enableCnt - 1 ≠ 0 then { s with enableCnt := s.enableCnt - 1 }
  else { s with enableCnt := s.enableCnt - 1, page := false }

-- `Thread::gc_state_set`: a thread that comes back to state 0 polls.
def gcStateSet (s : Safepoints τ) (t : τ) (state : GcState) : Safepoints τ :=
  if s.gcState t ≠ .running ∧ state = .running then (s.store t state).goto t .polling
  else s.store t state

-- `Thread::safepoint` from the read of the page on.
def advance (mode : PollMode) (s : Safepoints τ) (t : τ) : Option (Safepoints τ) :=
  match s.place t with
  | .run => none
  | .polling => some (s.goto t (if s.page then .entering else .run))
  | .entering => some ((s.store t .waiting).goto t (.waitGc (s.gcState t) false))
  | .waitGc state seen =>
      if s.gcRunning then some (s.goto t (.locking state))
      else if seen then some (s.goto t (.leaving state))
      else some (s.goto t (.waitGc state true))
  | .locking state =>
      if s.safepointLock = none then
        some { s.goto t (.locked state) with safepointLock := some (.thread t) }
      else none
  | .locked state =>
      if s.gcRunning then some { s.goto t (.blocked state) with safepointLock := none }
      else some { s.goto t (.waitGc state false) with safepointLock := none }
  | .blocked _ => none
  | .notified state =>
      if s.safepointLock = none then
        some { s.goto t (.relocked state) with safepointLock := some (.thread t) }
      else none
  | .relocked state => some { s.goto t (.waitGc state false) with safepointLock := none }
  | .leaving state =>
      -- the conditional poll is not repeated
      match mode with
      | .signal => some ((s.store t state).goto t .polling)
      | .conditional => some ((s.store t state).goto t .run)

-- `SafepointSynchronize::begin` up to `stopped`, then `end`.
def collect (s : Safepoints τ) : Option (Safepoints τ) :=
  match s.collector with
  | .outside =>
      if s.threadsLocked then none
      else some { s with threadsLocked := true, collector := .lockedThreads }
  | .lockedThreads =>
      if s.safepointLock = none then
        some { s with safepointLock := some .collector, collector := .entering }
      else none
  | .entering =>
      if s.gcRunning then none else some { s with gcRunning := true, collector := .enabling }
  | .enabling => some { s.enable with collector := .enabled }
  | .enabled => some { s with safepointLock := none, collector := .checking s.threads false }
  | .checking [] _ => some { s with collector := .stopped }
  | .checking (t :: rest) seen =>
      if s.gcState t = .running then some { s with collector := .checking (t :: rest) false }
      else if seen then some { s with collector := .checking rest false }
      else some { s with collector := .checking (t :: rest) true }
  | .stopped => some { s with threadsLocked := false, collector := .ending }
  | .ending =>
      if s.safepointLock = none then
        some { s with safepointLock := some .collector, collector := .disabling }
      else none
  | .disabling => some { s.disable with collector := .disabled }
  | .disabled => some { s with gcRunning := false, collector := .ended }
  | .ended => some { s with safepointLock := none, collector := .notifying }
  | .notifying =>
      some { s with place := fun t => (s.place t).notify, collector := .outside }

def step (mode : PollMode) (s : Safepoints τ) : SafepointEvent τ → Option (Safepoints τ)
  | .mutate t =>
      if t ∈ s.threads ∧ s.place t = .run ∧ s.gcState t = .running then some s else none
  | .safepoint t =>
      if t ∈ s.threads ∧ s.place t = .run then some (s.goto t .polling) else none
  | .gcStateSet t state =>
      if t ∈ s.threads ∧ s.place t = .run ∧ state ≠ .waiting then some (s.gcStateSet t state)
      else none
  | .advance t => if t ∈ s.threads then s.advance mode t else none
  | .register t =>
      if t ∉ s.threads ∧ s.threadsLocked = false then
        some { (s.store t .running).goto t .run with threads := s.threads ++ [t] }
      else none
  | .unregister t =>
      if s.place t = .run ∧ s.threadsLocked = false then
        some { s with threads := s.threads.filter (· ≠ t) }
      else none
  | .collect => s.collect

end Safepoints

def safepoints (mode : PollMode) (τ : Type*) [DecidableEq τ] :
    Machine (Safepoints τ) (SafepointEvent τ) where
  init s := s = ⟨false, 0, false, none, false, [], fun _ => .running, fun _ => .run, .outside⟩
  step := Safepoints.step mode

namespace Safepoints

variable {τ : Type*} [DecidableEq τ]

-- No registered thread can take a mutator step in a stopped world.
def Excluded (mode : PollMode) (s : Safepoints τ) : Prop :=
  s.collector = .stopped → ∀ t, s.step mode (.mutate t) = none

-- In the conditional mode no read of `begin` takes a thread for a waiting one
-- that has left `wait_gc` and is about to store state 0.
def ReadsSettled (mode : PollMode) (s : Safepoints τ) : SafepointEvent τ → Prop
  | .collect =>
      match s.collector with
      | .checking (t :: _) true => mode = .conditional → s.place t ≠ .leaving .running
      | _ => True
  | _ => True

instance (mode : PollMode) (s : Safepoints τ) (e : SafepointEvent τ) :
    Decidable (s.ReadsSettled mode e) := by
  unfold ReadsSettled
  split
  · split <;> infer_instance
  · infer_instance

end Safepoints

-- What the state of a thread is by its place.
def Place.Fits (g : GcState) : Place → Prop
  | .run | .polling | .entering => g ≠ .waiting
  | .waitGc state _ | .locking state | .locked state | .blocked state | .notified state
  | .relocked state | .leaving state => g = .waiting ∧ state ≠ .waiting

-- While the page is armed the thread reads it before it can run in state 0.
def Place.Halted (mode : PollMode) (g : GcState) : Place → Prop
  | .run => g ≠ .running
  | .leaving state => mode = .conditional → state ≠ .running
  | _ => True

-- The safepoint has been requested and the page is armed.
def Collector.armed {τ : Type*} : Collector τ → Bool
  | .enabled | .checking _ _ | .stopped | .ending | .disabling => true
  | _ => false

def Collector.running {τ : Type*} : Collector τ → Bool
  | .enabling | .enabled | .checking _ _ | .stopped | .ending | .disabling | .disabled => true
  | _ => false

-- The collector holds the lock of the thread list.
def Collector.lists {τ : Type*} : Collector τ → Bool
  | .lockedThreads | .entering | .enabling | .enabled | .checking _ _ | .stopped => true
  | _ => false

-- The threads that have been found outside state 0.
def Collector.passed {τ : Type*} (t : τ) : Collector τ → Prop
  | .checking todo _ => t ∉ todo
  | .stopped => True
  | _ => False

namespace Safepoints

variable {τ : Type*} [DecidableEq τ]

structure Inv (mode : PollMode) (s : Safepoints τ) : Prop where
  fits : ∀ t, (s.place t).Fits (s.gcState t)
  enableCnt : s.enableCnt = s.collector.armed.toNat
  page : s.collector.armed = true → s.page = true
  gcRunning : s.collector.running = true → s.gcRunning = true
  threadsLocked : s.collector.lists = true → s.threadsLocked = true
  halted : ∀ t ∈ s.threads, s.collector.passed t → (s.place t).Halted mode (s.gcState t)

-- What a step of one thread changes: its state, its place and the safepoint lock.
def move (s : Safepoints τ) (t : τ) (g : GcState) (p : Place) (lock : Option (LockHolder τ)) :
    Safepoints τ :=
  { s with gcState := Function.update s.gcState t g, place := Function.update s.place t p,
           safepointLock := lock }

theorem goto_eq_move (s : Safepoints τ) (t : τ) (p : Place) :
    s.goto t p = s.move t (s.gcState t) p s.safepointLock := by
  simp [goto, move]

theorem goto_lock_eq_move (s : Safepoints τ) (t : τ) (p : Place)
    (lock : Option (LockHolder τ)) :
    { s.goto t p with safepointLock := lock } = s.move t (s.gcState t) p lock := by
  simp [goto, move]

theorem store_goto_eq_move (s : Safepoints τ) (t : τ) (g : GcState) (p : Place) :
    (s.store t g).goto t p = s.move t g p s.safepointLock := rfl

theorem store_eq_move (s : Safepoints τ) (t : τ) (g : GcState) :
    s.store t g = s.move t g (s.place t) s.safepointLock := by
  simp [store, move]

theorem Inv.move {mode : PollMode} {s : Safepoints τ} (h : s.Inv mode) {t : τ} {g : GcState}
    {p : Place} {lock : Option (LockHolder τ)} (hfits : p.Fits g)
    (hhalted : t ∈ s.threads → s.collector.passed t → p.Halted mode g) :
    (s.move t g p lock).Inv mode := by
  refine ⟨fun u => ?_, h.enableCnt, h.page, h.gcRunning, h.threadsLocked, fun u hu hpassed => ?_⟩
  · by_cases hut : u = t
    · subst hut
      simpa [Safepoints.move] using hfits
    · simpa [Safepoints.move, Function.update_of_ne hut] using h.fits u
  · by_cases hut : u = t
    · subst hut
      simpa [Safepoints.move] using hhalted hu hpassed
    · simpa [Safepoints.move, Function.update_of_ne hut] using h.halted u hu hpassed

-- A thread that has been passed stays behind the armed page.
omit [DecidableEq τ] in
theorem Inv.armed {mode : PollMode} {s : Safepoints τ} (h : s.Inv mode) {t : τ}
    (hpassed : s.collector.passed t) : s.page = true ∧ s.gcRunning = true := by
  have harmed : s.collector.armed = true ∧ s.collector.running = true := by
    cases hc : s.collector with
    | checking | stopped => exact ⟨rfl, rfl⟩
    | _ => simp [hc, Collector.passed] at hpassed
  exact ⟨h.page harmed.1, h.gcRunning harmed.2⟩

-- One step inside `safepoint` as a move; only a cleared page or `GC_RUNNING`
-- lets a halted thread come back to state 0.
theorem advance_eq_move {mode : PollMode} {s u : Safepoints τ} {t : τ}
    (hfits : (s.place t).Fits (s.gcState t)) (hstep : s.advance mode t = some u) :
    ∃ g p lock, u = s.move t g p lock ∧ p.Fits g ∧
      (s.page = true → s.gcRunning = true → (s.place t).Halted mode (s.gcState t) →
        p.Halted mode g) := by
  unfold advance at hstep
  cases hplace : s.place t with
  | run => simp [hplace] at hstep
  | polling =>
      simp only [hplace, Option.some.injEq] at hstep
      subst hstep
      rw [hplace] at hfits
      refine ⟨_, _, _, goto_eq_move _ _ _, ?_, fun hpage _ _ => ?_⟩
      · split <;> exact hfits
      · rw [if_pos hpage]
        trivial
  | entering =>
      simp only [hplace, Option.some.injEq] at hstep
      subst hstep
      rw [hplace] at hfits
      exact ⟨_, _, _, store_goto_eq_move _ _ _ _, ⟨rfl, hfits⟩, fun _ _ _ => trivial⟩
  | waitGc state seen =>
      simp only [hplace] at hstep
      rw [hplace] at hfits
      split at hstep
      · obtain rfl := Option.some.inj hstep
        exact ⟨_, _, _, goto_eq_move _ _ _, hfits, fun _ _ _ => trivial⟩
      · rename_i hrunning
        split at hstep
        · obtain rfl := Option.some.inj hstep
          exact ⟨_, _, _, goto_eq_move _ _ _, hfits, fun _ hr _ => absurd hr hrunning⟩
        · obtain rfl := Option.some.inj hstep
          exact ⟨_, _, _, goto_eq_move _ _ _, hfits, fun _ _ _ => trivial⟩
  | locking state =>
      simp only [hplace] at hstep
      rw [hplace] at hfits
      obtain ⟨-, rfl⟩ := guard_eq_some.mp hstep
      exact ⟨_, .locked state, some (.thread t), goto_lock_eq_move _ _ _ _, hfits,
          fun _ _ _ => trivial⟩
  | locked state =>
      simp only [hplace] at hstep
      rw [hplace] at hfits
      split at hstep
      · obtain rfl := Option.some.inj hstep
        exact ⟨_, .blocked state, none, goto_lock_eq_move _ _ _ _, hfits,
          fun _ _ _ => trivial⟩
      · obtain rfl := Option.some.inj hstep
        exact ⟨_, .waitGc state false, none, goto_lock_eq_move _ _ _ _, hfits,
          fun _ _ _ => trivial⟩
  | blocked state => simp [hplace] at hstep
  | notified state =>
      simp only [hplace] at hstep
      rw [hplace] at hfits
      obtain ⟨-, rfl⟩ := guard_eq_some.mp hstep
      exact ⟨_, .relocked state, some (.thread t), goto_lock_eq_move _ _ _ _, hfits,
          fun _ _ _ => trivial⟩
  | relocked state =>
      simp only [hplace, Option.some.injEq] at hstep
      subst hstep
      rw [hplace] at hfits
      exact ⟨_, .waitGc state false, none, goto_lock_eq_move _ _ _ _, hfits,
          fun _ _ _ => trivial⟩
  | leaving state =>
      simp only [hplace] at hstep
      rw [hplace] at hfits
      cases mode with
      | signal =>
          obtain rfl := Option.some.inj hstep
          exact ⟨_, _, _, store_goto_eq_move _ _ _ _, hfits.2, fun _ _ _ => trivial⟩
      | conditional =>
          obtain rfl := Option.some.inj hstep
          exact ⟨_, _, _, store_goto_eq_move _ _ _ _, hfits.2, fun _ _ h => h rfl⟩

theorem gcStateSet_eq_move (mode : PollMode) (s : Safepoints τ) {t : τ} {state : GcState}
    (hplace : s.place t = .run) (hstate : state ≠ .waiting) :
    ∃ p, s.gcStateSet t state = s.move t state p s.safepointLock ∧ p.Fits state ∧
      ((s.place t).Halted mode (s.gcState t) → p.Halted mode state) := by
  unfold gcStateSet
  rw [hplace]
  split
  · exact ⟨_, store_goto_eq_move _ _ _ _, hstate, fun _ => trivial⟩
  · rename_i hpoll
    refine ⟨.run, ?_, hstate, fun hhalted hzero => hpoll ⟨hhalted, hzero⟩⟩
    rw [store_eq_move, hplace]

omit [DecidableEq τ] in
theorem notify_fits {g : GcState} {p : Place} (h : p.Fits g) : p.notify.Fits g := by
  cases p <;> exact h

-- What `begin` has read last of the thread at the head of its list.
omit [DecidableEq τ] in
theorem halted_of_read {mode : PollMode} {s : Safepoints τ} {t : τ}
    (hstate : s.gcState t ≠ .running)
    (hleaving : mode = .conditional → s.place t ≠ .leaving .running) :
    (s.place t).Halted mode (s.gcState t) := by
  cases hplace : s.place t with
  | run => exact hstate
  | leaving state =>
      intro hmode hrunning
      exact hleaving hmode (by rw [hplace, hrunning])
  | polling | entering | waitGc | locking | locked | blocked | notified | relocked => trivial

theorem Inv.collect {mode : PollMode} {s u : Safepoints τ} (h : s.Inv mode)
    (hgood : s.ReadsSettled mode .collect) (hstep : s.collect = some u) : u.Inv mode := by
  have hcnt := h.enableCnt
  unfold Safepoints.collect at hstep
  cases hc : s.collector with
  | outside =>
      simp only [hc] at hstep
      obtain ⟨-, rfl⟩ := guard_not_eq_some.mp hstep
      rw [hc] at hcnt
      exact ⟨h.fits, hcnt, nofun, nofun, fun _ => rfl, fun _ _ hp => hp.elim⟩
  | lockedThreads =>
      simp only [hc] at hstep
      obtain ⟨-, rfl⟩ := guard_eq_some.mp hstep
      rw [hc] at hcnt
      exact ⟨h.fits, hcnt, nofun, nofun, fun _ => h.threadsLocked (by rw [hc]; rfl),
        fun _ _ hp => hp.elim⟩
  | entering =>
      simp only [hc] at hstep
      obtain ⟨-, rfl⟩ := guard_not_eq_some.mp hstep
      rw [hc] at hcnt
      exact ⟨h.fits, hcnt, nofun, fun _ => rfl, fun _ => h.threadsLocked (by rw [hc]; rfl),
        fun _ _ hp => hp.elim⟩
  | enabling =>
      simp only [hc, Option.some.injEq] at hstep
      subst hstep
      have hrunning := h.gcRunning (by rw [hc]; rfl)
      have hlists := h.threadsLocked (by rw [hc]; rfl)
      -- the counter was 0, so the page is armed
      have hzero : s.enableCnt = 0 := by rw [hcnt, hc]; rfl
      have henable : s.enable = { s with enableCnt := s.enableCnt + 1, page := true } := by
        unfold enable
        rw [if_neg (by simpa using hzero)]
      rw [henable]
      exact ⟨h.fits, by simp [hzero, Collector.armed], fun _ => rfl, fun _ => hrunning,
        fun _ => hlists, fun _ _ hp => hp.elim⟩
  | enabled =>
      simp only [hc, Option.some.injEq] at hstep
      subst hstep
      rw [hc] at hcnt
      exact ⟨h.fits, hcnt, fun _ => h.page (by rw [hc]; rfl),
        fun _ => h.gcRunning (by rw [hc]; rfl), fun _ => h.threadsLocked (by rw [hc]; rfl),
        fun t ht hp => absurd ht hp⟩
  | checking todo seen =>
      have hpage := h.page (by rw [hc]; rfl)
      have hrunning := h.gcRunning (by rw [hc]; rfl)
      have hlists := h.threadsLocked (by rw [hc]; rfl)
      have hhalted := h.halted
      rw [hc] at hcnt hhalted
      cases todo with
      | nil =>
          simp only [hc, Option.some.injEq] at hstep
          subst hstep
          exact ⟨h.fits, hcnt, fun _ => hpage, fun _ => hrunning, fun _ => hlists,
            fun t ht _ => hhalted t ht List.not_mem_nil⟩
      | cons t rest =>
          simp only [hc] at hstep
          split at hstep
          · obtain rfl := Option.some.inj hstep
            exact ⟨h.fits, hcnt, fun _ => hpage, fun _ => hrunning, fun _ => hlists, hhalted⟩
          · rename_i hstate
            split at hstep
            · rename_i hseen
              obtain rfl := Option.some.inj hstep
              refine ⟨h.fits, hcnt, fun _ => hpage, fun _ => hrunning, fun _ => hlists,
                fun v hv hp => ?_⟩
              by_cases hvt : v = t
              · subst hvt
                refine halted_of_read hstate fun hmode => ?_
                simp only [ReadsSettled, hc, hseen] at hgood
                exact hgood hmode
              · exact hhalted v hv (by simpa [Collector.passed, hvt] using hp)
            · obtain rfl := Option.some.inj hstep
              exact ⟨h.fits, hcnt, fun _ => hpage, fun _ => hrunning, fun _ => hlists, hhalted⟩
  | stopped =>
      simp only [hc, Option.some.injEq] at hstep
      subst hstep
      rw [hc] at hcnt
      exact ⟨h.fits, hcnt, fun _ => h.page (by rw [hc]; rfl),
        fun _ => h.gcRunning (by rw [hc]; rfl), nofun, fun _ _ hp => hp.elim⟩
  | ending =>
      simp only [hc] at hstep
      obtain ⟨-, rfl⟩ := guard_eq_some.mp hstep
      rw [hc] at hcnt
      exact ⟨h.fits, hcnt, fun _ => h.page (by rw [hc]; rfl),
        fun _ => h.gcRunning (by rw [hc]; rfl), nofun, fun _ _ hp => hp.elim⟩
  | disabling =>
      simp only [hc, Option.some.injEq] at hstep
      subst hstep
      have hrunning := h.gcRunning (by rw [hc]; rfl)
      have hone : s.enableCnt = 1 := by rw [hcnt, hc]; rfl
      have hdisable : s.disable = { s with enableCnt := s.enableCnt - 1, page := false } := by
        unfold disable
        rw [if_neg (by simp [hone])]
      rw [hdisable]
      exact ⟨h.fits, by simp [hone, Collector.armed], nofun, fun _ => hrunning, nofun,
        fun _ _ hp => hp.elim⟩
  | disabled =>
      simp only [hc, Option.some.injEq] at hstep
      subst hstep
      rw [hc] at hcnt
      exact ⟨h.fits, hcnt, nofun, nofun, nofun, fun _ _ hp => hp.elim⟩
  | ended =>
      simp only [hc, Option.some.injEq] at hstep
      subst hstep
      rw [hc] at hcnt
      exact ⟨h.fits, hcnt, nofun, nofun, nofun, fun _ _ hp => hp.elim⟩
  | notifying =>
      simp only [hc, Option.some.injEq] at hstep
      subst hstep
      rw [hc] at hcnt
      exact ⟨fun t => notify_fits (h.fits t), hcnt, nofun, nofun, nofun, fun _ _ hp => hp.elim⟩

theorem Inv.step {mode : PollMode} {s u : Safepoints τ} {e : SafepointEvent τ} (h : s.Inv mode)
    (hgood : s.ReadsSettled mode e) (hstep : s.step mode e = some u) : u.Inv mode := by
  cases e with
  | mutate t =>
      obtain ⟨-, rfl⟩ := guard_eq_some.mp hstep
      exact h
  | safepoint t =>
      obtain ⟨⟨-, hplace⟩, rfl⟩ := guard_eq_some.mp hstep
      have hfits := h.fits t
      rw [hplace] at hfits
      rw [goto_eq_move]
      exact h.move hfits fun _ _ => trivial
  | gcStateSet t state =>
      obtain ⟨⟨-, hplace, hstate⟩, rfl⟩ := guard_eq_some.mp hstep
      obtain ⟨p, heq, hfits, hhalted⟩ := gcStateSet_eq_move mode s hplace hstate
      rw [heq]
      exact h.move hfits fun ht hp => hhalted (h.halted t ht hp)
  | advance t =>
      simp only [Safepoints.step] at hstep
      obtain ⟨-, hstep⟩ := Option.ite_none_right_eq_some.mp hstep
      obtain ⟨g, p, lock, rfl, hfits, hhalted⟩ := advance_eq_move (h.fits t) hstep
      refine h.move hfits fun ht hp => ?_
      obtain ⟨hpage, hrunning⟩ := h.armed hp
      exact hhalted hpage hrunning (h.halted t ht hp)
  | register t =>
      obtain ⟨⟨-, hlock⟩, rfl⟩ := guard_eq_some.mp hstep
      -- the collector holds no list, so nothing has been passed
      have hpassed : ∀ v, ¬ s.collector.passed v := by
        intro v hv
        have hlists : s.collector.lists = true := by
          cases hc : s.collector <;> simp_all [Collector.passed, Collector.lists]
        rw [h.threadsLocked hlists] at hlock
        cases hlock
      have hmove : (s.move t .running .run s.safepointLock).Inv mode :=
        h.move nofun fun _ hp => absurd hp (hpassed t)
      exact ⟨hmove.fits, hmove.enableCnt, hmove.page, hmove.gcRunning, hmove.threadsLocked,
        fun v _ hp => absurd hp (hpassed v)⟩
  | unregister t =>
      obtain ⟨-, rfl⟩ := guard_eq_some.mp hstep
      exact ⟨h.fits, h.enableCnt, h.page, h.gcRunning, h.threadsLocked,
        fun v hv hp => h.halted v (List.mem_of_mem_filter hv) hp⟩
  | collect => exact h.collect hgood hstep

theorem mutators_excluded {mode : PollMode} {s : Safepoints τ}
    (hs : (safepoints mode τ).Via (ReadsSettled mode) s) : s.Excluded mode := by
  have hinv : s.Inv mode := by
    refine Machine.Via.invariant ?_ (fun _ _ _ h hg hstep => h.step hg hstep) hs
    rintro s rfl
    exact ⟨fun _ => nofun, rfl, nofun, nofun, nofun, fun _ _ hp => hp.elim⟩
  intro hstopped t
  refine if_neg fun ⟨ht, hplace, hstate⟩ => ?_
  have hhalted := hinv.halted t ht (by rw [hstopped]; trivial)
  rw [hplace] at hhalted
  exact hhalted hstate

private def idleSafepoints : Safepoints (Fin 1) :=
  ⟨false, 0, false, none, false, [], fun _ => .running, fun _ => .run, .outside⟩

-- `begin` arms the page, the thread polls and waits, `begin` returns.
private def stopThread : List (SafepointEvent (Fin 1)) :=
  .register 0 :: List.replicate 5 .collect ++
    [.safepoint 0, .advance 0, .advance 0, .collect, .collect, .collect]

theorem mutators_excluded_while_waiting :
    ∃ s : Safepoints (Fin 1), (safepoints .conditional (Fin 1)).Via (ReadsSettled .conditional) s ∧
      s.collector = .stopped ∧ s.Excluded .conditional := by
  have hrun : ((safepoints .conditional (Fin 1)).runVia (ReadsSettled .conditional)
      idleSafepoints stopThread).map (·.collector) = some .stopped := by decide +kernel
  obtain ⟨s, hs, hstopped⟩ := Option.map_eq_some_iff.mp hrun
  have hvia := Machine.via_of_runVia
    (Machine.Via.init (m := safepoints .conditional (Fin 1)) rfl) hs
  exact ⟨s, hvia, hstopped, mutators_excluded hvia⟩

-- The thread leaves `wait_gc` when the first collection ends and is still in the
-- waiting state when the next `begin` reads it.
theorem conditional_thread_runs_in_stopped_world :
    ∃ s : Safepoints (Fin 1), (safepoints .conditional (Fin 1)).Reachable s ∧
      ¬ s.Excluded .conditional := by
  have hrun : ((safepoints .conditional (Fin 1)).run idleSafepoints
      (stopThread ++ List.replicate 6 .collect ++ [.advance 0, .advance 0] ++
        List.replicate 8 .collect ++ [.advance 0])).map
        (fun s => (s.collector, (s.step .conditional (.mutate 0)).isSome)) =
          some (.stopped, true) := by decide +kernel
  obtain ⟨s, hs, hs'⟩ := Option.map_eq_some_iff.mp hrun
  obtain ⟨hstopped, hmutate⟩ := Prod.mk.inj hs'
  refine ⟨s, Machine.run_reachable
    (Machine.Via.init (m := safepoints .conditional (Fin 1)) rfl) hs, fun hexcluded => ?_⟩
  rw [hexcluded hstopped 0] at hmutate
  cases hmutate

end Safepoints

end Rsgc.Control
