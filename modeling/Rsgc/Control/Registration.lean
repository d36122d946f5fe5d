import Mathlib.Data.List.Basic
import Mathlib.Logic.Function.Basic
import Rsgc.Lib.Machine

namespace Rsgc.Control

-- `LocalSSB`: the entries are those from `index` up to the size of the buffer.
-- There is no buffer before one is installed.
structure LocalSSB where
  index : Nat
  buf : Option (Nat → Nat)

namespace LocalSSB

def new : LocalSSB := ⟨0, none⟩

def setIndex (ssb : LocalSSB) (index : Nat) : LocalSSB := { ssb with index }

def setBuffer (ssb : LocalSSB) (buf : Nat → Nat) : LocalSSB := { ssb with buf := some buf }

def tryEnqueue (ssb : LocalSSB) (obj : Nat) : Option LocalSSB :=
  match ssb.index with
  | 0 => none
  | index + 1 => some ⟨index, ssb.buf.map fun buf => Function.update buf index obj⟩

-- What the loop of `Thread::flush_ssb` reads; without a buffer it reads from null.
def reads (ssb : LocalSSB) (size : Nat) : List (Option Nat) :=
  (List.range' ssb.index (size - ssb.index)).map fun i => ssb.buf.map fun buf => buf i

end LocalSSB

-- Where a thread is in `Thread::register` and `Threads::remove_current_thread`.
inductive RegisterPlace
  | unregistered
  | polling (left : Nat)
  | bufferSet
  | indexSet
  | registered
  | exiting
  | exited
deriving DecidableEq, Repr

-- `enqueued` is not in the source: what the thread has put into its buffer since
-- the buffer was emptied.
structure RegisteringThread where
  place : RegisterPlace
  satbMarkQueue : LocalSSB
  cmInProgress : Bool
  enqueued : List Nat

-- The pauses of the three kinds of cycles.
inductive Pause
  | initMark
  | finalMark
  | degenOutsideCycle
  | degenConcurrentMark
  | full
deriving DecidableEq, Repr

-- The world is stopped except in `running`; `marking` tells whether a concurrent
-- mark is under way there.
inductive CyclePhase (τ : Type*)
  | running (marking : Bool)
  | stopped (pause : Pause)
  | flushing (pause : Pause) (todo : List τ)
  | finished (pause : Pause)
deriving DecidableEq

structure Registration (τ : Type*) where
  concurrentMark : Bool
  threads : List τ
  thread : τ → RegisteringThread
  phase : CyclePhase τ

inductive RegistrationEvent (τ : Type*)
  | addThread (t : τ)
  | safepoint (t : τ)
  | setBuffer (t : τ) (buf : Nat → Nat)
  | setIndex (t : τ)
  | copyFlag (t : τ)
  | writeBarrier (t : τ) (obj : Nat)
  | removeThread (t : τ)
  | unlistThread (t : τ)
  | begin (pause : Pause)
  | work
  | flush
  | finish
  | cancelMark

namespace RegisteringThread

-- The thread is found outside state 0 by the collector, at a poll or in a safe scope.
def atPoll (th : RegisteringThread) : Bool :=
  match th.place with
  | .polling (_ + 1) | .registered | .exiting => true
  | _ => false

def goto (th : RegisteringThread) (place : RegisterPlace) : RegisteringThread :=
  { th with place }

-- The end of `flush_ssb`.
def emptied (th : RegisteringThread) (size : Nat) : RegisteringThread :=
  { th with satbMarkQueue := th.satbMarkQueue.setIndex size, enqueued := [] }

def toggleWriteBarrier (th : RegisteringThread) (value : Bool) : RegisteringThread :=
  { th with cmInProgress := value }

-- `raw_write_barrier` of an object that passes the filter; the slow path flushes
-- the thread's own full buffer and tries again.
def enqueue (th : RegisteringThread) (size obj : Nat) : Option RegisteringThread :=
  match th.satbMarkQueue.tryEnqueue obj with
  | some ssb => some { th with satbMarkQueue := ssb, enqueued := obj :: th.enqueued }
  | none =>
      ((th.emptied size).satbMarkQueue.tryEnqueue obj).map fun ssb =>
        { th with satbMarkQueue := ssb, enqueued := [obj] }

end RegisteringThread

namespace Registration

variable {τ : Type*} [DecidableEq τ]

def set (s : Registration τ) (t : τ) (th : RegisteringThread) : Registration τ :=
  { s with thread := Function.update s.thread t th }

def isRunning (s : Registration τ) : Bool :=
  match s.phase with
  | .running _ => true
  | _ => false

-- `toggle_write_barrier` and `ConcMark::cancel` for every thread of the list.
def forThreads (s : Registration τ) (f : RegisteringThread → RegisteringThread) :
    Registration τ :=
  { s with thread := fun t => if t ∈ s.threads then f (s.thread t) else s.thread t }

-- `size` is `max_satb_buffer_size`. A thread takes no step in a stopped world:
-- its next one would be the poll it is halted at or need the lock of the list.
def stepThread (size : Nat) (s : Registration τ) :
    RegistrationEvent τ → Option (Registration τ)
  | .addThread t =>
      if (s.thread t).place = .unregistered then
        some { s.set t ((s.thread t).goto (.polling 3)) with threads := s.threads ++ [t] }
      else none
  | .safepoint t =>
      match (s.thread t).place with
      | .polling (left + 1) => some (s.set t ((s.thread t).goto (.polling left)))
      | .registered => some s
      | _ => none
  | .setBuffer t buf =>
      if (s.thread t).place = .polling 0 then
        some (s.set t { s.thread t with
          place := .bufferSet, satbMarkQueue := (s.thread t).satbMarkQueue.setBuffer buf })
      else none
  | .setIndex t =>
      if (s.thread t).place = .bufferSet then
        some (s.set t { s.thread t with
          place := .indexSet, satbMarkQueue := (s.thread t).satbMarkQueue.setIndex size })
      else none
  | .copyFlag t =>
      if (s.thread t).place = .indexSet then
        some (s.set t { s.thread t with place := .registered, cmInProgress := s.concurrentMark })
      else none
  | .writeBarrier t obj =>
      if (s.thread t).place = .registered ∧ (s.thread t).cmInProgress then
        ((s.thread t).enqueue size obj).map (s.set t)
      else none
  | .removeThread t =>
      if (s.thread t).place = .registered then
        some (s.set t (((s.thread t).emptied size).goto .exiting))
      else none
  | .unlistThread t =>
      if (s.thread t).place = .exiting then
        some { s.set t ((s.thread t).goto .exited) with threads := s.threads.filter (· ≠ t) }
      else none
  | _ => none

-- What a pause does to the buffers and the flags, with the world stopped. The
-- thread whose buffer is flushed next is the head of the list.
def stepCollector (size : Nat) (s : Registration τ) :
    RegistrationEvent τ → Option (Registration τ)
  | .begin pause =>
      match s.phase with
      | .running marking =>
          if marking = (pause == .finalMark) ∧ ∀ t ∈ s.threads, (s.thread t).atPoll then
            some { s with phase := .stopped pause }
          else none
      | _ => none
  | .work =>
      match s.phase with
      | .stopped .initMark =>
          some { s.forThreads (·.toggleWriteBarrier true) with
            concurrentMark := true, phase := .finished .initMark }
      | .stopped .finalMark =>
          some { s with concurrentMark := false, phase := .flushing .finalMark s.threads }
      | .stopped .degenOutsideCycle =>
          some { s.forThreads fun th => (th.emptied size).toggleWriteBarrier false with
            concurrentMark := false, phase := .finished .degenOutsideCycle }
      | .stopped .degenConcurrentMark =>
          if s.concurrentMark then
            some { s with phase := .flushing .degenConcurrentMark s.threads }
          else some { s with phase := .finished .degenConcurrentMark }
      | .stopped .full => some { s with phase := .finished .full }
      | _ => none
  | .flush =>
      match s.phase with
      | .flushing pause (t :: todo) =>
          -- a read from null ends the process
          if (s.thread t).satbMarkQueue.buf = none ∧ (s.thread t).satbMarkQueue.index < size then
            none
          else
            some { s.set t (((s.thread t).emptied size).toggleWriteBarrier false) with
              phase := .flushing pause todo }
      | .flushing pause [] => some { s with concurrentMark := false, phase := .finished pause }
      | _ => none
  | .finish =>
      match s.phase with
      | .finished pause => some { s with phase := .running (pause == .initMark) }
      | _ => none
  | .cancelMark =>
      match s.phase with
      | .running true => some { s with phase := .running false }
      | _ => none
  | _ => none

def step (size : Nat) (s : Registration τ) (e : RegistrationEvent τ) : Option (Registration τ) :=
  match e with
  | .begin _ | .work | .flush | .finish | .cancelMark => s.stepCollector size e
  | _ => if s.isRunning then s.stepThread size e else none

end Registration

def registration (size : Nat) (τ : Type*) [DecidableEq τ] :
    Machine (Registration τ) (RegistrationEvent τ) where
  init s := s = ⟨false, [], fun _ => ⟨.unregistered, .new, false, []⟩, .running false⟩
  step := Registration.step size

namespace Registration

variable {τ : Type*} [DecidableEq τ]

-- The entries that are read of the thread whose buffer is flushed next are those
-- it has enqueued into an installed buffer.
def FlushesOwnEntries (size : Nat) (s : Registration τ) : Prop :=
  ∀ pause t todo, s.phase = .flushing pause (t :: todo) →
    (s.thread t).satbMarkQueue.reads size = (s.thread t).enqueued.map some

-- No pause starts to flush the buffers while the index of a listed thread without
-- a buffer is still the initial one.
def BuffersInstalled (size : Nat) (s : Registration τ) : RegistrationEvent τ → Prop
  | .work =>
      s.phase = .stopped .finalMark ∨
          s.phase = .stopped .degenConcurrentMark ∧ s.concurrentMark = true →
        ∀ t ∈ s.threads, (s.thread t).satbMarkQueue.buf.isSome = true ∨
          (s.thread t).satbMarkQueue.index = size
  | _ => True

instance (size : Nat) (s : Registration τ) (e : RegistrationEvent τ) :
    Decidable (s.BuffersInstalled size e) := by
  unfold BuffersInstalled
  split <;> infer_instance

end Registration

-- The buffer holds what the thread has enqueued; before one is installed the
-- thread has enqueued nothing.
def RegisteringThread.Consistent (size : Nat) (th : RegisteringThread) : Prop :=
  match th.place with
  | .unregistered | .polling _ => th.satbMarkQueue.buf = none ∧ th.enqueued = []
  | .bufferSet => th.satbMarkQueue.buf.isSome = true ∧ th.enqueued = []
  | .indexSet | .registered | .exiting | .exited =>
      th.satbMarkQueue.buf.isSome = true ∧ th.satbMarkQueue.index ≤ size ∧
        th.satbMarkQueue.reads size = th.enqueued.map some

namespace LocalSSB

@[simp] theorem reads_setIndex (ssb : LocalSSB) (size : Nat) :
    (ssb.setIndex size).reads size = [] := by
  simp [reads, setIndex]

theorem tryEnqueue_reads {ssb ssb' : LocalSSB} {size obj : Nat}
    (h : ssb.tryEnqueue obj = some ssb') (hbuf : ssb.buf.isSome = true) (hle : ssb.index ≤ size) :
    ssb'.buf.isSome = true ∧ ssb'.index ≤ size ∧
      ssb'.reads size = some obj :: ssb.reads size := by
  obtain ⟨index, buf⟩ := ssb
  obtain ⟨buf, rfl⟩ := Option.isSome_iff_exists.mp hbuf
  cases index with
  | zero => cases h
  | succ index =>
      obtain rfl := Option.some.inj h
      have hlt : index < size := hle
      refine ⟨rfl, Nat.le_of_lt hlt, ?_⟩
      have hlen : size - index = (size - (index + 1)) + 1 := by omega
      simp only [reads, hlen, List.range'_succ, List.map_cons, Option.map_some,
        Function.update_self]
      -- the entries from `index + 1` on are as before
      congr 1
      refine List.map_congr_left fun i hi => ?_
      have hne : i ≠ index := by
        have := List.mem_range'_1.mp hi
        omega
      rw [Function.update_of_ne hne]

end LocalSSB

namespace RegisteringThread

theorem enqueue_consistent {th th' : RegisteringThread} {size obj : Nat}
    (h : th.Consistent size) (hplace : th.place = .registered)
    (henqueue : th.enqueue size obj = some th') : th'.Consistent size := by
  unfold Consistent at h
  rw [hplace] at h
  obtain ⟨hbuf, hle, hreads⟩ := h
  unfold enqueue at henqueue
  split at henqueue
  · rename_i ssb hssb
    obtain rfl := Option.some.inj henqueue
    obtain ⟨hbuf', hle', hreads'⟩ := LocalSSB.tryEnqueue_reads hssb hbuf hle
    simp only [Consistent, hplace]
    exact ⟨hbuf', hle', by rw [hreads', hreads]; rfl⟩
  · obtain ⟨ssb, hssb, rfl⟩ := Option.map_eq_some_iff.mp henqueue
    obtain ⟨hbuf', hle', hreads'⟩ := LocalSSB.tryEnqueue_reads hssb hbuf (Nat.le_refl size)
    simp only [Consistent, hplace]
    refine ⟨hbuf', hle', ?_⟩
    rw [hreads']
    simp [emptied]

-- The collector empties the buffer of a thread that is at a poll.
theorem emptied_consistent {th : RegisteringThread} {size : Nat}
    (h : th.Consistent size) (hpoll : th.atPoll = true) : (th.emptied size).Consistent size := by
  unfold atPoll at hpoll
  unfold Consistent at h
  cases hplace : th.place with
  | polling left =>
      rw [hplace] at h
      simp only [Consistent, emptied, hplace]
      exact ⟨h.1, trivial⟩
  | registered | exiting =>
      rw [hplace] at h
      simp only [Consistent, emptied, hplace]
      exact ⟨h.1, Nat.le_refl size, LocalSSB.reads_setIndex ..⟩
  | unregistered | bufferSet | indexSet | exited => simp [hplace] at hpoll

end RegisteringThread

namespace Registration

variable {τ : Type*} [DecidableEq τ]

structure Inv (size : Nat) (s : Registration τ) : Prop where
  consistent : ∀ t, (s.thread t).Consistent size
  polls : s.isRunning = false → ∀ t ∈ s.threads, (s.thread t).atPoll = true
  todo : ∀ pause todo, s.phase = .flushing pause todo → ∀ t ∈ todo, t ∈ s.threads ∧
    ((s.thread t).satbMarkQueue.buf.isSome = true ∨ (s.thread t).satbMarkQueue.index = size)

-- In a running world only the buffers matter.
omit [DecidableEq τ] in
theorem Inv.of_running {size : Nat} {s : Registration τ} (hrun : s.isRunning = true)
    (h : ∀ t, (s.thread t).Consistent size) : s.Inv size := by
  refine ⟨h, fun hstopped => ?_, fun pause todo hphase => ?_⟩
  · rw [hrun] at hstopped
    cases hstopped
  · simp [isRunning, hphase] at hrun

theorem consistent_set {size : Nat} {s : Registration τ} (h : s.Inv size) {t : τ}
    {th : RegisteringThread} (hth : th.Consistent size) (u : τ) :
    ((s.set t th).thread u).Consistent size := by
  by_cases hut : u = t
  · subst hut
    simpa [Registration.set] using hth
  · simpa [Registration.set, Function.update_of_ne hut] using h.consistent u

theorem Inv.set {size : Nat} {s : Registration τ} (h : s.Inv size) (hrun : s.isRunning = true)
    {t : τ} {th : RegisteringThread} (hth : th.Consistent size) : (s.set t th).Inv size :=
  Inv.of_running hrun (consistent_set h hth)

theorem Inv.stepThread {size : Nat} {s u : Registration τ} {e : RegistrationEvent τ}
    (h : s.Inv size) (hrun : s.isRunning = true) (hstep : s.stepThread size e = some u) :
    u.Inv size := by
  cases e with
  | addThread t =>
      obtain ⟨hplace, rfl⟩ := guard_eq_some.mp hstep
      have hth := h.consistent t
      simp only [RegisteringThread.Consistent, hplace] at hth
      have hlisted : ((s.thread t).goto (.polling 3)).Consistent size := hth
      exact Inv.of_running hrun (consistent_set h hlisted)
  | safepoint t =>
      simp only [Registration.stepThread] at hstep
      split at hstep
      · rename_i left hplace
        obtain rfl := Option.some.inj hstep
        have hth := h.consistent t
        simp only [RegisteringThread.Consistent, hplace] at hth
        exact h.set hrun hth
      · obtain rfl := Option.some.inj hstep
        exact h
      · cases hstep
  | setBuffer t buf =>
      obtain ⟨hplace, rfl⟩ := guard_eq_some.mp hstep
      have hth := h.consistent t
      simp only [RegisteringThread.Consistent, hplace] at hth
      exact h.set hrun ⟨rfl, hth.2⟩
  | setIndex t =>
      obtain ⟨hplace, rfl⟩ := guard_eq_some.mp hstep
      have hth := h.consistent t
      simp only [RegisteringThread.Consistent, hplace] at hth
      refine h.set hrun ⟨hth.1, Nat.le_refl size, ?_⟩
      rw [LocalSSB.reads_setIndex, hth.2]
      rfl
  | copyFlag t =>
      obtain ⟨hplace, rfl⟩ := guard_eq_some.mp hstep
      have hth := h.consistent t
      simp only [RegisteringThread.Consistent, hplace] at hth
      exact h.set hrun hth
  | writeBarrier t obj =>
      simp only [Registration.stepThread] at hstep
      obtain ⟨⟨hplace, -⟩, hstep⟩ := Option.ite_none_right_eq_some.mp hstep
      obtain ⟨th, hth, rfl⟩ := Option.map_eq_some_iff.mp hstep
      exact h.set hrun (RegisteringThread.enqueue_consistent (h.consistent t) hplace hth)
  | removeThread t =>
      obtain ⟨hplace, rfl⟩ := guard_eq_some.mp hstep
      have hth := h.consistent t
      simp only [RegisteringThread.Consistent, hplace] at hth
      exact h.set hrun ⟨hth.1, Nat.le_refl size, LocalSSB.reads_setIndex ..⟩
  | unlistThread t =>
      obtain ⟨hplace, rfl⟩ := guard_eq_some.mp hstep
      have hth := h.consistent t
      simp only [RegisteringThread.Consistent, hplace] at hth
      have hexited : ((s.thread t).goto .exited).Consistent size := hth
      exact Inv.of_running hrun (consistent_set h hexited)
  | begin | work | flush | finish | cancelMark => cases hstep

-- The work of a pause on the threads of the list, which are all at a poll.
theorem Inv.forThreads {size : Nat} {s : Registration τ} (h : s.Inv size)
    {f : RegisteringThread → RegisteringThread}
    (hf : ∀ t ∈ s.threads, (f (s.thread t)).Consistent size) (t : τ) :
    ((s.forThreads f).thread t).Consistent size := by
  unfold Registration.forThreads
  by_cases ht : t ∈ s.threads
  · simpa [ht] using hf t ht
  · simpa [ht] using h.consistent t

theorem forThreads_atPoll {s : Registration τ} (h : ∀ t ∈ s.threads, (s.thread t).atPoll = true)
    {f : RegisteringThread → RegisteringThread} (hf : ∀ th, (f th).atPoll = th.atPoll) :
    ∀ t ∈ (s.forThreads f).threads, ((s.forThreads f).thread t).atPoll = true := by
  intro t ht
  have ht' : t ∈ s.threads := ht
  simpa [Registration.forThreads, ht', hf] using h t ht'

theorem Inv.work {size : Nat} {s u : Registration τ} (h : s.Inv size)
    (hgood : s.BuffersInstalled size .work) (hstep : s.stepCollector size .work = some u) :
    u.Inv size := by
  simp only [stepCollector] at hstep
  split at hstep
  · rename_i hphase
    obtain rfl := Option.some.inj hstep
    have hpolls := h.polls (by simp [isRunning, hphase])
    have hpolls' := forThreads_atPoll (f := (·.toggleWriteBarrier true)) hpolls fun _ => rfl
    exact ⟨h.forThreads (f := (·.toggleWriteBarrier true)) fun t _ => h.consistent t,
      fun _ => hpolls', nofun⟩
  · rename_i hphase
    obtain rfl := Option.some.inj hstep
    have hpolls := h.polls (by simp [isRunning, hphase])
    refine ⟨h.consistent, fun _ => hpolls, fun pause todo hflush t ht => ?_⟩
    obtain ⟨rfl, rfl⟩ := CyclePhase.flushing.inj hflush
    exact ⟨ht, hgood (Or.inl hphase) t ht⟩
  · rename_i hphase
    obtain rfl := Option.some.inj hstep
    have hpolls := h.polls (by simp [isRunning, hphase])
    have hpolls' := forThreads_atPoll (f := fun th => (th.emptied size).toggleWriteBarrier false)
      hpolls fun _ => rfl
    have hempty : ∀ t ∈ s.threads,
        (((s.thread t).emptied size).toggleWriteBarrier false).Consistent size := by
      intro t ht
      have hemptied := RegisteringThread.emptied_consistent (h.consistent t) (hpolls t ht)
      exact hemptied
    exact ⟨h.forThreads (f := fun th => (th.emptied size).toggleWriteBarrier false) hempty,
      fun _ => hpolls', nofun⟩
  · rename_i hphase
    have hpolls := h.polls (by simp [isRunning, hphase])
    split at hstep
    · rename_i hmark
      obtain rfl := Option.some.inj hstep
      refine ⟨h.consistent, fun _ => hpolls, fun pause todo hflush t ht => ?_⟩
      obtain ⟨rfl, rfl⟩ := CyclePhase.flushing.inj hflush
      exact ⟨ht, hgood (Or.inr ⟨hphase, hmark⟩) t ht⟩
    · obtain rfl := Option.some.inj hstep
      exact ⟨h.consistent, fun _ => hpolls, nofun⟩
  · rename_i hphase
    obtain rfl := Option.some.inj hstep
    exact ⟨h.consistent, fun _ => h.polls (by simp [isRunning, hphase]), nofun⟩
  · cases hstep

theorem Inv.flush {size : Nat} {s u : Registration τ} (h : s.Inv size)
    (hstep : s.stepCollector size .flush = some u) : u.Inv size := by
  simp only [stepCollector] at hstep
  split at hstep
  · rename_i pause t todo hphase
    obtain ⟨-, rfl⟩ := guard_not_eq_some.mp hstep
    have hpolls := h.polls (by simp [isRunning, hphase])
    have htodo := h.todo pause (t :: todo) hphase
    have ht := (htodo t List.mem_cons_self).1
    have hemptied := RegisteringThread.emptied_consistent (h.consistent t) (hpolls t ht)
    have hempty : (((s.thread t).emptied size).toggleWriteBarrier false).Consistent size := hemptied
    refine ⟨consistent_set h hempty, fun _ v hv => ?_, fun pause' todo' hflush v hv => ?_⟩
    · by_cases hvt : v = t
      · subst hvt
        have hpoll : (((s.thread v).emptied size).toggleWriteBarrier false).atPoll = true :=
          hpolls v hv
        simpa [Registration.set] using hpoll
      · simpa [Registration.set, Function.update_of_ne hvt] using hpolls v hv
    · obtain ⟨rfl, rfl⟩ := CyclePhase.flushing.inj hflush
      obtain ⟨hlisted, hready⟩ := htodo v (List.mem_cons_of_mem _ hv)
      refine ⟨hlisted, ?_⟩
      by_cases hvt : v = t
      · subst hvt
        exact Or.inr (by simp [Registration.set, RegisteringThread.emptied,
          RegisteringThread.toggleWriteBarrier, LocalSSB.setIndex])
      · simpa [Registration.set, Function.update_of_ne hvt] using hready
  · rename_i pause hphase
    obtain rfl := Option.some.inj hstep
    exact ⟨h.consistent, fun _ => h.polls (by simp [isRunning, hphase]), nofun⟩
  · cases hstep

theorem Inv.stepCollector {size : Nat} {s u : Registration τ} {e : RegistrationEvent τ}
    (h : s.Inv size) (hgood : s.BuffersInstalled size e)
    (hstep : s.stepCollector size e = some u) : u.Inv size := by
  cases e with
  | begin pause =>
      simp only [Registration.stepCollector] at hstep
      split at hstep
      · obtain ⟨⟨-, hpolls⟩, rfl⟩ := guard_eq_some.mp hstep
        exact ⟨h.consistent, fun _ => hpolls, nofun⟩
      · cases hstep
  | work => exact h.work hgood hstep
  | flush => exact h.flush hstep
  | finish =>
      simp only [Registration.stepCollector] at hstep
      split at hstep
      · obtain rfl := Option.some.inj hstep
        exact Inv.of_running rfl h.consistent
      · cases hstep
  | cancelMark =>
      simp only [Registration.stepCollector] at hstep
      split at hstep
      · obtain rfl := Option.some.inj hstep
        exact Inv.of_running rfl h.consistent
      · cases hstep
  | addThread | safepoint | setBuffer | setIndex | copyFlag | writeBarrier | removeThread
  | unlistThread => cases hstep

theorem Inv.step {size : Nat} {s u : Registration τ} {e : RegistrationEvent τ} (h : s.Inv size)
    (hgood : s.BuffersInstalled size e) (hstep : s.step size e = some u) : u.Inv size := by
  unfold Registration.step at hstep
  split at hstep
  case h_6 =>
    obtain ⟨hrun, hstep⟩ := Option.ite_none_right_eq_some.mp hstep
    exact h.stepThread hrun hstep
  all_goals exact h.stepCollector hgood hstep

theorem flushes_own_entries {size : Nat} {s : Registration τ}
    (hs : (registration size τ).Via (BuffersInstalled size) s) : s.FlushesOwnEntries size := by
  have h : s.Inv size := by
    refine Machine.Via.invariant ?_ (fun _ _ _ h hg hstep => h.step hg hstep) hs
    rintro s rfl
    exact Inv.of_running rfl fun _ => ⟨rfl, rfl⟩
  intro pause t todo hphase
  obtain ⟨hlisted, hready⟩ := h.todo pause (t :: todo) hphase t List.mem_cons_self
  have hpoll := h.polls (by simp [isRunning, hphase]) t hlisted
  have hth := h.consistent t
  unfold RegisteringThread.atPoll at hpoll
  unfold RegisteringThread.Consistent at hth
  cases hplace : (s.thread t).place with
  | polling left =>
      -- without a buffer, so the index is at the end
      rw [hplace] at hth
      have hindex := hready.resolve_left (by simp [hth.1])
      rw [hth.2]
      simp [LocalSSB.reads, hindex]
  | registered | exiting =>
      rw [hplace] at hth
      exact hth.2.2
  | unregistered | bufferSet | indexSet | exited => simp [hplace] at hpoll

private def noThreads : Registration (Fin 1) :=
  ⟨false, [], fun _ => ⟨.unregistered, .new, false, []⟩, .running false⟩

-- The thread is registered between two cycles; the barrier enqueues two objects
-- while the second one marks.
theorem flushes_own_entries_of_registered :
    ∃ s : Registration (Fin 1), (registration 4 (Fin 1)).Via (BuffersInstalled 4) s ∧
      s.phase = .flushing .finalMark [0] ∧ s.FlushesOwnEntries 4 := by
  have hrun : ((registration 4 (Fin 1)).runVia (BuffersInstalled 4) noThreads
      [.addThread 0, .safepoint 0, .safepoint 0, .safepoint 0, .setBuffer 0 fun _ => 0,
        .setIndex 0, .copyFlag 0, .begin .initMark, .work, .finish, .writeBarrier 0 16,
        .writeBarrier 0 32, .begin .finalMark, .work]).map (·.phase) =
          some (.flushing .finalMark [0]) := by decide +kernel
  obtain ⟨s, hs, hphase⟩ := Option.map_eq_some_iff.mp hrun
  have hvia := Machine.via_of_runVia (Machine.Via.init (m := registration 4 (Fin 1)) rfl) hs
  exact ⟨s, hvia, hphase, flushes_own_entries hvia⟩

-- The final mark stops the thread at the first poll of `register`.
theorem flush_reads_missing_buffer :
    ∃ s : Registration (Fin 1), (registration 4 (Fin 1)).Reachable s ∧
      ¬ s.FlushesOwnEntries 4 := by
  have hrun : ((registration 4 (Fin 1)).run noThreads
      [.begin .initMark, .work, .finish, .addThread 0, .begin .finalMark, .work]).map
        (fun s => (s.phase, (s.thread 0).satbMarkQueue.reads 4, (s.thread 0).enqueued)) =
          some (.flushing .finalMark [0], [none, none, none, none], []) := by decide +kernel
  obtain ⟨s, hs, hs'⟩ := Option.map_eq_some_iff.mp hrun
  simp only [Prod.mk.injEq] at hs'
  obtain ⟨hphase, hreads, henqueued⟩ := hs'
  refine ⟨s, Machine.run_reachable (Machine.Via.init (m := registration 4 (Fin 1)) rfl) hs,
    fun hown => ?_⟩
  have hflush := hown .finalMark 0 [] hphase
  rw [hreads, henqueued] at hflush
  cases hflush

end Registration

end Rsgc.Control
