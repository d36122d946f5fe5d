import Mathlib.Data.Fintype.Basic
import Mathlib.Data.List.Range
import Mathlib.Logic.Function.Basic
import Rsgc.Lib.Machine

namespace Rsgc.Control

inductive GCMode
  | none
  | concurrent
  | stwDegen
  | stwFull
deriving DecidableEq, Repr

-- What `run_service` asks the heuristics and the options in one turn.
structure Heuristics where
  shouldDegenerateCycle : Bool
  shouldStartGc : Bool
  alwaysFull : Bool
deriving DecidableEq, Repr

-- The choice of the mode in `ControlThread::run_service`.
def selectMode (allocFailurePending explicitGcRequested : Bool) (heuristics : Heuristics) :
    GCMode :=
  let mode :=
    if allocFailurePending then
      if heuristics.shouldDegenerateCycle then GCMode.stwDegen else .stwFull
    else if explicitGcRequested then .stwFull
    else if heuristics.shouldStartGc then .concurrent
    else .none
  if mode = .none then .none
  else if heuristics.alwaysFull then .stwFull
  else mode

-- Where a thread is in `handle_requested_gc`. `since` is the counter when the
-- call began: cycles up to it had started before.
inductive Caller
  | idle
  | locking (since : Nat)
  | entered (since : Nat)
  | requesting (since requiredGcId : Nat)
  | requested (since requiredGcId : Nat)
  | waiting (since requiredGcId : Nat)
  | woken (since requiredGcId : Nat)
  | rechecking (since requiredGcId : Nat)
  | leaving (since : Nat)
  | returned (since : Nat)
deriving DecidableEq, Repr

-- Where the controller is in a turn of `run_service`; the flags are the ones it
-- read when the turn began.
inductive Controller
  | polling
  | chosen (explicitGcRequested allocFailurePending : Bool) (mode : GCMode)
  | collecting (explicitGcRequested allocFailurePending : Bool) (mode : GCMode)
  | collected (explicitGcRequested allocFailurePending : Bool)
  | unsetRequest (allocFailurePending : Bool)
  | lockedWaiters (allocFailurePending : Bool)
  | notifiedWaiters (allocFailurePending : Bool)
  | notifiedGc (allocFailurePending : Bool)
  | terminated
deriving DecidableEq, Repr

inductive Holder (τ : Type*)
  | caller (thread : τ)
  | controller
deriving DecidableEq

-- `completed` and `cancelled` are not in the source: the numbers of the cycles
-- that have run to completion, and of the concurrent ones that were given up.
structure GcRequests (τ : Type*) where
  gcId : Nat
  gcRequested : Bool
  allocFailureGc : Bool
  gcWaitersLock : Option (Holder τ)
  caller : τ → Caller
  controller : Controller
  completed : List Nat
  cancelled : List Nat

inductive RequestEvent (τ : Type*)
  | call (thread : τ)
  | lock (thread : τ)
  | readGcId (thread : τ)
  | request (thread : τ)
  | wait (thread : τ)
  | relock (thread : τ)
  | recheck (thread : τ)
  | leave (thread : τ)
  | allocFailure
  | poll (heuristics : Heuristics)
  | updateGcId
  | finishCycle
  | cancelCycle
  | unsetRequest
  | lockWaiters
  | notifyAll
  | dropLocker
  | endTurn
  | terminate
deriving DecidableEq

def Caller.notified : Caller → Caller
  | .waiting since requiredGcId => .woken since requiredGcId
  | c => c

-- What is known of a caller by its place, from the counter and the cycles that
-- have been completed. One that was woken finds its cycle counted after a completed one.
def Caller.Fits (gcId : Nat) (completed : List Nat) : Caller → Prop
  | .idle => True
  | .locking since | .entered since => since ≤ gcId
  | .requesting since requiredGcId | .requested since requiredGcId
  | .waiting since requiredGcId => since < requiredGcId
  | .woken since requiredGcId | .rechecking since requiredGcId =>
      since < requiredGcId ∧ (requiredGcId ≤ gcId → ∃ c ∈ completed, requiredGcId ≤ c)
  | .leaving since | .returned since => ∃ c ∈ completed, since < c

-- The cycle that a waiting caller requires.
def Caller.awaited : Caller → Option Nat
  | .waiting _ requiredGcId => some requiredGcId
  | _ => none

-- The cycle that a caller requires which was woken and has not looked at the counter.
def Caller.woke : Caller → Option Nat
  | .woken _ requiredGcId | .rechecking _ requiredGcId => some requiredGcId
  | _ => none

-- An explicit request is served by a cycle that cannot be cancelled, and its waiters are
-- notified behind it.
def Controller.Fits (gcId : Nat) (completed : List Nat) : Controller → Prop
  | .chosen true _ mode | .collecting true _ mode => mode ≠ .concurrent
  | .collected true _ | .unsetRequest _ | .lockedWaiters _ | .notifiedWaiters _ =>
      gcId ∈ completed
  | _ => True

namespace GcRequests

variable {τ : Type*} [DecidableEq τ]

def setCaller (s : GcRequests τ) (thread : τ) (c : Caller) : GcRequests τ :=
  { s with caller := Function.update s.caller thread c }

-- `Condvar::notify_all`
def notifyAll (s : GcRequests τ) : GcRequests τ :=
  { s with caller := fun thread => (s.caller thread).notified }

-- The number of the cycle that is running.
def running (s : GcRequests τ) : Option Nat :=
  match s.controller with
  | .collecting _ _ _ => some s.gcId
  | _ => none

-- `ControlThread::handle_requested_gc`. The locker notifies all waiters when it
-- is dropped.
def stepCaller (s : GcRequests τ) : RequestEvent τ → Option (GcRequests τ)
  | .call thread =>
      match s.caller thread with
      | .idle | .returned _ => some (s.setCaller thread (.locking s.gcId))
      | _ => none
  | .lock thread =>
      match s.caller thread, s.gcWaitersLock with
      | .locking since, none =>
          some { s.setCaller thread (.entered since) with gcWaitersLock := some (.caller thread) }
      | _, _ => none
  | .readGcId thread =>
      match s.caller thread with
      | .entered since => some (s.setCaller thread (.requesting since (s.gcId + 1)))
      | _ => none
  | .request thread =>
      match s.caller thread with
      | .requesting since requiredGcId =>
          some { s.setCaller thread (.requested since requiredGcId) with gcRequested := true }
      | _ => none
  | .wait thread =>
      match s.caller thread with
      | .requested since requiredGcId =>
          some { s.setCaller thread (.waiting since requiredGcId) with gcWaitersLock := none }
      | _ => none
  | .relock thread =>
      match s.caller thread, s.gcWaitersLock with
      | .woken since requiredGcId, none =>
          some { s.setCaller thread (.rechecking since requiredGcId) with
            gcWaitersLock := some (.caller thread) }
      | _, _ => none
  | .recheck thread =>
      match s.caller thread with
      | .rechecking since requiredGcId =>
          if s.gcId < requiredGcId then
            some (s.setCaller thread (.requesting since requiredGcId))
          else some (s.setCaller thread (.leaving since))
      | _ => none
  | .leave thread =>
      match s.caller thread with
      | .leaving since =>
          some { (s.setCaller thread (.returned since)).notifyAll with gcWaitersLock := none }
      | _ => none
  | _ => none

-- `ControlThread::run_service` and `notify_gc_waiters`. Only a concurrent cycle
-- can be cancelled.
def stepController (s : GcRequests τ) : RequestEvent τ → Option (GcRequests τ)
  | .allocFailure => some { s with allocFailureGc := true }
  | .poll heuristics =>
      match s.controller with
      | .polling =>
          let mode := selectMode s.allocFailureGc s.gcRequested heuristics
          some { s with controller :=
            if mode = .none then .polling else .chosen s.gcRequested s.allocFailureGc mode }
      | _ => none
  | .updateGcId =>
      match s.controller with
      | .chosen explicit pending mode =>
          some { s with gcId := s.gcId + 1, controller := .collecting explicit pending mode }
      | _ => none
  | .finishCycle =>
      match s.controller with
      | .collecting explicit pending _ =>
          some { s with controller := .collected explicit pending,
                        completed := s.gcId :: s.completed }
      | _ => none
  | .cancelCycle =>
      match s.controller with
      | .collecting explicit pending .concurrent =>
          some { s with controller := .collected explicit pending,
                        cancelled := s.gcId :: s.cancelled }
      | _ => none
  | .unsetRequest =>
      match s.controller with
      | .collected true pending =>
          some { s with controller := .unsetRequest pending, gcRequested := false }
      | .collected false pending => some { s with controller := .notifiedGc pending }
      | _ => none
  | .lockWaiters =>
      match s.controller, s.gcWaitersLock with
      | .unsetRequest pending, none =>
          some { s with controller := .lockedWaiters pending, gcWaitersLock := some .controller }
      | _, _ => none
  | .notifyAll =>
      match s.controller with
      | .lockedWaiters pending => some { s.notifyAll with controller := .notifiedWaiters pending }
      | _ => none
  | .dropLocker =>
      match s.controller with
      | .notifiedWaiters pending =>
          some { s.notifyAll with controller := .notifiedGc pending, gcWaitersLock := none }
      | _ => none
  | .endTurn =>
      match s.controller with
      | .notifiedGc pending =>
          some { s with controller := .polling,
                        allocFailureGc := if pending then false else s.allocFailureGc }
      | _ => none
  | .terminate =>
      match s.controller with
      | .polling => some { s with controller := .terminated }
      | _ => none
  | _ => none

def step (s : GcRequests τ) (e : RequestEvent τ) : Option (GcRequests τ) :=
  match e with
  | .call _ | .lock _ | .readGcId _ | .request _ | .wait _ | .relock _ | .recheck _ | .leave _ =>
      s.stepCaller e
  | _ => s.stepController e

end GcRequests

def gcRequests (τ : Type*) [DecidableEq τ] : Machine (GcRequests τ) (RequestEvent τ) where
  init s := s = ⟨0, false, false, none, fun _ => .idle, .polling, [], []⟩
  step := GcRequests.step

namespace GcRequests

variable {τ : Type*} [DecidableEq τ]

-- A call has returned only after a cycle that started after it began was completed.
def Served (s : GcRequests τ) : Prop :=
  ∀ thread since, s.caller thread = .returned since → ∃ c ∈ s.completed, since < c

-- The cycle has been counted, but of those from it on one is running, and the others were
-- cancelled.
def Unfinished (s : GcRequests τ) (requiredGcId : Nat) : Prop :=
  requiredGcId ≤ s.gcId ∧ ∀ c ∈ List.range (s.gcId + 1), requiredGcId ≤ c →
    c ∈ s.cancelled ∨ s.running = some c

instance (s : GcRequests τ) (requiredGcId : Nat) : Decidable (s.Unfinished requiredGcId) := by
  unfold Unfinished; infer_instance

-- The counter is raised when a cycle starts, and a caller that returns wakes the others at
-- any time: it must not wake one whose cycle is unfinished, and no cycle may start that a
-- woken one requires before that one has looked at the counter.
def NotWokenEarly (s : GcRequests τ) : RequestEvent τ → Prop
  | .leave _ => ∀ thread, ∀ requiredGcId ∈ (s.caller thread).awaited, ¬s.Unfinished requiredGcId
  | .updateGcId => ∀ thread, (s.caller thread).woke ≠ some (s.gcId + 1)
  | _ => True

instance [Fintype τ] (s : GcRequests τ) (e : RequestEvent τ) : Decidable (s.NotWokenEarly e) := by
  unfold NotWokenEarly
  split <;> infer_instance

-- Every counted cycle is accounted for.
structure Inv (s : GcRequests τ) : Prop where
  callers : ∀ thread, Caller.Fits s.gcId s.completed (s.caller thread)
  controller : Controller.Fits s.gcId s.completed s.controller
  cycles : ∀ c, 0 < c → c ≤ s.gcId → c ∈ s.completed ∨ c ∈ s.cancelled ∨ s.running = some c

end GcRequests

-- A caller can be woken when its cycle is not counted, or one from it on was completed.
theorem Caller.Fits.notified {gcId : Nat} {completed : List Nat} {c : Caller}
    (h : c.Fits gcId completed)
    (hserved : ∀ n ∈ c.awaited, n ≤ gcId → ∃ m ∈ completed, n ≤ m) :
    c.notified.Fits gcId completed := by
  cases c with
  | waiting since requiredGcId => exact ⟨h, hserved requiredGcId rfl⟩
  | idle | locking | entered | requesting | requested | woken | rechecking | leaving
  | returned => exact h

theorem Caller.Fits.mono {gcId : Nat} {completed completed' : List Nat} {c : Caller}
    (h : c.Fits gcId completed) (hc : ∀ n ∈ completed, n ∈ completed') :
    c.Fits gcId completed' := by
  cases c with
  | idle | locking | entered | requesting | requested | waiting => exact h
  | woken | rechecking =>
      refine ⟨h.1, fun hle => ?_⟩
      obtain ⟨n, hn, hge⟩ := h.2 hle
      exact ⟨n, hc n hn, hge⟩
  | leaving | returned =>
      obtain ⟨n, hn, hlt⟩ := h
      exact ⟨n, hc n hn, hlt⟩

theorem Caller.Fits.counted {gcId : Nat} {completed : List Nat} {c : Caller}
    (h : c.Fits gcId completed) (hwoke : c.woke ≠ some (gcId + 1)) :
    c.Fits (gcId + 1) completed := by
  cases c with
  | idle | requesting | requested | waiting | leaving | returned => exact h
  | locking | entered => exact Nat.le_succ_of_le h
  | woken since requiredGcId | rechecking since requiredGcId =>
      have hne : requiredGcId ≠ gcId + 1 := fun heq => hwoke (congrArg some heq)
      exact ⟨h.1, fun hle => h.2 (by omega)⟩

namespace GcRequests

variable {τ : Type*} [DecidableEq τ]

-- One caller moves on. The flags and the lock do not matter to the invariant.
theorem Inv.caller {s t : GcRequests τ} (h : s.Inv) {thread : τ} {c : Caller}
    (hc : c.Fits s.gcId s.completed) (hcaller : t.caller = Function.update s.caller thread c)
    (hid : t.gcId = s.gcId) (hcontroller : t.controller = s.controller)
    (hcompleted : t.completed = s.completed) (hcancelled : t.cancelled = s.cancelled) :
    t.Inv := by
  have hrunning : t.running = s.running := by
    unfold running
    rw [hcontroller, hid]
  refine ⟨fun other => ?_, ?_, ?_⟩
  · rw [hid, hcompleted, hcaller]
    by_cases ht : other = thread
    · subst ht
      rwa [Function.update_self]
    · rw [Function.update_of_ne ht]
      exact h.callers other
  · rw [hid, hcompleted, hcontroller]
    exact h.controller
  · rw [hid, hcompleted, hcancelled, hrunning]
    exact h.cycles

-- The controller moves on where no cycle is running.
omit [DecidableEq τ] in
theorem Inv.next {s t : GcRequests τ} (h : s.Inv) (hrunning : s.running = none)
    (hcaller : ∀ thread, Caller.Fits s.gcId s.completed (t.caller thread))
    (hcontroller : Controller.Fits s.gcId s.completed t.controller)
    (hid : t.gcId = s.gcId) (hcompleted : t.completed = s.completed)
    (hcancelled : t.cancelled = s.cancelled) : t.Inv := by
  refine ⟨?_, ?_, ?_⟩
  · rw [hid, hcompleted]
    exact hcaller
  · rw [hid, hcompleted]
    exact hcontroller
  · rw [hid, hcompleted, hcancelled]
    intro c hpos hle
    have hc := h.cycles c hpos hle
    rw [hrunning] at hc
    exact hc.imp_right fun hor => Or.inl (hor.resolve_right nofun)

-- Behind a completed cycle all may be woken.
omit [DecidableEq τ] in
theorem Inv.notifyAll {s : GcRequests τ} (h : s.Inv) (hdone : s.gcId ∈ s.completed) (thread : τ) :
    Caller.Fits s.gcId s.completed (s.notifyAll.caller thread) :=
  (h.callers thread).notified fun _ _ hle => ⟨s.gcId, hdone, hle⟩

-- A cycle that is not unfinished is one that was completed, or there is one behind it.
omit [DecidableEq τ] in
theorem Inv.completed_of {s : GcRequests τ} (h : s.Inv) {requiredGcId : Nat}
    (hpos : 0 < requiredGcId) (hle : requiredGcId ≤ s.gcId)
    (hfinished : ¬s.Unfinished requiredGcId) : ∃ c ∈ s.completed, requiredGcId ≤ c := by
  unfold Unfinished at hfinished
  push Not at hfinished
  obtain ⟨c, hrange, hge, hcancelled, hrunning⟩ := hfinished hle
  have hle' : c ≤ s.gcId := Nat.le_of_lt_succ (List.mem_range.mp hrange)
  obtain hc | hc | hc := h.cycles c (by omega) hle'
  · exact ⟨c, hc, hge⟩
  · exact absurd hc hcancelled
  · exact absurd hc hrunning

theorem Inv.leave {s t : GcRequests τ} {thread : τ} (h : s.Inv)
    (hgood : s.NotWokenEarly (.leave thread)) (hstep : s.stepCaller (.leave thread) = some t) :
    t.Inv := by
  have hfits := h.callers thread
  simp only [GcRequests.stepCaller] at hstep
  split at hstep
  · rename_i since hcaller
    obtain rfl := Option.some.inj hstep
    rw [hcaller] at hfits
    have hset : (s.setCaller thread (.returned since)).Inv :=
      h.caller (c := .returned since) hfits rfl rfl rfl rfl rfl
    refine ⟨fun other => (hset.callers other).notified fun n hn hle => ?_, h.controller, h.cycles⟩
    by_cases ht : other = thread
    · subst ht
      simp [GcRequests.setCaller, Caller.awaited] at hn
    · have hother : (s.setCaller thread (.returned since)).caller other = s.caller other :=
        Function.update_of_ne ht _ _
      rw [hother] at hn
      have hwaiting := h.callers other
      have hpos : 0 < n := by
        cases hc : s.caller other with
        | waiting since' requiredGcId =>
            rw [hc] at hn hwaiting
            obtain rfl := Option.some.inj hn
            exact Nat.zero_lt_of_lt hwaiting
        | idle | locking | entered | requesting | requested | woken | rechecking | leaving
        | returned =>
            rw [hc] at hn
            cases hn
      exact h.completed_of hpos hle (hgood other n hn)
  · cases hstep

theorem Inv.stepCaller {s t : GcRequests τ} {e : RequestEvent τ} (h : s.Inv)
    (hgood : s.NotWokenEarly e) (hstep : s.stepCaller e = some t) : t.Inv := by
  cases e with
  | call thread =>
      simp only [GcRequests.stepCaller] at hstep
      have hnew : (s.setCaller thread (.locking s.gcId)).Inv :=
        h.caller (c := .locking s.gcId) (Nat.le_refl _) rfl rfl rfl rfl rfl
      split at hstep
      · obtain rfl := Option.some.inj hstep
        exact hnew
      · obtain rfl := Option.some.inj hstep
        exact hnew
      · cases hstep
  | lock thread =>
      simp only [GcRequests.stepCaller] at hstep
      have hfits := h.callers thread
      split at hstep
      · rename_i since hcaller hlock
        obtain rfl := Option.some.inj hstep
        rw [hcaller] at hfits
        exact h.caller (c := .entered since) hfits rfl rfl rfl rfl rfl
      · cases hstep
  | readGcId thread =>
      simp only [GcRequests.stepCaller] at hstep
      have hfits := h.callers thread
      split at hstep
      · rename_i since hcaller
        obtain rfl := Option.some.inj hstep
        rw [hcaller] at hfits
        exact h.caller (c := .requesting since (s.gcId + 1)) (Nat.lt_succ_of_le hfits)
          rfl rfl rfl rfl rfl
      · cases hstep
  | request thread =>
      simp only [GcRequests.stepCaller] at hstep
      have hfits := h.callers thread
      split at hstep
      · rename_i since required hcaller
        obtain rfl := Option.some.inj hstep
        rw [hcaller] at hfits
        exact h.caller (c := .requested since required) hfits rfl rfl rfl rfl rfl
      · cases hstep
  | wait thread =>
      simp only [GcRequests.stepCaller] at hstep
      have hfits := h.callers thread
      split at hstep
      · rename_i since required hcaller
        obtain rfl := Option.some.inj hstep
        rw [hcaller] at hfits
        exact h.caller (c := .waiting since required) hfits rfl rfl rfl rfl rfl
      · cases hstep
  | relock thread =>
      simp only [GcRequests.stepCaller] at hstep
      have hfits := h.callers thread
      split at hstep
      · rename_i since required hcaller hlock
        obtain rfl := Option.some.inj hstep
        rw [hcaller] at hfits
        exact h.caller (c := .rechecking since required) hfits rfl rfl rfl rfl rfl
      · cases hstep
  | recheck thread =>
      simp only [GcRequests.stepCaller] at hstep
      have hfits := h.callers thread
      split at hstep
      · rename_i since required hcaller
        rw [hcaller] at hfits
        obtain ⟨hsince, hserved⟩ := hfits
        split at hstep
        · obtain rfl := Option.some.inj hstep
          exact h.caller (c := .requesting since required) hsince rfl rfl rfl rfl rfl
        · rename_i hcounted
          obtain rfl := Option.some.inj hstep
          -- it was not woken before a cycle from the required one on was completed
          obtain ⟨c, hc, hge⟩ := hserved (Nat.le_of_not_lt hcounted)
          have hleaving : Caller.Fits s.gcId s.completed (.leaving since) := ⟨c, hc, by omega⟩
          exact h.caller hleaving rfl rfl rfl rfl rfl
      · cases hstep
  | leave thread => exact h.leave hgood hstep
  | allocFailure | poll | updateGcId | finishCycle | cancelCycle | unsetRequest | lockWaiters
  | notifyAll | dropLocker | endTurn | terminate => cases hstep

-- With an explicit request the mode is never the one that can be cancelled.
theorem selectMode_explicit (pending : Bool) (heuristics : Heuristics) :
    selectMode pending true heuristics ≠ .concurrent := by
  obtain ⟨degenerate, start, full⟩ := heuristics
  cases pending <;> cases degenerate <;> cases start <;> cases full <;> decide

section Cycle

variable {s : GcRequests τ} {explicit pending : Bool} {mode : GCMode} (h : s.Inv)

include h

omit [DecidableEq τ] in
theorem Inv.starts (hphase : s.controller = .chosen explicit pending mode)
    (hgood : ∀ thread, (s.caller thread).woke ≠ some (s.gcId + 1)) :
    Inv { s with gcId := s.gcId + 1, controller := .collecting explicit pending mode } := by
  have hmode := h.controller
  rw [hphase] at hmode
  refine ⟨fun thread => (h.callers thread).counted (hgood thread), ?_, fun c hpos hle => ?_⟩
  · cases explicit with
    | true => exact hmode
    | false => trivial
  · obtain rfl | hlt := Nat.eq_or_lt_of_le hle
    · exact Or.inr (Or.inr rfl)
    · have hc := h.cycles c hpos (Nat.le_of_lt_succ hlt)
      simp only [running, hphase] at hc
      exact hc.imp_right fun hor => Or.inl (hor.resolve_right nofun)

omit [DecidableEq τ] in
theorem Inv.finishes (hphase : s.controller = .collecting explicit pending mode) :
    Inv { s with controller := .collected explicit pending, completed := s.gcId :: s.completed } := by
  refine ⟨fun thread => (h.callers thread).mono fun _ hn => List.mem_cons_of_mem _ hn, ?_,
    fun c hpos hle => ?_⟩
  · cases explicit with
    | true => exact List.mem_cons_self
    | false => trivial
  · have hc := h.cycles c hpos hle
    simp only [running, hphase, Option.some.injEq] at hc
    obtain hc | hc | hc := hc
    · exact Or.inl (List.mem_cons_of_mem _ hc)
    · exact Or.inr (Or.inl hc)
    · exact Or.inl (hc ▸ List.mem_cons_self)

-- A cycle that was asked for is not given up.
omit [DecidableEq τ] in
theorem Inv.cancels (hphase : s.controller = .collecting explicit pending .concurrent) :
    Inv { s with controller := .collected explicit pending, cancelled := s.gcId :: s.cancelled } := by
  have hmode := h.controller
  rw [hphase] at hmode
  refine ⟨h.callers, ?_, fun c hpos hle => ?_⟩
  · cases explicit with
    | true => exact absurd rfl hmode
    | false => trivial
  · have hc := h.cycles c hpos hle
    simp only [running, hphase, Option.some.injEq] at hc
    obtain hc | hc | hc := hc
    · exact Or.inl hc
    · exact Or.inr (Or.inl (List.mem_cons_of_mem _ hc))
    · exact Or.inr (Or.inl (hc ▸ List.mem_cons_self))

end Cycle

omit [DecidableEq τ] in
theorem Inv.stepController {s t : GcRequests τ} {e : RequestEvent τ} (h : s.Inv)
    (hgood : s.NotWokenEarly e) (hstep : s.stepController e = some t) : t.Inv := by
  have hphase' := h.controller
  cases e with
  | allocFailure =>
      obtain rfl := Option.some.inj hstep
      exact ⟨h.callers, h.controller, h.cycles⟩
  | poll heuristics =>
      simp only [GcRequests.stepController] at hstep
      split at hstep
      · rename_i hphase
        obtain rfl := Option.some.inj hstep
        refine h.next (by simp [running, hphase]) h.callers ?_ rfl rfl rfl
        simp only
        split
        · trivial
        · cases hrequested : s.gcRequested with
          | false => trivial
          | true => exact selectMode_explicit _ _
      · cases hstep
  | updateGcId =>
      simp only [GcRequests.stepController] at hstep
      split at hstep
      · rename_i explicit pending mode hphase
        obtain rfl := Option.some.inj hstep
        exact h.starts hphase hgood
      · cases hstep
  | finishCycle =>
      simp only [GcRequests.stepController] at hstep
      split at hstep
      · rename_i explicit pending mode hphase
        obtain rfl := Option.some.inj hstep
        exact h.finishes hphase
      · cases hstep
  | cancelCycle =>
      simp only [GcRequests.stepController] at hstep
      split at hstep
      · rename_i explicit pending hphase
        obtain rfl := Option.some.inj hstep
        exact h.cancels hphase
      · cases hstep
  | unsetRequest =>
      simp only [GcRequests.stepController] at hstep
      split at hstep
      · rename_i pending hphase
        obtain rfl := Option.some.inj hstep
        rw [hphase] at hphase'
        exact h.next (by simp [running, hphase]) h.callers hphase' rfl rfl rfl
      · rename_i pending hphase
        obtain rfl := Option.some.inj hstep
        exact h.next (by simp [running, hphase]) h.callers trivial rfl rfl rfl
      · cases hstep
  | lockWaiters =>
      simp only [GcRequests.stepController] at hstep
      split at hstep
      · rename_i pending hphase hlock
        obtain rfl := Option.some.inj hstep
        rw [hphase] at hphase'
        exact h.next (by simp [running, hphase]) h.callers hphase' rfl rfl rfl
      · cases hstep
  | notifyAll =>
      simp only [GcRequests.stepController] at hstep
      split at hstep
      · rename_i pending hphase
        obtain rfl := Option.some.inj hstep
        rw [hphase] at hphase'
        exact h.next (by simp [running, hphase]) (h.notifyAll hphase') hphase' rfl rfl rfl
      · cases hstep
  | dropLocker =>
      simp only [GcRequests.stepController] at hstep
      split at hstep
      · rename_i pending hphase
        obtain rfl := Option.some.inj hstep
        rw [hphase] at hphase'
        exact h.next (by simp [running, hphase]) (h.notifyAll hphase') trivial rfl rfl rfl
      · cases hstep
  | endTurn =>
      simp only [GcRequests.stepController] at hstep
      split at hstep
      · rename_i pending hphase
        obtain rfl := Option.some.inj hstep
        exact h.next (by simp [running, hphase]) h.callers trivial rfl rfl rfl
      · cases hstep
  | terminate =>
      simp only [GcRequests.stepController] at hstep
      split at hstep
      · rename_i hphase
        obtain rfl := Option.some.inj hstep
        exact h.next (by simp [running, hphase]) h.callers trivial rfl rfl rfl
      · cases hstep
  | call | lock | readGcId | request | wait | relock | recheck | leave => cases hstep

theorem Inv.step {s t : GcRequests τ} {e : RequestEvent τ} (h : s.Inv)
    (hgood : s.NotWokenEarly e) (hstep : s.step e = some t) : t.Inv := by
  unfold GcRequests.step at hstep
  split at hstep
  case h_9 => exact h.stepController hgood hstep
  all_goals exact h.stepCaller hgood hstep

theorem handleRequestedGc_served {s : GcRequests τ}
    (hs : (gcRequests τ).Via NotWokenEarly s) : s.Served := by
  have hinv : s.Inv := by
    refine Machine.Via.invariant ?_ (fun _ _ _ h hg hstep => h.step hg hstep) hs
    rintro s rfl
    exact ⟨fun _ => trivial, trivial, fun c hpos hle => absurd hle (by simp; omega)⟩
  intro thread since hreturned
  have hfits := hinv.callers thread
  rw [hreturned] at hfits
  exact hfits

private def idleRequests : GcRequests (Fin 2) :=
  ⟨0, false, false, none, fun _ => .idle, .polling, [], []⟩

-- The two callers of the runs below get through `handle_requested_gc` to the wait.
private def callUntilWait (thread : Fin 2) : List (RequestEvent (Fin 2)) :=
  [.call thread, .lock thread, .readGcId thread, .request thread, .wait thread]

private def explicitCycle : List (RequestEvent (Fin 2)) :=
  [.poll ⟨false, false, false⟩, .updateGcId, .finishCycle, .unsetRequest, .lockWaiters,
    .notifyAll, .dropLocker, .endTurn]

-- Caller 1 comes when cycle 1 is running. It is woken behind it, and again by caller 0, and
-- waits for cycle 2.
theorem handleRequestedGc_served_once :
    ∃ s : GcRequests (Fin 2), (gcRequests (Fin 2)).Via NotWokenEarly s ∧
      s.caller 0 = .returned 0 ∧ s.caller 1 = .returned 1 ∧ s.Served := by
  have hrun : ((gcRequests (Fin 2)).runVia NotWokenEarly idleRequests
      (callUntilWait 0 ++ [.poll ⟨false, false, false⟩, .updateGcId] ++ callUntilWait 1 ++
        [.finishCycle, .unsetRequest, .lockWaiters, .notifyAll, .dropLocker, .endTurn] ++
        [.relock 1, .recheck 1, .request 1, .wait 1, .relock 0, .recheck 0, .leave 0] ++
        [.relock 1, .recheck 1, .request 1, .wait 1] ++ explicitCycle ++
        [.relock 1, .recheck 1, .leave 1])).map
        (fun s => (s.caller 0, s.caller 1)) = some (.returned 0, .returned 1) := by
    decide +kernel
  obtain ⟨s, hs, hcallers⟩ := Option.map_eq_some_iff.mp hrun
  obtain ⟨hfirst, hsecond⟩ := Prod.mk.inj hcallers
  have hvia := Machine.via_of_runVia (Machine.Via.init (m := gcRequests (Fin 2)) rfl) hs
  exact ⟨s, hvia, hfirst, hsecond, handleRequestedGc_served hvia⟩

-- Caller 1 comes after cycle 1. Caller 0 gets the lock back only when cycle 2
-- has been counted; dropping its locker wakes caller 1 while that cycle runs.
theorem returning_caller_wakes_other_early :
    ∃ s : GcRequests (Fin 2), (gcRequests (Fin 2)).Reachable s ∧ ¬ s.Served := by
  have hrun : ((gcRequests (Fin 2)).run idleRequests
      (callUntilWait 0 ++ explicitCycle ++ callUntilWait 1 ++
        [.poll ⟨false, false, false⟩, .updateGcId, .relock 0, .recheck 0, .leave 0,
          .relock 1, .recheck 1, .leave 1])).map
        (fun s => (s.caller 1, s.completed)) = some (.returned 1, [1]) := by decide +kernel
  obtain ⟨s, hs, hs'⟩ := Option.map_eq_some_iff.mp hrun
  obtain ⟨hcaller, hcompleted⟩ := Prod.mk.inj hs'
  refine ⟨s, Machine.run_reachable (Machine.Via.init (m := gcRequests (Fin 2)) rfl) hs,
    fun hserved => ?_⟩
  obtain ⟨c, hc, hlt⟩ := hserved 1 1 hcaller
  rw [hcompleted, List.mem_singleton] at hc
  omega

end GcRequests

end Rsgc.Control
