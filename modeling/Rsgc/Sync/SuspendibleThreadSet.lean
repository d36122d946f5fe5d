import Rsgc.Lib.Census
import Rsgc.Lib.Machine

namespace Rsgc.Sync

-- Where a thread is with respect to the set. A joining thread waits in `join`, a
-- yielding one has read `should_yield` and is about to call `yield_`, a stopped one
-- is blocked there.
inductive Member
  | outside
  | joining
  | joined
  | yielding
  | stopped
deriving DecidableEq, Repr

namespace Member

def isJoined : Member → Bool
  | outside | joining => false
  | joined | yielding | stopped => true

def isStopped : Member → Bool
  | stopped => true
  | _ => false

theorem isJoined_of_isStopped {m : Member} (h : m.isStopped = true) : m.isJoined = true := by
  cases m <;> first | rfl | cases h

theorem isStopped_iff {m : Member} : m.isStopped = true ↔ m = stopped := by
  cases m <;> simp [isStopped]

end Member

-- The collector, the one thread that calls `synchronize` and `desynchronize`.
inductive Requester
  | idle
  | waiting
  | synchronized
deriving DecidableEq, Repr

-- The counters are integers: a `fetch_sub` that has no matching `fetch_add` shows as
-- a negative number.
structure SuspendibleThreadSet (τ : Type*) where
  suspendAll : Bool
  nthreads : Int
  nthreadsStopped : Int
  synchronizeWakeup : Nat
  member : τ → Member
  requester : Requester

-- `wake` is a return from the wait on the monitor, which may come at any time.
inductive SetEvent (τ : Type*)
  | join (t : τ)
  | leave (t : τ)
  | shouldYield (t : τ)
  | yield (t : τ)
  | wake (t : τ)
  | synchronize
  | acquire
  | desynchronize
deriving DecidableEq

namespace SuspendibleThreadSet

variable {τ : Type*} [DecidableEq τ]

def goto (s : SuspendibleThreadSet τ) (t : τ) (m : Member) : SuspendibleThreadSet τ :=
  { s with member := Function.update s.member t m }

def isSynchronized (s : SuspendibleThreadSet τ) : Bool := s.nthreads = s.nthreadsStopped

def signalIfSynchronized (s : SuspendibleThreadSet τ) : SuspendibleThreadSet τ :=
  if s.suspendAll && s.isSynchronized then
    { s with synchronizeWakeup := s.synchronizeWakeup + 1 }
  else s

-- The loop of `join` from a read of the flag under the lock.
def join (s : SuspendibleThreadSet τ) (t : τ) : SuspendibleThreadSet τ :=
  if s.suspendAll then s.goto t .joining
  else { s.goto t .joined with nthreads := s.nthreads + 1 }

def leave (s : SuspendibleThreadSet τ) (t : τ) : Option (SuspendibleThreadSet τ) :=
  if 0 < s.nthreads then
    some { s.goto t .outside with nthreads := s.nthreads - 1 }.signalIfSynchronized
  else none

-- The loop at the end of `yield_`, from a read of the flag under the lock.
def awaitResume (s : SuspendibleThreadSet τ) (t : τ) : SuspendibleThreadSet τ :=
  if s.suspendAll then s.goto t .stopped
  else { s.goto t .joined with nthreadsStopped := s.nthreadsStopped - 1 }

def yield_ (s : SuspendibleThreadSet τ) (t : τ) : SuspendibleThreadSet τ :=
  if s.suspendAll then
    { s with nthreadsStopped := s.nthreadsStopped + 1 }.signalIfSynchronized.awaitResume t
  else s.awaitResume t

def wake (s : SuspendibleThreadSet τ) (t : τ) : Option (SuspendibleThreadSet τ) :=
  match s.member t with
  | .joining => some (s.join t)
  | .stopped => some (s.awaitResume t)
  | _ => none

-- `synchronize` under the lock; it goes on at the semaphore unless nobody is left.
def synchronize (s : SuspendibleThreadSet τ) : SuspendibleThreadSet τ :=
  { s with suspendAll := true,
           requester := if s.isSynchronized then .synchronized else .waiting }

def desynchronize (s : SuspendibleThreadSet τ) : Option (SuspendibleThreadSet τ) :=
  if s.suspendAll ∧ s.isSynchronized then some { s with suspendAll := false, requester := .idle }
  else none

-- One step is one section under the lock, the read of `should_yield` or the wait on
-- the semaphore.
def step (s : SuspendibleThreadSet τ) : SetEvent τ → Option (SuspendibleThreadSet τ)
  | .join t => if s.member t = .outside then some (s.join t) else none
  | .leave t => if s.member t = .joined then s.leave t else none
  | .shouldYield t =>
      if s.member t = .joined then some (if s.suspendAll then s.goto t .yielding else s)
      else none
  | .yield t => if s.member t = .yielding then some (s.yield_ t) else none
  | .wake t => s.wake t
  | .synchronize => if s.requester = .idle then some s.synchronize else none
  | .acquire =>
      if s.requester = .waiting ∧ 0 < s.synchronizeWakeup then
        some { s with synchronizeWakeup := s.synchronizeWakeup - 1, requester := .synchronized }
      else none
  | .desynchronize => if s.requester = .synchronized then s.desynchronize else none

end SuspendibleThreadSet

def suspendibleThreadSet (τ : Type*) [DecidableEq τ] :
    Machine (SuspendibleThreadSet τ) (SetEvent τ) where
  init s := s = ⟨false, 0, 0, 0, fun _ => .outside, .idle⟩
  step := SuspendibleThreadSet.step

namespace SuspendibleThreadSet

variable {τ : Type*} [DecidableEq τ] [Fintype τ]

-- The counters are right, and who is about to yield has a request to yield to.
structure Counted (s : SuspendibleThreadSet τ) : Prop where
  nthreads : s.nthreads = census Member.isJoined s.member
  nthreadsStopped : s.nthreadsStopped = census Member.isStopped s.member
  yielding : ∀ t, s.member t = .yielding → s.suspendAll = true

structure Inv (s : SuspendibleThreadSet τ) : Prop extends Counted s where
  suspendAll : s.suspendAll = true ↔ s.requester ≠ .idle
  -- a request that is waited for has one signal, and only once all have stopped
  waiting : s.requester = .waiting → s.synchronizeWakeup = s.isSynchronized.toNat
  settled : s.requester ≠ .waiting → s.synchronizeWakeup = 0
  synchronized : s.requester = .synchronized → s.isSynchronized = true

-- A thread goes to another place and the counters change with it.
def move (s : SuspendibleThreadSet τ) (t : τ) (m : Member) (n k : Int) :
    SuspendibleThreadSet τ :=
  { s.goto t m with nthreads := n, nthreadsStopped := k }

variable {s u v : SuspendibleThreadSet τ} {t : τ} {m : Member} {n k : Int}

theorem Counted.move (h : s.Counted)
    (hn : n + (s.member t).isJoined.toNat = s.nthreads + m.isJoined.toNat)
    (hk : k + (s.member t).isStopped.toNat = s.nthreadsStopped + m.isStopped.toNat)
    (hm : m = .yielding → s.suspendAll = true) : (s.move t m n k).Counted where
  nthreads := by
    have hcensus := census_update Member.isJoined s.member t m
    have hold := h.nthreads
    change n = (census Member.isJoined (Function.update s.member t m) : Int)
    omega
  nthreadsStopped := by
    have hcensus := census_update Member.isStopped s.member t m
    have hold := h.nthreadsStopped
    change k = (census Member.isStopped (Function.update s.member t m) : Int)
    omega
  yielding v hv := by
    change Function.update s.member t m v = .yielding at hv
    by_cases hvt : v = t
    · subst hvt
      rw [Function.update_self] at hv
      exact hm hv
    · rw [Function.update_of_ne hvt] at hv
      exact h.yielding v hv

-- Once the counters agree nobody in the set is still to stop.
omit [DecidableEq τ] in
theorem Counted.stopped_of_isSynchronized (h : s.Counted) (hsync : s.isSynchronized = true)
    (ht : (s.member t).isJoined = true) : s.member t = .stopped := by
  have heq : census Member.isStopped s.member = census Member.isJoined s.member := by
    have hcount := of_decide_eq_true hsync
    rw [h.nthreads, h.nthreadsStopped] at hcount
    omega
  exact Member.isStopped_iff.mp
    (of_census_eq (fun _ => Member.isJoined_of_isStopped) heq t ht)

omit [DecidableEq τ] in
theorem Counted.not_isSynchronized (h : s.Counted) (ht : (s.member t).isJoined = true)
    (hs : s.member t ≠ .stopped) : s.isSynchronized = false := by
  cases hsync : s.isSynchronized with
  | false => rfl
  | true => exact absurd (h.stopped_of_isSynchronized hsync ht) hs

-- The last thread to yield or to leave makes the counters agree and signals.
theorem Inv.signal (h : s.Inv) (hsync : s.isSynchronized = false)
    (hv : (s.move t m n k).Counted) : (s.move t m n k).signalIfSynchronized.Inv := by
  have hne : s.requester ≠ .synchronized := by
    intro hr
    rw [h.synchronized hr] at hsync
    cases hsync
  have hzero : s.synchronizeWakeup = 0 := by
    by_cases hr : s.requester = .waiting
    · rw [h.waiting hr, hsync]
      rfl
    · exact h.settled hr
  unfold signalIfSynchronized
  split
  · rename_i hboth
    obtain ⟨hflag, hvsync⟩ := Bool.and_eq_true_iff.mp hboth
    have hr : s.requester = .waiting := by
      cases hr : s.requester with
      | idle => exact absurd hr (h.suspendAll.mp hflag)
      | waiting => rfl
      | synchronized => exact absurd hr hne
    refine ⟨⟨hv.nthreads, hv.nthreadsStopped, hv.yielding⟩, h.suspendAll, fun _ => ?_,
      fun hw => absurd hr hw, fun _ => hvsync⟩
    change s.synchronizeWakeup + 1 = (s.move t m n k).isSynchronized.toNat
    rw [hvsync, hzero]
    rfl
  · rename_i hboth
    refine ⟨hv, h.suspendAll, fun hr => ?_, fun _ => hzero, fun hr => absurd hr hne⟩
    have hflag : s.suspendAll = true :=
      h.suspendAll.mpr (by rw [show s.requester = _ from hr]; nofun)
    have hvsync : (s.move t m n k).isSynchronized = false := by
      cases hvsync : (s.move t m n k).isSynchronized with
      | false => rfl
      | true => exact absurd (Bool.and_eq_true_iff.mpr ⟨hflag, hvsync⟩) hboth
    rw [hvsync]
    exact hzero

-- While no request is on, the counters may change as they like.
theorem Inv.idle (h : s.Inv) (hflag : s.suspendAll = false) (hv : (s.move t m n k).Counted) :
    (s.move t m n k).Inv := by
  have hidle : s.requester = .idle := by
    by_contra hne
    rw [h.suspendAll.mpr hne] at hflag
    cases hflag
  refine ⟨hv, h.suspendAll, fun hr => ?_, fun _ => h.settled (by rw [hidle]; nofun), fun hr => ?_⟩
  all_goals
    rw [show s.requester = _ from hr] at hidle
    cases hidle

-- A place may change without the counters at any time.
theorem Inv.goto (h : s.Inv) (hjoined : m.isJoined = (s.member t).isJoined)
    (hstopped : m.isStopped = (s.member t).isStopped)
    (hm : m = .yielding → s.suspendAll = true) : (s.goto t m).Inv := by
  have hcounted : (s.move t m s.nthreads s.nthreadsStopped).Counted :=
    h.toCounted.move (by rw [hjoined]) (by rw [hstopped]) hm
  exact ⟨hcounted, h.suspendAll, h.waiting, h.settled, h.synchronized⟩

theorem Inv.join (h : s.Inv) (ht : s.member t = .outside ∨ s.member t = .joining) :
    (s.join t).Inv := by
  have hjoined : (s.member t).isJoined = false := by rcases ht with ht | ht <;> rw [ht] <;> rfl
  have hstopped : (s.member t).isStopped = false := by rcases ht with ht | ht <;> rw [ht] <;> rfl
  unfold SuspendibleThreadSet.join
  split
  · exact h.goto hjoined.symm hstopped.symm nofun
  · rename_i hflag
    apply h.idle (m := .joined) (n := s.nthreads + 1) (k := s.nthreadsStopped)
      (by simpa using hflag)
    exact h.toCounted.move (by rw [hjoined]; simp [Member.isJoined]) (by rw [hstopped]; rfl) nofun

theorem Inv.leave (h : s.Inv) (ht : s.member t = .joined) (hstep : s.leave t = some u) :
    u.Inv := by
  unfold SuspendibleThreadSet.leave at hstep
  obtain ⟨-, rfl⟩ := guard_eq_some.mp hstep
  have hsync : s.isSynchronized = false :=
    h.not_isSynchronized (t := t) (by rw [ht]; rfl) (by rw [ht]; nofun)
  apply h.signal (m := .outside) (n := s.nthreads - 1) (k := s.nthreadsStopped) hsync
  exact h.toCounted.move (by simp [ht, Member.isJoined]) (by rw [ht]; rfl) nofun

-- A thread that yields to a request is blocked before it lets go of the lock.
omit [Fintype τ] in
theorem yield_eq_move (hflag : s.suspendAll = true) : s.yield_ t =
    (s.move t .stopped s.nthreads (s.nthreadsStopped + 1)).signalIfSynchronized := by
  unfold SuspendibleThreadSet.yield_ awaitResume signalIfSynchronized
  simp only [hflag, if_true, move, SuspendibleThreadSet.goto, isSynchronized]
  split <;> rfl

theorem Inv.yield_ (h : s.Inv) (ht : s.member t = .yielding) : (s.yield_ t).Inv := by
  have hflag := h.yielding t ht
  have hsync : s.isSynchronized = false :=
    h.not_isSynchronized (t := t) (by rw [ht]; rfl) (by rw [ht]; nofun)
  rw [yield_eq_move hflag]
  apply h.signal hsync
  exact h.toCounted.move (by rw [ht]; rfl) (by simp [ht, Member.isStopped]) nofun

theorem Inv.awaitResume (h : s.Inv) (ht : s.member t = .stopped) : (s.awaitResume t).Inv := by
  unfold SuspendibleThreadSet.awaitResume
  split
  · exact h.goto (by rw [ht]) (by rw [ht]) nofun
  · rename_i hflag
    apply h.idle (m := .joined) (n := s.nthreads) (k := s.nthreadsStopped - 1)
      (by simpa using hflag)
    exact h.toCounted.move (by rw [ht]; rfl) (by simp [ht, Member.isStopped]) nofun

omit [DecidableEq τ] in
theorem Inv.synchronize (h : s.Inv) (hidle : s.requester = .idle) : s.synchronize.Inv := by
  have hzero := h.settled (by rw [hidle]; nofun)
  refine ⟨⟨h.nthreads, h.nthreadsStopped, fun _ _ => rfl⟩, ?_, fun hr => ?_, fun _ => hzero,
    fun hr => ?_⟩
  · simp only [SuspendibleThreadSet.synchronize, true_iff]
    split <;> nofun
  · change s.synchronizeWakeup = s.isSynchronized.toNat
    cases hsync : s.isSynchronized with
    | false => exact hzero
    | true => simp [SuspendibleThreadSet.synchronize, hsync] at hr
  · change s.isSynchronized = true
    cases hsync : s.isSynchronized with
    | false => simp [SuspendibleThreadSet.synchronize, hsync] at hr
    | true => rfl

theorem Inv.step {e : SetEvent τ} (h : s.Inv) (hstep : s.step e = some u) : u.Inv := by
  cases e with
  | join t =>
      obtain ⟨ht, rfl⟩ := guard_eq_some.mp hstep
      exact h.join (Or.inl ht)
  | leave t =>
      simp only [SuspendibleThreadSet.step] at hstep
      split at hstep
      · rename_i ht
        exact h.leave ht hstep
      · cases hstep
  | shouldYield t =>
      obtain ⟨ht, rfl⟩ := guard_eq_some.mp hstep
      split
      · rename_i hflag
        exact h.goto (by rw [ht]; rfl) (by rw [ht]; rfl) fun _ => hflag
      · exact h
  | yield t =>
      obtain ⟨ht, rfl⟩ := guard_eq_some.mp hstep
      exact h.yield_ ht
  | wake t =>
      simp only [SuspendibleThreadSet.step, SuspendibleThreadSet.wake] at hstep
      cases ht : s.member t with
      | joining =>
          rw [ht] at hstep
          obtain rfl := Option.some.inj hstep
          exact h.join (Or.inr ht)
      | stopped =>
          rw [ht] at hstep
          obtain rfl := Option.some.inj hstep
          exact h.awaitResume ht
      | _ => simp [ht] at hstep
  | synchronize =>
      obtain ⟨hidle, rfl⟩ := guard_eq_some.mp hstep
      exact h.synchronize hidle
  | acquire =>
      obtain ⟨⟨hr, hpos⟩, rfl⟩ := guard_eq_some.mp hstep
      have hcount := h.waiting hr
      have hsync : s.isSynchronized = true := by
        cases hsync : s.isSynchronized with
        | true => rfl
        | false => rw [hcount, hsync] at hpos; cases hpos
      rw [hsync] at hcount
      refine ⟨⟨h.nthreads, h.nthreadsStopped, h.yielding⟩, ?_, nofun, fun _ => ?_, fun _ => hsync⟩
      · exact ⟨fun _ => nofun, fun _ => h.suspendAll.mpr (by rw [hr]; nofun)⟩
      · change s.synchronizeWakeup - 1 = 0
        rw [hcount]
        rfl
  | desynchronize =>
      simp only [SuspendibleThreadSet.step] at hstep
      split at hstep
      · rename_i hr
        obtain ⟨⟨-, hsync⟩, rfl⟩ := guard_eq_some.mp hstep
        refine ⟨⟨h.nthreads, h.nthreadsStopped, fun t ht => ?_⟩, ?_, nofun, fun _ => ?_, nofun⟩
        · have hstopped := h.stopped_of_isSynchronized hsync
            (show (s.member t).isJoined = true by rw [show s.member t = _ from ht]; rfl)
          rw [show s.member t = _ from ht] at hstopped
          cases hstopped
        · simp
        · exact h.settled (by rw [hr]; nofun)
      · cases hstep

theorem inv_of_reachable (hs : (suspendibleThreadSet τ).Reachable s) : s.Inv := by
  apply Machine.Reachable.invariant _ _ hs
  · rintro s rfl
    have hempty : ∀ kind : Member → Bool, kind .outside = false →
        (0 : Int) = (census kind fun _ : τ => Member.outside) := by
      intro kind hkind
      rw [census_eq_zero.mpr fun _ => hkind]
      rfl
    exact ⟨⟨hempty _ rfl, hempty _ rfl, nofun⟩, by simp, nofun, fun _ => rfl, nofun⟩
  · intro s e u h hstep
    exact h.step hstep

-- Nothing but `desynchronize` lets a blocked thread go on while the set is synchronized.
omit [Fintype τ] in
theorem stopped_of_step {e : SetEvent τ} (hflag : s.suspendAll = true) (he : e ≠ .desynchronize)
    (hstep : s.step e = some u) (ht : s.member t = .stopped) : u.member t = .stopped := by
  have hgoto : ∀ {v : τ} {m : Member}, (s.member v = .stopped → m = .stopped) →
      (s.goto v m).member t = .stopped := by
    intro v m hv
    change Function.update s.member v m t = .stopped
    by_cases htv : t = v
    · subst htv
      rw [Function.update_self]
      exact hv ht
    · rw [Function.update_of_ne htv]
      exact ht
  have hsignal : ∀ w : SuspendibleThreadSet τ, w.signalIfSynchronized.member = w.member := by
    intro w
    unfold signalIfSynchronized
    split <;> rfl
  cases e with
  | join v =>
      obtain ⟨hv, rfl⟩ := guard_eq_some.mp hstep
      rw [SuspendibleThreadSet.join, if_pos hflag]
      exact hgoto (by rw [hv]; nofun)
  | leave v =>
      simp only [SuspendibleThreadSet.step] at hstep
      split at hstep
      · rename_i hv
        obtain ⟨-, rfl⟩ := guard_eq_some.mp hstep
        rw [hsignal]
        exact hgoto (by rw [hv]; nofun)
      · cases hstep
  | shouldYield v =>
      obtain ⟨hv, rfl⟩ := guard_eq_some.mp hstep
      rw [if_pos hflag]
      exact hgoto (by rw [hv]; nofun)
  | yield v =>
      obtain ⟨hv, rfl⟩ := guard_eq_some.mp hstep
      rw [yield_eq_move hflag, hsignal]
      exact hgoto fun _ => rfl
  | wake v =>
      simp only [SuspendibleThreadSet.step, SuspendibleThreadSet.wake] at hstep
      cases hv : s.member v with
      | joining =>
          rw [hv] at hstep
          obtain rfl := Option.some.inj hstep
          rw [SuspendibleThreadSet.join, if_pos hflag]
          exact hgoto (by rw [hv]; nofun)
      | stopped =>
          rw [hv] at hstep
          obtain rfl := Option.some.inj hstep
          rw [awaitResume, if_pos hflag]
          exact hgoto fun _ => rfl
      | _ => simp [hv] at hstep
  | synchronize =>
      obtain ⟨-, rfl⟩ := guard_eq_some.mp hstep
      exact ht
  | acquire =>
      obtain ⟨-, rfl⟩ := guard_eq_some.mp hstep
      exact ht
  | desynchronize => exact absurd rfl he

-- The counters count the threads that are blocked in `yield_` and the threads in the
-- set, and a request that has returned holds every thread of the set.
theorem suspendible_threads_stopped (hs : (suspendibleThreadSet τ).Reachable s) :
    s.nthreadsStopped = census Member.isStopped s.member ∧
      s.nthreads = census Member.isJoined s.member ∧
      0 ≤ s.nthreadsStopped ∧ s.nthreadsStopped ≤ s.nthreads ∧
      (s.requester = .synchronized →
        (∀ t, (s.member t).isJoined = true → s.member t = .stopped) ∧
        ∀ e u, e ≠ .desynchronize → s.step e = some u →
          ∀ t, s.member t = .stopped → u.member t = .stopped) := by
  have h := inv_of_reachable hs
  have hle : census Member.isStopped s.member ≤ census Member.isJoined s.member :=
    census_le fun _ => Member.isJoined_of_isStopped
  have hnthreads := h.nthreads
  have hstopped := h.nthreadsStopped
  refine ⟨hstopped, hnthreads, by omega, by omega, fun hr => ⟨fun t ht => ?_, ?_⟩⟩
  · exact h.stopped_of_isSynchronized (h.synchronized hr) ht
  · intro e u he hstep t ht
    exact stopped_of_step (h.suspendAll.mpr (by rw [hr]; nofun)) he hstep ht

-- One thread yields to a request and the other one leaves the set.
theorem suspendible_threads_stopped_pair :
    ∃ s : SuspendibleThreadSet (Fin 2), (suspendibleThreadSet (Fin 2)).Reachable s ∧
      s.requester = .synchronized ∧ s.member 0 = .stopped ∧
      s.nthreadsStopped = census Member.isStopped s.member ∧ s.nthreadsStopped ≤ s.nthreads := by
  have hrun : ((suspendibleThreadSet (Fin 2)).run ⟨false, 0, 0, 0, fun _ => .outside, .idle⟩
      [.join 0, .join 1, .synchronize, .shouldYield 0, .yield 0, .leave 1, .acquire]).map
        (fun s => (s.requester, s.member 0)) = some (.synchronized, .stopped) := by decide
  obtain ⟨s, hs, hr⟩ := Option.map_eq_some_iff.mp hrun
  obtain ⟨hrequester, hmember⟩ := Prod.mk.inj hr
  have hreach : (suspendibleThreadSet (Fin 2)).Reachable s :=
    Machine.run_reachable (Machine.Via.init rfl) hs
  obtain ⟨hstopped, -, -, hle, -⟩ := suspendible_threads_stopped hreach
  exact ⟨s, hreach, hrequester, hmember, hstopped, hle⟩

end SuspendibleThreadSet

end Rsgc.Sync
