import Rsgc.Control.AllocFailure

namespace Rsgc.Control

-- The places of a thread that has the waiters' lock.
def Allocator.holdsLock : Allocator → Bool
  | .handling _ _ .checking | .handling _ _ .checked | .handling _ _ .leaving => true
  | _ => false

def Allocator.isWaiting : Allocator → Bool
  | .handling _ _ .waiting => true
  | _ => false

-- A thread that has found the flag set, until it is notified
def Allocator.hopes : Allocator → Bool
  | .handling _ _ .checked | .handling _ _ .waiting => true
  | _ => false

@[simp]
theorem Allocator.holdsLock_notified {a : Allocator} : a.notified.holdsLock = a.holdsLock := by
  cases a with
  | handling tries since place => cases place <;> rfl
  | _ => rfl

@[simp]
theorem Allocator.isWaiting_notified {a : Allocator} : a.notified.isWaiting = false := by
  cases a with
  | handling tries since place => cases place <;> rfl
  | _ => rfl

theorem Allocator.hopes_of_isWaiting {a : Allocator} (h : a.isWaiting = true) :
    a.hopes = true := by
  cases a with
  | handling tries since place => cases place <;> first | rfl | cases h
  | _ => cases h

-- Only a thread that has the lock misses a notification.
theorem Allocator.hopes_notified {a : Allocator} (h : a.notified.hopes = true) :
    a.hopes = true ∧ a.holdsLock = true := by
  cases a with
  | handling tries since place => cases place <;> first | exact ⟨rfl, rfl⟩ | cases h
  | _ => cases h

def Turn.locksWaiters : Turn → Bool
  | locked | notified => true
  | _ => false

-- The controller is still to notify those who wait.
def Turn.notifies : Turn → Bool
  | unset | locked => true
  | _ => false

namespace AllocFailures

variable {τ : Type*} [DecidableEq τ] {s u : AllocFailures τ}

structure Heard (s : AllocFailures τ) : Prop where
  caller : ∀ thread,
    (s.allocator thread).holdsLock = true ↔ s.waitersLock = some (.caller thread)
  controller : s.turn.locksWaiters = true ↔ s.waitersLock = some .controller
  hopes : ∀ thread, (s.allocator thread).hopes = true →
    s.allocFailureGc = true ∨ s.turn.notifies = true
  mode : ∀ pending, s.turn ≠ .chosen pending .none

-- A thread moves without the lock.
theorem Heard.goto (h : s.Heard) {thread : τ} {a : Allocator}
    (hlock : a.holdsLock = (s.allocator thread).holdsLock)
    (hhopes : a.hopes = true → s.allocFailureGc = true ∨ s.turn.notifies = true) :
    (s.goto thread a).Heard := by
  refine ⟨fun v => ?_, h.controller, fun v => ?_, h.mode⟩ <;>
    rcases eq_or_ne v thread with rfl | hv
  · simpa [AllocFailures.goto, hlock] using h.caller v
  · simpa [AllocFailures.goto, hv] using h.caller v
  · simpa [AllocFailures.goto] using hhopes
  · simpa [AllocFailures.goto, hv] using h.hopes v

theorem Heard.acquire (h : s.Heard) (hfree : s.waitersLock = none) {thread : τ} {a : Allocator}
    (hlock : a.holdsLock = true) (hhopes : a.hopes = false) :
    Heard { s.goto thread a with waitersLock := some (.caller thread) } := by
  have hturn := h.controller
  refine ⟨fun v => ?_, ?_, fun v => ?_, h.mode⟩
  · have hcaller := h.caller v
    rcases eq_or_ne v thread with rfl | hv
    · simp [AllocFailures.goto, hlock]
    · simpa [AllocFailures.goto, hv, hv.symm, hfree] using hcaller
  · simpa [AllocFailures.goto, hfree] using hturn
  · rcases eq_or_ne v thread with rfl | hv
    · simp [AllocFailures.goto, hhopes]
    · simpa [AllocFailures.goto, hv] using h.hopes v

theorem Heard.release (h : s.Heard) {thread : τ} {a : Allocator}
    (hheld : (s.allocator thread).holdsLock = true) (hlock : a.holdsLock = false)
    (hhopes : a.hopes = true → s.allocFailureGc = true ∨ s.turn.notifies = true) :
    Heard { s.goto thread a with waitersLock := none } := by
  have hmine := (h.caller thread).mp hheld
  have hturn := h.controller
  refine ⟨fun v => ?_, ?_, fun v => ?_, h.mode⟩
  · have hcaller := h.caller v
    rcases eq_or_ne v thread with rfl | hv
    · simp [AllocFailures.goto, hlock]
    · simpa [AllocFailures.goto, hv, hmine, hv.symm] using hcaller
  · simpa [AllocFailures.goto, hmine] using hturn
  · rcases eq_or_ne v thread with rfl | hv
    · simpa [AllocFailures.goto] using hhopes
    · simpa [AllocFailures.goto, hv] using h.hopes v

omit [DecidableEq τ] in
theorem Heard.notifyAll (h : s.Heard) : s.notifyAll.Heard :=
  ⟨fun v => by simpa [AllocFailures.notifyAll] using h.caller v, h.controller,
    fun v hv => h.hopes v (Allocator.hopes_notified hv).1, h.mode⟩

theorem Heard.stepThread (h : s.Heard) {e : AllocEvent τ} (hstep : s.stepThread e = some u) :
    u.Heard := by
  cases e with
  | call thread =>
      simp only [AllocFailures.stepThread] at hstep
      split at hstep
      all_goals
        rename_i ha
        first
        | cases hstep
          exact h.goto (by rw [ha]; rfl) nofun
        | cases hstep
  | attempt thread succeeds =>
      simp only [AllocFailures.stepThread] at hstep
      split at hstep
      · rename_i tries since ha
        cases hstep
        unfold failed
        split_ifs
        all_goals exact h.goto (by rw [ha]; rfl) nofun
      · cases hstep
  | test thread =>
      simp only [AllocFailures.stepThread] at hstep
      split at hstep
      · rename_i tries since ha
        cases hstep
        split_ifs
        all_goals exact h.goto (by rw [ha]; rfl) nofun
      · cases hstep
  | exchange thread spurious =>
      simp only [AllocFailures.stepThread] at hstep
      split at hstep
      · rename_i tries since ha
        split_ifs at hstep
        · cases hstep
          exact h.goto (by rw [ha]; rfl) nofun
        · cases hstep
          have hset : Heard { s with allocFailureGc := true } :=
            ⟨h.caller, h.controller, fun _ _ => Or.inl rfl, h.mode⟩
          exact hset.goto (by rw [ha]; rfl) nofun
      · cases hstep
  | cancel thread =>
      simp only [AllocFailures.stepThread] at hstep
      split at hstep
      · rename_i tries since ha
        cases hstep
        exact h.goto (by rw [ha]; rfl) nofun
      · cases hstep
  | check thread =>
      simp only [AllocFailures.stepThread] at hstep
      split at hstep
      · rename_i tries since ha
        cases hstep
        split_ifs with hflag
        · exact h.goto (by rw [ha]; rfl) fun _ => Or.inl hflag
        · exact h.goto (by rw [ha]; rfl) nofun
      · cases hstep
  | wait thread =>
      simp only [AllocFailures.stepThread] at hstep
      split at hstep
      · rename_i tries since ha
        cases hstep
        exact h.release (by rw [ha]; rfl) rfl fun _ => h.hopes thread (by rw [ha]; rfl)
      · cases hstep
  | leave thread =>
      simp only [AllocFailures.stepThread] at hstep
      split at hstep
      · rename_i tries since ha
        cases hstep
        have hreleased := h.release (a := .attempting tries since) (by rw [ha]; rfl) rfl nofun
        exact hreleased.notifyAll
      · cases hstep
  | _ => cases hstep

theorem Heard.stepLock (h : s.Heard) {thread : τ} {waited : Handling}
    (hstep : s.stepLock thread waited = some u) : u.Heard := by
  unfold AllocFailures.stepLock at hstep
  split at hstep
  · rename_i tries since place ha hlock
    rw [guard_eq_some] at hstep
    obtain ⟨rfl, rfl⟩ := hstep
    exact h.acquire hlock rfl rfl
  · cases hstep

omit [DecidableEq τ] in
-- The controller goes on without the lock, and with no one to notify.
theorem Heard.withTurn (h : s.Heard) {turn : Turn} {collections : Nat}
    (hlock : turn.locksWaiters = s.turn.locksWaiters)
    (hnotifies : s.turn.notifies = true → turn.notifies = true)
    (hmode : ∀ pending, turn ≠ .chosen pending .none) : Heard { s with turn, collections } := by
  refine ⟨h.caller, ?_, fun v hv => (h.hopes v hv).imp_right hnotifies, hmode⟩
  show turn.locksWaiters = true ↔ _
  rw [hlock]
  exact h.controller

omit [DecidableEq τ] in
theorem Heard.stepController (h : s.Heard) {e : AllocEvent τ}
    (hstep : s.stepController e = some u) : u.Heard := by
  cases e with
  | poll explicitGcRequested heuristics =>
      simp only [AllocFailures.stepController] at hstep
      split at hstep
      · rename_i hturn
        cases hstep
        split_ifs with hmode
        · exact h.withTurn (by rw [hturn]) (by simp [hturn, Turn.notifies]) nofun
        · refine h.withTurn (by rw [hturn]; rfl) (by simp [hturn, Turn.notifies]) fun _ heq => ?_
          exact hmode (Turn.chosen.inj heq).2
      · cases hstep
  | begin =>
      simp only [AllocFailures.stepController] at hstep
      split at hstep
      case h_4 => cases hstep
      all_goals
        rename_i hturn
        cases hstep
        exact h.withTurn (by rw [hturn]; rfl) (by simp [hturn, Turn.notifies]) nofun
  | finish =>
      simp only [AllocFailures.stepController] at hstep
      split at hstep
      case h_3 => cases hstep
      all_goals
        rename_i hturn
        cases hstep
        exact h.withTurn (by rw [hturn]; rfl) (by simp [hturn, Turn.notifies]) nofun
  | unset =>
      simp only [AllocFailures.stepController] at hstep
      split at hstep
      · rename_i hturn
        cases hstep
        have hcontroller := h.controller
        rw [hturn] at hcontroller
        exact ⟨h.caller, hcontroller, fun _ _ => Or.inr rfl, nofun⟩
      · cases hstep
  | lockWaiters =>
      simp only [AllocFailures.stepController] at hstep
      split at hstep
      · rename_i hturn hlock
        cases hstep
        refine ⟨fun v => ?_, by simp [Turn.locksWaiters], fun _ _ => Or.inr rfl, nofun⟩
        have hcaller := h.caller v
        simpa [hlock] using hcaller
      · cases hstep
  | notifyAll =>
      simp only [AllocFailures.stepController] at hstep
      split at hstep
      · rename_i hturn
        cases hstep
        have hheld := h.controller.mp (by rw [hturn]; rfl)
        refine ⟨h.notifyAll.caller, iff_of_true rfl hheld, fun v hv => ?_, nofun⟩
        -- no thread that hopes is left: it would have the lock
        have hholds := (h.caller v).mp (Allocator.hopes_notified hv).2
        simp [hheld] at hholds
      · cases hstep
  | dropLocker =>
      simp only [AllocFailures.stepController] at hstep
      split at hstep
      · rename_i hturn
        cases hstep
        have hheld := h.controller.mp (by rw [hturn]; rfl)
        refine ⟨fun v => ?_, by simp [Turn.locksWaiters], fun v hv => ?_, nofun⟩
        · have hcaller := h.notifyAll.caller v
          simpa [AllocFailures.notifyAll, hheld] using hcaller
        · have hholds := (h.caller v).mp (Allocator.hopes_notified hv).2
          simp [hheld] at hholds
      · cases hstep
  | endTurn =>
      simp only [AllocFailures.stepController] at hstep
      split at hstep
      · rename_i hturn
        cases hstep
        exact h.withTurn (by rw [hturn]; rfl) (by simp [hturn, Turn.notifies]) nofun
      · cases hstep
  | terminate =>
      simp only [AllocFailures.stepController] at hstep
      split at hstep
      · rename_i hturn
        cases hstep
        exact h.withTurn (by rw [hturn]; rfl) (by simp [hturn, Turn.notifies]) nofun
      · cases hstep
  | _ => cases hstep

theorem heard_of_reachable (hs : (allocFailures τ).Reachable s) : s.Heard := by
  refine hs.invariant ?_ fun _ _ _ hheard hstep => ?_
  · rintro _ rfl
    exact ⟨fun _ => by simp [Allocator.holdsLock], by simp [Turn.locksWaiters], nofun, nofun⟩
  · rcases step_cases hstep with hstep | ⟨thread, waited, -, hstep⟩ | hstep
    · exact hheard.stepThread hstep
    · exact hheard.stepLock hstep
    · exact hheard.stepController hstep

-- The events of the controller until its end, and those that only a thread that has the
-- lock can take
def Responds : AllocEvent τ → Bool
  | .poll _ _ | .begin | .finish | .unset | .lockWaiters | .notifyAll | .dropLocker | .endTurn
  | .check _ | .wait _ | .leave _ => true
  | _ => false

-- The runs of the controller and of the one who has the lock, while the thread waits
def responses (thread : τ) : Machine (AllocFailures τ) (AllocEvent τ) where
  init s := s = ⟨false, none, fun _ => .idle, .polling, 0⟩
  step s e :=
    if (s.allocator thread).isWaiting ∧ Responds e then s.step e else none

-- The steps of the controller until a thread that waits is notified. A turn that began
-- before the flag was set comes first.
def turnsLeft : Turn → Nat
  | .chosen true .stwDegen | .chosen true .stwFull => 5
  | .chosen _ _ => 9
  | .concurrent _ | .stopped false => 8
  | .collected false | .notified => 7
  | .polling => 6
  | .stopped true => 4
  | .collected true => 3
  | .unset => 2
  | .locked => 1
  | .terminated => 0

def lockStepsLeft (s : AllocFailures τ) : Nat :=
  match s.waitersLock with
  | none => 0
  | some .controller => 0
  | some (.caller thread) =>
      match s.allocator thread with
      | .handling _ _ .checking => 2
      | _ => 1

def stepsLeft (s : AllocFailures τ) : Nat := 3 * turnsLeft s.turn + s.lockStepsLeft

-- Whoever has the lock goes on where the world is not stopped.
theorem exists_holder_step {thread : τ} (h : (s.allocator thread).holdsLock = true)
    (hturn : s.turn.isStopped = false) : ∃ e, Responds e = true ∧ (s.step e).isSome = true := by
  cases ha : s.allocator thread with
  | handling tries since place =>
      rw [ha] at h
      cases place with
      | checking =>
          exact ⟨.check thread, rfl, by
            simp [AllocFailures.step, AllocFailures.stepThread, ha, hturn]⟩
      | checked =>
          exact ⟨.wait thread, rfl, by
            simp [AllocFailures.step, AllocFailures.stepThread, ha, hturn]⟩
      | leaving =>
          exact ⟨.leave thread, rfl, by
            simp [AllocFailures.step, AllocFailures.stepThread, ha, hturn]⟩
      | _ => cases h
  | _ =>
      rw [ha] at h
      cases h

theorem exists_response (h : s.Heard) (hturn : s.turn ≠ .terminated) :
    ∃ e, Responds e = true ∧ (s.step e).isSome = true := by
  cases hs : s.turn with
  | polling =>
      exact ⟨.poll false ⟨false, false, false⟩, rfl, by
        simp [AllocFailures.step, AllocFailures.stepController, hs]⟩
  | chosen pending mode =>
      have hmode := h.mode pending
      rw [hs] at hmode
      refine ⟨.begin, rfl, ?_⟩
      cases mode with
      | none => exact absurd rfl hmode
      | concurrent | stwDegen | stwFull =>
          simp [AllocFailures.step, AllocFailures.stepController, hs]
  | concurrent pending | stopped pending =>
      exact ⟨.finish, rfl, by simp [AllocFailures.step, AllocFailures.stepController, hs]⟩
  | collected pending =>
      cases pending with
      | true => exact ⟨.unset, rfl, by simp [AllocFailures.step, AllocFailures.stepController, hs]⟩
      | false =>
          exact ⟨.endTurn, rfl, by simp [AllocFailures.step, AllocFailures.stepController, hs]⟩
  | unset =>
      cases hlock : s.waitersLock with
      | none =>
          exact ⟨.lockWaiters, rfl, by
            simp [AllocFailures.step, AllocFailures.stepController, hs, hlock]⟩
      | some holder =>
          cases holder with
          | controller => simpa [hs, Turn.locksWaiters] using h.controller.mpr hlock
          | caller thread => exact exists_holder_step ((h.caller thread).mpr hlock) (by rw [hs]; rfl)
  | locked => exact ⟨.notifyAll, rfl, by simp [AllocFailures.step, AllocFailures.stepController, hs]⟩
  | notified =>
      exact ⟨.dropLocker, rfl, by simp [AllocFailures.step, AllocFailures.stepController, hs]⟩
  | terminated => exact absurd hs hturn

-- A step of whoever has the lock notifies all, or the lock is closer to its release.
theorem stepThread_closer (h : s.Heard) {e : AllocEvent τ} (hresponds : Responds e = true)
    {thread : τ} (hstep : s.stepThread e = some u) :
    (u.allocator thread).isWaiting = false ∨
      u.turn = s.turn ∧ u.lockStepsLeft < s.lockStepsLeft := by
  cases e with
  | check v =>
      simp only [AllocFailures.stepThread] at hstep
      split at hstep
      · rename_i tries since ha
        cases hstep
        have hmine := (h.caller v).mp (by rw [ha]; rfl)
        refine Or.inr ⟨rfl, ?_⟩
        by_cases hflag : s.allocFailureGc = true <;>
          simp [lockStepsLeft, AllocFailures.goto, hmine, ha, hflag]
      · cases hstep
  | wait v =>
      simp only [AllocFailures.stepThread] at hstep
      split at hstep
      · rename_i tries since ha
        cases hstep
        have hmine := (h.caller v).mp (by rw [ha]; rfl)
        exact Or.inr ⟨rfl, by simp [lockStepsLeft, hmine, ha]⟩
      · cases hstep
  | leave v =>
      simp only [AllocFailures.stepThread] at hstep
      split at hstep
      · cases hstep
        exact Or.inl (by simp [AllocFailures.notifyAll])
      · cases hstep
  | poll | begin | finish | unset | lockWaiters | notifyAll | dropLocker | endTurn => cases hstep
  | _ => cases hresponds

omit [DecidableEq τ] in
-- A step of the controller notifies all, or its notification is closer.
theorem stepController_closer (h : s.Heard) {e : AllocEvent τ} (hresponds : Responds e = true)
    {thread : τ} (hwaits : (s.allocator thread).isWaiting = true)
    (hstep : s.stepController e = some u) :
    (u.allocator thread).isWaiting = false ∨
      u.turn ≠ .terminated ∧ turnsLeft u.turn < turnsLeft s.turn ∧
        u.lockStepsLeft ≤ s.lockStepsLeft := by
  cases e with
  | poll explicitGcRequested heuristics =>
      simp only [AllocFailures.stepController] at hstep
      split at hstep
      · rename_i hturn
        cases hstep
        have hflag : s.allocFailureGc = true := by
          have hhopes := h.hopes thread (Allocator.hopes_of_isWaiting hwaits)
          rw [hturn] at hhopes
          exact hhopes.resolve_right nofun
        refine Or.inr ?_
        rcases selectMode_pending explicitGcRequested heuristics with hmode | hmode <;>
          simp [hflag, hmode, hturn, turnsLeft, lockStepsLeft]
      · cases hstep
  | begin =>
      simp only [AllocFailures.stepController] at hstep
      split at hstep
      case h_4 => cases hstep
      all_goals
        rename_i pending hturn
        cases hstep
        refine Or.inr ?_
        cases pending <;> simp [hturn, turnsLeft, lockStepsLeft]
  | finish =>
      simp only [AllocFailures.stepController] at hstep
      split at hstep
      case h_3 => cases hstep
      all_goals
        rename_i pending hturn
        cases hstep
        refine Or.inr ?_
        cases pending <;> simp [hturn, turnsLeft, lockStepsLeft]
  | unset =>
      simp only [AllocFailures.stepController] at hstep
      split at hstep
      · rename_i hturn
        cases hstep
        exact Or.inr (by simp [hturn, turnsLeft, lockStepsLeft])
      · cases hstep
  | lockWaiters =>
      simp only [AllocFailures.stepController] at hstep
      split at hstep
      · rename_i hturn hlock
        cases hstep
        exact Or.inr (by simp [hturn, turnsLeft, lockStepsLeft])
      · cases hstep
  | notifyAll =>
      simp only [AllocFailures.stepController] at hstep
      split at hstep
      · cases hstep
        exact Or.inl (by simp [AllocFailures.notifyAll])
      · cases hstep
  | dropLocker =>
      simp only [AllocFailures.stepController] at hstep
      split at hstep
      · cases hstep
        exact Or.inl (by simp [AllocFailures.notifyAll])
      · cases hstep
  | endTurn =>
      simp only [AllocFailures.stepController] at hstep
      split at hstep
      · rename_i hturn
        cases hstep
        exact Or.inr (by simp [hturn, turnsLeft, lockStepsLeft])
      · cases hstep
  | check | wait | leave => cases hstep
  | _ => cases hresponds

theorem response_closer (h : s.Heard) (hturn : s.turn ≠ .terminated) {e : AllocEvent τ}
    (hresponds : Responds e = true) {thread : τ}
    (hwaits : (s.allocator thread).isWaiting = true) (hstep : s.step e = some u) :
    (u.allocator thread).isWaiting = false ∨
      u.turn ≠ .terminated ∧ u.stepsLeft < s.stepsLeft := by
  have hcases : s.stepThread e = some u ∨ s.stepController e = some u := by
    cases e with
    | check | wait | leave => exact Or.inl (Option.ite_none_left_eq_some.mp hstep).2
    | poll | begin | finish | unset | lockWaiters | notifyAll | dropLocker | endTurn =>
        exact Or.inr hstep
    | _ => cases hresponds
  unfold stepsLeft
  rcases hcases with hthread | hcontroller
  · refine (stepThread_closer h hresponds hthread).imp_right fun hcloser => ?_
    obtain ⟨hsame, hlock⟩ := hcloser
    rw [hsame]
    exact ⟨hturn, by omega⟩
  · refine (stepController_closer h hresponds hwaits hcontroller).imp_right fun hcloser => ?_
    obtain ⟨hend, hcloser, hlock⟩ := hcloser
    exact ⟨hend, by omega⟩

theorem responses_step_eq_some {thread : τ} {e : AllocEvent τ} :
    (responses thread).step s e = some u ↔
      ((s.allocator thread).isWaiting = true ∧ Responds e = true) ∧ s.step e = some u :=
  Option.ite_none_right_eq_some

-- In every run of the controller and of those who have the lock, a thread that waits is
-- notified.
theorem waiter_notified (hs : (allocFailures τ).Reachable s) (hturn : s.turn ≠ .terminated)
    {thread : τ} (hwaits : (s.allocator thread).isWaiting = true) :
    (responses thread).Ends (fun u => (u.allocator thread).isWaiting = false) s := by
  refine Machine.Ends.of_measure wellFounded_lt stepsLeft
    (fun s => (allocFailures τ).Reachable s ∧ s.turn ≠ .terminated ∧
      (s.allocator thread).isWaiting = true) ?_ ?_ ⟨hs, hturn, hwaits⟩
  · rintro s ⟨hs, hturn, hwaits⟩
    obtain ⟨e, hresponds, henabled⟩ := exists_response (heard_of_reachable hs) hturn
    obtain ⟨u, hstep⟩ := Option.isSome_iff_exists.mp henabled
    exact Or.inr ⟨e, u, responses_step_eq_some.mpr ⟨⟨hwaits, hresponds⟩, hstep⟩⟩
  · rintro s e u ⟨hs, hturn, hwaits⟩ hstep
    obtain ⟨⟨-, hresponds⟩, hstep⟩ := responses_step_eq_some.mp hstep
    by_cases hwaits' : (u.allocator thread).isWaiting = true
    · have hcloser := response_closer (heard_of_reachable hs) hturn hresponds hwaits hstep
      obtain ⟨hturn', hless⟩ := hcloser.resolve_left (by simp [hwaits'])
      exact Or.inr ⟨⟨hs.next hstep, hturn', hwaits'⟩, hless⟩
    · refine Or.inl (.intro (Or.inl (Bool.eq_false_iff.mpr hwaits')) fun e' v hstep' => ?_)
      exact absurd (responses_step_eq_some.mp hstep').1.1 hwaits'

-- The flag is unset between the check and the wait.
theorem waiter_notified_late :
    ∃ s, (allocFailures (Fin 2)).Reachable s ∧ s.allocFailureGc = false ∧ s.turn = .unset ∧
      (responses 0).Ends (fun u => (u.allocator 0).isWaiting = false) s := by
  have hrun : ((allocFailures (Fin 2)).run ⟨false, none, fun _ => .idle, .polling, 0⟩
      [.call 0, .attempt 0 false, .test 0, .exchange 0 false, .cancel 0, .lock 0,
        .poll false ⟨true, false, false⟩, .begin, .finish, .check 0, .unset, .wait 0]).map
      (fun s => ((s.allocator 0).isWaiting, s.allocFailureGc, s.turn)) =
      some (true, false, .unset) := by decide
  obtain ⟨s, hs, hr⟩ := Option.map_eq_some_iff.mp hrun
  obtain ⟨hwaits, hr⟩ := Prod.mk.inj hr
  obtain ⟨hflag, hturn⟩ := Prod.mk.inj hr
  have hreach := Machine.run_reachable (Machine.Via.init rfl) hs
  exact ⟨s, hreach, hflag, hturn, waiter_notified hreach (by simp [hturn]) hwaits⟩

end AllocFailures

end Rsgc.Control
