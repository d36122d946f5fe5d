import Rsgc.Control.AllocFailure

namespace Rsgc.Control

-- With the flag set a thread waits for the next notification, and a collection that it
-- has not seen begin comes between two of them.
def Allocator.Fits (flag : Bool) (settled : Nat) : Allocator → Prop
  | .idle | .allocated => True
  | .attempting tries since => tries = 0 ∨ since + tries ≤ settled + 1
  | .handling tries since .testing | .handling tries since .exchanging =>
      0 < tries ∧ since + tries ≤ settled + 2
  | .handling tries since .leaving => 0 < tries ∧ since + tries ≤ settled + 1
  | .handling tries since _ =>
      0 < tries ∧ (flag = true ∧ since + tries ≤ settled + 2 ∨ since + tries ≤ settled + 1)
  | .exhausted since => since + 2 ≤ settled

theorem Allocator.Fits.mono {flag : Bool} {settled settled' : Nat} {a : Allocator}
    (h : a.Fits flag settled) (hle : settled ≤ settled') : a.Fits flag settled' := by
  cases a with
  | idle | allocated => trivial
  | attempting tries since => exact h.imp_right fun hle' => by omega
  | handling tries since place => cases place <;> simp only [Fits] at h ⊢ <;> grind
  | exhausted since => exact Nat.le_trans h hle

theorem Allocator.Fits.notified {flag : Bool} {settled : Nat} {a : Allocator}
    (h : a.Fits flag settled) : a.notified.Fits flag settled := by
  cases a with
  | handling tries since place => cases place <;> exact h
  | _ => exact h

-- Another thread sets the flag.
theorem Allocator.Fits.set {flag : Bool} {settled : Nat} {a : Allocator}
    (h : a.Fits flag settled) : a.Fits true settled := by
  cases a with
  | handling tries since place => cases place <;> simp only [Fits] at h ⊢ <;> grind
  | _ => exact h

-- The controller unsets it after one more collection.
theorem Allocator.Fits.unset {flag : Bool} {settled : Nat} {a : Allocator}
    (h : a.Fits flag settled) : a.Fits false (settled + 1) := by
  cases a with
  | idle | allocated => trivial
  | attempting tries since => exact h.imp_right fun hle' => by omega
  | handling tries since place => cases place <;> simp only [Fits] at h ⊢ <;> grind
  | exhausted since => exact Nat.le_succ_of_le h

namespace AllocFailures

variable {τ : Type*} [DecidableEq τ] {s u : AllocFailures τ}

-- The weak exchange of `try_set` fails only where it finds the flag set.
def NotSpurious (_ : AllocFailures τ) : AllocEvent τ → Prop
  | .exchange _ spurious => spurious = false
  | _ => True

-- The collections that were over before the one whose waiters are still to be notified.
def settled (s : AllocFailures τ) : Nat :=
  if s.turn = .collected true then s.collections - 1 else s.collections

structure Inv (s : AllocFailures τ) : Prop where
  allocators : ∀ thread, (s.allocator thread).Fits s.allocFailureGc s.settled
  -- a turn that has seen the flag runs a stopped collection
  chosen : s.turn ≠ .chosen true .concurrent ∧ s.turn ≠ .concurrent true
  collected : s.turn = .collected true → 0 < s.collections

theorem Inv.goto (h : s.Inv) {thread : τ} {a : Allocator}
    (ha : a.Fits s.allocFailureGc s.settled) : (s.goto thread a).Inv := by
  refine ⟨fun v => ?_, h.chosen, h.collected⟩
  show (Function.update s.allocator thread a v).Fits s.allocFailureGc s.settled
  rcases eq_or_ne v thread with rfl | hv
  · rwa [Function.update_self]
  · rw [Function.update_of_ne hv]
    exact h.allocators v

omit [DecidableEq τ] in
theorem Inv.notifyAll (h : s.Inv) : s.notifyAll.Inv :=
  ⟨fun thread => (h.allocators thread).notified, h.chosen, h.collected⟩

omit [DecidableEq τ] in
theorem Inv.withLock (h : s.Inv) (holder : Option (Holder τ)) :
    Inv { s with waitersLock := holder } :=
  ⟨h.allocators, h.chosen, h.collected⟩

omit [DecidableEq τ] in
theorem fits_failed {tries since : Nat}
    (ha : (Allocator.attempting tries since).Fits s.allocFailureGc s.settled) :
    (s.failed tries since).Fits s.allocFailureGc s.settled := by
  have hsettled : s.collections ≤ s.settled + 1 := by
    unfold settled
    split_ifs <;> omega
  simp only [Allocator.Fits] at ha
  unfold failed
  split_ifs <;> simp only [Allocator.Fits] <;> omega

theorem Inv.stepThread (h : s.Inv) {e : AllocEvent τ} (hgood : s.NotSpurious e)
    (hstep : s.stepThread e = some u) : u.Inv := by
  cases e with
  | call thread =>
      simp only [AllocFailures.stepThread] at hstep
      have hnew : (s.goto thread (.attempting 0 0)).Inv := h.goto (Or.inl rfl)
      split at hstep
      all_goals first | exact Option.some.inj hstep ▸ hnew | cases hstep
  | attempt thread succeeds =>
      simp only [AllocFailures.stepThread] at hstep
      have hfits := h.allocators thread
      split at hstep
      · rename_i tries since ha
        cases hstep
        rw [ha] at hfits
        split_ifs
        · exact h.goto trivial
        · exact h.goto (fits_failed hfits)
      · cases hstep
  | test thread =>
      simp only [AllocFailures.stepThread] at hstep
      have hfits := h.allocators thread
      split at hstep
      · rename_i tries since ha
        cases hstep
        rw [ha] at hfits
        apply h.goto
        split_ifs with hflag
        · exact ⟨hfits.1, Or.inl ⟨hflag, hfits.2⟩⟩
        · exact hfits
      · cases hstep
  | exchange thread spurious =>
      simp only [AllocFailures.stepThread] at hstep
      have hfits := h.allocators thread
      split at hstep
      · rename_i tries since ha
        rw [ha] at hfits
        split_ifs at hstep with hfailed
        · cases hstep
          have hflag := hfailed.resolve_right (by simp [show spurious = false from hgood])
          exact h.goto ⟨hfits.1, Or.inl ⟨hflag, hfits.2⟩⟩
        · cases hstep
          have hset : Inv { s with allocFailureGc := true } :=
            ⟨fun v => (h.allocators v).set, h.chosen, h.collected⟩
          exact hset.goto ⟨hfits.1, Or.inl ⟨rfl, hfits.2⟩⟩
      · cases hstep
  | cancel thread =>
      simp only [AllocFailures.stepThread] at hstep
      have hfits := h.allocators thread
      split at hstep
      · rename_i tries since ha
        cases hstep
        rw [ha] at hfits
        exact h.goto hfits
      · cases hstep
  | check thread =>
      simp only [AllocFailures.stepThread] at hstep
      have hfits := h.allocators thread
      split at hstep
      · rename_i tries since ha
        cases hstep
        rw [ha] at hfits
        apply h.goto
        split_ifs with hflag
        · exact hfits
        · exact ⟨hfits.1, hfits.2.resolve_left fun hor => hflag hor.1⟩
      · cases hstep
  | wait thread =>
      simp only [AllocFailures.stepThread] at hstep
      have hfits := h.allocators thread
      split at hstep
      · rename_i tries since ha
        cases hstep
        rw [ha] at hfits
        exact Inv.goto (h.withLock none) hfits
      · cases hstep
  | leave thread =>
      simp only [AllocFailures.stepThread] at hstep
      have hfits := h.allocators thread
      split at hstep
      · rename_i tries since ha
        cases hstep
        rw [ha] at hfits
        have hnew : (Allocator.attempting tries since).Fits s.allocFailureGc s.settled :=
          Or.inr hfits.2
        exact (h.goto hnew).notifyAll.withLock none
      · cases hstep
  | _ => cases hstep

theorem Inv.stepLock (h : s.Inv) {thread : τ} {waited : Handling}
    (hwaited : waited = .locking ∨ waited = .woken) (hstep : s.stepLock thread waited = some u) :
    u.Inv := by
  unfold AllocFailures.stepLock at hstep
  have hfits := h.allocators thread
  split at hstep
  · rename_i tries since place ha hlock
    rw [ha] at hfits
    rw [guard_eq_some] at hstep
    obtain ⟨rfl, rfl⟩ := hstep
    refine Inv.goto (h.withLock _) ?_
    rcases hwaited with rfl | rfl <;> exact hfits
  · cases hstep

omit [DecidableEq τ] in
-- The controller goes on without a change of the flag.
theorem Inv.withTurn (h : s.Inv) (turn : Turn) {collections : Nat}
    (hchosen : turn ≠ .chosen true .concurrent ∧ turn ≠ .concurrent true)
    (hcollected : turn = .collected true → 0 < collections)
    (hsettled : s.settled ≤ settled { s with turn, collections }) :
    Inv { s with turn, collections } :=
  ⟨fun thread => (h.allocators thread).mono hsettled, hchosen, hcollected⟩

omit [DecidableEq τ] in
theorem Inv.stepController (h : s.Inv) {e : AllocEvent τ} (hstep : s.stepController e = some u) :
    u.Inv := by
  cases e with
  | poll explicitGcRequested heuristics =>
      simp only [AllocFailures.stepController] at hstep
      split at hstep
      · rename_i hturn
        cases hstep
        refine h.withTurn _ ?_ ?_ ?_
        · split_ifs
          · simp
          · refine ⟨fun heq => ?_, nofun⟩
            obtain ⟨hflag, hmode⟩ := Turn.chosen.inj heq
            rw [hflag] at hmode
            rcases selectMode_pending explicitGcRequested heuristics with hstopped | hstopped <;>
              simp [hstopped] at hmode
        · split_ifs <;> nofun
        · unfold settled
          split_ifs <;> simp_all
      · cases hstep
  | begin =>
      simp only [AllocFailures.stepController] at hstep
      have hchosen := h.chosen
      split at hstep
      · rename_i pending hturn
        cases hstep
        cases pending with
        | true => exact absurd hturn hchosen.1
        | false => exact h.withTurn _ (by simp) nofun (by simp [settled, hturn])
      · rename_i pending hturn
        cases hstep
        exact h.withTurn _ (by simp) nofun (by simp [settled, hturn])
      · rename_i pending hturn
        cases hstep
        exact h.withTurn _ (by simp) nofun (by simp [settled, hturn])
      · cases hstep
  | finish =>
      simp only [AllocFailures.stepController] at hstep
      have hchosen := h.chosen
      split at hstep
      · rename_i pending hturn
        cases hstep
        cases pending with
        | true => exact absurd hturn hchosen.2
        | false => exact h.withTurn _ (by simp) (by simp) (by simp [settled, hturn])
      · rename_i pending hturn
        cases hstep
        refine h.withTurn _ (by simp) (fun _ => Nat.succ_pos _) ?_
        cases pending <;> simp [settled, hturn]
      · cases hstep
  | unset =>
      simp only [AllocFailures.stepController] at hstep
      split at hstep
      · rename_i hturn
        cases hstep
        have hpos := h.collected hturn
        have hsettled : s.settled + 1 = s.collections := by
          rw [settled, if_pos hturn]
          omega
        refine ⟨fun thread => ?_, by simp, nofun⟩
        have hfits := (h.allocators thread).unset
        rw [hsettled] at hfits
        exact hfits
      · cases hstep
  | lockWaiters =>
      simp only [AllocFailures.stepController] at hstep
      split at hstep
      · rename_i hturn hlock
        cases hstep
        have hlocked := h.withLock (some .controller)
        exact hlocked.withTurn .locked (by simp) nofun (by simp [settled, hturn])
      · cases hstep
  | notifyAll =>
      simp only [AllocFailures.stepController] at hstep
      split at hstep
      · rename_i hturn
        cases hstep
        exact h.notifyAll.withTurn _ (by simp) nofun (by simp [settled, hturn, AllocFailures.notifyAll])
      · cases hstep
  | dropLocker =>
      simp only [AllocFailures.stepController] at hstep
      split at hstep
      · rename_i hturn
        cases hstep
        exact (h.notifyAll.withLock none).withTurn _ (by simp) nofun
          (by simp [settled, hturn, AllocFailures.notifyAll])
      · cases hstep
  | endTurn =>
      simp only [AllocFailures.stepController] at hstep
      split at hstep
      · rename_i hturn
        cases hstep
        exact h.withTurn _ (by simp) nofun (by simp [settled, hturn])
      · cases hstep
  | terminate =>
      simp only [AllocFailures.stepController] at hstep
      split at hstep
      · rename_i hturn
        cases hstep
        exact h.withTurn _ (by simp) nofun (by simp [settled, hturn])
      · cases hstep
  | _ => cases hstep

theorem Inv.step (h : s.Inv) {e : AllocEvent τ} (hgood : s.NotSpurious e)
    (hstep : s.step e = some u) : u.Inv := by
  rcases step_cases hstep with hstep | ⟨thread, waited, hwaited, hstep⟩ | hstep
  · exact h.stepThread hgood hstep
  · exact h.stepLock hwaited hstep
  · exact h.stepController hstep

theorem inv_of_via (hs : (allocFailures τ).Via NotSpurious s) : s.Inv :=
  hs.invariant (by rintro _ rfl; exact ⟨fun _ => trivial, by simp, nofun⟩)
    fun _ _ _ hinv hgood hstep => hinv.step hgood hstep

-- Allocation fails only after two collections that began after its first attempt.
theorem retried (hs : (allocFailures τ).Via NotSpurious s) {thread : τ} {since : Nat}
    (h : s.allocator thread = .exhausted since) : since + 2 ≤ s.collections := by
  have hfits := (inv_of_via hs).allocators thread
  rw [h] at hfits
  have hle : s.settled ≤ s.collections := by
    unfold settled
    split_ifs <;> omega
  exact hfits.trans hle

instance (s : AllocFailures τ) : (e : AllocEvent τ) → Decidable (s.NotSpurious e)
  | .exchange _ spurious => inferInstanceAs (Decidable (spurious = false))
  | .call _ | .attempt _ _ | .test _ | .cancel _ | .lock _ | .check _ | .wait _ | .relock _
  | .leave _ | .poll _ _ | .begin | .finish | .unset | .lockWaiters | .notifyAll | .dropLocker
  | .endTurn | .terminate => inferInstanceAs (Decidable True)

def failure (thread : Fin 2) : List (AllocEvent (Fin 2)) :=
  [.attempt thread false, .test thread, .exchange thread false, .cancel thread, .lock thread,
    .check thread, .wait thread]

def response : List (AllocEvent (Fin 2)) := [.unset, .lockWaiters, .notifyAll, .dropLocker]

def retry (thread : Fin 2) : List (AllocEvent (Fin 2)) :=
  [.relock thread, .check thread, .leave thread]

def collection : List (AllocEvent (Fin 2)) :=
  [.poll false ⟨false, false, false⟩, .begin, .finish]

-- The first wait of a thread may end with a collection that was over when it began.
theorem retried_twice :
    ∃ s, (allocFailures (Fin 2)).Via NotSpurious s ∧ s.allocator 1 = .exhausted 1 ∧
      s.collections = 3 ∧ 1 + 2 ≤ s.collections := by
  have hrun : ((allocFailures (Fin 2)).runVia NotSpurious ⟨false, none, fun _ => .idle, .polling, 0⟩
      ([.call 0] ++ failure 0 ++ collection ++
        [.call 1, .attempt 1 false, .test 1, .lock 1, .check 1, .wait 1] ++ response ++
        retry 1 ++ failure 1 ++ collection ++ response ++
        retry 1 ++ failure 1 ++ collection ++ response ++
        retry 1 ++ [.attempt 1 false])).map (fun s => (s.allocator 1, s.collections)) =
      some (.exhausted 1, 3) := by decide
  obtain ⟨s, hs, hr⟩ := Option.map_eq_some_iff.mp hrun
  obtain ⟨hallocator, hcollections⟩ := Prod.mk.inj hr
  have hvia := Machine.via_of_runVia (Machine.Via.init rfl) hs
  exact ⟨s, hvia, hallocator, hcollections, retried hvia hallocator⟩

end AllocFailures

end Rsgc.Control
