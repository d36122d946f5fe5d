import Mathlib.Data.Fintype.EquivFin
import Rsgc.Lib.Census
import Rsgc.Lib.Machine

namespace Rsgc.Sync

-- Where a thread is with respect to `offer_termination`. A thread that was returned
-- `false` works again; `spins` is the `yield_count` of a spin master.
inductive Offer
  | working
  | spinning (spins : Nat)
  | waiting
  | terminated
deriving DecidableEq, Repr

def Offer.isOffered : Offer → Bool
  | working => false
  | spinning _ | waiting | terminated => true

def Offer.isSpinning : Offer → Bool
  | spinning _ => true
  | working | waiting | terminated => false

def Offer.isWaiting : Offer → Bool
  | waiting => true
  | working | spinning _ | terminated => false

def Offer.isTerminated : Offer → Bool
  | terminated => true
  | working | spinning _ | waiting => false

structure TaskTerminator (τ : Type*) where
  offeredTermination : Nat
  spinMaster : Option τ
  offer : τ → Offer

-- What a thread sees that looks for work again: the tasks in the queue set, and what
-- the terminator that it was given answers, if any.
structure Peek where
  tasks : Nat
  shouldExit : Option Bool
deriving DecidableEq, Repr

def Peek.exitForTermination (p : Peek) : Bool := 0 < p.tasks || p.shouldExit.getD false

-- A step is what happens from one acquisition of the lock to its release. `wake` is the
-- return from `wait_for`, which may come at any time and in either way.
inductive TerminatorEvent (τ : Type*)
  | offer (t : τ)
  | spin (t : τ) (peek : Peek)
  | wake (t : τ) (timedOut : Bool) (peek : Peek)
deriving DecidableEq

def TerminatorEvent.thread {τ : Type*} : TerminatorEvent τ → τ
  | .offer t | .spin t _ | .wake t _ _ => t

namespace TaskTerminator

-- `DelayContext::needs_sleep`
def needsSleep (spins : Nat) : Bool := 5000 ≤ spins

variable {τ : Type*} [DecidableEq τ]

def goto (s : TaskTerminator τ) (t : τ) (o : Offer) : TaskTerminator τ :=
  { s with offer := Function.update s.offer t o }

-- `prepare_for_return` up to its notifications
def prepareForReturn (s : TaskTerminator τ) (t : τ) : TaskTerminator τ :=
  if s.spinMaster = some t then { s with spinMaster := none } else s

def terminate (s : TaskTerminator τ) (t : τ) : TaskTerminator τ :=
  (s.prepareForReturn t).goto t .terminated

def withdraw (s : TaskTerminator τ) (t : τ) : TaskTerminator τ :=
  { (s.prepareForReturn t).goto t .working with
    offeredTermination := (s.prepareForReturn t).offeredTermination - 1 }

-- The head of the loop: without a spin master the thread becomes it.
def loop (s : TaskTerminator τ) (t : τ) : TaskTerminator τ :=
  if s.spinMaster = none then { s.goto t (.spinning 0) with spinMaster := some t }
  else s.goto t .waiting

-- The spin master after it has taken the lock again.
def spin (n : Nat) (s : TaskTerminator τ) (t : τ) (spins : Nat) (peek : Peek) :
    TaskTerminator τ :=
  if s.offeredTermination = n then s.terminate t
  else if peek.exitForTermination then s.withdraw t
  else if needsSleep (spins + 1) then { s.goto t .waiting with spinMaster := none }
  else s.goto t (.spinning (spins + 1))

def wake (s : TaskTerminator τ) (t : τ) (timedOut : Bool) (peek : Peek) : TaskTerminator τ :=
  if s.offeredTermination = 1 then s.terminate t
  else if !timedOut then s.withdraw t
  else if peek.exitForTermination then s.withdraw t
  else s.loop t

def offerTermination (n : Nat) (s : TaskTerminator τ) (t : τ) : TaskTerminator τ :=
  if n = 1 then { s.goto t .terminated with offeredTermination := 1 }
  else if s.offeredTermination + 1 = n then
    { s with offeredTermination := s.offeredTermination + 1 }.terminate t
  else { s with offeredTermination := s.offeredTermination + 1 }.loop t

def step (n : Nat) (s : TaskTerminator τ) : TerminatorEvent τ → Option (TaskTerminator τ)
  | .offer t => if s.offer t = .working then some (s.offerTermination n t) else none
  | .spin t peek =>
      match s.offer t with
      | .spinning spins => some (s.spin n t spins peek)
      | _ => none
  | .wake t timedOut peek =>
      if s.offer t = .waiting then some (s.wake t timedOut peek) else none

end TaskTerminator

-- The terminator of a pool of threads; `n_threads` is their number.
def taskTerminator (τ : Type*) [DecidableEq τ] [Fintype τ] :
    Machine (TaskTerminator τ) (TerminatorEvent τ) where
  init s := s = ⟨0, none, fun _ => .working⟩
  step := TaskTerminator.step (Fintype.card τ)

namespace TaskTerminator

variable {τ : Type*} [DecidableEq τ] [Fintype τ]

-- No thread comes back from its wait while its own offer is the only one, and where all
-- have offered termination it comes back with nothing to do.
def Heeded (s : TaskTerminator τ) : TerminatorEvent τ → Prop
  | .wake _ timedOut peek =>
      s.offeredTermination ≠ 1 ∧
        (s.offeredTermination = Fintype.card τ →
          timedOut = true ∧ peek.exitForTermination = false)
  | _ => True

instance (s : TaskTerminator τ) (e : TerminatorEvent τ) : Decidable (s.Heeded e) := by
  cases e <;> unfold Heeded <;> infer_instance

structure Inv (s : TaskTerminator τ) : Prop where
  offered : s.offeredTermination = census Offer.isOffered s.offer
  terminated : ∀ t, s.offer t = .terminated → s.offeredTermination = Fintype.card τ
  master : ∀ t, s.spinMaster = some t ↔ (s.offer t).isSpinning = true

-- A thread goes to another place and the counter changes with it.
def move (s : TaskTerminator τ) (t : τ) (o : Offer) (k : Nat) (master : Option τ) :
    TaskTerminator τ :=
  ⟨k, master, Function.update s.offer t o⟩

variable {s u : TaskTerminator τ} {t : τ} {o : Offer} {k : Nat} {master : Option τ}

-- Only this thread becomes the spin master or stops to be it.
def Hands (s : TaskTerminator τ) (t : τ) (o : Offer) (master : Option τ) : Prop :=
  (master = some t ↔ o.isSpinning = true) ∧ ∀ v ≠ t, master = some v ↔ s.spinMaster = some v

theorem Inv.move (h : s.Inv)
    (hk : k + (s.offer t).isOffered.toNat = s.offeredTermination + o.isOffered.toNat)
    (ho : o = .terminated → k = Fintype.card τ)
    (hall : s.offeredTermination = Fintype.card τ → k = Fintype.card τ)
    (hmaster : s.Hands t o master) : (s.move t o k master).Inv where
  offered := by
    have hcensus := census_update Offer.isOffered s.offer t o
    have hold := h.offered
    change k = census Offer.isOffered (Function.update s.offer t o)
    omega
  terminated v hv := by
    change Function.update s.offer t o v = .terminated at hv
    by_cases hvt : v = t
    · subst hvt
      rw [Function.update_self] at hv
      exact ho hv
    · rw [Function.update_of_ne hvt] at hv
      exact hall (h.terminated v hv)
  master v := by
    change master = some v ↔ (Function.update s.offer t o v).isSpinning = true
    by_cases hvt : v = t
    · subst hvt
      rw [Function.update_self]
      exact hmaster.1
    · rw [Function.update_of_ne hvt, hmaster.2 v hvt]
      exact h.master v

omit [Fintype τ] in
theorem prepareForReturn_hands (ho : o.isSpinning = false) :
    s.Hands t o (s.prepareForReturn t).spinMaster := by
  unfold prepareForReturn
  split
  · rename_i hmaster
    refine ⟨by simp [ho], fun v hv => ?_⟩
    simp [hmaster, hv.symm]
  · rename_i hmaster
    exact ⟨by simp [ho, hmaster], fun v _ => Iff.rfl⟩

omit [Fintype τ] in
theorem terminate_eq_move : s.terminate t =
    s.move t .terminated s.offeredTermination (s.prepareForReturn t).spinMaster := by
  unfold terminate prepareForReturn
  split <;> rfl

omit [Fintype τ] in
theorem withdraw_eq_move : s.withdraw t =
    s.move t .working (s.offeredTermination - 1) (s.prepareForReturn t).spinMaster := by
  unfold withdraw prepareForReturn
  split <;> rfl

omit [Fintype τ] in
theorem loop_eq_move (hnot : s.spinMaster ≠ some t) : ∃ o master,
    s.loop t = s.move t o s.offeredTermination master ∧ o.isOffered = true ∧ o ≠ .terminated ∧
      s.Hands t o master := by
  unfold loop
  split
  · rename_i hnone
    refine ⟨.spinning 0, some t, rfl, rfl, nofun, by simp [Offer.isSpinning], fun v hv => ?_⟩
    simp [hnone, hv.symm]
  · exact ⟨.waiting, s.spinMaster, rfl, rfl, nofun, by simp [Offer.isSpinning, hnot],
      fun _ _ => Iff.rfl⟩

omit [DecidableEq τ] in
theorem Inv.offered_pos (h : s.Inv) (ht : (s.offer t).isOffered = true) :
    0 < s.offeredTermination := by
  rw [h.offered, Nat.pos_iff_ne_zero]
  intro hzero
  rw [census_eq_zero.mp hzero t] at ht
  cases ht

theorem Inv.terminate (h : s.Inv) (ht : (s.offer t).isOffered = true)
    (hall : s.offeredTermination = Fintype.card τ) : (s.terminate t).Inv := by
  rw [terminate_eq_move]
  exact h.move (by rw [ht]; rfl) (fun _ => hall) id (prepareForReturn_hands rfl)

-- An offer may be withdrawn as long as they are not complete.
theorem Inv.withdraw (h : s.Inv) (ht : (s.offer t).isOffered = true)
    (hall : s.offeredTermination ≠ Fintype.card τ) : (s.withdraw t).Inv := by
  rw [withdraw_eq_move]
  have hpos := h.offered_pos ht
  refine h.move ?_ nofun (fun h' => absurd h' hall) (prepareForReturn_hands rfl)
  rw [ht]
  simp only [Offer.isOffered, Bool.toNat_true, Bool.toNat_false]
  omega

theorem Inv.loop (h : s.Inv) (ht : s.offer t = .waiting) : (s.loop t).Inv := by
  have hnot : s.spinMaster ≠ some t := by
    rw [Ne, h.master, ht]
    nofun
  obtain ⟨o, master, heq, ho, hne, hmaster⟩ := loop_eq_move hnot
  rw [heq]
  exact h.move (by rw [ht, ho]; rfl) (fun h' => absurd h' hne) id hmaster

-- A thread that works has not offered termination, so nobody was told to terminate.
omit [DecidableEq τ] in
theorem Inv.offered_ne_card (h : s.Inv) (ht : s.offer t = .working) :
    s.offeredTermination ≠ Fintype.card τ := by
  intro heq
  have hoffered := of_census_eq_card (h.offered.symm.trans heq) t
  rw [ht] at hoffered
  cases hoffered

theorem Inv.offerTermination (h : s.Inv) (ht : s.offer t = .working) :
    (s.offerTermination (Fintype.card τ) t).Inv := by
  have hne := h.offered_ne_card ht
  have hle : s.offeredTermination ≤ Fintype.card τ := by
    rw [h.offered]
    exact census_le_card
  have hnot : s.spinMaster ≠ some t := by
    rw [Ne, h.master, ht]
    nofun
  unfold TaskTerminator.offerTermination
  split
  · rename_i hone
    have hzero : s.offeredTermination = 0 := by omega
    have hmove : (s.move t .terminated 1 s.spinMaster).Inv :=
      h.move (by rw [ht, hzero]; rfl) (fun _ => hone.symm) (fun h' => absurd h' hne)
        ⟨by simp [Offer.isSpinning, hnot], fun _ _ => Iff.rfl⟩
    exact hmove
  · split
    · rename_i hlast
      have hhands := prepareForReturn_hands (o := .terminated) (t := t)
        (s := { s with offeredTermination := s.offeredTermination + 1 }) rfl
      rw [terminate_eq_move]
      exact h.move (by rw [ht]; rfl) (fun _ => hlast) (fun _ => hlast) hhands
    · obtain ⟨o, master, heq, ho, hterminated, hhands⟩ := loop_eq_move (t := t)
        (s := { s with offeredTermination := s.offeredTermination + 1 }) hnot
      rw [heq]
      exact h.move (by rw [ht, ho]; rfl) (fun h' => absurd h' hterminated)
        (fun h' => absurd h' hne) hhands

theorem Inv.spin {spins : Nat} (h : s.Inv) (ht : s.offer t = .spinning spins) (peek : Peek) :
    (s.spin (Fintype.card τ) t spins peek).Inv := by
  have hoffered : (s.offer t).isOffered = true := by rw [ht]; rfl
  have hmaster : s.spinMaster = some t := (h.master t).mpr (by rw [ht]; rfl)
  unfold TaskTerminator.spin
  split
  · rename_i hall
    exact h.terminate hoffered hall
  · rename_i hall
    split
    · exact h.withdraw hoffered hall
    · split
      · refine h.move (o := .waiting) (by rw [ht]; rfl) nofun id ⟨by simp [Offer.isSpinning], ?_⟩
        intro v hv
        simp [hmaster, hv.symm]
      · exact h.move (o := .spinning (spins + 1)) (by rw [ht]; rfl) nofun id
          ⟨by simp [Offer.isSpinning, hmaster], fun _ _ => Iff.rfl⟩

theorem Inv.wake {timedOut : Bool} {peek : Peek} (h : s.Inv) (ht : s.offer t = .waiting)
    (hgood : s.Heeded (.wake t timedOut peek)) : (s.wake t timedOut peek).Inv := by
  have hoffered : (s.offer t).isOffered = true := by rw [ht]; rfl
  obtain ⟨hone, hall⟩ := hgood
  unfold TaskTerminator.wake
  rw [if_neg hone]
  by_cases heq : s.offeredTermination = Fintype.card τ
  · obtain ⟨hout, hpeek⟩ := hall heq
    simp only [hout, hpeek, Bool.not_true, Bool.false_eq_true, if_false]
    exact h.loop ht
  · split
    · exact h.withdraw hoffered heq
    · split
      · exact h.withdraw hoffered heq
      · exact h.loop ht

theorem Inv.step {e : TerminatorEvent τ} (h : s.Inv) (hgood : s.Heeded e)
    (hstep : s.step (Fintype.card τ) e = some u) : u.Inv := by
  cases e with
  | offer t =>
      obtain ⟨ht, rfl⟩ := guard_eq_some.mp hstep
      exact h.offerTermination ht
  | spin t peek =>
      simp only [TaskTerminator.step] at hstep
      cases ht : s.offer t with
      | spinning spins =>
          rw [ht] at hstep
          obtain rfl := Option.some.inj hstep
          exact h.spin ht peek
      | _ => simp [ht] at hstep
  | wake t timedOut peek =>
      obtain ⟨ht, rfl⟩ := guard_eq_some.mp hstep
      exact h.wake ht hgood

theorem inv_of_via (hs : (taskTerminator τ).Via Heeded s) : s.Inv := by
  apply Machine.Via.invariant _ _ hs
  · rintro s rfl
    exact ⟨(census_eq_zero.mpr fun _ => rfl).symm, nofun, fun t => iff_of_false nofun nofun⟩
  · intro s e u h hgood hstep
    exact h.step hgood hstep

section Progress

-- The offers of all threads stand, and a thread has been told to terminate.
structure Complete (s : TaskTerminator τ) : Prop extends s.Inv where
  all : s.offeredTermination = Fintype.card τ
  told : ∃ t, s.offer t = .terminated

-- A spinning thread has one step left to take, and a waiting one two.
def remaining (s : TaskTerminator τ) : Nat :=
  census Offer.isWaiting s.offer + census (fun o => !o.isTerminated) s.offer

omit [DecidableEq τ] in
theorem remaining_le : s.remaining ≤ 2 * Fintype.card τ := by
  have hwaiting : census Offer.isWaiting s.offer ≤ Fintype.card τ := census_le_card
  have hleft : census (fun o => !o.isTerminated) s.offer ≤ Fintype.card τ := census_le_card
  unfold remaining
  omega

omit [DecidableEq τ] in
theorem remaining_eq_zero (hzero : s.remaining = 0) (t : τ) : s.offer t = .terminated := by
  have hleft := census_eq_zero.mp (Nat.add_eq_zero_iff.mp hzero).2 t
  cases ho : s.offer t with
  | terminated => rfl
  | working | spinning | waiting =>
      rw [ho] at hleft
      cases hleft

theorem remaining_move (s : TaskTerminator τ) (t : τ) (o : Offer) (k : Nat) (master : Option τ) :
    (s.move t o k master).remaining + (s.offer t).isWaiting.toNat +
        (!(s.offer t).isTerminated).toNat =
      s.remaining + o.isWaiting.toNat + (!o.isTerminated).toNat := by
  have hwaiting := census_update Offer.isWaiting s.offer t o
  have hleft := census_update (fun o => !o.isTerminated) s.offer t o
  unfold remaining TaskTerminator.move
  simp only
  omega

-- Where one thread has been told, one that waits is not alone.
omit [DecidableEq τ] in
theorem Complete.card_ne_one (h : s.Complete) (ht : s.offer t ≠ .terminated) :
    s.offeredTermination ≠ 1 := by
  obtain ⟨v, hv⟩ := h.told
  rw [h.all]
  intro hone
  obtain ⟨only, honly⟩ := Fintype.card_eq_one_iff.mp hone
  rw [honly t, ← honly v] at ht
  exact ht hv

-- The spin master takes its last step, and a waiting thread becomes spin master if there
-- is none. Otherwise it waits on.
theorem Complete.step_cases {e : TerminatorEvent τ} (h : s.Complete) (hgood : s.Heeded e)
    (hstep : s.step (Fintype.card τ) e = some u) :
    (∃ spins, s.offer e.thread = .spinning spins ∧ u = s.terminate e.thread) ∨
      s.offer e.thread = .waiting ∧
        (s.spinMaster = none ∧
            u = s.move e.thread (.spinning 0) s.offeredTermination (some e.thread) ∨
          s.spinMaster ≠ none ∧ u = s) := by
  cases e with
  | offer t =>
      obtain ⟨ht, rfl⟩ := guard_eq_some.mp hstep
      exact absurd h.all (h.offered_ne_card ht)
  | spin t peek =>
      simp only [TaskTerminator.step] at hstep
      cases ht : s.offer t with
      | spinning spins =>
          rw [ht] at hstep
          obtain rfl := Option.some.inj hstep
          exact Or.inl ⟨spins, ht, if_pos h.all⟩
      | _ => simp [ht] at hstep
  | wake t timedOut peek =>
      obtain ⟨ht, rfl⟩ := guard_eq_some.mp hstep
      obtain ⟨hone, hall⟩ := hgood
      obtain ⟨hout, hpeek⟩ := hall h.all
      refine Or.inr ⟨ht, ?_⟩
      unfold TaskTerminator.wake
      rw [if_neg hone]
      simp only [hout, hpeek, Bool.not_true, Bool.false_eq_true, if_false]
      unfold TaskTerminator.loop
      split
      · rename_i hnone
        exact Or.inl ⟨hnone, rfl⟩
      · rename_i hmaster
        have hsame : Function.update s.offer t .waiting = s.offer := by
          rw [← ht, Function.update_eq_self]
        refine Or.inr ⟨hmaster, ?_⟩
        unfold goto
        rw [hsame]

theorem Complete.step {e : TerminatorEvent τ} (h : s.Complete) (hgood : s.Heeded e)
    (hstep : s.step (Fintype.card τ) e = some u) :
    u = s ∨ u.Complete ∧ u.remaining < s.remaining := by
  have hinv := h.toInv.step hgood hstep
  obtain ⟨v, hv⟩ := h.told
  have hkeeps (o : Offer) (k : Nat) (master : Option τ)
      (hne : s.offer e.thread ≠ .terminated) :
      (s.move e.thread o k master).offer v = .terminated := by
    change Function.update s.offer e.thread o v = .terminated
    rw [Function.update_of_ne fun heq => hne (by rw [← heq]; exact hv)]
    exact hv
  obtain ⟨spins, ht, rfl⟩ | ⟨ht, ⟨-, rfl⟩ | ⟨-, rfl⟩⟩ := h.step_cases hgood hstep
  · right
    rw [terminate_eq_move] at hinv ⊢
    have hmove := remaining_move s e.thread .terminated s.offeredTermination
      (s.prepareForReturn e.thread).spinMaster
    rw [ht] at hmove
    simp only [Offer.isWaiting, Offer.isTerminated, Bool.toNat_false, Bool.toNat_true,
      Bool.not_false, Bool.not_true] at hmove
    exact ⟨⟨hinv, h.all, v, hkeeps _ _ _ (by rw [ht]; nofun)⟩, by omega⟩
  · right
    have hmove := remaining_move s e.thread (.spinning 0) s.offeredTermination (some e.thread)
    rw [ht] at hmove
    simp only [Offer.isWaiting, Offer.isTerminated, Bool.toNat_false, Bool.toNat_true,
      Bool.not_false] at hmove
    exact ⟨⟨hinv, h.all, v, hkeeps _ _ _ (by rw [ht]; nofun)⟩, by omega⟩
  · exact Or.inl rfl

-- A thread brings the others on: each of its steps changes the state, and it has a good one.
def Helps (s : TaskTerminator τ) (t : τ) : Prop :=
  (∀ e : TerminatorEvent τ, e.thread = t → s.Heeded e → s.step (Fintype.card τ) e ≠ some s) ∧
    ∃ e u, s.Heeded e ∧ s.step (Fintype.card τ) e = some u ∧ u ≠ s

theorem Complete.helps_of_spinning {spins : Nat} (h : s.Complete)
    (ht : s.offer t = .spinning spins) : s.Helps t := by
  have hchanged : s.terminate t ≠ s := by
    intro heq
    have hoffer := congrFun (congrArg TaskTerminator.offer heq) t
    rw [terminate_eq_move, ht] at hoffer
    simp [TaskTerminator.move] at hoffer
  refine ⟨fun e he hgood hstep => ?_, .spin t ⟨0, none⟩, _, trivial, ?_, hchanged⟩
  · subst he
    obtain ⟨_, _, heq⟩ | ⟨hwaiting, _⟩ := h.step_cases hgood hstep
    · exact hchanged heq.symm
    · rw [ht] at hwaiting
      cases hwaiting
  · simp only [TaskTerminator.step, ht]
    exact congrArg some (if_pos h.all)

theorem Complete.helps_of_waiting (h : s.Complete) (ht : s.offer t = .waiting)
    (hmaster : s.spinMaster = none) : s.Helps t := by
  have hone := h.card_ne_one (t := t) (by rw [ht]; nofun)
  have hchanged : s.move t (.spinning 0) s.offeredTermination (some t) ≠ s := by
    intro heq
    have hsome := congrArg TaskTerminator.spinMaster heq
    rw [hmaster] at hsome
    cases hsome
  refine ⟨fun e he hgood hstep => ?_, .wake t true ⟨0, none⟩, _,
    ⟨hone, fun _ => ⟨rfl, rfl⟩⟩, ?_, hchanged⟩
  · subst he
    obtain ⟨_, hspins, _⟩ | ⟨_, ⟨_, heq⟩ | ⟨hsome, _⟩⟩ := h.step_cases hgood hstep
    · rw [ht] at hspins
      cases hspins
    · exact hchanged heq.symm
    · exact hsome hmaster
  · simp only [TaskTerminator.step, ht, if_true, TaskTerminator.wake, if_neg hone,
      TaskTerminator.loop, hmaster]
    rfl

-- The spin master brings them on, or any thread that is left if there is none.
theorem Complete.exists_helps (h : s.Complete) (hleft : 0 < s.remaining) :
    ∃ t, s.offer t ≠ .terminated ∧ s.Helps t := by
  cases hmaster : s.spinMaster with
  | some t =>
      have hspinning := (h.master t).mp hmaster
      cases ht : s.offer t with
      | spinning spins => exact ⟨t, by rw [ht]; nofun, h.helps_of_spinning ht⟩
      | working | waiting | terminated =>
          rw [ht] at hspinning
          cases hspinning
  | none =>
      obtain ⟨t, ht⟩ : ∃ t, s.offer t ≠ .terminated := by
        by_contra hall
        push Not at hall
        have hzero : s.remaining = 0 := by
          unfold remaining
          rw [census_eq_zero.mpr fun t => by rw [hall t]; rfl,
            census_eq_zero.mpr fun t => by rw [hall t]; rfl]
        omega
      have hwaiting : s.offer t = .waiting := by
        cases ho : s.offer t with
        | waiting => rfl
        | working => exact absurd h.all (h.offered_ne_card ho)
        | spinning spins =>
            have hsome := (h.master t).mpr (by rw [ho]; rfl)
            rw [hmaster] at hsome
            cases hsome
        | terminated => exact absurd ho ht
      exact ⟨t, ht, h.helps_of_waiting hwaiting hmaster⟩

end Progress

-- A thread has been told that all of them terminate.
def Told (s : TaskTerminator τ) (t : τ) : Prop := s.offer t = .terminated

omit [DecidableEq τ] [Fintype τ] in
instance (s : TaskTerminator τ) (t : τ) : Decidable (s.Told t) :=
  inferInstanceAs (Decidable (s.offer t = .terminated))

-- A thread is told to terminate only when the offers of all threads stand, and none of
-- them is withdrawn afterwards. All others are told so as well: that can always come about,
-- and it does after so many rounds in which each thread that is left takes a step.
theorem terminated_together (hs : (taskTerminator τ).Via Heeded s)
    (ht : s.offer t = .terminated) :
    s.offeredTermination = Fintype.card τ ∧ (∀ v, s.offer v ≠ .working) ∧
      (∃ events u, (taskTerminator τ).runVia Heeded s events = some u ∧ ∀ v, u.Told v) ∧
      ∀ n u, (taskTerminator τ).Rounds Heeded TerminatorEvent.thread Told s n u →
        2 * Fintype.card τ ≤ n → ∀ v, u.Told v := by
  have h := inv_of_via hs
  have hall := h.terminated t ht
  have hcomplete : s.Complete := ⟨h, hall, t, ht⟩
  refine ⟨hall, fun v hv => h.offered_ne_card hv hall, ?_, fun n u hrun hn => ?_⟩
  · have hnext : ∀ s : TaskTerminator τ, s.Complete → 0 < s.remaining →
        ∃ e u, s.Heeded e ∧ (taskTerminator τ).step s e = some u ∧
          u.Complete ∧ u.remaining < s.remaining := by
      intro s h hleft
      obtain ⟨_, _, _, e, u, hgood, hstep, hne⟩ := h.exists_helps hleft
      exact ⟨e, u, hgood, hstep, (h.step hgood hstep).resolve_left hne⟩
    obtain ⟨events, u, hrun, _, hzero⟩ := Machine.exists_runVia_measure hnext hcomplete
    exact ⟨events, u, hrun, remaining_eq_zero hzero⟩
  · have hhelpful : ∀ s : TaskTerminator τ, s.Complete → 0 < s.remaining →
        ∃ t, ¬s.Told t ∧ ∀ e : TerminatorEvent τ, e.thread = t → s.Heeded e →
          (taskTerminator τ).step s e ≠ some s := by
      intro s h hleft
      obtain ⟨t, ht, hchanges, _⟩ := h.exists_helps hleft
      exact ⟨t, ht, hchanges⟩
    obtain ⟨_, hzero⟩ := Machine.Rounds.measure_eq_zero
      (fun s e u h hgood hstep => Complete.step h hgood hstep) hhelpful hcomplete hrun
      (Nat.le_trans remaining_le hn)
    exact remaining_eq_zero hzero

-- Three threads, of which the first is the spin master and the second waits when the third
-- one offers. The second one takes over and ends last.
theorem terminated_together_three :
    ∃ s u : TaskTerminator (Fin 3), (taskTerminator (Fin 3)).Via Heeded s ∧
      s.offer 0 = .spinning 0 ∧ s.offer 1 = .waiting ∧ s.Told 2 ∧
      (taskTerminator (Fin 3)).Rounds Heeded TerminatorEvent.thread Told s 6 u ∧
      ∀ v, u.Told v := by
  have hrun : ((taskTerminator (Fin 3)).runVia Heeded ⟨0, none, fun _ => .working⟩
      [.offer 0, .offer 1, .offer 2]).bind (fun s =>
        ((taskTerminator (Fin 3)).runRounds Heeded TerminatorEvent.thread Told s
          [[.spin 0 ⟨0, none⟩, .wake 1 true ⟨0, none⟩], [.spin 1 ⟨0, none⟩], [], [], [], []]).map
            fun _ => (s.offer 0, s.offer 1, s.offer 2)) =
          some (.spinning 0, .waiting, .terminated) := by decide
  obtain ⟨s, hs, hrest⟩ := Option.bind_eq_some_iff.mp hrun
  obtain ⟨u, hu, hoffer⟩ := Option.map_eq_some_iff.mp hrest
  obtain ⟨h0, h12⟩ := Prod.mk.inj hoffer
  obtain ⟨h1, h2⟩ := Prod.mk.inj h12
  have hvia := Machine.via_of_runVia (Machine.Via.init rfl) hs
  have hrounds := Machine.rounds_of_runRounds hu
  exact ⟨s, u, hvia, h0, h1, h2, hrounds,
    (terminated_together hvia h2).2.2.2 6 u hrounds (by decide)⟩

-- A waiting thread whose offer is the only one left takes it for all of them: the first
-- thread works again and the third one has never offered.
theorem sole_offer_terminates :
    ∃ s : TaskTerminator (Fin 3), (taskTerminator (Fin 3)).Reachable s ∧
      s.offer 0 = .working ∧ s.offer 1 = .terminated ∧ s.offer 2 = .working := by
  have hrun : ((taskTerminator (Fin 3)).run ⟨0, none, fun _ => .working⟩
      [.offer 0, .offer 1, .spin 0 ⟨1, none⟩, .wake 1 true ⟨0, none⟩]).map
        (fun s => (s.offer 0, s.offer 1, s.offer 2)) =
          some (.working, .terminated, .working) := by decide
  obtain ⟨s, hs, hr⟩ := Option.map_eq_some_iff.mp hrun
  obtain ⟨h0, h12⟩ := Prod.mk.inj hr
  obtain ⟨h1, h2⟩ := Prod.mk.inj h12
  exact ⟨s, Machine.run_reachable (Machine.Via.init rfl) hs, h0, h1, h2⟩

-- A waiting thread that the last offer notifies withdraws its own.
theorem notified_thread_withdraws :
    ∃ s : TaskTerminator (Fin 3), (taskTerminator (Fin 3)).Reachable s ∧
      s.offer 1 = .working ∧ s.offer 2 = .terminated := by
  have hrun : ((taskTerminator (Fin 3)).run ⟨0, none, fun _ => .working⟩
      [.offer 0, .offer 1, .offer 2, .wake 1 false ⟨0, none⟩]).map
        (fun s => (s.offer 1, s.offer 2)) = some (.working, .terminated) := by decide
  obtain ⟨s, hs, hr⟩ := Option.map_eq_some_iff.mp hrun
  obtain ⟨h1, h2⟩ := Prod.mk.inj hr
  exact ⟨s, Machine.run_reachable (Machine.Via.init rfl) hs, h1, h2⟩

end TaskTerminator

end Rsgc.Sync
