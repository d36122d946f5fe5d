import Rsgc.Lib.Census
import Rsgc.Lib.Machine

namespace Rsgc.Sync

-- A reader and its critical section. `earlier` records whether the section was entered
-- before the last call of `synchronize` began. In `exit` the reader has added to the
-- counter when it is `exited` with the value it got, and has found the writer waiting
-- for that value when it is `signalling`.
inductive Reader
  | outside
  | inside (enterValue : Nat) (earlier : Bool)
  | exited (exitValue : Nat)
  | signalling
deriving DecidableEq, Repr

-- The writer in `synchronize`: it loads the counter of entries, stores the new counter
-- of exits at `new`, exchanges the counter of entries, announces what it waits for,
-- then checks and waits in turn until it drains the semaphore.
inductive Writer
  | idle
  | loading
  | storing (new value : Nat)
  | exchanging (new old : Nat)
  | announcing (old : Nat)
  | checking (old : Nat)
  | waiting (old : Nat)
  | draining
deriving DecidableEq, Repr

-- The critical sections use both counters of exits once the polarity has changed and
-- until the writer has seen the old ones leave.
def Writer.flipped : Writer → Option Nat
  | announcing old | checking old | waiting old => some old
  | _ => none

-- The counters do not wrap here. They are only taken modulo 2 and compared for equality, and
-- the writer compares its counter with one that is behind by two for every open section, which
-- comes out the same modulo 2^64 for fewer than 2^63 readers. A reader that checks its exit
-- 2^63 sections late could give a signal too many, after which the writer looks again.
structure SingleWriterSynchronizer (τ : Type*) where
  enter : Nat
  exit : Nat → Nat
  waitingFor : Nat
  wakeup : Nat
  reader : τ → Reader
  writer : Writer

inductive SyncEvent (τ : Type*)
  | enter (r : τ)
  | exit (r : τ)
  | check (r : τ)
  | signal (r : τ)
  | synchronize
  | advance (spurious : Bool)
deriving DecidableEq

namespace Reader

-- The section leaves through the counter of exits at `polarity`.
def leavesBy (polarity : Nat) : Reader → Bool
  | inside value _ => value % 2 == polarity
  | _ => false

def setEarlier : Reader → Reader
  | inside value _ => inside value true
  | r => r

end Reader

namespace SingleWriterSynchronizer

variable {τ : Type*} [DecidableEq τ]

def goto (s : SingleWriterSynchronizer τ) (r : τ) (x : Reader) : SingleWriterSynchronizer τ :=
  { s with reader := Function.update s.reader r x }

-- One access of `synchronize` to the shared state. The exchange is a weak one.
def advance (s : SingleWriterSynchronizer τ) (spurious : Bool) :
    Option (SingleWriterSynchronizer τ) :=
  match s.writer with
  | .idle => none
  | .loading => some { s with writer := .storing ((s.enter + 1) % 2) s.enter }
  | .storing new value =>
      some { s with exit := Function.update s.exit new (value + 1),
                    writer := .exchanging new value }
  | .exchanging new old =>
      if s.enter = old ∧ spurious = false then
        some { s with enter := old + 1, writer := .announcing old }
      else some { s with writer := .storing new s.enter }
  | .announcing old => some { s with waitingFor := old, writer := .checking old }
  | .checking old =>
      some { s with writer := if old = s.exit (old % 2) then .draining else .waiting old }
  | .waiting old =>
      if 0 < s.wakeup then some { s with wakeup := s.wakeup - 1, writer := .checking old }
      else none
  | .draining =>
      if 0 < s.wakeup then some { s with wakeup := s.wakeup - 1 }
      else some { s with writer := .idle }

def step (s : SingleWriterSynchronizer τ) :
    SyncEvent τ → Option (SingleWriterSynchronizer τ)
  | .enter r =>
      match s.reader r with
      | .outside => some { s.goto r (.inside (s.enter + 2) false) with enter := s.enter + 2 }
      | _ => none
  | .exit r =>
      match s.reader r with
      | .inside value _ =>
          some { s.goto r (.exited (s.exit (value % 2) + 2)) with
                 exit := Function.update s.exit (value % 2) (s.exit (value % 2) + 2) }
      | _ => none
  | .check r =>
      match s.reader r with
      | .exited value => some (s.goto r (if value = s.waitingFor then .signalling else .outside))
      | _ => none
  | .signal r =>
      match s.reader r with
      | .signalling => some { s.goto r .outside with wakeup := s.wakeup + 1 }
      | _ => none
  | .synchronize =>
      if s.writer = .idle then
        some { s with reader := fun r => (s.reader r).setEarlier, writer := .loading }
      else none
  | .advance spurious => s.advance spurious

end SingleWriterSynchronizer

def singleWriterSynchronizer (τ : Type*) [DecidableEq τ] :
    Machine (SingleWriterSynchronizer τ) (SyncEvent τ) where
  init s := s = ⟨0, fun _ => 0, 1, 0, fun _ => .outside, .idle⟩
  step := SingleWriterSynchronizer.step

-- Which sections that were entered before the call may still be open.
def Writer.Admits (value : Nat) : Writer → Prop
  | .idle | .draining => False
  | .loading | .storing _ _ | .exchanging _ _ => True
  | .announcing old | .checking old | .waiting old => value % 2 = old % 2

-- What the writer knows of the counters by its place.
def Writer.Fits (enter : Nat) (exit : Nat → Nat) (waitingFor : Nat) : Writer → Prop
  | .idle | .loading | .draining => True
  | .storing new value => new = (enter + 1) % 2 ∧ new = (value + 1) % 2
  | .exchanging new old =>
      new = (enter + 1) % 2 ∧ new = (old + 1) % 2 ∧ exit new = old + 1
  | .announcing old => (old + 1) % 2 = enter % 2
  | .checking old | .waiting old => (old + 1) % 2 = enter % 2 ∧ waitingFor = old

namespace SingleWriterSynchronizer

variable {τ : Type*} [Fintype τ]

-- The open sections that leave through the counter of exits at `polarity`.
def openAt (s : SingleWriterSynchronizer τ) (polarity : Nat) : Nat :=
  census (Reader.leavesBy polarity) s.reader

structure Inv (s : SingleWriterSynchronizer τ) : Prop where
  current : s.enter = s.exit (s.enter % 2) + 2 * s.openAt (s.enter % 2)
  old : ∀ old, s.writer.flipped = some old → old = s.exit (old % 2) + 2 * s.openAt (old % 2)
  settled : s.writer.flipped = none → s.openAt ((s.enter + 1) % 2) = 0
  fits : s.writer.Fits s.enter s.exit s.waitingFor
  earlier : ∀ r value, s.reader r = .inside value true → s.writer.Admits value
  -- the last exit of the old generation is on its way to the semaphore
  posted : ∀ old, s.writer = .waiting old → s.exit (old % 2) = old →
    0 < s.wakeup ∨ ∃ r, s.reader r = .exited old ∨ s.reader r = .signalling

variable [DecidableEq τ] {s u : SingleWriterSynchronizer τ} {r : τ} {x : Reader}

theorem openAt_goto (s : SingleWriterSynchronizer τ) (r : τ) (x : Reader) (polarity : Nat) :
    (s.goto r x).openAt polarity + ((s.reader r).leavesBy polarity).toNat =
      s.openAt polarity + (x.leavesBy polarity).toNat :=
  census_update (Reader.leavesBy polarity) s.reader r x

theorem Writer.fits_of_flipped {w : Writer} {enter waitingFor old : Nat} {exit : Nat → Nat}
    (h : w.Fits enter exit waitingFor) (hold : w.flipped = some old) :
    (old + 1) % 2 = enter % 2 := by
  cases w with
  | announcing =>
      obtain rfl := Option.some.inj hold
      exact h
  | checking | waiting =>
      obtain rfl := Option.some.inj hold
      exact h.1
  | _ => cases hold

theorem earlier_goto (h : s.Inv) (hx : ∀ value, x = .inside value true → s.writer.Admits value) :
    ∀ v value, (s.goto r x).reader v = .inside value true → s.writer.Admits value := by
  intro v value hv
  change Function.update s.reader r x v = _ at hv
  by_cases hvr : v = r
  · subst hvr
    rw [Function.update_self] at hv
    exact hx value hv
  · rw [Function.update_of_ne hvr] at hv
    exact h.earlier v value hv

-- A reader that is not on its way to the semaphore may be put elsewhere.
omit [Fintype τ] in
theorem posted_goto {old : Nat} (hr : s.reader r ≠ .exited old ∧ s.reader r ≠ .signalling)
    (h : 0 < s.wakeup ∨ ∃ r, s.reader r = .exited old ∨ s.reader r = .signalling) :
    0 < s.wakeup ∨
      ∃ v, (s.goto r x).reader v = .exited old ∨ (s.goto r x).reader v = .signalling := by
  refine h.imp_right fun ⟨v, hv⟩ => ⟨v, ?_⟩
  have hvr : v ≠ r := by
    rintro rfl
    exact hv.elim hr.1 hr.2
  change Function.update s.reader r x v = _ ∨ Function.update s.reader r x v = _
  rw [Function.update_of_ne hvr]
  exact hv

theorem Inv.enter (h : s.Inv) (hr : s.reader r = .outside) :
    Inv { s.goto r (.inside (s.enter + 2) false) with enter := s.enter + 2 } := by
  have hopen := openAt_goto s r (.inside (s.enter + 2) false)
  simp only [hr, Reader.leavesBy, Bool.toNat_false, Nat.add_zero] at hopen
  have hmod : (s.enter + 2) % 2 = s.enter % 2 := by omega
  refine ⟨?_, fun old hold => ?_, fun hnone => ?_, ?_, ?_, ?_⟩
  · change s.enter + 2 = s.exit ((s.enter + 2) % 2) + 2 * (s.goto r _).openAt ((s.enter + 2) % 2)
    rw [hopen, hmod]
    have := h.current
    simp
    omega
  · change old = s.exit (old % 2) + 2 * (s.goto r _).openAt (old % 2)
    have hfits := Writer.fits_of_flipped h.fits hold
    have hne : ((s.enter + 2) % 2 == old % 2) = false := by
      rw [beq_eq_false_iff_ne]
      omega
    rw [hopen, hne]
    exact h.old old hold
  · change (s.goto r _).openAt ((s.enter + 2 + 1) % 2) = 0
    have hne : ((s.enter + 2) % 2 == (s.enter + 2 + 1) % 2) = false := by
      rw [beq_eq_false_iff_ne]
      omega
    rw [hopen, hne, show (s.enter + 2 + 1) % 2 = (s.enter + 1) % 2 by omega]
    exact h.settled hnone
  · have hfits := h.fits
    change s.writer.Fits (s.enter + 2) s.exit s.waitingFor
    cases hw : s.writer <;> simp only [hw, Writer.Fits] at hfits ⊢ <;> omega
  · exact earlier_goto h nofun
  · intro old hw hexit
    exact posted_goto (by rw [hr]; exact ⟨nofun, nofun⟩) (h.posted old hw hexit)

theorem Inv.exit {value : Nat} {earlier : Bool} (h : s.Inv)
    (hr : s.reader r = .inside value earlier) :
    Inv { s.goto r (.exited (s.exit (value % 2) + 2)) with
          exit := Function.update s.exit (value % 2) (s.exit (value % 2) + 2) } := by
  have hopen := openAt_goto s r (.exited (s.exit (value % 2) + 2))
  simp only [hr, Reader.leavesBy, Bool.toNat_false, Nat.add_zero] at hopen
  -- an exit moves a section from the open ones of its counter to the counter
  have hmoved : ∀ polarity total, total = s.exit polarity + 2 * s.openAt polarity →
      total = Function.update s.exit (value % 2) (s.exit (value % 2) + 2) polarity +
        2 * (s.goto r (.exited (s.exit (value % 2) + 2))).openAt polarity := by
    intro polarity total htotal
    have hcount := hopen polarity
    by_cases heq : polarity = value % 2
    · subst heq
      rw [Function.update_self]
      simp only [beq_self_eq_true, Bool.toNat_true] at hcount
      omega
    · have hne : (value % 2 == polarity) = false := by
        rw [beq_eq_false_iff_ne]
        exact Ne.symm heq
      rw [Function.update_of_ne heq]
      simp only [hne, Bool.toNat_false] at hcount
      omega
  refine ⟨hmoved _ _ h.current, fun old hold => hmoved _ _ (h.old old hold), fun hnone => ?_, ?_,
    earlier_goto h nofun, ?_⟩
  · have hcount := hopen ((s.enter + 1) % 2)
    have hsettled := h.settled hnone
    change (s.goto r _).openAt ((s.enter + 1) % 2) = 0
    omega
  · have hfits := h.fits
    change s.writer.Fits s.enter (Function.update s.exit _ _) s.waitingFor
    cases hw : s.writer with
    | exchanging new old =>
        rw [hw] at hfits
        obtain ⟨hnew, hpolarity, hexit⟩ := hfits
        -- nobody leaves through the new counter yet
        have hne : new ≠ value % 2 := by
          intro heq
          have hcount := hopen new
          have hsettled := h.settled (by rw [hw]; rfl)
          rw [← hnew] at hsettled
          simp only [← heq, beq_self_eq_true, Bool.toNat_true] at hcount
          omega
        refine ⟨hnew, hpolarity, ?_⟩
        rw [Function.update_of_ne hne]
        exact hexit
    | _ =>
        rw [hw] at hfits
        exact hfits
  · intro old hw hexit
    change Function.update s.exit (value % 2) (s.exit (value % 2) + 2) (old % 2) = old at hexit
    by_cases heq : old % 2 = value % 2
    · rw [heq, Function.update_self] at hexit
      refine Or.inr ⟨r, Or.inl ?_⟩
      rw [← hexit]
      exact Function.update_self _ _ _
    · rw [Function.update_of_ne heq] at hexit
      exact posted_goto (by rw [hr]; exact ⟨nofun, nofun⟩) (h.posted old hw hexit)

theorem Inv.check {value : Nat} (h : s.Inv) (hr : s.reader r = .exited value) :
    (s.goto r (if value = s.waitingFor then .signalling else .outside)).Inv := by
  generalize hx : (if value = s.waitingFor then Reader.signalling else .outside) = x
  have hopen : ∀ polarity, (s.goto r x).openAt polarity = s.openAt polarity := by
    intro polarity
    have hleaves : x.leavesBy polarity = false := by
      rw [← hx]
      split <;> rfl
    have hcount := openAt_goto s r x polarity
    rw [hleaves, hr] at hcount
    exact hcount
  refine ⟨?_, fun old hold => ?_, fun hnone => ?_, h.fits, earlier_goto h ?_, ?_⟩
  · rw [hopen]
    exact h.current
  · rw [hopen]
    exact h.old old hold
  · rw [hopen]
    exact h.settled hnone
  · intro v hv
    rw [← hx] at hv
    split at hv <;> cases hv
  · intro old hw hexit
    have hwaiting : s.waitingFor = old := by
      have hfits := h.fits
      rw [show s.writer = _ from hw] at hfits
      exact hfits.2
    by_cases heq : value = s.waitingFor
    · refine Or.inr ⟨r, Or.inr ?_⟩
      rw [← hx, if_pos heq]
      exact Function.update_self _ _ _
    · refine posted_goto ?_ (h.posted old hw hexit)
      rw [hr]
      exact ⟨fun h' => heq ((Reader.exited.inj h').trans hwaiting.symm), nofun⟩

theorem Inv.signal (h : s.Inv) (hr : s.reader r = .signalling) :
    Inv { s.goto r .outside with wakeup := s.wakeup + 1 } := by
  have hopen : ∀ polarity, (s.goto r .outside).openAt polarity = s.openAt polarity := by
    intro polarity
    have hcount := openAt_goto s r .outside polarity
    rw [hr] at hcount
    exact hcount
  refine ⟨?_, fun old hold => ?_, fun hnone => ?_, h.fits, earlier_goto h nofun,
    fun _ _ _ => Or.inl (Nat.succ_pos _)⟩
  · exact h.current.trans (congrArg (s.exit (s.enter % 2) + 2 * ·) (hopen _).symm)
  · exact (h.old old hold).trans (congrArg (s.exit (old % 2) + 2 * ·) (hopen _).symm)
  · exact (hopen _).trans (h.settled hnone)

omit [DecidableEq τ] in
theorem Inv.synchronize (h : s.Inv) (hw : s.writer = .idle) :
    Inv { s with reader := fun r => (s.reader r).setEarlier, writer := .loading } := by
  have hopen : ∀ polarity, census (Reader.leavesBy polarity) (fun r => (s.reader r).setEarlier) =
      s.openAt polarity := by
    intro polarity
    apply Finset.sum_congr rfl
    intro r _
    cases hr : s.reader r <;> simp [hr, Reader.setEarlier, Reader.leavesBy]
  refine ⟨?_, nofun, fun _ => ?_, trivial, fun _ _ _ => trivial, nofun⟩
  · exact h.current.trans (congrArg (s.exit (s.enter % 2) + 2 * ·) (hopen _).symm)
  · exact (hopen _).trans (h.settled (by rw [hw]; rfl))

omit [DecidableEq τ] in
theorem Inv.advance {spurious : Bool} (h : s.Inv) (hstep : s.advance spurious = some u) :
    u.Inv := by
  have hfits := h.fits
  have hearlier := h.earlier
  unfold SingleWriterSynchronizer.advance at hstep
  cases hw : s.writer with
  | idle => simp [hw] at hstep
  | loading =>
      simp only [hw, Option.some.injEq] at hstep
      subst hstep
      exact ⟨h.current, nofun, fun _ => h.settled (by rw [hw]; rfl), ⟨rfl, rfl⟩,
        fun _ _ _ => trivial, nofun⟩
  | storing new value =>
      simp only [hw, Option.some.injEq] at hstep
      subst hstep
      rw [hw] at hfits
      obtain ⟨hnew, hpolarity⟩ := hfits
      refine ⟨?_, nofun, fun _ => h.settled (by rw [hw]; rfl), ⟨hnew, hpolarity, ?_⟩,
        fun _ _ _ => trivial, nofun⟩
      · change s.enter = Function.update s.exit new (value + 1) (s.enter % 2) + _
        rw [Function.update_of_ne (by omega)]
        exact h.current
      · exact Function.update_self _ _ _
  | exchanging new old =>
      simp only [hw] at hstep
      rw [hw] at hfits
      obtain ⟨hnew, hpolarity, hexit⟩ := hfits
      have hsettled := h.settled (by rw [hw]; rfl)
      split at hstep
      · rename_i hok
        obtain ⟨rfl, -⟩ := hok
        obtain rfl := Option.some.inj hstep
        refine ⟨?_, ?_, nofun, ?_, fun r value hr => ?_, nofun⟩
        · change s.enter + 1 = s.exit ((s.enter + 1) % 2) + 2 * s.openAt ((s.enter + 1) % 2)
          rw [hsettled, ← hnew, hexit]
        · rintro old hold
          obtain rfl := Option.some.inj hold
          exact h.current
        · rfl
        · -- every open section leaves through the old counter
          by_contra hne
          have hcount := census_eq_zero.mp hsettled r
          have hleaves : (value % 2 == (s.enter + 1) % 2) = true := by
            simp only [Writer.Admits] at hne
            rw [beq_iff_eq]
            omega
          rw [show s.reader r = _ from hr] at hcount
          simp only [Reader.leavesBy, hleaves] at hcount
          cases hcount
      · obtain rfl := Option.some.inj hstep
        exact ⟨h.current, nofun, fun _ => hsettled, ⟨hnew, by rw [hnew]⟩, fun _ _ _ => trivial,
          nofun⟩
  | announcing old =>
      simp only [hw, Option.some.injEq] at hstep
      subst hstep
      rw [hw] at hfits hearlier
      exact ⟨h.current, fun o ho => h.old o (by rw [hw]; exact ho), nofun, ⟨hfits, rfl⟩, hearlier,
        nofun⟩
  | checking old =>
      simp only [hw, Option.some.injEq] at hstep
      subst hstep
      rw [hw] at hfits hearlier
      have hold := h.old old (by rw [hw]; rfl)
      by_cases hdone : old = s.exit (old % 2)
      · have hopen : s.openAt (old % 2) = 0 := by omega
        rw [if_pos hdone]
        refine ⟨h.current, nofun, fun _ => ?_, trivial, fun r value hr => ?_, nofun⟩
        · change s.openAt ((s.enter + 1) % 2) = 0
          rw [show (s.enter + 1) % 2 = old % 2 by have := hfits.1; omega]
          exact hopen
        · have hcount := census_eq_zero.mp hopen r
          rw [show s.reader r = _ from hr] at hcount
          have hpolarity : value % 2 = old % 2 := hearlier r value hr
          simp [Reader.leavesBy, hpolarity] at hcount
      · rw [if_neg hdone]
        refine ⟨h.current, fun o ho => h.old o (by rw [hw]; exact ho), nofun, hfits, hearlier, ?_⟩
        rintro o ho hexit
        obtain rfl := Writer.waiting.inj ho
        exact absurd hexit.symm hdone
  | waiting old =>
      simp only [hw] at hstep
      obtain ⟨-, rfl⟩ := guard_eq_some.mp hstep
      rw [hw] at hfits hearlier
      exact ⟨h.current, fun o ho => h.old o (by rw [hw]; exact ho), nofun, hfits, hearlier, nofun⟩
  | draining =>
      simp only [hw] at hstep
      rw [hw] at hearlier
      have hsettled := h.settled (by rw [hw]; rfl)
      split at hstep
      · obtain rfl := Option.some.inj hstep
        exact ⟨h.current, nofun, fun _ => hsettled, trivial,
          fun r value hr => (hearlier r value hr).elim, nofun⟩
      · obtain rfl := Option.some.inj hstep
        exact ⟨h.current, nofun, fun _ => hsettled, trivial,
          fun r value hr => (hearlier r value hr).elim, nofun⟩

theorem Inv.step {e : SyncEvent τ} (h : s.Inv) (hstep : s.step e = some u) : u.Inv := by
  cases e with
  | enter r =>
      simp only [SingleWriterSynchronizer.step] at hstep
      cases hr : s.reader r with
      | outside =>
          rw [hr] at hstep
          obtain rfl := Option.some.inj hstep
          exact h.enter hr
      | _ => simp [hr] at hstep
  | exit r =>
      simp only [SingleWriterSynchronizer.step] at hstep
      cases hr : s.reader r with
      | inside value earlier =>
          rw [hr] at hstep
          obtain rfl := Option.some.inj hstep
          exact h.exit hr
      | _ => simp [hr] at hstep
  | check r =>
      simp only [SingleWriterSynchronizer.step] at hstep
      cases hr : s.reader r with
      | exited value =>
          rw [hr] at hstep
          obtain rfl := Option.some.inj hstep
          exact h.check hr
      | _ => simp [hr] at hstep
  | signal r =>
      simp only [SingleWriterSynchronizer.step] at hstep
      cases hr : s.reader r with
      | signalling =>
          rw [hr] at hstep
          obtain rfl := Option.some.inj hstep
          exact h.signal hr
      | _ => simp [hr] at hstep
  | synchronize =>
      obtain ⟨hw, rfl⟩ := guard_eq_some.mp hstep
      exact h.synchronize hw
  | advance spurious => exact h.advance hstep

theorem inv_of_reachable (hs : (singleWriterSynchronizer τ).Reachable s) : s.Inv := by
  apply Machine.Reachable.invariant _ _ hs
  · rintro s rfl
    have hzero : ∀ polarity, census (Reader.leavesBy polarity) (fun _ : τ => Reader.outside) = 0 :=
      fun _ => census_eq_zero.mpr fun _ => rfl
    refine ⟨?_, nofun, fun _ => hzero _, trivial, nofun, nofun⟩
    change 0 = 0 + 2 * census _ _
    rw [hzero]
  · intro s u e h hstep
    exact h.step hstep

-- When `synchronize` has returned, the sections entered before the call are over. A
-- writer that waits although the old generation is over has its signal, or a reader is
-- about to give it.
theorem synchronize_waits_for_readers (hs : (singleWriterSynchronizer τ).Reachable s) :
    (s.writer = .idle → ∀ r value, s.reader r ≠ .inside value true) ∧
      ∀ old, s.writer = .waiting old →
        (∀ r value earlier, s.reader r = .inside value earlier → value % 2 ≠ old % 2) →
        0 < s.wakeup ∨
          ∃ r, (s.reader r = .exited old ∧ s.waitingFor = old) ∨ s.reader r = .signalling := by
  have h := inv_of_reachable hs
  refine ⟨fun hw r value hr => ?_, fun old hw hover => ?_⟩
  · have hadmits := h.earlier r value hr
    rw [hw] at hadmits
    exact hadmits
  · have hopen : s.openAt (old % 2) = 0 := by
      apply census_eq_zero.mpr
      intro r
      cases hr : s.reader r with
      | inside value earlier => exact beq_eq_false_iff_ne.mpr (hover r value earlier hr)
      | _ => rfl
    have hcount := h.old old (by rw [hw]; rfl)
    have hwaiting : s.waitingFor = old := by
      have hfits := h.fits
      rw [hw] at hfits
      exact hfits.2
    have hposted := h.posted old hw (by omega)
    exact hposted.imp_right fun ⟨r, hr⟩ => ⟨r, hr.imp_left fun hexited => ⟨hexited, hwaiting⟩⟩

-- The writer waits for a section that is left while it waits.
theorem synchronize_waits_for_readers_pair :
    ∃ s : SingleWriterSynchronizer (Fin 2), (singleWriterSynchronizer (Fin 2)).Reachable s ∧
      s.writer = .waiting 2 ∧ s.reader 0 = .exited 2 ∧
      (0 < s.wakeup ∨
        ∃ r, (s.reader r = .exited 2 ∧ s.waitingFor = 2) ∨ s.reader r = .signalling) := by
  have hrun : ((singleWriterSynchronizer (Fin 2)).run
      ⟨0, fun _ => 0, 1, 0, fun _ => .outside, .idle⟩
      [.enter 0, .synchronize, .advance false, .advance false, .advance false, .enter 1,
        .advance false, .advance false, .exit 0]).map
        (fun s => (s.writer, s.reader 0, s.reader 1)) =
          some (.waiting 2, .exited 2, .inside 5 false) := by decide
  obtain ⟨s, hs, hr⟩ := Option.map_eq_some_iff.mp hrun
  obtain ⟨hw, hreaders⟩ := Prod.mk.inj hr
  obtain ⟨h0, h1⟩ := Prod.mk.inj hreaders
  have hreach : (singleWriterSynchronizer (Fin 2)).Reachable s :=
    Machine.run_reachable (Machine.Via.init rfl) hs
  refine ⟨s, hreach, hw, h0, (synchronize_waits_for_readers hreach).2 2 hw ?_⟩
  intro r value earlier hinside
  match r with
  | 0 => rw [h0] at hinside; cases hinside
  | 1 =>
      rw [h1] at hinside
      obtain ⟨rfl, -⟩ := Reader.inside.inj hinside
      decide

end SingleWriterSynchronizer

end Rsgc.Sync
