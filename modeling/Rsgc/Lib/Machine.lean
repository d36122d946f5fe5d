import Mathlib.Logic.Basic
import Mathlib.Order.WellFounded

namespace Rsgc

-- A transition system with labelled steps. The step function is partial: an
-- event that is not enabled in a state, or whose code panics there, gives `none`.
structure Machine (σ ε : Type*) where
  init : σ → Prop
  step : σ → ε → Option σ

-- A guarded step has been taken exactly where its guard holds.
theorem guard_eq_some {α : Type*} {p : Prop} [Decidable p] {a b : α} :
    (if p then some a else none) = some b ↔ p ∧ a = b := by
  rw [Option.ite_none_right_eq_some, Option.some.injEq]

theorem guard_not_eq_some {α : Type*} {p : Prop} [Decidable p] {a b : α} :
    (if p then none else some a) = some b ↔ ¬p ∧ a = b := by
  rw [Option.ite_none_left_eq_some, Option.some.injEq]

namespace Machine

variable {σ ε : Type*} (m : Machine σ ε) (good : σ → ε → Prop)

-- The states of the runs all of whose steps meet `good`.
inductive Via : σ → Prop
  | init {s : σ} (h : m.init s) : Via s
  | step {s t : σ} {e : ε} (hs : Via s) (hg : good s e) (h : m.step s e = some t) : Via t

abbrev Reachable : σ → Prop := m.Via fun _ _ => True

def run : σ → List ε → Option σ
  | s, [] => some s
  | s, e :: rest => (m.step s e).bind fun t => run t rest

variable {m good}

theorem Reachable.next {s t : σ} {e : ε} (hs : m.Reachable s) (h : m.step s e = some t) :
    m.Reachable t :=
  Via.step hs trivial h

theorem Via.mono {weaker : σ → ε → Prop} (hw : ∀ s e, good s e → weaker s e) {s : σ}
    (hs : m.Via good s) : m.Via weaker s := by
  induction hs with
  | init h => exact Via.init h
  | step _ hg h ih => exact Via.step ih (hw _ _ hg) h

theorem Via.reachable {s : σ} (hs : m.Via good s) : m.Reachable s :=
  hs.mono fun _ _ _ => trivial

-- The invariant rule: what holds initially and is kept by every good step
-- holds in every state of a good run.
theorem Via.invariant {P : σ → Prop} (hinit : ∀ s, m.init s → P s)
    (hstep : ∀ s e t, P s → good s e → m.step s e = some t → P t) {s : σ}
    (hs : m.Via good s) : P s := by
  induction hs with
  | init h => exact hinit _ h
  | step _ hg h ih => exact hstep _ _ _ ih hg h

-- The same rule where the step may also use an invariant proved before.
theorem Via.invariant_of {P Q : σ → Prop} (hQ : ∀ s, m.Via good s → Q s)
    (hinit : ∀ s, m.init s → P s)
    (hstep : ∀ s e t, Q s → P s → good s e → m.step s e = some t → P t) {s : σ}
    (hs : m.Via good s) : P s := by
  induction hs with
  | init h => exact hinit _ h
  | step hs hg h ih => exact hstep _ _ _ (hQ _ hs) ih hg h

theorem Reachable.invariant {P : σ → Prop} (hinit : ∀ s, m.init s → P s)
    (hstep : ∀ s e t, P s → m.step s e = some t → P t) {s : σ} (hs : m.Reachable s) : P s :=
  Via.invariant hinit (fun s e t hp _ => hstep s e t hp) hs

-- Where every step from a reachable state is good, every run is.
theorem Reachable.via (hgood : ∀ s e, m.Reachable s → good s e) {s : σ} (hs : m.Reachable s) :
    m.Via good s := by
  induction hs with
  | init h => exact Via.init h
  | step hs _ h ih => exact Via.step ih (hgood _ _ hs) h

-- A run whose steps are good wherever the run so far has been.
theorem Via.of_via {weaker : σ → ε → Prop}
    (hgood : ∀ s e, m.Via good s → weaker s e → good s e) {s : σ} (hs : m.Via weaker s) :
    m.Via good s := by
  induction hs with
  | init h => exact Via.init h
  | step _ hg h ih => exact Via.step ih (hgood _ _ ih hg) h

theorem run_reachable {s t : σ} (hs : m.Reachable s) {events : List ε}
    (h : m.run s events = some t) : m.Reachable t := by
  induction events generalizing s with
  | nil =>
      obtain rfl : s = t := Option.some.inj h
      exact hs
  | cons e rest ih =>
      simp only [run] at h
      cases hstep : m.step s e with
      | none => simp [hstep] at h
      | some u =>
          simp only [hstep, Option.bind_some] at h
          exact ih (hs.next hstep) h

-- A run in which the state chooses the event.
def drive (m : Machine σ ε) (choose : σ → ε) : Nat → σ → σ
  | 0, s => s
  | fuel + 1, s =>
      match m.step s (choose s) with
      | some t => drive m choose fuel t
      | none => s

theorem drive_reachable {choose : σ → ε} {s : σ} (hs : m.Reachable s) (fuel : Nat) :
    m.Reachable (m.drive choose fuel s) := by
  induction fuel generalizing s with
  | zero => exact hs
  | succ fuel ih =>
      unfold drive
      split
      · rename_i t hstep
        exact ih (hs.next hstep)
      · exact hs

-- A run that stops at the first step that is not good.
def runVia (good : σ → ε → Prop) [∀ s e, Decidable (good s e)] : σ → List ε → Option σ
  | s, [] => some s
  | s, e :: rest => if good s e then (m.step s e).bind fun t => runVia good t rest else none

theorem via_of_runVia [∀ s e, Decidable (good s e)] {s t : σ} (hs : m.Via good s)
    {events : List ε} (h : m.runVia good s events = some t) : m.Via good t := by
  induction events generalizing s with
  | nil =>
      obtain rfl : s = t := Option.some.inj h
      exact hs
  | cons e rest ih =>
      unfold runVia at h
      split at h
      · rename_i hgood
        obtain ⟨u, hstep, hrest⟩ := Option.bind_eq_some_iff.mp h
        exact ih (Via.step hs hgood hstep) hrest
      · cases h

section Rounds

variable {α : Type*} {agent : ε → α} {done : σ → α → Prop} [∀ s e, Decidable (good s e)]
  {P : σ → Prop} {μ : σ → Nat}

-- A good run in so many rounds. In each of them every agent takes a step, if it is not
-- done at the end of it.
inductive Rounds (m : Machine σ ε) (good : σ → ε → Prop) [∀ s e, Decidable (good s e)]
    (agent : ε → α) (done : σ → α → Prop) : σ → Nat → σ → Prop
  | nil {s : σ} : Rounds m good agent done s 0 s
  | cons {s t u : σ} {n : Nat} {events : List ε} (hrun : m.runVia good s events = some t)
      (hfair : ∀ a, done t a ∨ ∃ e ∈ events, agent e = a) (hrest : Rounds m good agent done t n u) :
      Rounds m good agent done s (n + 1) u

def runRounds (m : Machine σ ε) (good : σ → ε → Prop) [∀ s e, Decidable (good s e)]
    (agent : ε → α) (done : σ → α → Prop)
    [∀ t (events : List ε), Decidable (∀ a, done t a ∨ ∃ e ∈ events, agent e = a)] :
    σ → List (List ε) → Option σ
  | s, [] => some s
  | s, events :: rest => (m.runVia good s events).bind fun t =>
      if ∀ a, done t a ∨ ∃ e ∈ events, agent e = a then m.runRounds good agent done t rest
      else none

theorem rounds_of_runRounds
    [∀ t (events : List ε), Decidable (∀ a, done t a ∨ ∃ e ∈ events, agent e = a)] {s u : σ}
    {rounds : List (List ε)} (hrun : m.runRounds good agent done s rounds = some u) :
    m.Rounds good agent done s rounds.length u := by
  induction rounds generalizing s with
  | nil =>
      obtain rfl := Option.some.inj hrun
      exact .nil
  | cons events rest ih =>
      obtain ⟨t, ht, hrun⟩ := Option.bind_eq_some_iff.mp hrun
      obtain ⟨hfair, hrest⟩ := Option.ite_none_right_eq_some.mp hrun
      exact .cons ht hfair (ih hrest)

-- Where a step changes the state only with a smaller measure, a run does.
theorem runVia_measure
    (hstep : ∀ s e t, P s → good s e → m.step s e = some t → t = s ∨ P t ∧ μ t < μ s) {s t : σ}
    {events : List ε} (hs : P s) (hrun : m.runVia good s events = some t) :
    P t ∧ (μ t < μ s ∨ t = s ∧ ∀ e ∈ events, good s e ∧ m.step s e = some s) := by
  induction events generalizing s with
  | nil =>
      obtain rfl := Option.some.inj hrun
      exact ⟨hs, Or.inr ⟨rfl, nofun⟩⟩
  | cons e rest ih =>
      obtain ⟨hgood, hrun⟩ := Option.ite_none_right_eq_some.mp hrun
      obtain ⟨u, hu, hrest⟩ := Option.bind_eq_some_iff.mp hrun
      obtain rfl | ⟨hP, hlt⟩ := hstep s e u hs hgood hu
      · obtain ⟨ht, hlt | ⟨rfl, hsame⟩⟩ := ih hs hrest
        · exact ⟨ht, Or.inl hlt⟩
        · exact ⟨ht, Or.inr ⟨rfl, List.forall_mem_cons.mpr ⟨⟨hgood, hu⟩, hsame⟩⟩⟩
      · obtain ⟨ht, hle | ⟨rfl, _⟩⟩ := ih hP hrest
        · exact ⟨ht, Or.inl (Nat.lt_trans hle hlt)⟩
        · exact ⟨ht, Or.inl hlt⟩

-- The rule for fair runs: as long as the measure is not zero, some agent is not done and
-- changes the state with any step of its own.
theorem Rounds.measure_eq_zero
    (hstep : ∀ s e t, P s → good s e → m.step s e = some t → t = s ∨ P t ∧ μ t < μ s)
    (hhelpful : ∀ s, P s → 0 < μ s → ∃ a, ¬done s a ∧
      ∀ e, agent e = a → good s e → m.step s e ≠ some s)
    {s u : σ} {n : Nat} (hs : P s) (hrun : m.Rounds good agent done s n u) (hn : μ s ≤ n) :
    P u ∧ μ u = 0 := by
  induction hrun with
  | nil => exact ⟨hs, Nat.le_zero.mp hn⟩
  | @cons s t u n events hrun hfair _ ih =>
      obtain ⟨ht, hlt | ⟨rfl, hsame⟩⟩ := runVia_measure hstep hs hrun
      · exact ih ht (by omega)
      · rcases Nat.eq_zero_or_pos (μ t) with hzero | hpos
        · exact ih ht (by omega)
        · obtain ⟨a, hdone, hchanges⟩ := hhelpful t hs hpos
          obtain ⟨e, he, hagent⟩ := (hfair a).resolve_left hdone
          obtain ⟨hgood, hsame⟩ := hsame e he
          exact absurd hsame (hchanges e hagent hgood)

-- And such runs exist where there is always a good step to a smaller measure.
theorem exists_runVia_measure
    (hnext : ∀ s, P s → 0 < μ s → ∃ e t, good s e ∧ m.step s e = some t ∧ P t ∧ μ t < μ s)
    {s : σ} (hs : P s) : ∃ events t, m.runVia good s events = some t ∧ P t ∧ μ t = 0 := by
  induction hμ : μ s using Nat.strong_induction_on generalizing s with
  | h k ih =>
      rcases Nat.eq_zero_or_pos k with rfl | hpos
      · exact ⟨[], s, rfl, hs, hμ⟩
      · obtain ⟨e, t, hgood, hstep, ht, hlt⟩ := hnext s hs (by omega)
        obtain ⟨events, u, hrun, hu, hzero⟩ := ih (μ t) (by omega) ht rfl
        refine ⟨e :: events, u, ?_, hu, hzero⟩
        unfold runVia
        rw [if_pos hgood, hstep]
        exact hrun

end Rounds

-- Every run from a state on is finite, and it stops in final states only.
inductive Ends (m : Machine σ ε) (final : σ → Prop) : σ → Prop
  | intro {s : σ} (hnext : final s ∨ ∃ e t, m.step s e = some t)
      (h : ∀ e t, m.step s e = some t → Ends m final t) : Ends m final s

variable {final : σ → Prop}

theorem Ends.reaches {s : σ} (h : m.Ends final s) (hs : m.Reachable s) :
    ∃ t, m.Reachable t ∧ final t := by
  induction h with
  | intro hnext _ ih =>
      rcases hnext with hfinal | ⟨e, t, hstep⟩
      · exact ⟨_, hs, hfinal⟩
      · exact ih e t hstep (hs.next hstep)

-- The rule for a phase of the runs: each of its states is final or has a step, and each
-- step leaves the phase for a state from which they end, or makes the measure smaller.
theorem Ends.of_measure {β : Type*} {r : β → β → Prop} (hr : WellFounded r) (μ : σ → β)
    (P : σ → Prop) (hnext : ∀ s, P s → final s ∨ ∃ e t, m.step s e = some t)
    (hstep : ∀ s e t, P s → m.step s e = some t → m.Ends final t ∨ P t ∧ r (μ t) (μ s)) {s : σ}
    (hs : P s) : m.Ends final s := by
  induction hμ : μ s using hr.induction generalizing s with
  | h b ih =>
      subst hμ
      refine .intro (hnext s hs) fun e t ht => ?_
      rcases hstep s e t hs ht with hends | ⟨hP, hsmaller⟩
      · exact hends
      · exact ih (μ t) hsmaller hP rfl

end Machine

end Rsgc
