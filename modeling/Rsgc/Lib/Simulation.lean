import Rsgc.Lib.Machine

namespace Rsgc

namespace Machine

variable {σ ε α β : Type*} {m : Machine σ ε} {a : Machine α β} {R : σ → α → Prop}
  {trace : σ → ε → List β}

theorem run_append (s : α) (l l' : List β) :
    a.run s (l ++ l') = (a.run s l).bind fun t => a.run t l' := by
  induction l generalizing s with
  | nil => rfl
  | cons e rest ih =>
      rw [List.cons_append, run, run, Option.bind_assoc]
      exact Option.bind_congr fun t _ => ih t

-- Every step of the first machine is a run of the second one, with the events that
-- `trace` gives for it.
structure Simulation (m : Machine σ ε) (a : Machine α β) (R : σ → α → Prop)
    (trace : σ → ε → List β) : Prop where
  init : ∀ s, m.init s → ∃ x, a.init x ∧ R s x
  step : ∀ s x e t, m.Reachable s → R s x → m.step s e = some t →
    ∃ y, a.run x (trace s e) = some y ∧ R t y

namespace Simulation

-- The events of a whole run.
def traces (m : Machine σ ε) (trace : σ → ε → List β) : σ → List ε → List β
  | _, [] => []
  | s, e :: rest =>
      trace s e ++ match m.step s e with
        | some t => traces m trace t rest
        | none => []

theorem run (h : m.Simulation a R trace) {s t : σ} {x : α} (hs : m.Reachable s) (hR : R s x)
    {events : List ε} (hrun : m.run s events = some t) :
    ∃ y, a.run x (traces m trace s events) = some y ∧ R t y := by
  induction events generalizing s x with
  | nil =>
      obtain rfl : s = t := Option.some.inj hrun
      exact ⟨x, rfl, hR⟩
  | cons e rest ih =>
      obtain ⟨u, hstep, hrest⟩ := Option.bind_eq_some_iff.mp hrun
      obtain ⟨y, hy, hRu⟩ := h.step s x e u hs hR hstep
      obtain ⟨z, hz, hRt⟩ := ih (hs.next hstep) hRu hrest
      refine ⟨z, ?_, hRt⟩
      rw [traces, hstep, run_append, hy]
      exact hz

end Simulation

end Machine

end Rsgc
