import Mathlib.Logic.Function.Basic
import Rsgc.Lib.Machine

namespace Rsgc.Sync

-- What a monitor is for. A thread is outside of it, wants to enter, is inside, or waits
-- for a notification; one that waits is still the owner up to its release.
inductive Place
  | outside
  | entering
  | inside
  | waiting
deriving DecidableEq, Repr

-- `unnotified` is the answer of the last wait of a thread.
structure IdealMonitor (τ : Type*) where
  owner : Option τ
  place : τ → Place
  unnotified : τ → Bool

inductive IdealEvent (τ : Type*)
  | enter (t : τ)
  | tryEnter (t : τ) (succeeds : Bool)
  | acquire (t : τ)
  | leave (t : τ)
  | wait (t : τ)
  | release (t : τ)
  | notifyOne (chosen : Option τ)
  | notifyAll
  | timeout (t : τ)
deriving DecidableEq

namespace IdealMonitor

variable {τ : Type*} [DecidableEq τ]

def move (x : IdealMonitor τ) (t : τ) (p : Place) : IdealMonitor τ :=
  { x with place := Function.update x.place t p }

def own (x : IdealMonitor τ) (t : τ) : IdealMonitor τ :=
  { x.move t .inside with owner := some t }

open Classical in
-- A notification of one wakes a thread wherever there is one that waits, and all that wait
-- then are woken by a notification of all.
noncomputable def step (x : IdealMonitor τ) : IdealEvent τ → Option (IdealMonitor τ)
  | .enter t => if x.place t = .outside then some (x.move t .entering) else none
  | .tryEnter t true => if x.place t = .outside ∧ x.owner = none then some (x.own t) else none
  | .tryEnter t false => if x.place t = .outside ∧ x.owner ≠ none then some x else none
  | .acquire t => if x.place t = .entering ∧ x.owner = none then some (x.own t) else none
  | .leave t =>
      if x.place t = .inside ∧ x.owner = some t then some { x.move t .outside with owner := none }
      else none
  | .wait t =>
      if x.place t = .inside ∧ x.owner = some t then
        some { x.move t .waiting with unnotified := Function.update x.unnotified t true }
      else none
  | .release t =>
      if x.place t ≠ .inside ∧ x.owner = some t then some { x with owner := none } else none
  | .notifyOne none => if ∀ t, x.place t ≠ .waiting then some x else none
  | .notifyOne (some t) =>
      if x.place t = .waiting then
        some { x.move t .entering with unnotified := Function.update x.unnotified t false }
      else none
  | .notifyAll =>
      some { x with
        place := fun t => if x.place t = .waiting then .entering else x.place t
        unnotified := fun t => x.unnotified t && decide (x.place t ≠ .waiting) }
  | .timeout t => if x.place t = .waiting then some (x.move t .entering) else none

end IdealMonitor

noncomputable def idealMonitor (τ : Type*) [DecidableEq τ] :
    Machine (IdealMonitor τ) (IdealEvent τ) where
  init x := x = ⟨none, fun _ => .outside, fun _ => false⟩
  step := IdealMonitor.step

end Rsgc.Sync
