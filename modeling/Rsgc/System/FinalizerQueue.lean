import Rsgc.Lib.Linked
import Rsgc.Lib.Machine
import Rsgc.System.WeakReference

namespace Rsgc.System

-- Not in the source: `ticket`, the number of the registration.
structure Registration (φ : Type) where
  ticket : Nat
  object : Pointer
  finalizer : φ
deriving DecidableEq, Repr

-- The boxed cell of a registration.
structure Finalizer (φ : Type) extends Registration φ where
  next : Pointer
deriving DecidableEq, Repr

-- Where a thread is in `FinalizerQueue::add` with the cell that it made.
inductive AddPlace
  | idle
  | created (node : Pointer)
  | loaded (node current : Pointer)
  | linked (node current : Pointer)
deriving DecidableEq, Repr

def AddPlace.held : AddPlace → Option Pointer
  | .idle => none
  | .created node => some node
  | .loaded node _ => some node
  | .linked node _ => some node

-- The queue with the heap that its cells are boxed in. Not in the source:
-- `begun` counts the registrations; `added` has those whose exchange was done, the
-- newest first, each with the number of runs before it; `runs` has the mark
-- bits that each run saw; and `calls` has the finalizers that were called, each with
-- the number of the run.
structure FinalizerQueue (τ φ : Type) where
  list : Pointer
  node : Pointer → Finalizer φ
  boxed : Pointer → Bool
  place : τ → AddPlace
  begun : Nat
  added : List (Registration φ × Nat)
  runs : List (Pointer → Bool)
  calls : List (Registration φ × Nat)

-- `fail` is a weak exchange that fails though it has met the value it expects.
inductive FinalizerEvent (τ φ : Type)
  | register (thread : τ) (object : Pointer) (finalizer : φ) (box : Pointer)
  | go (thread : τ)
  | fail (thread : τ)
  | run (marked : Pointer → Bool)

namespace FinalizerQueue

variable {τ φ : Type}

def next (s : FinalizerQueue τ φ) (node : Pointer) : Pointer := (s.node node).next

def registration (s : FinalizerQueue τ φ) (node : Pointer) : Registration φ :=
  (s.node node).toRegistration

def setNext (s : FinalizerQueue τ φ) (node next : Pointer) : FinalizerQueue τ φ :=
  { s with node := Function.update s.node node { s.node node with next } }

-- The finalizer of an object that is not alive anymore is called, and its cell is
-- taken from the list and freed.
def finalizeEntry (s : FinalizerQueue τ φ) (prev current : Pointer) : FinalizerQueue τ φ :=
  let called := { s with calls := s.calls ++ [(s.registration current, s.runs.length)] }
  let removed :=
    if prev = 0 then { called with list := s.next current }
    else called.setNext prev (s.next current)
  { removed with boxed := Function.update removed.boxed current false }

-- The loop of `FinalizerQueue::run`.
def runFrom (marked : Pointer → Bool) :
    Nat → FinalizerQueue τ φ → Pointer → Pointer → Option (FinalizerQueue τ φ)
  | 0, s, current, _ => if current = 0 then some s else none
  | fuel + 1, s, current, prev =>
      if current = 0 then some s
      else if marked (s.registration current).object then
        runFrom marked fuel s (s.next current) current
      else runFrom marked fuel (s.finalizeEntry prev current) (s.next current) prev

def run (s : FinalizerQueue τ φ) (marked : Pointer → Bool) : Option (FinalizerQueue τ φ) :=
  (runFrom marked s.added.length s s.list 0).map fun t => { t with runs := t.runs ++ [marked] }

variable [DecidableEq τ]

def goTo (s : FinalizerQueue τ φ) (thread : τ) (place : AddPlace) : FinalizerQueue τ φ :=
  { s with place := Function.update s.place thread place }

-- `Box::new` returns an address at which nothing is boxed.
def create (s : FinalizerQueue τ φ) (thread : τ) (object : Pointer) (finalizer : φ)
    (box : Pointer) : FinalizerQueue τ φ :=
  { s.goTo thread (.created box) with
    node := Function.update s.node box ⟨⟨s.begun, object, finalizer⟩, 0⟩
    boxed := Function.update s.boxed box true
    begun := s.begun + 1 }

def push (s : FinalizerQueue τ φ) (thread : τ) (node : Pointer) : FinalizerQueue τ φ :=
  { s.goTo thread .idle with
    list := node
    added := (s.registration node, s.runs.length) :: s.added }

def go (s : FinalizerQueue τ φ) (thread : τ) : AddPlace → Option (FinalizerQueue τ φ)
  | .idle => none
  | .created node => some (s.goTo thread (.loaded node s.list))
  | .loaded node current => some ((s.setNext node current).goTo thread (.linked node current))
  | .linked node current =>
      if s.list = current then some (s.push thread node)
      else some (s.goTo thread (.loaded node s.list))

def fail (s : FinalizerQueue τ φ) (thread : τ) : AddPlace → Option (FinalizerQueue τ φ)
  | .linked node _ => some (s.goTo thread (.loaded node s.list))
  | _ => none

def step (s : FinalizerQueue τ φ) : FinalizerEvent τ φ → Option (FinalizerQueue τ φ)
  | .register thread object finalizer box =>
      if s.place thread = .idle ∧ box ≠ 0 ∧ s.boxed box = false then
        some (s.create thread object finalizer box)
      else none
  | .go thread => s.go thread (s.place thread)
  | .fail thread => s.fail thread (s.place thread)
  | .run marked => s.run marked

-- The entries from a cell on.
def walk (s : FinalizerQueue τ φ) : Nat → Pointer → List (Registration φ)
  | 0, _ => []
  | fuel + 1, node =>
      if node = 0 then [] else s.registration node :: s.walk fuel (s.next node)

def pending (s : FinalizerQueue τ φ) : List (Registration φ) := s.walk s.added.length s.list

-- The object of a registration was marked in all runs since.
def survives (s : FinalizerQueue τ φ) (r : Registration φ × Nat) : Bool :=
  (s.runs.drop r.2).all fun marked => marked r.1.object

-- The run of this number is the first one since that has met the object unmarked.
def FirstUnmarked (s : FinalizerQueue τ φ) (r : Registration φ × Nat) (k : Nat) : Prop :=
  r.2 ≤ k ∧ (s.runs[k]?.map fun marked => marked r.1.object) = some false ∧
    ∀ j, r.2 ≤ j → j < k → (s.runs[j]?.map fun marked => marked r.1.object) = some true

end FinalizerQueue

-- Runs are made at safepoints, at which no other thread goes on.
def finalizerQueue (τ φ : Type) [DecidableEq τ] :
    Machine (FinalizerQueue τ φ) (FinalizerEvent τ φ) where
  init s := s.list = 0 ∧ (∀ node, s.boxed node = false) ∧ (∀ thread, s.place thread = .idle) ∧
    s.begun = 0 ∧ s.added = [] ∧ s.runs = [] ∧ s.calls = []
  step := FinalizerQueue.step

end Rsgc.System
