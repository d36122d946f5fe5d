import Rsgc.Collection.Guarded
import Rsgc.Collection.Regions

namespace Rsgc.Collection

open Marking Storage

namespace World

-- `RootSet::process` runs in this step and looks up every word on the stacks.
def visitsStacks (s : World) : Event → Bool
  | .initMark | .finalMark | .full => true
  | .degenerate => s.degenPoint == .outsideCycle ||
      s.degenPoint == .concurrentMark && s.concurrentMark
  | _ => false

-- The words that no thread uses are the roots of a thread of their own while the
-- stacks are visited.
def withWords (s : World) (words : List Nat) : World :=
  { s with threads := ⟨words, [], false, .free⟩ :: s.threads }

def withoutWords (s : World) : World := { s with threads := s.threads.tail }

-- The heap of `Heap::new`.
structure Created (s : World) : Prop where
  fresh : s.Fresh
  objects : s.objects = []
  regions : ∀ r, (s.regions r).typ = .emptyUncommited ∨ (s.regions r).typ = .emptyCommited
  toSweep : ∀ r, (s.regions r).toSweep = false

-- The slots of objects that refer to storage that is not allocated.
def dangling (s : World) : List (Nat × Slot) :=
  s.objects.flatMap fun o =>
    (((s.graph o).refs.map Prod.fst).filter fun slot =>
      ((s.graph o).ref slot).any fun ref => ref ∉ s.objects).map fun slot => (o, slot)

end World

def Event.written : Event → Option (Nat × Slot)
  | .store _ obj slot _ => some (obj, slot)
  | _ => none

-- A heap with the slots of its objects whose referent has been freed since they
-- were written, whatever has been allocated there by now. The source does not
-- keep these.
structure Dated where
  world : World
  outdated : List (Nat × Slot)

namespace Dated

def record (s : Dated) (e : Event) (world : World) : Dated where
  world
  outdated := (s.outdated.filter fun entry =>
    entry.1 ∈ world.objects ∧ some entry ≠ e.written) ++ world.dangling

-- `words` are the objects that `object_start` finds for words on the stacks. A
-- word can be any number, so it can lead to any object of the heap.
def step (c : Config) (s : Dated) (e : Event × List Nat) : Option Dated :=
  if s.world.visitsStacks e.1 then
    if ∀ o ∈ e.2, o ∈ s.world.objects then
      ((s.world.withWords e.2).step c e.1).map fun world => s.record e.1 world.withoutWords
    else none
  else (s.world.step c e.1).map (s.record e.1)

-- Whatever a word leads to is allocated, also what it leads to through other
-- objects, and it is still what the reference was written for.
structure RootsSafe (s : Dated) : Prop where
  allocated : ∀ o ∈ s.world.objects, ∀ x, Relation.ReflTransGen s.world.graph.Edge o x →
    x ∈ s.world.objects
  current : ∀ o ∈ s.world.objects, ∀ slot, (o, slot) ∉ s.outdated

end Dated

-- The controller with stacks that are searched conservatively.
def conservative (c : Config) : Machine Dated (Event × List Nat) where
  init s := s.world.Created ∧ s.outdated = []
  step := Dated.step c

namespace World

-- A concurrent mark runs, or was cancelled and can still be completed.
def Unfinished (s : World) : Prop :=
  s.phase = .marking ∨
    s.phase = .idle ∧ s.degenPoint = .concurrentMark ∧ s.concurrentMark = true

instance (s : World) : Decidable s.Unfinished := inferInstanceAs (Decidable (_ ∨ _))

-- The condition on the steps. The stacks are visited only when no region is left
-- to be swept; while a concurrent mark is unfinished no store and no dropped root
-- takes the last protection from an object; and the marking does not begin an
-- array that it cuts up wrongly.
structure Orderly (c : Config) (s : World) (e : Event) : Prop where
  swept : s.visitsStacks e = true → ∀ r < c.numRegions, (s.regions r).toSweep = false
  spares : s.Unfinished → s.Spares e
  short : ∀ i, e = .mark i → ∀ op, s.work[i]? = some op → op.Short s.graph

-- What of it the marking asks for.
structure Careful (s : World) (e : Event) : Prop where
  spares : s.Unfinished → s.Spares e
  short : ∀ i, e = .mark i → ∀ op, s.work[i]? = some op → op.Short s.graph

theorem Orderly.careful {c : Config} {s : World} {e : Event} (h : s.Orderly c e) : s.Careful e :=
  ⟨h.spares, h.short⟩

end World

end Rsgc.Collection
