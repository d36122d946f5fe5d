import Rsgc.Collection.Degenerated.Careful
import Rsgc.Collection.Runtime.Realizes

namespace Rsgc.Collection

open Marking Storage

namespace Runtime

variable {c : HeapConfig} {build : Build} {r r' : Runtime} {s : Store}

-- The thread has what the new object refers to.
def Holds (r : Runtime) (t : Nat) (new : NewObject) : Prop :=
  ∀ m, r.world.threads[t]? = some m →
    (∀ entry ∈ new.object.refs, entry.2 ∈ m.roots) ∧ ∀ target ∈ new.weak, target ∈ m.roots

theorem Valid.room (h : r.Valid c) {t : Nat} {req : Request} {new : NewObject} {b : Space}
    (hasks : r.Asks t) (hholds : r.Holds t new) (hroomy : r.store.Roomy (req.event t))
    (hs : r.store.step build.barrierMode (req.event t) = some s) (hgiven : r.given s = some b) :
    ∃ r', r.step c build (.request t req new) = some r' ∧
      r'.world.objects = b.addr :: r.world.objects := by
  obtain ⟨ht, -, hshape, hcases⟩ := h.request_cases hroomy hs
  obtain ⟨hnone, -⟩ | ⟨b', hsome, hgains⟩ := hcases
  · rw [hnone] at hgiven
    cases hgiven
  · obtain rfl : b' = b := Option.some.inj (hsome.symm.trans hgiven)
    obtain ⟨regions, hplaced, -⟩ := h.agrees.place h.tidy ht hgains build hshape new
    obtain ⟨hrun, m, hm, hplace⟩ := hasks.thread
    have hfresh : (new.at c s.heap b').obj ∉ r.world.objects := by
      rw [h.agrees.objects]
      rintro ⟨b, hb, heq⟩
      exact fresh_block ht hgains hb heq
    have hworld : ∃ world, r.world.step (configOf c build) (.allocate t (new.at c s.heap b')) =
        some world ∧ world.objects = b'.addr :: r.world.objects := by
      simp only [World.step, World.stepAllocate, World.mutate, hrun, Bool.false_eq_true, if_false, hm,
        Option.bind_some]
      rw [if_pos ⟨hplace, hfresh, (hholds m hm).1, (hholds m hm).2⟩, hplaced]
      exact ⟨_, rfl, rfl⟩
    obtain ⟨world, hworld, hobjects⟩ := hworld
    refine ⟨update world s, ?_, hobjects⟩
    change (if r.Asks t then (r.store.step build.barrierMode (req.event t)).bind
      (r.receive c build t new) else none) = _
    rw [if_pos hasks, hs, Option.bind_some, receive, hgiven]
    simp only [hworld, Option.map_some]

-- The object has its memory to itself, inside its region, and its header is there.
structure Intact (r : Runtime) (b : Space) : Prop where
  mem : b ∈ r.blocks
  pos : 0 < b.size
  housed : r.store.Houses b
  header : (r.heap.regions (r.heap.regionIndex b.addr)).words b.addr = ⟨b.size, false⟩
  apart : ∀ b' ∈ r.store.blocks, b' = b ∨ b.Apart b'

-- Two blocks that are intact do not begin at the same address.
theorem Intact.unique {b b' : Space} (h : r.Intact b) (h' : r.Intact b') (haddr : b'.addr = b.addr) :
    b' = b := by
  refine (h.apart b' (List.mem_append_left _ (List.mem_append_left _ h'.mem))).resolve_right ?_
  have hpos := h.pos
  have hpos' := h'.pos
  unfold Block.Apart Block.stop
  omega

-- The condition on a run: a refill finds room for its object, and no store and no
-- dropped root takes the last protection from an object while a concurrent mark is
-- unfinished.
def Careful (r : Runtime) : RuntimeEvent → Prop
  | .world e => r.world.Sparing e
  | .request t req new => r.store.Roomy (req.event t) ∧ Brief new.object

end Runtime

end Rsgc.Collection
