import Rsgc.Collection.Degenerated.Completes
import Rsgc.Collection.Runtime.Safety
import Rsgc.Storage.Store.Total

namespace Rsgc.Collection

open Marking Storage

-- The steps of the collector in a pause.
def Event.ofPause : Event → Bool
  | .mark _ | .finishMark | .sweep _ | .finish => true
  | _ => false

namespace World

variable {c : Config} {s s' u begun : World}

theorem ofPause_of_stopped {e : Event} (hstop : s.phase.stopped = true)
    (h : s.step c e = some s') : e.ofPause = true := by
  have hmutate {t : Nat} {f : Mutator → Option World} (hf : s.mutate t f = some s') : False := by
    have hrun := (mutate_eq_some.mp hf).1
    rw [hstop] at hrun
    cases hrun
  have hphase {p : Phase} (hp : s.phase = p) (hrun : p.stopped = false) : False := by
    rw [hp, hrun] at hstop
    cases hstop
  cases e with
  | load | writeBarrier | store | allocate | drop | upgrade | detach | step =>
      exact (hmutate h).elim
  | attach | cancel => exact absurd hstop (guard_not_eq_some.mp h).1
  | mark | finishMark | sweep | finish => rfl
  | initMark | full => exact (hphase (guard_eq_some.mp h).1.1 rfl).elim
  | finalMark | abort => exact (hphase (guard_eq_some.mp h).1.1 rfl).elim
  | degenerate => exact (hphase (Option.ite_none_right_eq_some.mp h).1.1 rfl).elim
  | skip r =>
      obtain ⟨todo, hsweeping, -⟩ := stepSkip_cases h
      exact (hphase hsweeping rfl).elim

end World

namespace Runtime

variable {c : HeapConfig} {build : Build} {r r' : Runtime} {world : World} {s : Store}
  {mode : BarrierMode}

theorem Valid.numRegions_eq (h : r.Valid c) : r.heap.numRegions = c.opts.regionCount :=
  h.tidy.placed.numRegions_eq

section Buckets

-- The sweeper visits a region that it still has to visit.
theorem stepSweep_todo {w : World} {i : Nat} (hstep : w.stepSweep i = some world) :
    i ∈ w.phase.todo := by
  obtain ⟨cycle, todo, hphase, hi, -⟩ := World.stepSweep_cases hstep
  rw [hphase]
  exact hi

end Buckets

section Returns

variable (hsmall : c.opts.regionSizeLog2 < 32)

end Returns

theorem prepareUnsweptRegions_typ (h : Heap) (i : Nat) :
    (h.prepareUnsweptRegions.regions i).typ = (h.regions i).typ := by
  obtain ⟨-, -, -, -, hregions, -⟩ := Heap.prepareUnswept_foldl h (List.range h.numRegions)
  unfold Heap.prepareUnsweptRegions
  rw [hregions]
  split <;> rfl

theorem prepareUnsweptRegions_toSweep {h : Heap} {i : Nat} (hi : i < h.numRegions)
    (hneeds : Heap.needsSweep (h.regions i) = true) :
    (h.prepareUnsweptRegions.regions i).toSweep = true := by
  obtain ⟨-, -, -, -, hregions, -⟩ := Heap.prepareUnswept_foldl h (List.range h.numRegions)
  unfold Heap.prepareUnsweptRegions
  rw [hregions, if_pos ⟨List.mem_range.mpr hi, hneeds⟩]

-- The free set that the sweep makes at its end offers all regions that have room.
theorem rebuild_offers {h h' : Heap} (hok : h.rebuild = .ok h') :
    ∃ fs, h' = h.setFreeSet fs ∧
      ∀ i, fs.isMutatorFree i = true ↔ i < h.numRegions ∧ h.Eligible i := by
  obtain ⟨fs, heq, -, -, hbits, -⟩ := h.rebuild_eq
  rw [heq] at hok
  exact ⟨fs, (Except.ok.inj hok).symm, hbits⟩

section Humongous

variable {heap heap' : Heap} {blocks blocks' : List Space} {b : Space}

-- Region `i` is one of those that the humongous object `b` has taken.
structure Spanned (c : HeapConfig) (heap : Heap) (b : Space) (i : Nat) : Prop where
  start : (heap.regions (c.regionIndex b.addr)).typ = .humongousStart
  le : c.regionIndex b.addr ≤ i
  lt : i < c.regionIndex b.addr + c.opts.requiredRegions b.size

-- No region is left over from a humongous object that is gone.
def Headed (c : HeapConfig) (heap : Heap) (blocks : List Space) : Prop :=
  ∀ i, i < c.opts.regionCount → (heap.regions i).typ = .humongousCont →
    ∃ b ∈ blocks, Spanned c heap b i

theorem Headed.opens (h : Headed c heap blocks) (hopens : heap.Opens heap')
    (hsub : blocks ⊆ blocks') : Headed c heap' blocks' := by
  intro i hi hcont
  have hold : (heap.regions i).typ = .humongousCont := by
    rcases hopens i with hsame | ⟨-, hopened⟩
    · exact hsame ▸ hcont
    · rw [hcont] at hopened
      rcases hopened with hopened | hopened <;> cases hopened
  obtain ⟨b, hb, hstart, hle, hlt⟩ := h i hi hold
  refine ⟨b, hsub hb, ?_, hle, hlt⟩
  rcases hopens (c.regionIndex b.addr) with hsame | ⟨hvacant, -⟩
  · exact hsame.trans hstart
  · rw [hstart] at hvacant
    cases hvacant

section Visit

variable {k : Nat} (h : r.Valid c) (hk : k < c.opts.regionCount)
  (hok : r.heap.sweepRegionDo r.world.marks k = .ok heap)

include h hk hok in
theorem Valid.sweptStates :
    r.heap.SweptStates heap r.world.marks k (objectsIn c r.blocks k) := by
  refine h.tidy.laid.sweepRegionDo_states h.tidy.placed h.tidy.objects_kind
    (fun _ _ hb => tailsIn_kind hb) ?_ hok
  exact h.numRegions_eq ▸ hk

include h hk hok in
-- The visit frees nothing outside its region, and nothing that is marked.
theorem Valid.survives {b : Space} (hb : b ∈ r.blocks)
    (hkept : c.regionIndex b.addr = k → (r.heap.regions k).toSweep = true →
      r.world.marks b.addr = true) :
    b ∈ r.blocks.filter fun b => heap.isLive b.addr := by
  refine (h.agrees.mem_swept h.tidy hk hok).mpr ⟨hb, ?_⟩
  rw [← Bool.not_eq_true, h.agrees.frees_iff h.tidy hk hb]
  rintro ⟨hindex, hflag, hmark⟩
  rw [hkept hindex hflag] at hmark
  cases hmark

include h hk hok in
-- A region that a visit leaves regular has an object, when it had one before it was to
-- be swept.
theorem Valid.sweep_inhabited {i : Nat} (hregular : (heap.regions i).typ = .regular)
    (hflag : (heap.regions i).toSweep = false)
    (hold : (r.heap.regions i).typ = .regular → (r.heap.regions i).toSweep = false →
      ∃ b ∈ r.blocks, c.regionIndex b.addr = i) :
    ∃ b ∈ r.blocks.filter (fun b => heap.isLive b.addr), c.regionIndex b.addr = i := by
  have hstates := h.sweptStates hk hok
  obtain ⟨-, -, -, -, hflags, -⟩ := Heap.sweepRegionDo_effect hok
  have htyp : (r.heap.regions i).typ = .regular := by
    unfold Heap.SweptStates at hstates
    split at hstates
    · obtain ⟨num, -, -, htyps⟩ := hstates
      rw [htyps] at hregular
      split at hregular
      · cases hregular
      · exact hregular
    · exact hstates i ▸ hregular
  by_cases hswept : i = k ∧ (r.heap.regions k).toSweep = true
  · obtain ⟨rfl, hswept⟩ := hswept
    unfold Heap.SweptStates at hstates
    split at hstates
    · obtain ⟨num, hone, -, htyps⟩ := hstates
      obtain rfl := hone htyp
      rw [htyps, if_pos ⟨Nat.le_refl _, Nat.lt_succ_self _⟩] at hregular
      cases hregular
    · rename_i hlive
      have hmarked : ∃ b ∈ objectsIn c r.blocks i, r.world.marks b.addr ≠ false := by
        by_contra hnone
        push Not at hnone
        exact hlive ⟨hswept, needsSweep_iff.mpr (Or.inl htyp), hnone⟩
      obtain ⟨b, hb, hmark⟩ := hmarked
      obtain ⟨hmem, hindex⟩ := List.mem_filter.mp hb
      exact ⟨b, h.survives hk hok hmem fun _ _ => by simpa using hmark, by simpa using hindex⟩
  · have hnoFlag : (r.heap.regions i).toSweep = false := by
      rw [hflags] at hflag
      split at hflag
      · rename_i hik
        subst hik
        exact Bool.eq_false_iff.mpr fun hswept' => hswept ⟨rfl, hswept'⟩
      · exact hflag
    obtain ⟨b, hb, hindex⟩ := hold htyp hnoFlag
    refine ⟨b, h.survives hk hok hb fun hindex' hflag' => ?_, hindex⟩
    exact absurd ⟨hindex.symm.trans hindex', hflag'⟩ hswept

end Visit

end Humongous

-- A pause from a state on, until the threads go on.
def pause (c : HeapConfig) (build : Build) (begun : Runtime) : Machine Runtime RuntimeEvent where
  init r := r = begun
  step r e := if r.world.phase.stopped then r.step c build e else none

section Pause

variable {u u' begun : Runtime}

theorem pause_step {e : RuntimeEvent} (hstep : (pause c build begun).step u e = some u') :
    u.world.phase.stopped = true ∧ u.step c build e = some u' ∧ ∃ e' : Event, e = .world e' ∧
      e'.ofPause = true ∧ u.world.step (configOf c build) e' = some u'.world := by
  obtain ⟨hstop, hstep⟩ := Option.ite_none_right_eq_some.mp hstep
  refine ⟨hstop, hstep, ?_⟩
  cases e with
  | world e =>
      obtain ⟨-, world, s, hworld, -, rfl⟩ := step_world hstep
      exact ⟨e, rfl, World.ofPause_of_stopped hstop hworld, hworld⟩
  | request t req new =>
      obtain ⟨hasks, -⟩ := Option.ite_none_right_eq_some.mp hstep
      rw [hasks.1] at hstop
      cases hstop

-- The steps of a pause are careful.
theorem careful_of_ofPause {e : Event} (he : e.ofPause = true) : r.Careful (.world e) := by
  cases e with
  | mark | finishMark | sweep | finish => exact ⟨trivial, fun _ => trivial⟩
  | _ => cases he

theorem Via.pause {e : RuntimeEvent} (h : (runtime c build).Via Careful u)
    (hstep : (pause c build begun).step u e = some u') : (runtime c build).Via Careful u' := by
  obtain ⟨-, hstep, e, rfl, he, -⟩ := pause_step hstep
  exact Machine.Via.step h (careful_of_ofPause he) hstep

-- What the pause of a full collection does to the memory: the buffers stay closed,
-- blocks only go, a region that has been swept and stays regular has an object, and at
-- the end the free set offers all regions that have room.
structure Paused (c : HeapConfig) (r u : Runtime) : Prop where
  full : ∀ cycle, u.world.phase = .draining cycle → cycle = .full
  tlabs : ∀ tlab ∈ u.tlabs, tlab = .new
  blocks : ∀ b ∈ u.blocks, b ∈ r.blocks
  inhabited : u.world.phase ≠ .draining .full → ∀ i, i < c.opts.regionCount →
    (u.heap.regions i).typ = .regular → (u.heap.regions i).toSweep = false →
    ∃ b ∈ u.blocks, c.regionIndex b.addr = i
  swept : u.world.phase = .idle → ∀ i, i < c.opts.regionCount → (u.heap.regions i).toSweep = false
  offered : u.world.phase = .idle → ∀ i, i < u.heap.numRegions → u.heap.Eligible i →
    u.heap.freeSet.isMutatorFree i = true

theorem Paused.begin (h : r.Valid c) (hstep : r.step c build (.world .full) = some begun) :
    Paused c r begun := by
  obtain ⟨-, w, s, hworld, hok, rfl⟩ := step_world hstep
  have hok : r.store.retireTlabs = .ok s := hok
  obtain ⟨-, hnew⟩ := h.tidy.retireTlabs h.offers.sound hok
  obtain ⟨tlabs, heap, -, rfl⟩ := Store.retireTlabs_eq_ok hok
  obtain ⟨-, rfl⟩ := guard_eq_some.mp hworld
  exact ⟨fun cycle hcycle => (Phase.draining.inj hcycle).symm, hnew, fun b hb => hb,
    fun hdrained => absurd rfl hdrained, by simp [update], by simp [update]⟩

theorem Paused.step {e : RuntimeEvent} (h : Paused c r u) (hvalid : u.Valid c)
    (hstep : (pause c build begun).step u e = some u') : Paused c r u' := by
  obtain ⟨hstop, hstep, e, rfl, he, -⟩ := pause_step hstep
  obtain ⟨-, w, s, hworld, hok, rfl⟩ := step_world hstep
  cases e with
  | mark i =>
      obtain rfl := Except.ok.inj hok
      obtain ⟨hphase, op, marks, ops, -, -, rfl⟩ := World.stepMark_cases hworld
      have hrunning : u.world.phase ≠ .idle := fun hidle => by
        rw [hidle] at hstop
        cases hstop
      exact ⟨h.full, h.tlabs, h.blocks, h.inhabited, fun hidle => absurd hidle hrunning,
        fun hidle => absurd hidle hrunning⟩
  | finishMark =>
      obtain ⟨-, hcases⟩ := World.stepFinishMark_cases hworld
      rcases hcases with ⟨hphase, -⟩ | ⟨cycle, hcycle, hphase, rfl⟩
      · cases h.full _ hphase
      · have hphase' : u.world.phase ≠ .draining .degenerated := by
          rw [hphase]
          exact fun heq => hcycle (Phase.draining.inj heq)
        simp only [respond, if_neg hphase'] at hok
        obtain rfl := Except.ok.inj hok
        refine ⟨by simp [update], h.tlabs, h.blocks, fun _ i hi hregular hflag => ?_,
          by simp [update], by simp [update]⟩
        -- Every regular region is to be swept now.
        have hregular : (u.heap.prepareUnsweptRegions.regions i).typ = .regular := hregular
        have hflag : (u.heap.prepareUnsweptRegions.regions i).toSweep = false := hflag
        rw [prepareUnsweptRegions_typ] at hregular
        rw [prepareUnsweptRegions_toSweep (hvalid.numRegions_eq ▸ hi)
          (needsSweep_iff.mpr (Or.inl hregular))] at hflag
        cases hflag
  | sweep k =>
      obtain ⟨heap, hsweep, rfl⟩ := Store.sweepIndex_eq_ok hok
      have hk := hvalid.tidy.pending k (stepSweep_todo hworld)
      obtain ⟨cycle, todo, hphase, -, rfl⟩ := World.stepSweep_cases hworld
      have hdrained : u.world.phase ≠ .draining .full := by simp [hphase]
      refine ⟨by simp [update], h.tlabs, fun b hb => h.blocks b (List.mem_filter.mp hb).1,
        fun _ i hi hregular hflag => ?_, by simp [update], by simp [update]⟩
      exact hvalid.sweep_inhabited hk hsweep hregular hflag (h.inhabited hdrained i hi)
  | finish =>
      obtain ⟨cycle, hphase, rfl⟩ := World.stepFinish_cases hworld
      have hdrained : u.world.phase ≠ .draining .full := by simp [hphase]
      simp only [respond] at hok
      split at hok
      · rename_i hcancelled
        rw [hcancelled.1] at hstop
        cases hstop
      · obtain ⟨heap, hrebuild, rfl⟩ := Store.finish_eq_ok hok
        obtain ⟨fs, rfl, hbits⟩ := rebuild_offers hrebuild
        refine ⟨by simp [update], h.tlabs, h.blocks, fun _ => h.inhabited hdrained,
          fun _ i hi => ?_, fun _ i hi heligible => (hbits i).mpr ⟨hi, heligible⟩⟩
        -- The sweep has visited all that was to be swept.
        have hvisited : u.world.phase.gcPhase = .stopped := by
          rw [hphase] at hstop ⊢
          cases cycle with
          | concurrent => cases hstop
          | degenerated | full => rfl
        refine Bool.eq_false_iff.mpr fun hflag => ?_
        have htodo := hvalid.offers.visited (Or.inl hvisited) i hi hflag
        have htodo : i ∈ u.world.phase.todo := htodo
        rw [hphase] at htodo
        cases htodo
  | _ => cases he

end Pause

section Full

variable {u begun : Runtime}

end Full

end Runtime

end Rsgc.Collection
