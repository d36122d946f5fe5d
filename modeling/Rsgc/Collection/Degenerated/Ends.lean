import Rsgc.Collection.Degenerated.Pause
import Rsgc.Collection.Degenerated.Coherent
import Rsgc.Marking.Progress

namespace Rsgc.Collection

open Marking Storage

namespace World

variable {c : Config} {s u u' d begun : World} {cycle : Cycle} {todo : List Nat}
  {final : Nat → Prop}

-- What `DegeneratedGC::collect` and the other collections do between the marking and
-- the sweep.
def epilogue (cycle : Cycle) (d : World) : World :=
  if cycle = .degenerated then d.processWeak else d.processWeak.finalize.prepareUnsweptRegions

-- The marks are final, and nothing else has changed.
structure Drained (s : World) (final : Nat → Prop) (d : World) : Prop where
  same : s.SameHeap d
  finalizers : d.finalizers = s.finalizers
  finalized : d.finalized = s.finalized
  marks : ∀ o, d.marks o = true ↔ final o

-- The marking of a pause goes on.
structure Draining (s : World) (cycle : Cycle) (final : Nat → Prop) (u : World) : Prop where
  phase : u.phase = .draining cycle
  same : s.SameHeap u
  finalizers : u.finalizers = s.finalizers
  finalized : u.finalized = s.finalized
  safe : ∀ o, u.tasks.Safe o ↔ final o

-- Whatever a pause has done so far: `final` is what it marks in the end.
def Pausing (s : World) (cycle : Cycle) (final : Nat → Prop) (u : World) : Prop :=
  s.Draining cycle final u ∨ ∃ d todo, s.Drained final d ∧ (d.epilogue cycle).Sweeps u todo ∧
    (u.phase = .sweeping cycle todo ∨ u.phase = .idle ∧ todo = [])

theorem Sweeps.of_same {b : World} (h : b.Sweeps u todo) (hsame : u.SameHeap u')
    (hmarks : u'.marks = u.marks) (hfinalizers : u'.finalizers = u.finalizers)
    (hfinalized : u'.finalized = u.finalized) : b.Sweeps u' todo where
  marks := hmarks.trans h.marks
  home := hsame.home.trans h.home
  finalizers := hfinalizers.trans h.finalizers
  finalized := hfinalized.trans h.finalized
  nodup := h.nodup
  toSweep := by
    rw [hsame.regions]
    exact h.toSweep
  objects := by
    rw [hsame.objects]
    exact h.objects
  graph := by
    rw [hsame.objects, hsame.graph]
    exact h.graph
  holds := by
    rw [hsame.regions]
    exact h.holds

theorem epilogue_arranged (h : d.Arranged c) : (d.epilogue cycle).Arranged c := by
  unfold epilogue
  split
  · exact ⟨h.home, h.inside, h.cont, h.unswept⟩
  · refine h.of_same (fun o ho => ho) rfl (prepared_typ _) (prepared_span _) fun r hr => ?_
    exact ((prepared_toSweep _ r).mp hr).elim (h.inside r) (h.unswept r)

theorem Draining.stepMark (h : s.Draining cycle final u) (hcoherent : u.Coherent c) {i : Nat}
    (hstep : u.stepMark i = some u') : s.Draining cycle final u' := by
  obtain ⟨-, op, marks, ops, hop, hdone, rfl⟩ := stepMark_cases hstep
  have hok := hcoherent.ok op (List.mem_of_getElem? hop)
  refine ⟨h.phase, ⟨h.same.graph, h.same.objects, h.same.home, h.same.regions⟩, h.finalizers,
    h.finalized, fun o => ?_⟩
  refine (tasks_safe_iff (i := i) hop hok (hcoherent.short op) hdone ?_ ?_ ?_ o).trans (h.safe o)
  all_goals rfl

-- A pause ends its marking with the marks that were left to set.
theorem Draining.stepFinishMark (h : s.Draining cycle final u) (hcoherent : u.Coherent c)
    (hstep : u.stepFinishMark c = some u') : s.Pausing cycle final u' := by
  obtain ⟨hwork, hcases⟩ := stepFinishMark_cases hstep
  have hdrained : s.Drained final u :=
    ⟨h.same, h.finalizers, h.finalized, fun o => (tasks_done hwork o).symm.trans (h.safe o)⟩
  have hbegin : (u.epilogue cycle).Sweeps (u.epilogue cycle) (List.range c.numRegions) :=
    Sweeps.begin (epilogue_arranged hcoherent.arranged)
  refine Or.inr ⟨u, List.range c.numRegions, hdrained, ?_⟩
  rcases hcases with ⟨hphase, rfl⟩ | ⟨cycle', hne, hphase, rfl⟩
  · obtain rfl : cycle = .degenerated := Phase.draining.inj (h.phase.symm.trans hphase)
    exact ⟨hbegin.of_same ⟨rfl, rfl, rfl, rfl⟩ rfl rfl rfl, Or.inl rfl⟩
  · obtain rfl : cycle = cycle' := Phase.draining.inj (h.phase.symm.trans hphase)
    have hepilogue : u.epilogue cycle = u.processWeak.finalize.prepareUnsweptRegions := if_neg hne
    rw [hepilogue] at hbegin ⊢
    exact ⟨hbegin.of_same ⟨rfl, rfl, rfl, rfl⟩ rfl rfl rfl, Or.inl rfl⟩

theorem Pausing.step (h : s.Pausing cycle final u) (hcoherent : u.Coherent c)
    (hstop : u.phase.stopped = true) {e : Event} (hstep : u.step c e = some u') :
    s.Pausing cycle final u' := by
  rcases h with h | ⟨d, todo, hdrained, hsweeps, hphase⟩
  · have hdraining {cycle' : Cycle} {todo : List Nat} (hp : u.phase = .sweeping cycle' todo) :
        False := by
      rw [h.phase] at hp
      cases hp
    rcases step_of_stopped hstop hstep with ⟨i, hstep⟩ | hstep | ⟨r, hstep⟩ | hstep
    · exact Or.inl (h.stepMark hcoherent hstep)
    · exact h.stepFinishMark hcoherent hstep
    · obtain ⟨_, _, hp, -⟩ := stepSweep_cases hstep
      exact (hdraining hp).elim
    · obtain ⟨_, hp, -⟩ := stepFinish_cases hstep
      exact (hdraining hp).elim
  · have hsweeping : u.phase = .sweeping cycle todo := by
      refine hphase.resolve_right fun hidle => ?_
      rw [hidle.1] at hstop
      cases hstop
    rcases step_of_stopped hstop hstep with ⟨i, hstep⟩ | hstep | ⟨r, hstep⟩ | hstep
    · obtain ⟨hp | ⟨_, hp⟩, -⟩ := stepMark_cases hstep <;> rw [hsweeping] at hp <;> cases hp
    · obtain ⟨-, ⟨hp, -⟩ | ⟨_, -, hp, -⟩⟩ := stepFinishMark_cases hstep <;>
        rw [hsweeping] at hp <;> cases hp
    · obtain ⟨_, _, hp, hr, rfl⟩ := stepSweep_cases hstep
      obtain ⟨rfl, rfl⟩ := Phase.sweeping.inj (hsweeping.symm.trans hp)
      have hswept := hsweeps.sweepRegion hcoherent.arranged hcoherent.filled hr
      exact Or.inr ⟨d, _, hdrained, hswept.of_same ⟨rfl, rfl, rfl, rfl⟩ rfl rfl rfl, Or.inl rfl⟩
    · obtain ⟨_, hp, rfl⟩ := stepFinish_cases hstep
      obtain ⟨rfl, rfl⟩ := Phase.sweeping.inj (hsweeping.symm.trans hp)
      refine Or.inr ⟨d, [], hdrained, ?_, Or.inr ⟨rfl, rfl⟩⟩
      exact hsweeps.of_same ⟨rfl, rfl, rfl, rfl⟩ rfl rfl rfl

theorem pausing_of_reachable (hbegun : s.Pausing cycle final begun) (hcoherent : begun.Coherent c)
    (hu : (pause c begun).Reachable u) : s.Pausing cycle final u ∧ u.Coherent c := by
  refine Machine.Reachable.invariant (P := fun u => s.Pausing cycle final u ∧ u.Coherent c)
    (fun u hu => ?_) (fun u e u' h hstep => ?_) hu
  · obtain rfl : u = begun := hu
    exact ⟨hbegun, hcoherent⟩
  · obtain ⟨hstop, hstep⟩ := Option.ite_none_right_eq_some.mp hstep
    exact ⟨h.1.step h.2 hstop hstep, h.2.pause hstop hstep⟩

theorem pause_step (hstop : u.phase.stopped = true) (e : Event) :
    (pause c begun).step u e = u.step c e := if_pos hstop

theorem pause_next (hstop : u.phase.stopped = true) {e : Event} (h : (u.step c e).isSome = true) :
    u.phase = .idle ∨ ∃ e t, (pause c begun).step u e = some t := by
  obtain ⟨t, ht⟩ := Option.isSome_iff_exists.mp h
  exact Or.inr ⟨e, t, (pause_step hstop e).trans ht⟩

theorem stepMark_isSome (hphase : u.phase = .draining cycle) {op : Op} {i : Nat}
    (hop : u.work[i]? = some op) (hshort : op.Short u.graph) : (u.stepMark i).isSome = true := by
  unfold stepMark
  rw [hop, if_pos (by cases cycle <;> simp [hphase]), Option.bind_some, Option.isSome_map]
  exact Op.step_isSome u.graph u.marks hshort

theorem stepFinishMark_isSome (hphase : u.phase = .draining cycle) (hwork : u.work = []) :
    (u.stepFinishMark c).isSome = true := by
  unfold stepFinishMark
  simp only [hwork, hphase, if_true]
  cases cycle <;> rfl

theorem stepSweep_isSome (hphase : u.phase = .sweeping cycle todo) {r : Nat} (hr : r ∈ todo) :
    (u.stepSweep r).isSome = true := by
  unfold stepSweep
  simp [hphase, hr]

theorem stepFinish_isSome (hphase : u.phase = .sweeping cycle []) : u.stepFinish.isSome = true := by
  unfold stepFinish
  simp [hphase]

theorem stopped_of_cycle (hcycle : cycle ≠ .concurrent) :
    (Phase.draining cycle).stopped = true ∧ ∀ todo, (Phase.sweeping cycle todo).stopped = true := by
  cases cycle with
  | concurrent => exact absurd rfl hcycle
  | degenerated | full => exact ⟨rfl, fun _ => rfl⟩

def leftToSweep (s : World) : Nat :=
  match s.phase with
  | .sweeping _ todo => todo.length + 1
  | _ => 0

theorem leftToSweep_eq (hphase : u.phase = .sweeping cycle todo) :
    u.leftToSweep = todo.length + 1 := by
  unfold leftToSweep
  rw [hphase]

-- The sweep of a pause ends.
theorem sweeping_ends (hcycle : cycle ≠ .concurrent) (hphase : u.phase = .sweeping cycle todo) :
    (pause c begun).Ends (fun u => u.phase = .idle) u := by
  refine Machine.Ends.of_measure wellFounded_lt leftToSweep
    (fun u => u.phase = .idle ∨ ∃ todo, u.phase = .sweeping cycle todo) ?_ ?_
    (Or.inr ⟨todo, hphase⟩)
  · rintro u (hidle | ⟨todo, hphase⟩)
    · exact Or.inl hidle
    · have hstop : u.phase.stopped = true := hphase ▸ (stopped_of_cycle hcycle).2 todo
      cases todo with
      | nil => exact pause_next hstop (e := .finish) (stepFinish_isSome hphase)
      | cons r rest =>
          exact pause_next hstop (e := .sweep r) (stepSweep_isSome hphase List.mem_cons_self)
  · rintro u e u' (hidle | ⟨todo, hphase⟩) hstep
    · have hstop := (Option.ite_none_right_eq_some.mp hstep).1
      rw [hidle] at hstop
      cases hstop
    · have hstop : u.phase.stopped = true := hphase ▸ (stopped_of_cycle hcycle).2 todo
      rw [pause_step hstop] at hstep
      refine Or.inr ?_
      rcases step_of_stopped hstop hstep with ⟨i, hstep⟩ | hstep | ⟨r, hstep⟩ | hstep
      · obtain ⟨hp | ⟨_, hp⟩, -⟩ := stepMark_cases hstep <;> rw [hphase] at hp <;> cases hp
      · obtain ⟨-, ⟨hp, -⟩ | ⟨_, -, hp, -⟩⟩ := stepFinishMark_cases hstep <;>
          rw [hphase] at hp <;> cases hp
      · obtain ⟨_, _, hp, hr, rfl⟩ := stepSweep_cases hstep
        obtain ⟨rfl, rfl⟩ := Phase.sweeping.inj (hphase.symm.trans hp)
        refine ⟨Or.inr ⟨_, rfl⟩, ?_⟩
        rw [leftToSweep_eq hphase, leftToSweep_eq rfl, List.length_erase_of_mem hr]
        have hpos := List.length_pos_of_mem hr
        omega
      · obtain ⟨_, hp, rfl⟩ := stepFinish_cases hstep
        refine ⟨Or.inl rfl, ?_⟩
        rw [leftToSweep_eq hphase]
        exact Nat.succ_pos _

def visited : Op → Option Nat
  | .visit ref => some ref
  | _ => none

-- All that the marking of a pause can come to visit: what objects refer to, and what it
-- was about to visit when it began.
def nodes (s : World) : Finset Nat :=
  (s.objects.flatMap fun o => (s.graph o).refs.map Prod.snd).toFinset ∪
    (s.work.filterMap visited).toFinset

theorem Coherent.edge_nodes (h : u.Coherent c) {a b : Nat} (hab : u.graph.Edge a b) :
    b ∈ u.nodes := by
  obtain ⟨slot, href⟩ := hab
  have ha : a ∈ u.objects := by
    by_contra hnone
    rw [h.free a hnone] at href
    exact absurd (Object.traced_of_ref href) (freeObject_not_traced slot)
  obtain ⟨entry, hentry, rfl⟩ := Object.ref_mem href
  refine Finset.mem_union_left _ (List.mem_toFinset.mpr (List.mem_flatMap.mpr ⟨a, ha, ?_⟩))
  exact List.mem_map_of_mem hentry

theorem visit_nodes {ref : Nat} (href : .visit ref ∈ u.work) : ref ∈ u.nodes := by
  refine Finset.mem_union_right _ (List.mem_toFinset.mpr ?_)
  exact List.mem_filterMap.mpr ⟨_, href, rfl⟩

-- The marking of a pause ends: it marks something new, or what is left to do for the
-- objects that are marked gets less.
theorem draining_ends (hcycle : cycle ≠ .concurrent) (hcoherent : u.Coherent c)
    (hphase : u.phase = .draining cycle) : (pause c begun).Ends (fun u => u.phase = .idle) u := by
  let inside (w : World) : Prop :=
    (∀ a b, w.graph.Edge a b → b ∈ u.nodes) ∧ ∀ ref, .visit ref ∈ w.work → ref ∈ u.nodes
  have hwf : WellFounded (Worklist.Smaller fun a b : Op => a.rank < b.rank) :=
    Worklist.smaller_wellFounded (InvImage.wf Op.rank wellFounded_lt)
  refine Machine.Ends.of_measure hwf (fun w => Worklist.measure u.nodes w.marks w.work)
    (fun w => w.Coherent c ∧ w.phase = .draining cycle ∧ inside w) ?_ ?_
    ⟨hcoherent, hphase, fun a b hab => hcoherent.edge_nodes hab, fun ref href => visit_nodes href⟩
  · rintro w ⟨hcoherent, hphase, -⟩
    have hstop : w.phase.stopped = true := hphase ▸ (stopped_of_cycle hcycle).1
    cases hwork : w.work with
    | nil => exact pause_next hstop (e := .finishMark) (stepFinishMark_isSome hphase hwork)
    | cons op rest =>
        have hop : w.work[0]? = some op := by rw [hwork]; rfl
        exact pause_next hstop (e := .mark 0) (stepMark_isSome hphase hop (hcoherent.short op))
  · rintro w e w' ⟨hcoherent, hphase, hedges, hvisits⟩ hstep
    have hstop : w.phase.stopped = true := hphase ▸ (stopped_of_cycle hcycle).1
    rw [pause_step hstop] at hstep
    have hcoherent' := hcoherent.pause hstop hstep
    rcases step_of_stopped hstop hstep with ⟨i, hstep⟩ | hstep | ⟨r, hstep⟩ | hstep
    · refine Or.inr ?_
      obtain ⟨-, op, marks, ops, hop, hdone, rfl⟩ := stepMark_cases hstep
      have hmem := List.mem_of_getElem? hop
      refine ⟨⟨hcoherent', hphase, hedges, fun ref href => ?_⟩, ?_⟩
      · rcases List.mem_append.mp href with href | href
        · have hok := hcoherent.ok op hmem
          obtain ⟨obj, hedge⟩ := Op.visit_of_step hdone hok (hcoherent.short op) href
          exact hedges obj ref hedge
        · exact hvisits ref (List.mem_of_mem_eraseIdx href)
      · rcases Op.step_rank hdone with ⟨ref, rfl, hnew⟩ | ⟨rfl, hsmaller⟩
        · refine Worklist.smaller_of_visited (hvisits ref hmem) hnew ?_ fun b hb => ?_
          · exact (Op.step_marks hdone ref).mpr (Or.inr rfl)
          · exact (Op.step_marks hdone b).mpr (Or.inl hb)
        · exact Worklist.smaller_of_replaced hop hsmaller
    · obtain ⟨-, ⟨-, rfl⟩ | ⟨cycle', -, hp, rfl⟩⟩ := stepFinishMark_cases hstep
      · exact Or.inl (sweeping_ends (by simp : Cycle.degenerated ≠ .concurrent) rfl)
      · obtain rfl : cycle = cycle' := Phase.draining.inj (hphase.symm.trans hp)
        exact Or.inl (sweeping_ends hcycle rfl)
    · obtain ⟨_, _, hp, -⟩ := stepSweep_cases hstep
      rw [hphase] at hp
      cases hp
    · obtain ⟨_, hp, -⟩ := stepFinish_cases hstep
      rw [hphase] at hp
      cases hp

end World

end Rsgc.Collection
