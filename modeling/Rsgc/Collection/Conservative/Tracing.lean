import Rsgc.Collection.Conservative

namespace Rsgc.Collection

open Marking Storage

namespace World

variable {c : Config} {s s' : World} {t : Nat}

-- What a pause knows: its operations are all that is left to mark.
def tasks (s : World) : Coloring Nat := coloring s.graph s.marks fun op => op ∈ s.work

theorem tasks_of_step {op : Op} {ops : List Op} (h : s.tasks.Guarded)
    (hstep : op.step s.graph s.marks = some (s'.marks, ops)) (hok : op.Ok)
    (hshort : op.Short s.graph) (hgraph : s'.graph = s.graph)
    (hkeep : ∀ o ∈ s.work, o = op ∨ o ∈ s'.work) (hnew : ∀ o ∈ ops, o ∈ s'.work) :
    s'.tasks.Guarded := by
  have hadvances : s.tasks.Advances (coloring s.graph s'.marks fun op => op ∈ s'.work) :=
    Op.step_advances hstep hok hshort hkeep hnew
  unfold tasks
  rw [hgraph]
  exact h.sustain (hadvances.sustains fun a b _ hab => Or.inl hab)

theorem tasks_visit (s : World) (ref : Nat) (h : s.tasks.Guarded) : (s.visit ref).tasks.Guarded := by
  obtain ⟨ops, hstep, hwork⟩ := s.visit_step ref
  refine tasks_of_step h hstep trivial trivial rfl (fun o ho => Or.inr ?_) fun o ho => ?_
  · exact hwork ▸ List.mem_append_right _ ho
  · exact hwork ▸ List.mem_append_left _ ho

theorem collectRoots_tasks (h : s.tasks.Guarded) : s.collectRoots.tasks.Guarded := by
  rw [collectRoots_eq]
  exact foldl_visit tasks_visit _ h

-- In a pause the roots are marked and the buffers are empty.
theorem tasks_of_color (h : s.color.Guarded) (hroots : ∀ r ∈ s.roots, s.marks r = true)
    (hcalm : ∀ m ∈ s.threads, m.Calm) : s.tasks.Guarded := by
  refine h.sustain (Coloring.Sustains.of_source ?_)
  rintro x ⟨op, hop | ⟨r, hr, rfl⟩ | ⟨m, hm, o, ho, -⟩, hx⟩ hwhite
  · exact ⟨op, hop, hx⟩
  · rcases hx with hx | ⟨_, _, hcovers, -⟩
    · obtain rfl := Op.visit.inj hx
      exact absurd (hroots _ hr) hwhite
    · cases hcovers
  · rw [(hcalm m hm).unflushed] at ho
    cases ho

-- Whatever the controller runs: an unfinished concurrent mark has the colours
-- right, and a pause that marks has its tasks for all that is left to mark.
structure Tracing (s : World) : Prop where
  tidy : s.Tidy
  free : ∀ o, o ∉ s.objects → s.graph o = freeObject
  ok : ∀ op ∈ s.work, op.Ok
  holds : ∀ m ∈ s.threads, m.Holds
  degenPoint : s.phase ≠ .idle → s.degenPoint = .outsideCycle
  guarded : s.Unfinished → s.color.Guarded
  drained : ∀ cycle, s.phase = .draining cycle → s.tasks.Guarded ∧ ∀ r ∈ s.roots, s.marks r = true

theorem Unfinished.of_beside (h : s.Beside s') (hs : s'.Unfinished) : s.Unfinished := by
  unfold Unfinished at hs
  rwa [h.phase, h.degenPoint, h.concurrentMark] at hs

theorem Tracing.mutator (h : s.Tracing) {e : Event} (hcareful : s.Careful e)
    (hstep : s.step c e = some s') (he : e.ofMutator = true) : s'.Tracing where
  tidy := h.tidy.step hstep
  free := free_step hstep h.free
  ok op hop := by
    rcases (step_of_mutator hstep he).work op hop with hop | ⟨obj, rfl⟩
    · exact h.ok op hop
    · exact isFresh_ok obj
  holds := holds_of_mutator hstep he h.holds
  degenPoint hphase := by
    have hbeside := step_of_mutator hstep he
    rw [hbeside.phase] at hphase
    exact hbeside.degenPoint.trans (h.degenPoint hphase)
  guarded hs := by
    have hbefore := hs.of_beside (step_of_mutator hstep he)
    exact guarded_of_mutator h.free (fun _ => h.holds) (h.guarded hbefore)
      (hcareful.spares hbefore) hstep he
  drained cycle hphase := by
    have hbeside := step_of_mutator hstep he
    exact absurd (hbeside.phase ▸ hphase) (not_draining hbeside.running cycle)

theorem Tracing.stepMark (h : s.Tracing) {i : Nat} (hcareful : s.Careful (.mark i))
    (hstep : s.stepMark i = some s') : s'.Tracing := by
  have htidy : s'.Tidy := h.tidy.stepMark hstep
  obtain ⟨hphase, op, marks, ops, hop, hdone, rfl⟩ := stepMark_cases hstep
  have hok := h.ok op (List.mem_of_getElem? hop)
  have hshort := hcareful.short i rfl op hop
  have hkeep {o : Nat} (ho : s.marks o = true) : marks o = true :=
    (Op.step_marks hdone o).mpr (Or.inl ho)
  have hrest (o : Op) (ho : o ∈ s.work) : o = op ∨ o ∈ ops ++ s.work.eraseIdx i :=
    (eq_or_mem_eraseIdx hop ho).imp_right (List.mem_append_right _)
  refine ⟨htidy, h.free, fun o ho => ?_, h.holds, h.degenPoint, fun hs => ?_,
    fun cycle hcycle => ⟨?_, fun r hr => hkeep ((h.drained cycle hcycle).2 r hr)⟩⟩
  · rcases List.mem_append.mp ho with ho | ho
    · exact Op.step_ok hdone hok hshort o ho
    · exact h.ok o (List.mem_of_mem_eraseIdx ho)
  · exact (h.guarded hs).sustain (sustains_of_step hdone hok hshort rfl rfl hrest fun o ho =>
      List.mem_append_left _ ho)
  · exact tasks_of_step (h.drained cycle hcycle).1 hdone hok hshort rfl hrest fun o ho =>
      List.mem_append_left _ ho

theorem Tracing.stepInitMark (h : s.Tracing) (hstep : s.step c .initMark = some s') :
    s'.Tracing := by
  have htidy : s'.Tidy := h.tidy.step hstep
  obtain ⟨-, rfl⟩ := guard_eq_some.mp hstep
  have hguarded : (s.prepareGc.toggleWriteBarrier true).color.Guarded := guarded_unmarked _ _
  refine ⟨htidy, h.free, ?_, holds_map (fun _ => rfl) (fun _ => rfl) h.holds, fun _ => rfl,
    fun _ => ?_, fun cycle hcycle => ?_⟩
  · exact collectRoots_ok (s := s.prepareGc.toggleWriteBarrier true) h.ok
  · exact hguarded.sustain (collectRoots_sustains _)
  · cases hcycle

-- The roots are visited and the buffers are flushed in a pause.
theorem drained_of_flush (h : s.color.Guarded) (hparked : s.Parked) :
    (flushThreads c s.collectRoots).tasks.Guarded ∧
      ∀ r ∈ (flushThreads c s.collectRoots).roots, (flushThreads c s.collectRoots).marks r = true := by
  have hparked' : s.collectRoots.Parked := hparked
  have hguarded : (flushThreads c s.collectRoots).color.Guarded :=
    h.sustain ((collectRoots_sustains s).trans
      (sustains_of_pending rfl rfl (pending_flushThreads hparked')))
  have hmarked : ∀ r ∈ (flushThreads c s.collectRoots).roots,
      (flushThreads c s.collectRoots).marks r = true := by
    intro r hr
    rw [flushThreads_roots] at hr
    exact (s.collectRoots_marks r).mpr (Or.inr hr)
  exact ⟨tasks_of_color hguarded hmarked (calm_of_cancel hparked), hmarked⟩

theorem Tracing.stepFinalMark (h : s.Tracing) (hstep : s.step c .finalMark = some s') :
    s'.Tracing := by
  have htidy : s'.Tidy := h.tidy.step hstep
  obtain ⟨⟨hphase, hparked, -⟩, rfl⟩ := guard_eq_some.mp hstep
  refine ⟨htidy, h.free, flushThreads_ok (collectRoots_ok h.ok),
    holds_map (fun _ => rfl) (fun _ => rfl) h.holds, fun _ => ?_, fun hs => ?_,
    fun cycle _ => drained_of_flush (h.guarded (Or.inl hphase)) hparked⟩
  · exact h.degenPoint (by simp [hphase])
  · rcases hs with hs | ⟨hs, -⟩ <;> cases hs

-- All marks have been cleared and the roots are visited in a pause.
theorem drained_of_prepare (s : World) :
    s.prepareGc.collectRoots.tasks.Guarded ∧
      ∀ r ∈ s.roots, s.prepareGc.collectRoots.marks r = true :=
  ⟨collectRoots_tasks (guarded_unmarked _ _), fun r hr =>
    (s.prepareGc.collectRoots_marks r).mpr (Or.inr hr)⟩

theorem Tracing.stepFull (h : s.Tracing) (hstep : s.step c .full = some s') : s'.Tracing := by
  have htidy : s'.Tidy := h.tidy.step hstep
  obtain ⟨-, rfl⟩ := guard_eq_some.mp hstep
  refine ⟨htidy, h.free, collectRoots_ok (s := s.prepareGc) h.ok, h.holds, fun _ => rfl,
    fun hs => ?_, fun cycle _ => s.drained_of_prepare⟩
  rcases hs with hs | ⟨hs, -⟩ <;> cases hs

theorem Tracing.stepDegenerate (h : s.Tracing) (hstep : s.step c .degenerate = some s') :
    s'.Tracing := by
  have htidy : s'.Tidy := h.tidy.step hstep
  obtain ⟨⟨hphase, hparked⟩, hcases⟩ := stepDegenerate_cases hstep
  have hcancel : ∀ m ∈ s.cancelMark.threads, m.Holds :=
    holds_map (fun _ => rfl) (fun _ => rfl) h.holds
  rcases hcases with ⟨-, rfl⟩ | ⟨-, rfl⟩ | ⟨⟨hpoint, hflag⟩, rfl⟩ | ⟨-, rfl⟩
  · refine ⟨htidy, h.free, h.ok, h.holds, fun _ => rfl, fun hs => ?_, fun cycle hcycle => ?_⟩
    · rcases hs with hs | ⟨-, hs, -⟩
      · exact absurd (hphase.symm.trans hs) (by simp)
      · cases hs
    · exact absurd (hphase.symm.trans hcycle) (by simp)
  · refine ⟨htidy, h.free, collectRoots_ok (s := s.prepareGc.cancelMark) h.ok, hcancel,
      fun _ => rfl, fun hs => ?_, fun cycle _ => ?_⟩
    · rcases hs with hs | ⟨hs, -⟩ <;> cases hs
    · exact ⟨s.cancelMark.drained_of_prepare.1, s.cancelMark.drained_of_prepare.2⟩
  · refine ⟨htidy, h.free, flushThreads_ok (collectRoots_ok h.ok), hcancel, fun _ => rfl,
      fun hs => ?_, fun cycle _ => ?_⟩
    · rcases hs with hs | ⟨hs, -⟩ <;> cases hs
    · exact drained_of_flush (h.guarded (Or.inr ⟨hphase, hpoint, hflag⟩)) hparked
  · refine ⟨htidy, h.free, h.ok, h.holds, fun _ => rfl, fun hs => ?_, fun cycle hcycle => ?_⟩
    · rcases hs with hs | ⟨hs, -⟩ <;> cases hs
    · cases hcycle

theorem Tracing.step (h : s.Tracing) {e : Event} (hcareful : s.Careful e)
    (hstep : s.step c e = some s') : s'.Tracing := by
  have htidy : s'.Tidy := h.tidy.step hstep
  have hfree := free_step hstep h.free
  cases e with
  | load | writeBarrier | store | allocate | drop | upgrade | attach | detach | step =>
      exact h.mutator hcareful hstep rfl
  | mark i => exact h.stepMark hcareful hstep
  | initMark => exact h.stepInitMark hstep
  | finalMark => exact h.stepFinalMark hstep
  | full => exact h.stepFull hstep
  | degenerate => exact h.stepDegenerate hstep
  | finishMark =>
      obtain ⟨-, ⟨hphase, rfl⟩ | ⟨cycle, -, hphase, rfl⟩⟩ := stepFinishMark_cases hstep <;>
        refine ⟨htidy, hfree, h.ok, h.holds, fun _ => h.degenPoint (by simp [hphase]), fun hs => ?_,
          fun cycle hcycle => by cases hcycle⟩ <;>
        rcases hs with hs | ⟨hs, -⟩ <;> cases hs
  | sweep r =>
      obtain ⟨cycle, todo, hphase, -, rfl⟩ := stepSweep_cases hstep
      refine ⟨htidy, hfree, h.ok, h.holds, fun _ => h.degenPoint (by simp [hphase]), fun hs => ?_,
        fun cycle hcycle => by cases hcycle⟩
      rcases hs with hs | ⟨hs, -⟩ <;> cases hs
  | skip r =>
      obtain ⟨todo, hphase, -, rfl⟩ := stepSkip_cases hstep
      refine ⟨htidy, hfree, h.ok, h.holds, fun _ => h.degenPoint (by simp [hphase]), fun hs => ?_,
        fun cycle hcycle => by cases hcycle⟩
      rcases hs with hs | ⟨hs, -⟩ <;> cases hs
  | finish =>
      obtain ⟨cycle, hphase, rfl⟩ := stepFinish_cases hstep
      refine ⟨htidy, hfree, h.ok, h.holds, fun hs => absurd rfl hs, fun hs => ?_,
        fun cycle hcycle => by cases hcycle⟩
      -- A cycle that ends leaves no mark to be completed.
      rcases hs with hs | ⟨-, hs, -⟩
      · cases hs
      · simp only [h.degenPoint (by simp [hphase])] at hs
        split at hs <;> cases hs
  | cancel =>
      obtain ⟨-, rfl⟩ := guard_not_eq_some.mp hstep
      exact ⟨htidy, hfree, h.ok, h.holds, h.degenPoint, h.guarded, h.drained⟩
  | abort =>
      obtain ⟨⟨hphase, -, -⟩, rfl⟩ := guard_eq_some.mp hstep
      exact ⟨htidy, hfree, h.ok, h.holds, fun hs => absurd rfl hs,
        fun _ => h.guarded (Or.inl hphase), fun cycle hcycle => by cases hcycle⟩

end World

end Rsgc.Collection
