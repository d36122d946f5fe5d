import Rsgc.Collection.Rescan
import Rsgc.Collection.Snapshot.Safety

namespace Rsgc.Collection

open Marking Storage

namespace World

variable {c : Config} {s s' : World} {t : Nat}

theorem Update.mutator (h : s.Update) (hsteady : s'.Steady) {e : Event} (hheld : s.Held e)
    (hstep : s.step c e = some s') (he : e.ofMutator = true) : s'.Update := by
  have hbeside := step_of_mutator hstep he
  have hmarking (hp : s'.phase = .marking ∨ s'.phase = .draining .concurrent) :
      s.phase = .marking := by
    rw [hbeside.phase] at hp
    exact hp.resolve_right (not_draining hbeside.running _)
  refine ⟨hsteady, free_step hstep h.free, fun op hop => ?_, holds_of_mutator hstep he h.holds,
    fun hp => ?_, fun hp => ?_, fun hp => ?_⟩
  · rcases hbeside.work op hop with hop | ⟨obj, rfl⟩
    · exact h.ok op hop
    · exact isFresh_ok obj
  · rw [hbeside.phase] at hp
    exact absurd hp (not_draining hbeside.running _)
  · have hbefore := hmarking hp
    exact refound_of_mutator h.free h.holds (h.refound (Or.inl hbefore)) hheld hbefore hstep he
  · exact rescanned_of_mutator (h.rescanned (Or.inl (hmarking hp))) hstep he

-- A slot that an operation was to read has been read by the step or is still to
-- be read; a visit that marks an object queues a task for all its slots.
theorem rescanned_mark (h : s.Rescanned) {i : Nat} {op : Op} {marks : Nat → Bool} {ops : List Op}
    (hop : s.work[i]? = some op) (hdone : op.step s.graph s.marks = some (marks, ops)) (hok : op.Ok)
    (hshort : op.Short s.graph) : World.Rescanned { s with
      marks, work := ops ++ s.work.eraseIdx i, scanned := reads op ++ s.scanned } := by
  intro o ho hmark slot hslot
  by_cases hbefore : s.marks o = true
  · rcases h o ho hbefore slot hslot with hread | ⟨x, hx, hc⟩
    · exact Or.inl (List.mem_append_right _ hread)
    · rcases eq_or_mem_eraseIdx hop hx with rfl | hrest
      · rcases Op.step_covers hdone hok hshort hslot hc with ⟨stop, rfl⟩ | ⟨y, hy, hcy⟩
        · have hlt : slot.index < stop := hc.2.2.2
          refine Or.inl (List.mem_append_left _ ?_)
          rw [reads, if_pos hlt, hc.1]
          exact List.mem_singleton_self _
        · exact Or.inr ⟨y, List.mem_append_left _ hy, hcy⟩
      · exact Or.inr ⟨x, List.mem_append_right _ hrest, hc⟩
  · have hvisit : op = .visit o := ((Op.step_marks hdone o).mp hmark).resolve_left hbefore
    subst hvisit
    simp only [Op.step] at hdone
    rw [if_neg hbefore] at hdone
    obtain ⟨-, rfl⟩ := Prod.mk.inj (Option.some.inj hdone)
    exact Or.inr ⟨_, List.mem_append_left _ (List.mem_singleton_self _), rfl, Or.inl rfl⟩

theorem Update.stepMark (h : s.Update) (hsteady : s'.Steady) {i : Nat} (hheld : s.Held (.mark i))
    (hstep : s.stepMark i = some s') : s'.Update := by
  obtain ⟨hphase, op, marks, ops, hop, hdone, rfl⟩ := stepMark_cases hstep
  have hok := h.ok op (List.mem_of_getElem? hop)
  have hshort := hheld op hop
  have hkeep {o : Nat} (ho : s.marks o = true) : marks o = true :=
    (Op.step_marks hdone o).mpr (Or.inl ho)
  refine ⟨hsteady, h.free, fun o ho => ?_, h.holds, fun hp r hr => hkeep (h.roots hp r hr),
    fun hp o ho hreach => ?_, fun hp => rescanned_mark (h.rescanned hp) hop hdone hok hshort⟩
  · rcases List.mem_append.mp ho with ho | ho
    · exact Op.step_ok hdone hok hshort o ho
    · exact h.ok o (List.mem_of_mem_eraseIdx ho)
  · have hsafe := h.refound hp o ho hreach
    refine Coloring.Sustains.safe ?_ o hsafe
    refine sustains_of_step hdone hok hshort rfl rfl (fun x hx => ?_) fun x hx => ?_
    · exact (eq_or_mem_eraseIdx hop hx).imp_right (List.mem_append_right _)
    · exact List.mem_append_left _ hx

-- Visiting the roots leaves the work there is, and a task for each new mark.
theorem collectRoots_tasks_for (s : World) : (∀ op ∈ s.work, op ∈ s.collectRoots.work) ∧
    ∀ o, s.collectRoots.marks o = true →
      s.marks o = true ∨ .push (.new o false false) ∈ s.collectRoots.work := by
  rw [collectRoots_eq]
  refine foldl_visit (P := fun u => (∀ op ∈ s.work, op ∈ u.work) ∧ ∀ o, u.marks o = true →
    s.marks o = true ∨ .push (.new o false false) ∈ u.work) (fun u ref hu => ?_) _
      ⟨fun op hop => hop, fun o ho => Or.inl ho⟩
  obtain ⟨hwork, hmarks⟩ := hu
  unfold World.visit visitRoot
  dsimp only
  split
  · exact ⟨hwork, hmarks⟩
  · refine ⟨fun op hop => List.mem_cons_of_mem _ (hwork op hop), fun o ho => ?_⟩
    by_cases heq : o = ref
    · exact Or.inr (heq ▸ List.mem_cons_self)
    · change Function.update u.marks ref true o = true at ho
      rw [Function.update_of_ne heq] at ho
      exact (hmarks o ho).imp id fun hop => List.mem_cons_of_mem _ hop

theorem Update.stepFinalMark (h : s.Update) (hsteady : s'.Steady)
    (hstep : s.stepFinalMark c = some s') : s'.Update := by
  obtain ⟨⟨hphase, hparked, -⟩, rfl⟩ := guard_eq_some.mp hstep
  obtain ⟨hwork, htask⟩ := s.collectRoots_tasks_for
  have hroots : (flushThreads c s.collectRoots).roots = s.roots := flushThreads_roots
  refine ⟨hsteady, h.free, flushThreads_ok (collectRoots_ok h.ok),
    holds_map (fun _ => rfl) (fun _ => rfl) h.holds, fun _ r hr => ?_, fun _ o ho hreach => ?_,
    fun _ o ho hmark slot hslot => ?_⟩
  · exact (s.collectRoots_marks r).mpr (Or.inr (hroots ▸ hr))
  · have hparked' : s.collectRoots.Parked := hparked
    have hflushed : s.collectRoots.color.Sustains (flushThreads c s.collectRoots).color :=
      sustains_of_pending rfl rfl (pending_flushThreads hparked')
    have hreach' : s.Reaches o := hreach.of_le (fun r hr => reaches_root (hroots ▸ hr)) rfl
    exact ((collectRoots_sustains s).trans hflushed).safe o
      (h.refound (Or.inl hphase) o ho hreach')
  · by_cases hbefore : s.marks o = true
    · rcases h.rescanned (Or.inl hphase) o ho hbefore slot hslot with hread | ⟨op, hop, hc⟩
      · exact Or.inl hread
      · exact Or.inr ⟨op, List.mem_append_right _ (hwork op hop), hc⟩
    · have hop := (htask o hmark).resolve_left hbefore
      exact Or.inr ⟨_, List.mem_append_right _ hop, rfl, Or.inl rfl⟩

theorem Update.step (h : s.Update) {upgrades : Bool} {e : Event} (hheld : s.Held e)
    (hstep : (concurrentCycles c upgrades).step s e = some s') : s'.Update := by
  have hsteady : s'.Steady := h.steady.step hstep
  obtain ⟨hcycle, hstep⟩ := Option.ite_none_right_eq_some.mp hstep
  have hfree := free_step hstep h.free
  cases e with
  | load | writeBarrier | store | allocate | drop | upgrade | attach | detach | step =>
      exact h.mutator hsteady hheld hstep rfl
  | mark i => exact h.stepMark hsteady hheld hstep
  | initMark =>
      obtain ⟨-, rfl⟩ := guard_eq_some.mp hstep
      have hnone (o : Nat) : o ∉ ([] : List Nat) := List.not_mem_nil
      exact ⟨hsteady, hfree, collectRoots_ok (s := s.prepareGc.toggleWriteBarrier true) h.ok,
        holds_map (fun _ => rfl) (fun _ => rfl) h.holds, fun hp => (by cases hp),
        fun _ o ho => absurd ho (hnone o), fun _ o ho => absurd ho (hnone o)⟩
  | finalMark => exact h.stepFinalMark hsteady hstep
  | finishMark =>
      obtain ⟨-, ⟨-, rfl⟩ | ⟨cycle, -, -, rfl⟩⟩ := stepFinishMark_cases hstep <;>
        exact ⟨hsteady, hfree, h.ok, h.holds, by simp, by simp, by simp⟩
  | sweep r =>
      obtain ⟨cycle, todo, -, -, rfl⟩ := stepSweep_cases hstep
      exact ⟨hsteady, hfree, h.ok, h.holds, by simp, by simp, by simp⟩
  | finish =>
      obtain ⟨cycle, -, rfl⟩ := stepFinish_cases hstep
      exact ⟨hsteady, hfree, h.ok, h.holds, by simp, by simp, by simp⟩
  | cancel | skip | abort | full | degenerate => cases hcycle

-- At the end of the final mark the objects whose mark bit a barrier has cleared
-- are marked and read again as far as they are reachable.
def ClearedSafe (s : World) : Prop :=
  s.FinalMarked → ∀ o ∈ s.cleared, s.Reaches o →
    s.marks o = true ∧ ∀ slot, (s.graph o).Traced slot → (o, slot) ∈ s.scanned

theorem update_of_via {bufferSize regions : Nat} {upgrades : Bool}
    (hs : (concurrentCycles ⟨.incrementalUpdate, bufferSize, regions⟩ upgrades).Via Held s) :
    s.Update := by
  refine Machine.Via.invariant (P := Update) (fun s h => ?_)
    (fun s e s' h hheld hstep => h.step hheld hstep) hs
  refine ⟨steady_of_fresh h, h.free, by simp [h.work], fun m hm o ho => ?_, by simp [h.phase],
    by simp [h.phase], by simp [h.phase]⟩
  rw [(h.threads m hm).2.2] at ho
  cases ho

theorem incremental_update_safe {bufferSize regions : Nat} {upgrades : Bool}
    (hs : (concurrentCycles ⟨.incrementalUpdate, bufferSize, regions⟩ upgrades).Via Held s) :
    s.ClearedSafe := by
  have h := update_of_via hs
  intro hmarked o ho hreach
  have hmark := marked_of_safe h.steady (h.roots hmarked.1) hmarked.1 hmarked.2
    (h.refound (Or.inr hmarked.1) o ho hreach)
  refine ⟨hmark, fun slot hslot => ?_⟩
  rcases h.rescanned (Or.inr hmarked.1) o ho hmark slot hslot with hread | ⟨op, hop, -⟩
  · exact hread
  · rw [hmarked.2] at hop
    cases hop

def updateConfig : Config := ⟨.incrementalUpdate, 1, 1⟩

-- A step that meets the condition because the cleared objects are roots.
def Retains (s : World) : Event → Prop
  | .mark i => ∀ op ∈ s.work[i]?, op.Short s.graph
  | .store .. => ∀ o ∈ s.cleared, o ∈ s.roots
  | .drop .. | .upgrade .. => s.cleared = []
  | _ => True

instance (s : World) : (e : Event) → Decidable (s.Retains e)
  | .mark i => inferInstanceAs (Decidable (∀ op ∈ s.work[i]?, _))
  | .store .. => inferInstanceAs (Decidable (∀ o ∈ s.cleared, _))
  | .drop .. | .upgrade .. => inferInstanceAs (Decidable (s.cleared = []))
  | .load .. | .writeBarrier .. | .allocate .. | .attach | .detach _ | .step _ | .initMark
  | .finalMark | .finishMark | .sweep _ | .skip _ | .finish | .cancel | .abort | .full
  | .degenerate => inferInstanceAs (Decidable True)

theorem held_of_retains {e : Event} (h : s.Retains e) : s.Held e := by
  have hnone {u : World} (hu : u.cleared = []) : u.Refound := fun o ho => by
    rw [hu] at ho
    cases ho
  cases e with
  | mark i => exact h
  | store t obj slot value => exact fun _ _ o ho _ => safe_of_root (h o ho)
  | drop t obj => exact fun _ _ _ => hnone h
  | upgrade t weak => exact fun _ _ _ _ _ => hnone h
  | _ => trivial

-- Object 0 is marked, its mark bit is cleared, and it is read again.
theorem incremental_update_safe_pair :
    ∃ s, (concurrentCycles updateConfig false).Via Held s ∧ s.FinalMarked ∧ s.cleared = [0] ∧
      s.marks 0 = true := by
  have hrun : ((concurrentCycles updateConfig false).runVia Retains pairWorld [.initMark, .mark 0,
      .writeBarrier 0 0, .step 0, .store 0 0 ⟨.field, 0⟩ none, .mark 0, .mark 0, .finalMark,
      .mark 0, .mark 0, .mark 0, .mark 0, .mark 0, .mark 0]).map
        (fun s => (s.phase, s.work, s.roots, s.cleared)) =
          some (.draining .concurrent, [], [0], [0]) := by
    decide +kernel
  obtain ⟨s, hs, heq⟩ := Option.map_eq_some_iff.mp hrun
  simp only [Prod.mk.injEq] at heq
  obtain ⟨hphase, hwork, hroots, hcleared⟩ := heq
  have hvia := (Machine.via_of_runVia (Machine.Via.init pairWorld_fresh) hs).mono
    fun s e h => held_of_retains h
  refine ⟨s, hvia, ⟨hphase, hwork⟩, hcleared,
    (incremental_update_safe hvia ⟨hphase, hwork⟩ 0 ?_ ?_).1⟩
  · rw [hcleared]
    exact List.mem_singleton_self 0
  · exact reaches_root (by rw [hroots]; exact List.mem_singleton_self 0)

-- Object 1 has been marked through object 0. The task that the flush leaves for it
-- reads its slots, but nothing marks it again.
theorem cleared_object_not_marked :
    ¬∀ s, (concurrentCycles updateConfig false).Reachable s → s.ClearedSafe := by
  intro hall
  have hrun : ((concurrentCycles updateConfig false).run pairWorld [.initMark, .mark 0, .mark 0,
      .mark 0, .mark 0, .mark 0, .mark 0, .mark 0, .load 0 0 ⟨.field, 0⟩, .writeBarrier 0 1,
      .step 0, .store 0 1 ⟨.field, 0⟩ none, .drop 0 1, .finalMark, .mark 0, .mark 0, .mark 0]).map
        (fun s => ((s.phase, s.work, s.roots), s.cleared, (s.graph 0).ref ⟨.field, 0⟩, s.marks 1)) =
          some ((.draining .concurrent, [], [0]), [1], some 1, false) := by
    decide +kernel
  obtain ⟨s, hs, heq⟩ := Option.map_eq_some_iff.mp hrun
  simp only [Prod.mk.injEq] at heq
  obtain ⟨⟨hphase, hwork, hroots⟩, hcleared, href, hmark⟩ := heq
  have hreach := Machine.run_reachable (Machine.Via.init pairWorld_fresh) hs
  have hroot : s.Reaches 0 := reaches_root (by rw [hroots]; exact List.mem_singleton_self 0)
  have hmem : 1 ∈ s.cleared := by
    rw [hcleared]
    exact List.mem_singleton_self 1
  have hmarked := (hall s hreach ⟨hphase, hwork⟩ 1 hmem (hroot.tail ⟨⟨.field, 0⟩, href⟩)).1
  rw [hmark] at hmarked
  cases hmarked

end World

end Rsgc.Collection
