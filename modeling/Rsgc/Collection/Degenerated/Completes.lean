import Rsgc.Collection.Conservative.RootsSafe
import Rsgc.Collection.Degenerated.Ends

namespace Rsgc.Collection

open Marking Storage Dated

namespace World

variable {c : Config} {s u d begun : World} {cycle : Cycle} {final : Nat → Prop}

-- The cycle that a pause in the state `s` was to complete is complete in `u`.
structure Completed (s u : World) : Prop where
  swept : ∀ r, (s.regions r).holdsObjects = true → (u.regions r).toSweep = false ∧
    ((u.regions r).holdsObjects = true ↔ u.Occupied r)
  freed : ∀ o ∈ s.objects, u.marks o = false → o ∉ u.objects
  kept : ∀ o, s.Reaches o → o ∈ u.objects ∧ u.graph o = s.graph o
  finalizers : u.finalizers = s.finalizers.filter u.marks
  finalized : u.finalized = (s.finalizers.filter fun o => !u.marks o) ++ s.finalized

-- A pause meets what it is for: it ends, and then the cycle is complete.
def Completes (c : Config) (s begun : World) : Prop :=
  (pause c begun).Ends (fun u => u.phase = .idle) begun ∧
    ∀ u, (pause c begun).Reachable u → u.phase = .idle → s.Completed u

-- The pause sweeps all that it leaves unmarked, marks all that is reachable, and leaves
-- no object unmarked whose finalizer is to be run.
structure Ready (c : Config) (s : World) : Prop where
  flagged : ∀ o ∈ s.objects, s.Survives c o ∨ (s.regions (s.home o)).toSweep = true
  reached : ∀ o, s.Reaches o → o ∈ s.objects ∧ s.Survives c o
  finalizers : ∀ o ∈ s.finalizers, s.Survives c o

theorem epilogue_marks (cycle : Cycle) (d : World) : (d.epilogue cycle).marks = d.marks := by
  unfold epilogue
  split <;> rfl

theorem epilogue_objects (cycle : Cycle) (d : World) : (d.epilogue cycle).objects = d.objects := by
  unfold epilogue
  split <;> rfl

theorem epilogue_home (cycle : Cycle) (d : World) : (d.epilogue cycle).home = d.home := by
  unfold epilogue
  split <;> rfl

theorem epilogue_graph (cycle : Cycle) (d : World) : (d.epilogue cycle).graph = d.graph := by
  unfold epilogue
  split <;> rfl

theorem epilogue_holds (cycle : Cycle) (d : World) (r : Nat) :
    ((d.epilogue cycle).regions r).holdsObjects = (d.regions r).holdsObjects := by
  unfold epilogue
  split
  · rfl
  · rw [Region.holdsObjects, prepared_typ]
    rfl

-- What a pause has come to when it ends.
theorem Pausing.finished (h : s.Pausing cycle final u) (hidle : u.phase = .idle) :
    ∃ d, s.Drained final d ∧ (d.epilogue cycle).Sweeps u [] := by
  rcases h with h | ⟨d, todo, hdrained, hsweeps, hsweeping | ⟨-, rfl⟩⟩
  · have hphase := h.phase
    rw [hidle] at hphase
    cases hphase
  · rw [hidle] at hsweeping
    cases hsweeping
  · exact ⟨d, hdrained, hsweeps⟩

-- The sweep is over, so what has been freed is what was to be swept and is not marked.
theorem Sweeps.done_objects (h : (d.epilogue cycle).Sweeps u []) (hd : s.Drained final d)
    (o : Nat) : o ∈ u.objects ↔ o ∈ s.objects ∧
      (((d.epilogue cycle).regions (s.home o)).toSweep = true → final o) := by
  rw [h.objects, epilogue_objects, hd.same.objects]
  refine and_congr_right fun _ => ?_
  unfold Condemned
  rw [epilogue_home, hd.same.home, epilogue_marks]
  constructor
  · intro hkept hflag
    by_contra hdead
    refine absurd (hkept ⟨hflag, Bool.eq_false_iff.mpr fun hmark => ?_⟩) List.not_mem_nil
    exact hdead ((hd.marks o).mp hmark)
  · rintro hkept ⟨hflag, hmark⟩
    rw [(hd.marks o).mpr (hkept hflag)] at hmark
    cases hmark

theorem Sweeps.marks_iff (h : (d.epilogue cycle).Sweeps u []) (hd : s.Drained final d) (o : Nat) :
    u.marks o = true ↔ final o := by
  rw [h.marks, epilogue_marks]
  exact hd.marks o

theorem completed_iff (hfilled : s.Filled) (hd : s.Drained final d)
    (h : (d.epilogue cycle).Sweeps u []) : s.Completed u ↔
      (∀ o ∈ s.objects, final o ∨ ((d.epilogue cycle).regions (s.home o)).toSweep = true) ∧
      (∀ o, s.Reaches o → o ∈ s.objects ∧ final o) ∧
      (d.epilogue cycle).finalizers = s.finalizers.filter u.marks ∧
      (d.epilogue cycle).finalized =
        (s.finalizers.filter fun o => !u.marks o) ++ s.finalized := by
  have hobjects := h.done_objects hd
  have hmarks := h.marks_iff hd
  constructor
  · intro hcompleted
    have hflagged (o : Nat) (ho : o ∈ s.objects) :
        final o ∨ ((d.epilogue cycle).regions (s.home o)).toSweep = true := by
      by_cases hmark : u.marks o = true
      · exact Or.inl ((hmarks o).mp hmark)
      · have hfreed := hcompleted.freed o ho (Bool.eq_false_iff.mpr hmark)
        rw [hobjects, not_and, Classical.not_imp] at hfreed
        exact Or.inr (hfreed ho).1
    refine ⟨hflagged, fun o ho => ?_, h.finalizers ▸ hcompleted.finalizers,
      h.finalized ▸ hcompleted.finalized⟩
    obtain ⟨hmem, hkept⟩ := (hobjects o).mp (hcompleted.kept o ho).1
    exact ⟨hmem, (hflagged o hmem).elim id hkept⟩
  · rintro ⟨hflagged, hreached, hfinalizers, hfinalized⟩
    refine ⟨fun r hr => ⟨?_, ?_⟩, fun o ho hmark hmem => ?_, fun o ho => ?_,
      h.finalizers.trans hfinalizers, h.finalized.trans hfinalized⟩
    · exact Bool.eq_false_iff.mpr fun hflag => List.not_mem_nil ((h.toSweep r).mp hflag).2
    · rw [h.holds, h.occupied, epilogue_holds, hd.same.regions]
      refine ⟨fun hholds => ?_, fun hoccupied => ⟨hr, fun _ => Or.inr hoccupied⟩⟩
      by_cases hflag : ((d.epilogue cycle).regions r).toSweep = true
      · exact (hholds.2 hflag).resolve_left List.not_mem_nil
      · -- The region is not swept, and so all its objects are marked.
        obtain ⟨o, ho, rfl⟩ := hfilled.object r hr
        refine ⟨o, ?_, ?_, ?_⟩
        · rwa [epilogue_objects, hd.same.objects]
        · rw [epilogue_home, hd.same.home]
        · rw [epilogue_marks, hd.marks]
          exact (hflagged o ho).resolve_right hflag
    · have hdead : ¬final o := fun hfinal => by
        rw [(hmarks o).mpr hfinal] at hmark
        cases hmark
      exact hdead (((hobjects o).mp hmem).2 ((hflagged o ho).resolve_left hdead))
    · obtain ⟨hmem, hfinal⟩ := hreached o ho
      have hkept := (hobjects o).mpr ⟨hmem, fun _ => hfinal⟩
      refine ⟨hkept, (h.graph o hkept).trans ?_⟩
      rw [epilogue_graph, hd.same.graph]

-- A pause completes its cycle just where the states it ends in are complete.
theorem completes_iff (hbegun : begun.Coherent c) (hcycle : cycle ≠ .concurrent)
    (hphase : begun.phase = .draining cycle ∨ ∃ todo, begun.phase = .sweeping cycle todo)
    (h : s.Pausing cycle final begun) {P : Prop}
    (hcompleted : ∀ d u, s.Drained final d → (d.epilogue cycle).Sweeps u [] → (s.Completed u ↔ P)) :
    Completes c s begun ↔ P := by
  have hends : (pause c begun).Ends (fun u => u.phase = .idle) begun := by
    rcases hphase with hphase | ⟨todo, hphase⟩
    · exact draining_ends hcycle hbegun hphase
    · exact sweeping_ends hcycle hphase
  have hfinished {u : World} (hu : (pause c begun).Reachable u) (hidle : u.phase = .idle) :
      s.Completed u ↔ P := by
    obtain ⟨d, hdrained, hsweeps⟩ := (pausing_of_reachable h hbegun hu).1.finished hidle
    exact hcompleted d u hdrained hsweeps
  constructor
  · rintro ⟨-, hall⟩
    obtain ⟨u, hu, hidle⟩ := hends.reaches (Machine.Via.init rfl)
    exact (hfinished hu hidle).mp (hall u hu hidle)
  · exact fun hP => ⟨hends, fun u hu hidle => (hfinished hu hidle).mpr hP⟩

-- A full collection completes every cycle, but for what has been freed too early before.
theorem full_completes_iff (hs : (lifetime c).Via (fun _ e => e.Brief) s)
    (hstep : s.step c .full = some begun) :
    Completes c s begun ↔ ∀ o, s.Reaches o → o ∈ s.objects := by
  have hcoherent := coherent_of_lifetime hs
  have hbegun : begun.Coherent c := hcoherent.step (e := .full) trivial hstep
  obtain ⟨-, rfl⟩ := guard_eq_some.mp hstep
  have hpausing : s.Pausing .full s.restarted.Safe { s.prepareGc.collectRoots with
      cancelled := false, degenPoint := .outsideCycle, phase := .draining .full } :=
    Or.inl ⟨rfl, ⟨rfl, rfl, rfl, rfl⟩, rfl, rfl, s.restarted_safe⟩
  refine completes_iff hbegun (by simp) (Or.inl rfl) hpausing fun d u hd hu => ?_
  have hepilogue : d.epilogue .full = d.processWeak.finalize.prepareUnsweptRegions := rfl
  have hflag {o : Nat} (ho : o ∈ s.objects) :
      ((d.epilogue .full).regions (s.home o)).toSweep = true := by
    rw [hepilogue, prepared_toSweep]
    refine Or.inl ?_
    change (d.regions (s.home o)).holdsObjects = true
    rw [hd.same.regions]
    exact hcoherent.arranged.home o ho
  have hmarks : u.marks = d.marks := hu.marks
  rw [completed_iff hcoherent.filled hd hu]
  constructor
  · exact fun h o ho => (h.2.1 o ho).1
  · intro h
    refine ⟨fun o ho => Or.inr (hflag ho), fun o ho => ⟨h o ho, ho.restarted⟩, ?_, ?_⟩
    · rw [hmarks, ← hd.finalizers]
      rfl
    · rw [hmarks, ← hd.finalizers, ← hd.finalized]
      rfl

end World

end Rsgc.Collection
