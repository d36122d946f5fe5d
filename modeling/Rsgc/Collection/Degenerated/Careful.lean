import Rsgc.Collection.Degenerated.Completes
import Rsgc.Collection.Degenerated.Keeps

namespace Rsgc.Collection

open Marking Storage

namespace World

variable {c : Config} {s begun : World}

-- The condition under which the marking loses nothing: while a concurrent mark is
-- unfinished no store and no dropped root takes the last protection from an object.
def Sparing (s : World) (e : Event) : Prop := e.Brief ∧ (s.Unfinished → s.Spares e)

theorem delivers_fresh {graph : Graph} {a x : Nat} :
    (Op.push (.new a false false)).Delivers graph x ↔ graph.Edge a x := by
  constructor
  · rintro (hvisit | ⟨obj, slot, ⟨rfl, -⟩, href⟩)
    · cases hvisit
    · exact ⟨slot, href⟩
  · rintro ⟨slot, href⟩
    exact Or.inr ⟨a, slot, ⟨rfl, Or.inl rfl⟩, href⟩

-- All that the concurrent mark was to mark is left to the pause.
theorem resumed_of_color (hparked : s.Parked) {o : Nat} (ho : s.color.Safe o) :
    (s.resumed c).Safe o := by
  have hroot {r : Nat} (hr : r ∈ s.roots) : (s.resumed c).Safe r :=
    Coloring.Safe.of_source ⟨.visit r, Or.inl (Or.inr ⟨r, hr, rfl⟩), Or.inl rfl⟩
  suffices hadvances : s.color.Advances (s.resumed c) from ho.advance hadvances
  refine ⟨fun a ha => ha, ?_, fun a b hab ha => Or.inr ⟨ha, hab.1⟩⟩
  rintro x ⟨op, hop | ⟨r, hr, rfl⟩ | ⟨m, hm, e, he, hmark, rfl⟩, hx⟩ hwhite
  · exact Coloring.Safe.of_source ⟨op, Or.inl (Or.inl hop), hx⟩
  · rcases hx with hx | ⟨_, _, hcovers, -⟩
    · obtain rfl := Op.visit.inj hx
      exact hroot hr
    · cases hcovers
  · have hedge := delivers_fresh.mp hx
    by_cases hr : e ∈ s.roots
    · -- The entry is a root, so the pause visits it and does not push it.
      have hprotected := (hroot hr).resolve_left (by simp [resumed, coloring, hmark])
      exact Or.inr (hprotected.tail ⟨hedge, hwhite⟩)
    · have hentry : e ∈ s.entries :=
        List.mem_flatMap.mpr ⟨m, hm, Mutator.unflushed_of_parked (hparked m hm) he⟩
      exact Coloring.Safe.of_source ⟨_, Or.inr ⟨e, ⟨hentry, Or.inr ⟨hmark, hr⟩⟩, rfl⟩, hx⟩

theorem keeps_of_created (h : s.Created) : s.Keeps fun _ => False where
  objects _ ho := ho.elim
  roots r hr := by
    have hobject := h.fresh.objects r ⟨r, hr, Relation.ReflTransGen.refl⟩
    rw [h.objects] at hobject
    cases hobject
  edges _ _ ho := ho.elim
  weak _ _ ho := ho.elim
  spared _ _ ho := ho.elim

theorem flagged_of_created (h : s.Created) : s.Flagged :=
  .of_phase (by simp [h.fresh.phase]) (by simp [h.fresh.phase]) h.fresh.degenPoint

-- What such a run keeps: the marking has its tasks, and what the threads can come to is
-- allocated and spared by every sweep.
theorem careful_invariant (hs : (lifetime c).Via Sparing s) :
    s.Tracing ∧ s.Flagged ∧ ∃ keep, s.Keeps keep := by
  refine Machine.Via.invariant_of (Q := Coherent c)
    (P := fun s => s.Tracing ∧ s.Flagged ∧ ∃ keep, s.Keeps keep) (fun s hs => ?_) (fun s hs => ?_)
    (fun s e s' hcoherent h hsparing hstep => ?_) hs
  · exact coherent_of_lifetime (hs.mono fun _ _ h => h.1)
  · have hsettled : Dated.Settled c ⟨s, []⟩ := Dated.settled_of_created hs rfl
    exact ⟨hsettled.tracing, flagged_of_created hs, _, keeps_of_created hs⟩
  · obtain ⟨htracing, hflagged, keep, hkeeps⟩ := h
    have hcareful : s.Careful e := ⟨hsparing.2, fun i _ op _ => hcoherent.short op⟩
    exact ⟨htracing.step hcareful hstep, hflagged.step htracing hstep,
      hkeeps.step hflagged htracing hstep⟩

-- In such a run the pause marks all that is reachable, if it sweeps all else.
theorem reached_of_careful (hs : (lifetime c).Via Sparing s) (hpoint : s.degenPoint ≠ .unset)
    (hstep : s.step c .degenerate = some begun)
    (hflagged : ∀ o ∈ s.objects, s.Survives c o ∨ (s.regions (s.home o)).toSweep = true) {o : Nat}
    (ho : s.Reaches o) : o ∈ s.objects ∧ s.Survives c o := by
  obtain ⟨htracing, hflags, keep, hkeeps⟩ := careful_invariant hs
  have hmem : o ∈ s.objects := hkeeps.objects o (hkeeps.reaches ho)
  refine ⟨hmem, ?_⟩
  obtain ⟨⟨hidle, hparked⟩, -⟩ := stepDegenerate_cases hstep
  unfold Survives leftToMark
  cases hdegen : s.degenPoint with
  | unset => exact absurd hdegen hpoint
  | outsideCycle => exact ho.restarted
  | concurrentMark =>
      have hflag := hflags.resumed hdegen
      rw [hflag]
      have hguarded := htracing.guarded (Or.inr ⟨hidle, hdegen, hflag⟩)
      obtain ⟨r, hr, hpath⟩ := ho
      exact resumed_of_color hparked (hguarded.reaches (safe_of_root hr) hpath)
  | concurrentSweep =>
      have hspared := hkeeps.spared (Or.inr ⟨hidle, hdegen⟩) o (hkeeps.reaches ho)
      have hsurvives := hflagged o hmem
      unfold Survives leftToMark at hsurvives
      rw [hdegen] at hsurvives
      refine hsurvives.elim id fun hflag => (settled_safe o).mpr ?_
      by_contra hmark
      exact hspared ⟨hflag, Bool.eq_false_iff.mpr hmark⟩

-- There only the two steps are missing that the other collections take between the
-- marking and the sweep.
theorem ready_iff_of_careful (hs : (lifetime c).Via Sparing s) (hpoint : s.degenPoint ≠ .unset)
    (hstep : s.step c .degenerate = some begun) : s.Ready c ↔
      (∀ o ∈ s.objects, s.Survives c o ∨ (s.regions (s.home o)).toSweep = true) ∧
        ∀ o ∈ s.finalizers, s.Survives c o :=
  ⟨fun h => ⟨h.flagged, h.finalizers⟩, fun h =>
    ⟨h.1, fun _ ho => reached_of_careful hs hpoint hstep h.1 ho, h.2⟩⟩

end World

end Rsgc.Collection
