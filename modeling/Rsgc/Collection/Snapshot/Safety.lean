import Rsgc.Collection.Snapshot

namespace Rsgc.Collection

open Marking Storage

namespace World

variable {s s' : World}

-- The final mark is at its end.
def FinalMarked (s : World) : Prop := s.phase = .draining .concurrent ∧ s.work = []

theorem Snapshot.closed_of_finalMarked (h : s.Snapshot) (hmarked : s.FinalMarked) {o x : Nat}
    (ho : s.marks o = true) (hpath : Relation.ReflTransGen s.graph.Edge o x) :
    s.marks x = true := by
  induction hpath with
  | refl => exact ho
  | tail _ hedge ih => exact h.edge_of_done hmarked.1 hmarked.2 ih hedge

theorem Snapshot.reaches_marked (h : s.Snapshot) (hmarked : s.FinalMarked) {o : Nat}
    (ho : s.Reaches o) : s.marks o = true := by
  obtain ⟨r, hr, hpath⟩ := ho
  exact h.closed_of_finalMarked hmarked (h.roots hmarked.1 r hr) hpath

-- Only the sweep of a region takes objects away.
theorem step_objects {c : Config} {e : Event} (hstep : s.step c e = some s') :
    (∀ o ∈ s.objects, o ∈ s'.objects) ∨ ∃ r, e = .sweep r := by
  cases e with
  | sweep r => exact Or.inr ⟨r, rfl⟩
  | store t obj slot value =>
      obtain ⟨-, m, -, -, -, -, -, rfl⟩ := stepStore_cases hstep
      exact Or.inl fun o ho => ho
  | allocate t new =>
      obtain ⟨-, m, regions, -, -, -, -, -, -, rfl⟩ := stepAllocate_cases hstep
      exact Or.inl fun o ho => List.mem_cons_of_mem _ ho
  | finishMark =>
      obtain ⟨-, ⟨-, rfl⟩ | ⟨cycle, -, -, rfl⟩⟩ := stepFinishMark_cases hstep <;>
        exact Or.inl fun o ho => ho
  | _ => exact Or.inl fun o ho => (step_frame hstep rfl).objects ▸ ho

-- At the end of the final mark every reachable object is marked, and no step
-- frees a reachable object.
structure MarkedSafe (c : Config) (s : World) : Prop where
  marked : s.FinalMarked → ∀ o, s.Reaches o → s.marks o = true
  kept : ∀ e s', (concurrentCycles c false).step s e = some s' →
    ∀ o, s.Reaches o → o ∈ s.objects → o ∈ s'.objects

theorem concurrent_cycle_safe {bufferSize regions : Nat}
    (hs : (concurrentCycles ⟨.satb, bufferSize, regions⟩ false).Via Sound s) :
    s.MarkedSafe ⟨.satb, bufferSize, regions⟩ := by
  have h := snapshot_of_via hs
  refine ⟨fun hmarked o ho => h.reaches_marked hmarked ho, fun e s' hstep o ho hmem => ?_⟩
  obtain ⟨-, hstep⟩ := Option.ite_none_right_eq_some.mp hstep
  rcases step_objects hstep with hkept | ⟨r, rfl⟩
  · exact hkept o hmem
  · obtain ⟨cycle, todo, hphase, -, rfl⟩ := stepSweep_cases hstep
    obtain rfl := h.steady.cycle _ (Or.inr ⟨todo, hphase⟩)
    have hmark := (h.closed ⟨todo, hphase⟩).reaches ho
    refine List.mem_filter.mpr ⟨hmem, ?_⟩
    cases hfrees : s.frees r o with
    | false => rfl
    | true =>
        rw [frees_marks hfrees] at hmark
        cases hmark

-- A step that meets the condition because all references lead to marked objects.
def AllMarked (s : World) : Prop :=
  ∀ o ∈ s.objects, ∀ entry ∈ (s.graph o).refs, s.marks entry.2 = true

instance (s : World) : Decidable s.AllMarked := inferInstanceAs (Decidable (∀ o ∈ s.objects, _))

end World

instance (graph : Graph) : (op : Op) → Decidable (op.Short graph)
  | .push t => inferInstanceAs (Decidable (t.isNotChunked = true → _))
  | .scan .. | .visit _ | .spill _ => inferInstanceAs (Decidable True)

namespace World

variable {s s' : World}

def Checked (s : World) : Event → Prop
  | .mark i => ∀ op ∈ s.work[i]?, op.Short s.graph
  | .store .. | .drop .. => s.AllMarked
  | _ => True

instance (s : World) : (e : Event) → Decidable (s.Checked e)
  | .mark i => inferInstanceAs (Decidable (∀ op ∈ s.work[i]?, _))
  | .store .. | .drop .. => inferInstanceAs (Decidable s.AllMarked)
  | .load .. | .writeBarrier .. | .allocate .. | .upgrade .. | .attach | .detach _ | .step _
  | .initMark | .finalMark | .finishMark | .sweep _ | .skip _ | .finish | .cancel | .abort
  | .full | .degenerate => inferInstanceAs (Decidable True)

theorem Snapshot.edge_marked (h : s.Snapshot) (hall : s.AllMarked) {a b : Nat}
    (hab : s.graph.Edge a b) : s.marks b = true := by
  obtain ⟨slot, href⟩ := hab
  obtain ⟨entry, hentry, rfl⟩ := Object.ref_mem href
  by_cases ha : a ∈ s.objects
  · exact hall a ha entry hentry
  · rw [h.free a ha] at hentry
    cases hentry

theorem sound_of_checked {bufferSize regions : Nat} {upgrades : Bool}
    (hs : (concurrentCycles ⟨.satb, bufferSize, regions⟩ upgrades).Via Checked s) :
    (concurrentCycles ⟨.satb, bufferSize, regions⟩ upgrades).Via Sound s := by
  refine hs.of_via fun s e hvia hchecked => ?_
  have h := snapshot_of_via hvia
  cases e with
  | mark i => exact hchecked
  | store t obj slot value =>
      rintro - htraced a b - ⟨slot', href⟩
      rw [writeSlot_ref] at href
      split at href
      · cases href
      · exact Or.inl (h.edge_marked hchecked ⟨slot', href⟩)
  | drop t obj => exact fun _ m _ a b _ hab => Or.inl (h.edge_marked hchecked hab)
  | _ => trivial

theorem concurrent_cycle_safe_pair :
    ∃ s, (concurrentCycles satbConfig false).Via Sound s ∧ s.FinalMarked ∧ s.marks 0 = true := by
  have hrun : ((concurrentCycles satbConfig false).runVia Checked pairWorld [.initMark, .mark 0,
      .mark 0, .mark 0, .mark 0, .mark 0, .mark 0, .mark 0, .load 0 0 ⟨.field, 0⟩,
      .writeBarrier 0 0, .store 0 0 ⟨.field, 0⟩ none, .drop 0 1, .finalMark]).map
        (fun s => (s.phase, s.work, s.roots)) = some (.draining .concurrent, [], [0]) := by
    decide +kernel
  obtain ⟨s, hs, heq⟩ := Option.map_eq_some_iff.mp hrun
  simp only [Prod.mk.injEq] at heq
  obtain ⟨hphase, hwork, hroots⟩ := heq
  have hvia := sound_of_checked (Machine.via_of_runVia (Machine.Via.init pairWorld_fresh) hs)
  refine ⟨s, hvia, ⟨hphase, hwork⟩, (concurrent_cycle_safe hvia).marked ⟨hphase, hwork⟩ 0 ?_⟩
  exact ⟨0, by rw [hroots]; exact List.mem_singleton_self 0, Relation.ReflTransGen.refl⟩

-- Object 1 is only referred to by object 0; object 2 has been scanned.
def hidingWorld : World := soleThread [(0, [some 1]), (1, []), (2, [none])] [0, 2] fun _ => none

theorem hidingWorld_fresh : hidingWorld.Fresh := soleThread_fresh (by decide) (by decide)

-- The reference to object 1 is moved from 0 to 2 before 0 is scanned.
theorem moved_object_not_marked :
    ¬∀ s, (concurrentCycles satbConfig false).Reachable s → s.MarkedSafe satbConfig := by
  intro hall
  have hrun : ((concurrentCycles satbConfig false).run hidingWorld [.initMark, .mark 0, .mark 0,
      .mark 0, .load 0 0 ⟨.field, 0⟩, .writeBarrier 0 2, .store 0 2 ⟨.field, 0⟩ (some 1),
      .writeBarrier 0 0, .store 0 0 ⟨.field, 0⟩ none, .drop 0 1, .finalMark, .mark 0, .mark 0,
      .mark 0]).map (fun s => (s.phase, s.work, s.roots, (s.graph 2).ref ⟨.field, 0⟩, s.marks 1)) =
        some (.draining .concurrent, [], [0, 2], some 1, false) := by
    decide +kernel
  obtain ⟨s, hs, heq⟩ := Option.map_eq_some_iff.mp hrun
  simp only [Prod.mk.injEq] at heq
  obtain ⟨hphase, hwork, hroots, href, hmark⟩ := heq
  have hreach := Machine.run_reachable (Machine.Via.init hidingWorld_fresh) hs
  have hmarked := (hall s hreach).marked ⟨hphase, hwork⟩ 1
    ⟨2, by rw [hroots]; decide, Relation.ReflTransGen.single ⟨⟨.field, 0⟩, href⟩⟩
  rw [hmark] at hmarked
  cases hmarked

-- What `upgrade` has returned, and all that it leads to, is marked at the end of
-- the final mark where a root or an object born meanwhile leads to it.
def UpgradeSafe (s : World) : Prop :=
  s.FinalMarked → ∀ u ∈ s.upgraded, ∀ o, Relation.ReflTransGen s.graph.Edge u o →
    (s.Reaches o ∨ ∃ b ∈ s.born, Relation.ReflTransGen s.graph.Edge b o) → s.marks o = true

theorem upgrade_safe {bufferSize regions : Nat}
    (hs : (concurrentCycles ⟨.satb, bufferSize, regions⟩ true).Via Sound s) : s.UpgradeSafe := by
  have h := snapshot_of_via hs
  rintro hmarked u - o - (ho | ⟨b, hb, hpath⟩)
  · exact h.reaches_marked hmarked ho
  · exact h.closed_of_finalMarked hmarked (h.born (Or.inr hmarked.1) b hb) hpath

-- The weak reference 0 has object 1 as its target.
def weakWorld : World :=
  soleThread [(0, []), (1, []), (2, [none])] [0, 2] fun w => if w = 0 then some 1 else none

theorem weakWorld_fresh : weakWorld.Fresh := soleThread_fresh (by decide) (by decide)

theorem upgrade_safe_root :
    ∃ s, (concurrentCycles satbConfig true).Via Sound s ∧ s.FinalMarked ∧ s.upgraded = [1] ∧
      s.marks 1 = true := by
  have hrun : ((concurrentCycles satbConfig true).runVia Checked weakWorld [.initMark,
      .upgrade 0 0, .mark 0, .mark 0, .mark 0, .mark 0, .mark 0, .finalMark, .mark 0,
      .mark 0]).map (fun s => (s.phase, s.work, s.roots, s.upgraded)) =
        some (.draining .concurrent, [], [1, 0, 2], [1]) := by
    decide +kernel
  obtain ⟨s, hs, heq⟩ := Option.map_eq_some_iff.mp hrun
  simp only [Prod.mk.injEq] at heq
  obtain ⟨hphase, hwork, hroots, hupgraded⟩ := heq
  have hvia := sound_of_checked (Machine.via_of_runVia (Machine.Via.init weakWorld_fresh) hs)
  refine ⟨s, hvia, ⟨hphase, hwork⟩, hupgraded, upgrade_safe hvia ⟨hphase, hwork⟩ 1 ?_ 1
    Relation.ReflTransGen.refl (Or.inl ⟨1, ?_, Relation.ReflTransGen.refl⟩)⟩
  · rw [hupgraded]
    exact List.mem_singleton_self 1
  · rw [hroots]
    exact List.mem_cons_self

-- The target is stored into a scanned object and its root is dropped.
theorem upgraded_object_not_marked :
    ¬∀ s, (concurrentCycles satbConfig true).Reachable s → s.UpgradeSafe := by
  intro hall
  have hrun : ((concurrentCycles satbConfig true).run weakWorld [.initMark, .mark 0, .mark 0,
      .mark 0, .upgrade 0 0, .writeBarrier 0 2, .store 0 2 ⟨.field, 0⟩ (some 1), .drop 0 1,
      .finalMark, .mark 0, .mark 0]).map (fun s => ((s.phase, s.work, s.roots),
        (s.upgraded, (s.graph 2).ref ⟨.field, 0⟩, s.marks 1))) =
          some ((.draining .concurrent, [], [0, 2]), ([1], some 1, false)) := by
    decide +kernel
  obtain ⟨s, hs, heq⟩ := Option.map_eq_some_iff.mp hrun
  simp only [Prod.mk.injEq] at heq
  obtain ⟨⟨hphase, hwork, hroots⟩, hupgraded, href, hmark⟩ := heq
  have hreach := Machine.run_reachable (Machine.Via.init weakWorld_fresh) hs
  have hmarked := hall s hreach ⟨hphase, hwork⟩ 1 (by rw [hupgraded]; decide) 1
    Relation.ReflTransGen.refl
    (Or.inl ⟨2, by rw [hroots]; decide, Relation.ReflTransGen.single ⟨⟨.field, 0⟩, href⟩⟩)
  rw [hmark] at hmarked
  cases hmarked

end World

end Rsgc.Collection
