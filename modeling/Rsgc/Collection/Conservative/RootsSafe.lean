import Rsgc.Collection.Conservative.Kept

namespace Rsgc.Collection

open Marking Storage

namespace World

variable {c : Config} {s s' : World} {words : List Nat}

-- The stacks are visited between two collections or at the final mark.
theorem phase_of_visits {e : Event} (hstep : (s.withWords words).step c e = some s')
    (he : s.visitsStacks e = true) : s.phase = .idle ∨ s.phase = .marking := by
  cases e with
  | initMark | full => exact Or.inl (guard_eq_some.mp hstep).1.1
  | finalMark => exact Or.inr (guard_eq_some.mp hstep).1.1
  | degenerate => exact Or.inl (stepDegenerate_cases hstep).1.1
  | _ => cases he

theorem Orderly.withWords (words : List Nat) {e : Event} (h : s.Orderly c e)
    (he : s.visitsStacks e = true) :
    (s.withWords words).Orderly c e where
  swept := h.swept
  spares _ := by
    cases e with
    | initMark | finalMark | full | degenerate => trivial
    | _ => cases he
  short i hi := by
    subst hi
    cases he

theorem Tracing.withWords (words : List Nat) (h : s.Tracing)
    (hphase : s.phase = .idle ∨ s.phase = .marking) :
    (s.withWords words).Tracing where
  tidy := by
    refine ⟨h.tidy.marking, fun hsilent m hm => ?_, h.tidy.work⟩
    rcases List.mem_cons.mp hm with rfl | hm
    · exact ⟨rfl, rfl, rfl⟩
    · exact h.tidy.threads hsilent m hm
  free := h.free
  ok := h.ok
  holds m hm := by
    rcases List.mem_cons.mp hm with rfl | hm
    · intro o ho
      cases ho
    · exact h.holds m hm
  degenPoint := h.degenPoint
  guarded hs := by
    refine (h.guarded hs).sustain (sustains_of_pending rfl rfl fun op hop => ?_)
    rcases hop with hop | ⟨r, hr, rfl⟩ | ⟨m, hm, hentry⟩
    · exact Or.inl hop
    · exact Or.inr (Or.inl ⟨r, List.mem_append_right _ hr, rfl⟩)
    · exact Or.inr (Or.inr ⟨m, List.mem_cons_of_mem _ hm, hentry⟩)
  drained cycle hcycle := by
    rcases hphase with hphase | hphase <;> exact absurd (hphase.symm.trans hcycle) (by simp)

-- A thread leaves whose roots are marked and that has nothing buffered.
theorem Tracing.withoutWords (h : s.Tracing)
    (hwords : s.Unfinished → ∀ m ∈ s.threads.head?,
      m.unflushed = [] ∧ ∀ r ∈ m.roots, s.marks r = true) : s.withoutWords.Tracing where
  tidy := ⟨h.tidy.marking, fun hsilent m hm => h.tidy.threads hsilent m (List.mem_of_mem_tail hm),
    h.tidy.work⟩
  free := h.free
  ok := h.ok
  holds m hm := h.holds m (List.mem_of_mem_tail hm)
  degenPoint := h.degenPoint
  guarded hs := by
    have hhead {m : Mutator} (hm : m ∈ s.threads) :
        m ∈ s.threads.tail ∨ m.unflushed = [] ∧ ∀ r ∈ m.roots, s.marks r = true := by
      have hwords := hwords hs
      cases hthreads : s.threads with
      | nil =>
          rw [hthreads] at hm
          cases hm
      | cons first rest =>
          rw [hthreads] at hm hwords
          exact (List.mem_cons.mp hm).symm.imp id fun heq => hwords m (by rw [heq]; rfl)
    refine (h.guarded hs).sustain (Coloring.Sustains.of_source ?_)
    rintro x ⟨op, hop | ⟨r, hr, rfl⟩ | ⟨m, hm, o, ho, hentry⟩, hx⟩ hwhite
    · exact ⟨op, Or.inl hop, hx⟩
    · obtain ⟨m, hm, hrm⟩ := List.mem_flatMap.mp hr
      rcases hhead hm with hm | ⟨-, hmarked⟩
      · exact ⟨_, Or.inr (Or.inl ⟨r, mem_roots hm hrm, rfl⟩), hx⟩
      · rcases hx with hx | ⟨_, _, hcovers, -⟩
        · obtain rfl := Op.visit.inj hx
          exact absurd (hmarked _ hrm) hwhite
        · cases hcovers
    · rcases hhead hm with hm | ⟨hnone, -⟩
      · exact ⟨op, Or.inr (Or.inr ⟨m, hm, o, ho, hentry⟩), hx⟩
      · rw [hnone] at ho
        cases ho
  drained cycle hcycle := by
    obtain ⟨hguarded, hroots⟩ := h.drained cycle hcycle
    refine ⟨hguarded, fun r hr => hroots r ?_⟩
    obtain ⟨m, hm, hrm⟩ := List.mem_flatMap.mp hr
    exact mem_roots (List.mem_of_mem_tail hm) hrm

-- Where an unfinished mark goes on after the stacks were visited, what the words
-- lead to is marked.
theorem words_marked {e : Event} (hstep : (s.withWords words).step c e = some s')
    (he : s.visitsStacks e = true) (hs : s'.Unfinished) :
    ∀ m ∈ s'.threads.head?, m.unflushed = [] ∧ ∀ r ∈ m.roots, s'.marks r = true := by
  have hpause {cycle : Cycle} (hphase : s'.phase = .draining cycle) : False := by
    rcases hs with hs | ⟨hs, -⟩ <;> rw [hphase] at hs <;> cases hs
  cases e with
  | initMark =>
      obtain ⟨-, rfl⟩ := guard_eq_some.mp hstep
      intro m hm
      obtain rfl := Option.some.inj hm
      refine ⟨rfl, fun r hr => ?_⟩
      refine (((s.withWords words).prepareGc.toggleWriteBarrier true).collectRoots_marks r).mpr
        (Or.inr (mem_roots List.mem_cons_self hr))
  | finalMark | full =>
      obtain ⟨-, rfl⟩ := guard_eq_some.mp hstep
      exact (hpause rfl).elim
  | degenerate =>
      obtain ⟨-, hcases⟩ := stepDegenerate_cases hstep
      simp only [visitsStacks, Bool.or_eq_true, Bool.and_eq_true, beq_iff_eq] at he
      rcases hcases with ⟨hpoint, -⟩ | ⟨-, rfl⟩ | ⟨-, rfl⟩ | ⟨hpoint, -⟩
      · change s.degenPoint = _ at hpoint
        simp [hpoint] at he
      · exact (hpause rfl).elim
      · exact (hpause rfl).elim
      · change s.degenPoint = _ ∧ s.concurrentMark = _ ∨ s.degenPoint = _ at hpoint
        rcases hpoint with ⟨hpoint, hflag⟩ | hpoint
        · simp [hpoint, hflag] at he
        · simp [hpoint] at he
  | _ => cases he

theorem Sheltered.withWords (h : s.Sheltered) (hclean : s.Clean) (hwords : ∀ o ∈ words, o ∈ s.objects) :
    (s.withWords words).Sheltered where
  edges := h.edges
  weak := h.weak
  roots r hr := by
    rcases List.mem_append.mp hr with hr | hr
    · exact hclean.kept_iff.mpr (hwords r hr)
    · exact h.roots r hr
  left := h.left
  off := h.off

theorem Sheltered.withoutWords (h : s.Sheltered) : s.withoutWords.Sheltered where
  edges := h.edges
  weak := h.weak
  roots r hr := by
    obtain ⟨m, hm, hrm⟩ := List.mem_flatMap.mp hr
    exact h.roots r (mem_roots (List.mem_of_mem_tail hm) hrm)
  left := h.left
  off := h.off

theorem mem_dangling {o : Nat} {slot : Slot} (h : (o, slot) ∈ s.dangling) :
    o ∈ s.objects ∧ ∃ x, s.graph.Edge o x ∧ x ∉ s.objects := by
  obtain ⟨o', ho', hentry⟩ := List.mem_flatMap.mp h
  obtain ⟨slot', hslot, heq⟩ := List.mem_map.mp hentry
  obtain ⟨rfl, rfl⟩ := Prod.mk.inj heq
  obtain ⟨x, href, hx⟩ := (Option.any_eq_true _ _).mp (List.mem_filter.mp hslot).2
  exact ⟨ho', x, ⟨slot', href⟩, of_decide_eq_true hx⟩

theorem Sheltered.reaches (h : s.Sheltered) {o x : Nat} (ho : s.Kept o)
    (hpath : Relation.ReflTransGen s.graph.Edge o x) : s.Kept x := by
  induction hpath with
  | refl => exact ho
  | tail _ hedge ih => exact h.edges _ _ ih hedge

end World

namespace Dated

variable {c : Config} {s s' : Dated}

-- What is outdated is in objects that the sweep will free.
structure Settled (c : Config) (s : Dated) : Prop where
  arranged : s.world.Arranged c
  tracing : s.world.Tracing
  sheltered : s.world.Sheltered
  outdated : ∀ o slot, (o, slot) ∈ s.outdated → o ∈ s.world.objects ∧ ¬s.world.Kept o

theorem Settled.record (h : s.Settled c) {e : Event} {world : World} (harranged : world.Arranged c)
    (htracing : world.Tracing) (hshelters : s.world.Shelters world) :
    (s.record e world).Settled c where
  arranged := harranged
  tracing := htracing
  sheltered := hshelters.sheltered
  outdated o slot hentry := by
    rcases List.mem_append.mp hentry with hold | hnew
    · obtain ⟨hmem, hkeep⟩ := List.mem_filter.mp hold
      obtain ⟨hbefore, hcondemned⟩ := h.outdated o slot hmem
      simp only [Bool.decide_and, Bool.and_eq_true, decide_eq_true_eq] at hkeep
      exact ⟨hkeep.1, fun hkept => hcondemned (hshelters.back o hbefore hkept)⟩
    · obtain ⟨hmem, x, hedge, hx⟩ := World.mem_dangling hnew
      exact ⟨hmem, fun hkept => hx (hshelters.sheltered.edges o x hkept hedge).1⟩

theorem Settled.step (h : s.Settled c) {e : Event × List Nat}
    (horderly : s.world.Orderly c e.1) (hstep : (conservative c).step s e = some s') :
    s'.Settled c := by
  change (if _ then _ else _) = some s' at hstep
  split at hstep
  · rename_i hvisits
    obtain ⟨hwords, hstep⟩ := Option.ite_none_right_eq_some.mp hstep
    obtain ⟨world, hworld, rfl⟩ := Option.map_eq_some_iff.mp hstep
    have harranged : (s.world.withWords e.2).Arranged c :=
      ⟨h.arranged.home, h.arranged.inside, h.arranged.cont, h.arranged.unswept⟩
    have horderly' := horderly.withWords e.2 hvisits
    have htracing := h.tracing.withWords e.2 (World.phase_of_visits hworld hvisits)
    have hsheltered := h.sheltered.withWords (horderly.clean h.arranged hvisits) hwords
    have hshelters := hsheltered.step harranged htracing horderly' hworld
    have harranged' := harranged.step hworld
    refine h.record ⟨harranged'.home, harranged'.inside, harranged'.cont, harranged'.unswept⟩ ?_
      ⟨hshelters.sheltered.withoutWords, hshelters.back⟩
    exact (htracing.step horderly'.careful hworld).withoutWords (World.words_marked hworld hvisits)
  · obtain ⟨world, hworld, rfl⟩ := Option.map_eq_some_iff.mp hstep
    exact h.record (h.arranged.step hworld) (h.tracing.step horderly.careful hworld)
      (h.sheltered.step h.arranged h.tracing horderly hworld)

theorem settled_of_created (hworld : s.world.Created) (houtdated : s.outdated = []) :
    s.Settled c := by
  have hnone {o : Nat} : o ∉ s.world.objects := by simp [hworld.objects]
  have hholds (r : Nat) : (s.world.regions r).holdsObjects = false := by
    rcases hworld.regions r with htyp | htyp <;> simp [Region.holdsObjects, htyp]
  have hclean : s.world.Clean := hworld.toSweep
  have hphase := hworld.fresh.phase
  refine ⟨⟨fun o ho => absurd ho hnone, fun r hr => ?_, fun r hr => ?_, fun r hr => ?_⟩,
    ⟨?_, hworld.fresh.free, ?_, fun m hm => ?_, fun hp => absurd hphase hp, fun hs => ?_,
      fun cycle hcycle => ?_⟩,
    ⟨fun o x ho => absurd ho.1 hnone, fun o x ho => absurd ho.1 hnone, fun r hr => ?_, hclean.left,
      fun hdraining => ?_⟩, ?_⟩
  · rw [hholds] at hr
    cases hr
  · rcases hworld.regions r with htyp | htyp <;> rw [htyp] at hr <;> cases hr
  · rw [hworld.toSweep] at hr
    cases hr
  · exact (World.steady_of_fresh hworld.fresh).tidy
  · simp [hworld.fresh.work]
  · intro o ho
    rw [(hworld.fresh.threads m hm).2.2] at ho
    cases ho
  · rcases hs with hs | ⟨-, hs, -⟩
    · rw [hphase] at hs
      cases hs
    · rw [hworld.fresh.degenPoint] at hs
      cases hs
  · rw [hphase] at hcycle
    cases hcycle
  · exact absurd (hworld.fresh.objects r ⟨r, hr, Relation.ReflTransGen.refl⟩) hnone
  · rw [hphase] at hdraining
    cases hdraining
  · simp [houtdated]

-- In a run that meets the condition, wherever a collection begins that visits the
-- stacks, and at the final mark, every word leads to allocated objects only.
theorem conservative_roots_safe {e : Event × List Nat}
    (hs : (conservative c).Via (fun s e => s.world.Orderly c e.1) s)
    (horderly : s.world.Orderly c e.1) (hvisits : s.world.visitsStacks e.1 = true) :
    s.RootsSafe := by
  have h : s.Settled c := by
    refine Machine.Via.invariant (P := Settled c) (fun s hs => ?_)
      (fun s e s' h horderly hstep => h.step horderly hstep) hs
    exact settled_of_created hs.1 hs.2
  have hclean := horderly.clean h.arranged hvisits
  refine ⟨fun o ho x hpath => ?_, fun o ho slot hentry => ?_⟩
  · exact (h.sheltered.reaches (hclean.kept_iff.mpr ho) hpath).1
  · exact (h.outdated o slot hentry).2 (hclean.kept_iff.mpr ho)

def twoRegions : Config := ⟨.satb, 1, 2⟩

-- A new heap with one thread.
def newHeap : Dated where
  world := { soleThread [] [] fun _ => none with regions := fun _ => ⟨.emptyUncommited, false, 1⟩ }
  outdated := []

theorem newHeap_created : (conservative c).init newHeap := by
  have hfresh : (soleThread [] [] fun _ => none).Fresh := soleThread_fresh (by simp) (by simp)
  refine ⟨⟨⟨rfl, rfl, rfl, rfl, rfl, hfresh.threads, hfresh.objects, hfresh.free, rfl⟩, rfl,
    fun _ => Or.inl rfl, fun _ => rfl⟩, rfl⟩

def allocation (obj region : Nat) (fields : List (Option Nat)) : Event :=
  .allocate 0 ⟨obj, fieldsObject fields, region, none, none, false, false⟩

-- Object 1 in region 1 refers to object 0 in region 0, and both are garbage when
-- a concurrent mark begins. Its sweep is cancelled after region 0.
def halfSwept : List (Event × List Nat) :=
  [(allocation 0 0 [], []), (allocation 1 1 [some 0], []), (.drop 0 0, []), (.drop 0 1, []),
    (.initMark, []), (.finalMark, []), (.finishMark, []), (.sweep 0, []), (.cancel, []),
    (.skip 1, []), (.finish, [])]

-- The sweep is completed in a pause, and the same objects are allocated again.
def sweptAgain : List (Event × List Nat) :=
  halfSwept ++ [(.degenerate, []), (.sweep 0, []), (.sweep 1, []), (.finish, []),
    (allocation 0 0 [], []), (allocation 1 1 [some 0], []), (.drop 0 0, []), (.drop 0 1, [])]

def unlinks : Event → Bool
  | .store .. | .drop .. => true
  | _ => false

-- The condition where nothing is to be marked.
def Tame (s : Dated) (e : Event × List Nat) : Prop :=
  (s.world.visitsStacks e.1 = true → ∀ r < twoRegions.numRegions,
    (s.world.regions r).toSweep = false) ∧
    (s.world.Unfinished → unlinks e.1 = false) ∧ s.world.work = []

instance (s : Dated) (e : Event × List Nat) : Decidable (s.Tame e) :=
  inferInstanceAs (Decidable (_ ∧ _ ∧ _))

theorem Tame.orderly {e : Event × List Nat} (h : s.Tame e) : s.world.Orderly twoRegions e.1 where
  swept := h.1
  spares hunfinished := by
    have hkeeps := h.2.1 hunfinished
    cases he : e.1 with
    | store | drop =>
        rw [he] at hkeeps
        cases hkeeps
    | _ => trivial
  short i _ op hop := by
    rw [h.2.2] at hop
    cases hop

-- A word leads to the garbage 1, which refers to 0.
theorem conservative_roots_safe_garbage :
    ∃ s, (conservative twoRegions).Via (fun s e => s.world.Orderly twoRegions e.1) s ∧
      s.world.objects = [1, 0] ∧ s.RootsSafe := by
  have hrun : ((conservative twoRegions).runVia Tame newHeap sweptAgain).map (fun s =>
      (s.world.objects, decide (s.Tame (.full, [1])))) = some ([1, 0], true) := by
    decide +kernel
  obtain ⟨s, hs, heq⟩ := Option.map_eq_some_iff.mp hrun
  obtain ⟨hobjects, htame⟩ := Prod.mk.inj heq
  have hvia : (conservative twoRegions).Via (fun s e => s.world.Orderly twoRegions e.1) s :=
    (Machine.via_of_runVia (Machine.Via.init newHeap_created) hs).mono fun s e h => h.orderly
  have horderly := (of_decide_eq_true htame).orderly
  exact ⟨s, hvia, hobjects, conservative_roots_safe (e := (.full, [1])) hvia horderly rfl⟩

-- A full collection begins with object 1 still to be swept and object 0 freed.
theorem half_swept_root_dangles :
    ¬∀ s e s', (conservative twoRegions).Reachable s → (conservative twoRegions).step s e = some s' →
      s.world.visitsStacks e.1 = true → s.RootsSafe := by
  intro hall
  have hrun : ((conservative twoRegions).run newHeap halfSwept).map (fun s =>
      (s.world.objects, (s.world.graph 1).ref ⟨.field, 0⟩,
        ((conservative twoRegions).step s (.full, [1])).isSome)) = some ([1], some 0, true) := by
    decide +kernel
  obtain ⟨s, hs, heq⟩ := Option.map_eq_some_iff.mp hrun
  simp only [Prod.mk.injEq] at heq
  obtain ⟨hobjects, href, hstep⟩ := heq
  obtain ⟨s', hstep⟩ := Option.isSome_iff_exists.mp hstep
  have hreach := Machine.run_reachable (Machine.Via.init newHeap_created) hs
  have hsafe := hall s _ s' hreach hstep rfl
  have hfreed := hsafe.allocated 1 (by rw [hobjects]; exact List.mem_singleton_self 1) 0
    (Relation.ReflTransGen.single ⟨⟨.field, 0⟩, href⟩)
  rw [hobjects] at hfreed
  simp at hfreed

end Dated

end Rsgc.Collection
