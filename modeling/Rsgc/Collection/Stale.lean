import Mathlib.Data.List.ReduceOption
import Rsgc.Collection.Steps

namespace Rsgc.Collection

open Marking Storage

-- A thread whose barrier is off and that has nothing left to flush.
def Place.quiet : Place → Bool
  | free | storing _ | leaving | flushing [] .leave => true
  | _ => false

structure Mutator.Calm (m : Mutator) : Prop where
  cmInProgress : m.cmInProgress = false
  satbMarkQueue : m.satbMarkQueue = []
  place : m.place.quiet = true

namespace Mutator

variable {c : Config} {m : Mutator}

theorem rawWriteBarrier_calm {marks : Nat → Bool} (obj : Nat) (h : m.Calm) :
    (m.rawWriteBarrier c marks obj).Calm := by
  unfold rawWriteBarrier
  rw [if_neg (by simp [h.cmInProgress])]
  exact ⟨h.cmInProgress, h.satbMarkQueue, rfl⟩

theorem Calm.goto (h : m.Calm) {place : Place} (hplace : place.quiet = true) :
    ({ m with place } : Mutator).Calm :=
  ⟨h.cmInProgress, h.satbMarkQueue, hplace⟩

theorem Calm.keeps (h : m.Calm) (roots : List Nat) : ({ m with roots } : Mutator).Calm :=
  ⟨h.cmInProgress, h.satbMarkQueue, h.place⟩

end Mutator

namespace World

variable {c : Config} {s s' t : World}

-- The final mark has switched the barriers off, or no marking runs at all.
def Silent (s : World) : Prop :=
  s.concurrentMark = false ∨ s.phase = .draining .concurrent ∨ s.phase = .draining .degenerated

-- While the flag of the heap is off every thread is calm, and only a pause has
-- something to mark.
structure Tidy (s : World) : Prop where
  marking : s.phase = .marking → s.concurrentMark = true
  threads : s.Silent → ∀ m ∈ s.threads, m.Calm
  work : s.concurrentMark = false → (∀ cycle, s.phase ≠ .draining cycle) → s.work = []

theorem Silent.of_running (h : s.Silent) (hrun : s.phase.stopped = false) :
    s.concurrentMark = false := by
  rcases h with h | h | h
  · exact h
  · rw [h] at hrun
    cases hrun
  · rw [h] at hrun
    cases hrun

theorem not_draining (hrun : s.phase.stopped = false) (cycle : Cycle) :
    s.phase ≠ .draining cycle := by
  intro h
  rw [h] at hrun
  cases hrun

-- Where the mutators run, a step of theirs only has to keep the threads calm.
theorem Tidy.of_running (h : s.Tidy) (hrun : s.phase.stopped = false)
    (hphase : s'.phase = s.phase) (hflag : s'.concurrentMark = s.concurrentMark)
    (hcalm : s.concurrentMark = false → (∀ m ∈ s.threads, m.Calm) →
      (∀ m ∈ s'.threads, m.Calm) ∧ s'.work = s.work) : s'.Tidy where
  marking hmarking := hflag.trans (h.marking (hphase ▸ hmarking))
  threads hsilent := by
    have hoff : s.concurrentMark = false := hflag ▸ hsilent.of_running (hphase ▸ hrun)
    exact (hcalm hoff (h.threads (Or.inl hoff))).1
  work hoff hdraining := by
    rw [hflag] at hoff
    rw [(hcalm hoff (h.threads (Or.inl hoff))).2]
    exact h.work hoff (not_draining hrun)

theorem calm_set {threads : List Mutator} {i : Nat} {m m' : Mutator}
    (hm : threads[i]? = some m) (hcalm : m.Calm → m'.Calm) (hall : ∀ m ∈ threads, m.Calm) :
    ∀ x ∈ threads.set i m', x.Calm := by
  intro x hx
  rcases List.mem_or_eq_of_mem_set hx with hx | rfl
  · exact hall x hx
  · exact hcalm (hall m (List.mem_of_getElem? hm))

theorem Tidy.setThread (h : s.Tidy) (hrun : s.phase.stopped = false) {i : Nat} {m m' : Mutator}
    (hm : s.threads[i]? = some m) (hcalm : m.Calm → m'.Calm) (hphase : s'.phase = s.phase)
    (hflag : s'.concurrentMark = s.concurrentMark) (hthreads : s'.threads = s.threads.set i m')
    (hwork : s'.work = s.work) : s'.Tidy :=
  h.of_running hrun hphase hflag fun _ hall => ⟨hthreads ▸ calm_set hm hcalm hall, hwork⟩

theorem Tidy.stepThread (h : s.Tidy) {i : Nat} (hstep : s.stepThread c i = some s') :
    s'.Tidy := by
  obtain ⟨hrun, m, hm, hcases⟩ := stepThread_cases hstep
  have hmem : m ∈ s.threads := List.mem_of_getElem? hm
  rcases hcases with ⟨obj, -, hplace, rfl⟩ | ⟨obj, todo, next, hplace, rfl⟩ | ⟨hplace, -, rfl⟩ |
    ⟨obj, todo, next, hplace, rfl⟩ | ⟨obj, hplace, rfl⟩ | ⟨hplace, rfl⟩
  · refine h.setThread hrun hm (fun hcalm => ?_) rfl rfl rfl rfl
    have hquiet := hcalm.place
    rw [hplace] at hquiet
    cases hquiet
  · refine h.of_running hrun rfl rfl fun _ hall => ?_
    have hquiet := (hall m hmem).place
    rw [hplace] at hquiet
    cases hquiet
  · refine h.of_running hrun rfl rfl fun _ hall => ⟨fun x hx => ?_, rfl⟩
    exact hall x (List.mem_of_mem_eraseIdx hx)
  · refine h.setThread hrun hm (fun hcalm => ?_) rfl rfl rfl rfl
    have hquiet := hcalm.place
    rw [hplace] at hquiet
    cases hquiet
  · refine h.setThread hrun hm (fun hcalm => ?_) rfl rfl rfl rfl
    have hquiet := hcalm.place
    rw [hplace] at hquiet
    cases hquiet
  · have hleaves (hcalm : m.Calm) : ({ m with satbMarkQueue := [], place := .leaving } : Mutator).Calm :=
      ⟨hcalm.cmInProgress, rfl, rfl⟩
    exact h.setThread hrun hm hleaves rfl rfl rfl rfl

-- What the pauses make of the threads.
theorem calm_of_cancel {threads : List Mutator} (hparked : ∀ m ∈ threads, m.place.parked = true) :
    ∀ x ∈ threads.map fun m => { m with satbMarkQueue := [], cmInProgress := false },
      x.Calm := by
  intro x hx
  obtain ⟨m, hm, rfl⟩ := List.mem_map.mp hx
  refine ⟨rfl, rfl, ?_⟩
  have hplace := hparked m hm
  cases hm' : m.place with
  | free | leaving => rfl
  | clearing | flushing | pushing | storing =>
      rw [hm'] at hplace
      cases hplace

theorem Tidy.stepMark (h : s.Tidy) {i : Nat} (hstep : s.stepMark i = some s') : s'.Tidy := by
  obtain ⟨hphase, op, marks, ops, -, -, rfl⟩ := stepMark_cases hstep
  refine ⟨h.marking, h.threads, fun hoff hdraining => ?_⟩
  rcases hphase with hphase | ⟨cycle, hphase⟩
  · have hon := h.marking hphase
    rw [hoff] at hon
    cases hon
  · exact absurd hphase (hdraining cycle)

theorem Tidy.stepFinishMark (h : s.Tidy) (hstep : s.stepFinishMark c = some s') : s'.Tidy := by
  obtain ⟨hwork, ⟨hphase, rfl⟩ | ⟨cycle, hcycle, hphase, rfl⟩⟩ := stepFinishMark_cases hstep
  · exact ⟨by simp, fun _ => h.threads (Or.inr (Or.inr hphase)), fun _ _ => hwork⟩
  · refine ⟨by simp, fun hsilent => ?_, fun _ _ => hwork⟩
    rcases hsilent with hoff | hdraining | hdraining
    · exact h.threads (Or.inl hoff)
    · cases hdraining
    · cases hdraining

-- The initial mark and the begin of the other collections, of a parked world.
theorem Tidy.stepDegenerate (h : s.Tidy) (hstep : s.stepDegenerate c = some s') : s'.Tidy := by
  obtain ⟨⟨hphase, hparked⟩, hcases⟩ := stepDegenerate_cases hstep
  have hidle : ∀ cycle, s.phase ≠ .draining cycle := by simp [hphase]
  rcases hcases with ⟨-, rfl⟩ | ⟨-, rfl⟩ | ⟨-, rfl⟩ | ⟨-, rfl⟩
  · exact ⟨by simp [hphase], h.threads, h.work⟩
  · exact ⟨by simp, fun _ => calm_of_cancel hparked, fun _ hd => absurd rfl (hd .degenerated)⟩
  · exact ⟨by simp, fun _ => calm_of_cancel hparked, fun _ hd => absurd rfl (hd .degenerated)⟩
  · refine ⟨by simp, fun hs => h.threads (Or.inl ?_), fun hoff _ => h.work hoff hidle⟩
    rcases hs with hoff | hdraining | hdraining
    · exact hoff
    · cases hdraining
    · cases hdraining

theorem Tidy.step (h : s.Tidy) {e : Event} (hstep : s.step c e = some s') : s'.Tidy := by
  cases e with
  | load i obj slot =>
      obtain ⟨hrun, m, ref, hm, -, -, rfl⟩ := stepLoad_cases hstep
      exact h.setThread hrun hm (fun hcalm => hcalm.keeps _) rfl rfl rfl rfl
  | writeBarrier i obj =>
      obtain ⟨hrun, m, hm, -, -, rfl⟩ := stepWriteBarrier_cases hstep
      exact h.setThread hrun hm (Mutator.rawWriteBarrier_calm obj) rfl rfl rfl rfl
  | store i obj slot value =>
      obtain ⟨hrun, m, hm, -, -, -, -, rfl⟩ := stepStore_cases hstep
      exact h.setThread hrun hm (fun hcalm => hcalm.goto rfl) rfl rfl rfl rfl
  | allocate i new =>
      obtain ⟨hrun, m, regions, hm, -, -, -, -, -, rfl⟩ := stepAllocate_cases hstep
      exact h.setThread hrun hm (fun hcalm => hcalm.keeps _) rfl rfl rfl rfl
  | drop i obj =>
      obtain ⟨hrun, m, hm, -, rfl⟩ := stepDrop_cases hstep
      exact h.setThread hrun hm (fun hcalm => hcalm.keeps _) rfl rfl rfl rfl
  | upgrade i weak =>
      obtain ⟨hrun, m, target, hm, -, -, rfl⟩ := stepUpgrade_cases hstep
      exact h.setThread hrun hm (fun hcalm => hcalm.keeps _) rfl rfl rfl rfl
  | attach =>
      obtain ⟨hrun, rfl⟩ := guard_not_eq_some.mp hstep
      refine h.of_running (Bool.eq_false_iff.mpr hrun) rfl rfl fun hoff hall => ⟨fun m hm => ?_, rfl⟩
      rcases List.mem_append.mp hm with hm | hm
      · exact hall m hm
      · rw [List.mem_singleton.mp hm]
        exact ⟨hoff, rfl, rfl⟩
  | detach i =>
      obtain ⟨hrun, m, hm, -, rfl⟩ := stepDetach_cases hstep
      refine h.setThread hrun hm (fun hcalm => hcalm.goto ?_) rfl rfl rfl rfl
      rw [hcalm.satbMarkQueue]
      rfl
  | step i => exact h.stepThread hstep
  | mark i => exact h.stepMark hstep
  | initMark =>
      obtain ⟨⟨hphase, hparked⟩, rfl⟩ := guard_eq_some.mp hstep
      refine ⟨fun _ => rfl, fun hsilent => ?_, by simp⟩
      simp [Silent] at hsilent
  | finalMark =>
      obtain ⟨⟨hphase, hparked, -⟩, rfl⟩ := guard_eq_some.mp hstep
      exact ⟨by simp, fun _ => calm_of_cancel hparked, fun _ hd => absurd rfl (hd .concurrent)⟩
  | finishMark => exact h.stepFinishMark hstep
  | sweep r =>
      obtain ⟨cycle, todo, hphase, -, rfl⟩ := stepSweep_cases hstep
      refine ⟨by simp, fun hs => ?_, fun hoff _ => h.work hoff (by simp [hphase])⟩
      exact h.threads (Or.inl (hs.resolve_right (by simp)))
  | skip r =>
      obtain ⟨todo, hphase, -, rfl⟩ := stepSkip_cases hstep
      refine ⟨by simp, fun hs => ?_, fun hoff _ => h.work hoff (by simp [hphase])⟩
      exact h.threads (Or.inl (hs.resolve_right (by simp)))
  | finish =>
      obtain ⟨cycle, hphase, rfl⟩ := stepFinish_cases hstep
      refine ⟨by simp, fun hs => ?_, fun hoff _ => h.work hoff (by simp [hphase])⟩
      exact h.threads (Or.inl (hs.resolve_right (by simp)))
  | cancel =>
      obtain ⟨-, rfl⟩ := guard_not_eq_some.mp hstep
      exact ⟨h.marking, h.threads, h.work⟩
  | abort =>
      obtain ⟨⟨hphase, -, -⟩, rfl⟩ := guard_eq_some.mp hstep
      have hon := h.marking hphase
      refine ⟨by simp, fun hs => ?_, fun hoff => ?_⟩
      · have hoff : s.concurrentMark = false := hs.resolve_right (by simp)
        rw [hon] at hoff
        cases hoff
      · rw [hon] at hoff
        cases hoff
  | full =>
      obtain ⟨⟨hphase, hparked⟩, rfl⟩ := guard_eq_some.mp hstep
      refine ⟨by simp, fun hs => ?_, fun _ hd => absurd rfl (hd .full)⟩
      exact h.threads (Or.inl (hs.resolve_right (by simp)))
  | degenerate => exact h.stepDegenerate hstep

theorem tidy_of_reachable (hs : (controller c).Reachable s) : s.Tidy := by
  refine Machine.Reachable.invariant (P := Tidy) (fun s h => ?_) (fun s e t h => h.step) hs
  refine ⟨by simp [h.phase], fun _ m hm => ?_, fun _ _ => h.work⟩
  obtain ⟨hqueue, hflag, hplace⟩ := h.threads m hm
  exact ⟨hflag, hqueue, by rw [hplace]; rfl⟩

end World

-- The object that an operation, or a task in a mark queue, holds a pointer to.
def pointer : Op → Option Nat
  | .scan obj _ _ _ => some obj
  | .visit ref => some ref
  | .push task => some task.obj
  | .spill _ => none

namespace World

variable {c : Config} {s s' t : World}

-- The flags are off, and the buffers and queues hold only allocated objects.
structure NoStale (s : World) : Prop where
  concurrentMark : s.concurrentMark = false
  cmInProgress : ∀ m ∈ s.threads, m.cmInProgress = false
  entries : ∀ o ∈ s.entries, o ∈ s.objects
  work : ∀ op ∈ s.work, ∀ o ∈ pointer op, o ∈ s.objects

-- What a full collection that has begun in `s` leaves as it was.
structure FullPause (s t : World) : Prop where
  concurrentMark : t.concurrentMark = s.concurrentMark
  threads : t.threads = s.threads
  phase : t.phase = .draining .full ∨
    t.work = [] ∧ (t.phase = .idle ∨ ∃ todo, t.phase = .sweeping .full todo)

theorem FullPause.draining (h : s.FullPause t) {cycle : Cycle}
    (hphase : t.phase = .draining cycle) : cycle = .full := by
  rcases h.phase with hfull | ⟨-, hidle | ⟨todo, hsweeping⟩⟩
  · rw [hphase] at hfull
    exact Phase.draining.inj hfull
  · rw [hphase] at hidle
    cases hidle
  · rw [hphase] at hsweeping
    cases hsweeping

theorem FullPause.sweeping (h : s.FullPause t) {cycle : Cycle} {todo : List Nat}
    (hphase : t.phase = .sweeping cycle todo) : cycle = .full ∧ t.work = [] := by
  rcases h.phase with hfull | ⟨hwork, hidle | ⟨todo', hsweeping⟩⟩
  · rw [hphase] at hfull
    cases hfull
  · rw [hphase] at hidle
    cases hidle
  · rw [hphase] at hsweeping
    exact ⟨(Phase.sweeping.inj hsweeping).1, hwork⟩

theorem FullPause.step (h : s.FullPause t) {e : Event} {t' : World}
    (hstep : (pause c s').step t e = some t') : s.FullPause t' := by
  obtain ⟨hstop, hstep⟩ := Option.ite_none_right_eq_some.mp hstep
  rcases step_of_stopped hstop hstep with ⟨i, hmark⟩ | hfinish | ⟨r, hsweep⟩ | hend
  · obtain ⟨hphase, op, marks, ops, -, -, rfl⟩ := stepMark_cases hmark
    refine ⟨h.concurrentMark, h.threads, Or.inl ?_⟩
    rcases hphase with hphase | ⟨cycle, hphase⟩
    · rw [hphase] at hstop
      cases hstop
    · exact h.draining hphase ▸ hphase
  · obtain ⟨hwork, ⟨hphase, rfl⟩ | ⟨cycle, -, hphase, rfl⟩⟩ := stepFinishMark_cases hfinish
    · cases h.draining hphase
    · obtain rfl := h.draining hphase
      exact ⟨h.concurrentMark, h.threads, Or.inr ⟨hwork, Or.inr ⟨_, rfl⟩⟩⟩
  · obtain ⟨cycle, todo, hphase, -, rfl⟩ := stepSweep_cases hsweep
    obtain ⟨rfl, hwork⟩ := h.sweeping hphase
    exact ⟨h.concurrentMark, h.threads, Or.inr ⟨hwork, Or.inr ⟨_, rfl⟩⟩⟩
  · obtain ⟨cycle, hphase, rfl⟩ := stepFinish_cases hend
    exact ⟨h.concurrentMark, h.threads, Or.inr ⟨(h.sweeping hphase).2, Or.inl rfl⟩⟩

theorem fullPause_of_reachable (hfull : s.stepFull = some s')
    (ht : (pause c s').Reachable t) : s.FullPause t := by
  refine Machine.Reachable.invariant (P := s.FullPause) ?_ (fun t e t' h => h.step) ht
  rintro t rfl
  obtain ⟨-, rfl⟩ := guard_eq_some.mp hfull
  exact ⟨rfl, rfl, Or.inl rfl⟩

-- After a full collection nothing stale is left exactly where the collection
-- does not follow a concurrent mark that was cancelled and not completed.
theorem full_collection_no_stale (hs : (controller c).Reachable s)
    (hfull : s.step c .full = some s') (ht : (pause c s').Reachable t) (hidle : t.phase = .idle) :
    t.NoStale ↔ s.concurrentMark = false := by
  have hpause := fullPause_of_reachable hfull ht
  constructor
  · intro hstale
    rw [← hpause.concurrentMark]
    exact hstale.concurrentMark
  · intro hoff
    have hcalm := (tidy_of_reachable hs).threads (Or.inl hoff)
    have hwork : t.work = [] := by
      rcases hpause.phase with hdraining | ⟨hwork, -⟩
      · rw [hidle] at hdraining
        cases hdraining
      · exact hwork
    refine ⟨hpause.concurrentMark.trans hoff, fun m hm => ?_, fun o ho => ?_, by simp [hwork]⟩
    · exact (hcalm m (hpause.threads ▸ hm)).cmInProgress
    · obtain ⟨m, hm, hmem⟩ := List.mem_flatMap.mp ho
      rw [(hcalm m (hpause.threads ▸ hm)).satbMarkQueue] at hmem
      cases hmem

end World

-- An object of which all slots are fields.
def fieldsObject (fields : List (Option Nat)) : Object where
  noHeapPtrs := false
  fieldSlots := fields.length
  varsize := none
  refs := fields.zipIdx.filterMap fun field => field.1.map fun ref => (⟨.field, field.2⟩, ref)
  traced := by
    intro entry hentry
    obtain ⟨⟨field, i⟩, hfield, href⟩ := List.mem_filterMap.mp hentry
    obtain ⟨ref, -, rfl⟩ := Option.map_eq_some_iff.mp href
    have hlt := (List.mem_zipIdx hfield).2.1
    exact ⟨by simpa using hlt, fun _ => rfl⟩

-- A heap of one region with the objects of the table and one thread.
def soleThread (table : List (Nat × List (Option Nat))) (roots : List Nat)
    (weak : Nat → Option Nat) : World where
  graph o := (table.lookup o).elim freeObject fieldsObject
  objects := table.map Prod.fst
  home _ := 0
  regions _ := ⟨.regular, false, 1⟩
  marks _ := false
  work := []
  threads := [⟨roots, [], false, .free⟩]
  weak
  finalizers := []
  concurrentMark := false
  cancelled := false
  degenPoint := .outsideCycle
  phase := .idle
  finalized := []
  born := []
  upgraded := []
  cleared := []
  scanned := []

theorem mem_of_lookup {table : List (Nat × List (Option Nat))} {o : Nat}
    {fields : List (Option Nat)} (h : table.lookup o = some fields) : (o, fields) ∈ table := by
  obtain ⟨before, after, rfl, -⟩ := List.lookup_eq_some_iff.mp h
  exact List.mem_append_right _ List.mem_cons_self

theorem soleThread_fresh {table : List (Nat × List (Option Nat))} {roots : List Nat}
    {weak : Nat → Option Nat} (hroots : ∀ r ∈ roots, r ∈ table.map Prod.fst)
    (hfields : ∀ row ∈ table, ∀ ref ∈ row.2.reduceOption, ref ∈ table.map Prod.fst) :
    (soleThread table roots weak).Fresh where
  phase := rfl
  concurrentMark := rfl
  cancelled := rfl
  degenPoint := rfl
  work := rfl
  threads m hm := by
    obtain rfl := List.mem_singleton.mp hm
    exact ⟨rfl, rfl, rfl⟩
  objects o ho := by
    obtain ⟨r, hr, hpath⟩ := ho
    have hmem : r ∈ table.map Prod.fst := hroots r (by simpa [World.roots, soleThread] using hr)
    induction hpath with
    | refl => exact hmem
    | @tail a b _ hedge _ =>
        obtain ⟨slot, href⟩ := hedge
        obtain ⟨entry, hentry, rfl⟩ := Option.map_eq_some_iff.mp href
        have hin := List.mem_of_find?_eq_some hentry
        cases hlookup : table.lookup a with
        | none => simp [soleThread, hlookup, freeObject] at hin
        | some fields =>
            simp only [soleThread, hlookup, Option.elim_some] at hin
            obtain ⟨⟨field, i⟩, hfield, href⟩ := List.mem_filterMap.mp hin
            obtain ⟨ref, hsome, rfl⟩ := Option.map_eq_some_iff.mp href
            have hrow : (a, fields) ∈ table := mem_of_lookup hlookup
            refine hfields _ hrow ref (List.reduceOption_mem_iff.mpr ?_)
            exact hsome ▸ (List.mem_zipIdx' hfield).2 ▸ List.getElem_mem _
  free o ho := by
    cases hlookup : table.lookup o with
    | none => simp [soleThread, hlookup]
    | some fields =>
        exact absurd (List.mem_map_of_mem (mem_of_lookup hlookup)) ho
  cleared := rfl

namespace World

-- The collector goes on in a pause with whatever is first.
def collect (s : World) : Event :=
  match s.phase with
  | .draining _ => if s.work = [] then .finishMark else .mark 0
  | .sweeping _ (r :: _) => .sweep r
  | _ => .finish

def collected (c : Config) (fuel : Nat) (s : World) : World := (pause c s).drive collect fuel s

theorem collected_reachable (c : Config) (fuel : Nat) (s : World) :
    (pause c s).Reachable (s.collected c fuel) :=
  Machine.drive_reachable (Machine.Via.init rfl) fuel

def satbConfig : Config := ⟨.satb, 1, 1⟩

-- Object 0 refers to object 1.
def pairWorld : World := soleThread [(0, [some 1]), (1, [none])] [0] fun _ => none

theorem pairWorld_fresh : pairWorld.Fresh := soleThread_fresh (by decide) (by decide)

theorem full_collection_no_stale_pair :
    ∃ s s' t, (controller satbConfig).Reachable s ∧ s.step satbConfig .full = some s' ∧
      (pause satbConfig s').Reachable t ∧ t.objects = [0, 1] ∧ t.NoStale := by
  have hrun : (pairWorld.step satbConfig .full).map (fun s =>
      ((s.collected satbConfig 20).phase, (s.collected satbConfig 20).objects)) =
      some (.idle, [0, 1]) := by
    decide +kernel
  obtain ⟨s', hfull, heq⟩ := Option.map_eq_some_iff.mp hrun
  obtain ⟨hidle, hobjects⟩ := Prod.mk.inj heq
  have hreach := collected_reachable satbConfig 20 s'
  refine ⟨pairWorld, s', _, Machine.Via.init pairWorld_fresh, hfull, hreach, hobjects, ?_⟩
  exact (full_collection_no_stale (Machine.Via.init pairWorld_fresh) hfull hreach hidle).mpr rfl

-- A concurrent mark is cancelled with object 1 in a buffer; it is garbage for
-- the full collection that follows.
theorem full_collection_leaves_freed_entry :
    ∃ s s' t, (controller satbConfig).Reachable s ∧ s.step satbConfig .full = some s' ∧
      (pause satbConfig s').Reachable t ∧ t.phase = .idle ∧ t.concurrentMark = true ∧
      1 ∈ t.entries ∧ 1 ∉ t.objects ∧ ¬t.NoStale := by
  have hrun : (((controller satbConfig).run pairWorld [.initMark, .load 0 0 ⟨.field, 0⟩,
      .writeBarrier 0 1, .store 0 1 ⟨.field, 0⟩ none, .drop 0 1, .writeBarrier 0 0,
      .store 0 0 ⟨.field, 0⟩ none, .cancel, .abort]).bind fun s =>
        (s.step satbConfig .full).map fun s' => (s'.collected satbConfig 20).phase ==
          .idle && (s'.collected satbConfig 20).concurrentMark &&
          (s'.collected satbConfig 20).entries == [1] &&
          (s'.collected satbConfig 20).objects == [0]) = some true := by
    decide +kernel
  obtain ⟨s, hs, hmap⟩ := Option.bind_eq_some_iff.mp hrun
  obtain ⟨s', hfull, hend⟩ := Option.map_eq_some_iff.mp hmap
  simp only [Bool.and_eq_true, beq_iff_eq] at hend
  obtain ⟨⟨⟨hidle, hflag⟩, hentries⟩, hobjects⟩ := hend
  refine ⟨s, s', _, Machine.run_reachable (Machine.Via.init pairWorld_fresh) hs, hfull,
    collected_reachable satbConfig 20 s', hidle, hflag, ?_, ?_, fun hstale => ?_⟩
  · rw [hentries]
    exact List.mem_singleton_self 1
  · rw [hobjects]
    decide
  · have hoff := hstale.concurrentMark
    rw [hflag] at hoff
    cases hoff

end World

end Rsgc.Collection
