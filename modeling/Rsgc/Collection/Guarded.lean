import Rsgc.Collection.Colors
import Rsgc.Collection.Steady

namespace Rsgc.Collection

open Marking Storage

-- The object of the barrier that a thread is in.
def Place.barrier : Place → Option Nat
  | clearing obj | flushing _ (.barrier obj) | pushing _ _ (.barrier obj) => some obj
  | _ => none

-- Inside a barrier the thread keeps its object.
def Mutator.Holds (m : Mutator) : Prop := ∀ obj, m.place.barrier = some obj → obj ∈ m.roots

namespace Mutator

variable {c : Config} {m : Mutator} {marks : Nat → Bool} {obj : Nat}

theorem holds_enqueue (hobj : obj ∈ m.roots) : (m.enqueue c obj).Holds := by
  intro o ho
  rw [enqueue_roots]
  unfold enqueue at ho
  split at ho
  · cases ho
  · obtain rfl := Option.some.inj ho
    exact hobj

theorem holds_rawWriteBarrier (hobj : obj ∈ m.roots) :
    (m.rawWriteBarrier c marks obj).Holds := by
  intro o ho
  rw [rawWriteBarrier_roots]
  unfold rawWriteBarrier at ho
  split at ho
  · split at ho
    · split at ho
      · cases ho
      · have hheld := holds_enqueue (c := c) hobj o ho
        rwa [enqueue_roots] at hheld
    · split at ho
      · obtain rfl := Option.some.inj ho
        exact hobj
      · cases ho
  · cases ho

theorem mem_enqueue_unflushed {x : Nat} (hx : x ∈ m.satbMarkQueue) :
    x ∈ (m.enqueue c obj).unflushed := by
  unfold enqueue
  split
  · exact List.mem_cons_of_mem _ hx
  · exact hx

-- The barrier keeps what is buffered, wherever it goes on.
theorem mem_rawWriteBarrier_unflushed {x : Nat} (hx : x ∈ m.satbMarkQueue) :
    x ∈ (m.rawWriteBarrier c marks obj).unflushed := by
  unfold rawWriteBarrier
  split
  · split
    · split
      · exact hx
      · exact mem_enqueue_unflushed hx
    · split <;> exact hx
  · exact hx

theorem Calm.unflushed (h : m.Calm) : m.unflushed = [] := by
  have hplace := h.place
  unfold Mutator.unflushed
  cases hp : m.place with
  | flushing todo next =>
      rw [hp] at hplace
      cases todo with
      | nil => rfl
      | cons => cases hplace
  | pushing =>
      rw [hp] at hplace
      cases hplace
  | free | clearing | storing => exact h.satbMarkQueue
  | leaving => rfl

theorem unflushed_of_parked (h : m.place.parked = true) {x : Nat} (hx : x ∈ m.unflushed) :
    x ∈ m.satbMarkQueue := by
  unfold Mutator.unflushed at hx
  split at hx <;> rename_i hplace
  · rw [hplace] at h
    cases h
  · rw [hplace] at h
    cases h
  · cases hx
  · exact hx

end Mutator

theorem freeObject_not_traced (slot : Slot) : ¬freeObject.Traced slot := by
  obtain ⟨part, index⟩ := slot
  cases part with
  | field => exact fun h => absurd h.1 (Nat.not_lt_zero index)
  | item => exact fun h => absurd h.1 (by decide)

namespace World

variable {c : Config} {s s' : World} {t : Nat}

-- A thread holds the object of its barrier through every step of a mutator.
theorem holds_of_mutator {e : Event} (hstep : s.step c e = some s') (he : e.ofMutator = true)
    (h : ∀ m ∈ s.threads, m.Holds) : ∀ m ∈ s'.threads, m.Holds := by
  have hset {t : Nat} {m' : Mutator} (hm' : m'.Holds) : ∀ x ∈ s.threads.set t m', x.Holds := by
    intro x hx
    rcases List.mem_or_eq_of_mem_set hx with hx | rfl
    · exact h x hx
    · exact hm'
  have hmore {t : Nat} {m : Mutator} (hm : s.threads[t]? = some m) (root : Nat) :
      ({ m with roots := root :: m.roots } : Mutator).Holds := fun o ho =>
    List.mem_cons_of_mem _ (h m (List.mem_of_getElem? hm) o ho)
  have hnone {m : Mutator} (hm : m.place.barrier = none) : m.Holds := fun o ho => by
    rw [hm] at ho
    cases ho
  cases e with
  | load t obj slot =>
      obtain ⟨-, m, ref, hm, -, -, rfl⟩ := stepLoad_cases hstep
      exact hset (hmore hm ref)
  | writeBarrier t obj =>
      obtain ⟨-, m, -, -, hobj, rfl⟩ := stepWriteBarrier_cases hstep
      exact hset (Mutator.holds_rawWriteBarrier hobj)
  | store t obj slot value =>
      obtain ⟨-, m, -, -, -, -, -, rfl⟩ := stepStore_cases hstep
      exact hset (hnone rfl)
  | allocate t new =>
      obtain ⟨-, m, regions, hm, -, -, -, -, -, rfl⟩ := stepAllocate_cases hstep
      exact hset (hmore hm new.obj)
  | drop t obj =>
      obtain ⟨-, m, -, hplace, rfl⟩ := stepDrop_cases hstep
      refine hset (hnone ?_)
      change m.place.barrier = none
      cases hp : m.place with
      | free | storing | leaving => rfl
      | clearing | flushing | pushing => simp [hp, Place.ownCode] at hplace
  | upgrade t weak =>
      obtain ⟨-, m, target, hm, -, -, rfl⟩ := stepUpgrade_cases hstep
      exact hset (hmore hm target)
  | attach =>
      obtain ⟨-, rfl⟩ := guard_not_eq_some.mp hstep
      intro x hx
      rcases List.mem_append.mp hx with hx | hx
      · exact h x hx
      · rw [List.mem_singleton.mp hx]
        exact hnone rfl
  | detach t =>
      obtain ⟨-, m, -, -, rfl⟩ := stepDetach_cases hstep
      exact hset (hnone rfl)
  | step t =>
      obtain ⟨-, m, hm, hcases⟩ := stepThread_cases hstep
      have hheld := h m (List.mem_of_getElem? hm)
      have hgoto {place : Place} (hp : place.barrier = m.place.barrier) :
          ({ m with place } : Mutator).Holds := fun o ho => hheld o (hp ▸ ho)
      rcases hcases with ⟨obj, -, hplace, rfl⟩ | ⟨obj, todo, next, hplace, rfl⟩ | ⟨-, -, rfl⟩ |
        ⟨obj, todo, next, hplace, rfl⟩ | ⟨obj, hplace, rfl⟩ | ⟨-, rfl⟩
      · exact hset (Mutator.holds_enqueue (hheld obj (by rw [hplace]; rfl)))
      · refine hset (hgoto ?_)
        rw [hplace]
        cases next <;> rfl
      · exact fun x hx => h x (List.mem_of_mem_eraseIdx hx)
      · refine hset (hgoto ?_)
        rw [hplace]
        split <;> cases next <;> rfl
      · have hobj := hheld obj (by rw [hplace]; rfl)
        exact hset (Mutator.holds_rawWriteBarrier (m := { m with satbMarkQueue := [] }) hobj)
      · exact hset (hnone rfl)
  | _ => cases he

theorem holds_map {f : Mutator → Mutator} (hroots : ∀ m, (f m).roots = m.roots)
    (hplace : ∀ m, (f m).place = m.place) (h : ∀ m ∈ s.threads, m.Holds) :
    ∀ m ∈ s.threads.map f, m.Holds := by
  intro x hx
  obtain ⟨m, hm, rfl⟩ := List.mem_map.mp hx
  intro o ho
  rw [hplace] at ho
  rw [hroots]
  exact h m hm o ho

-- Objects that are not allocated have no slots.
theorem free_step {e : Event} (hstep : s.step c e = some s')
    (h : ∀ o, o ∉ s.objects → s.graph o = freeObject) :
    ∀ o, o ∉ s'.objects → s'.graph o = freeObject := by
  by_cases he : changesHeap e = false
  · have hsame := step_frame hstep he
    rw [hsame.objects, hsame.graph]
    exact h
  · intro o ho
    cases e with
    | store t obj slot value =>
        obtain ⟨-, m, -, -, -, -, htraced, rfl⟩ := stepStore_cases hstep
        by_cases heq : o = obj
        · subst heq
          rw [h o ho] at htraced
          exact absurd htraced (freeObject_not_traced slot)
        · simpa [heq] using h o ho
    | allocate t new =>
        obtain ⟨-, m, regions, -, -, -, -, -, -, rfl⟩ := stepAllocate_cases hstep
        obtain ⟨hne, hold⟩ := not_or.mp (List.mem_cons.not.mp ho)
        simpa [hne] using h o hold
    | finishMark =>
        obtain ⟨-, ⟨-, rfl⟩ | ⟨cycle, -, -, rfl⟩⟩ := stepFinishMark_cases hstep <;> exact h o ho
    | sweep r =>
        obtain ⟨cycle, todo, -, -, rfl⟩ := stepSweep_cases hstep
        by_cases hfrees : s.frees r o = true
        · simp [sweepRegion, hfrees]
        · have hold : o ∉ s.objects := fun hmem =>
            ho (List.mem_filter.mpr ⟨hmem, by simpa using hfrees⟩)
          simpa [sweepRegion, hfrees] using h o hold
    | _ => exact absurd rfl he

-- The condition on a store and a dropped root: an object that a marked object
-- refers to does not lose its last protection with it.
def Spares (s : World) : Event → Prop
  | .store _ obj slot _ => ∀ htraced, (s.writeSlot obj slot htraced none).color.Guarded
  | .drop t obj => ∀ m, s.threads[t]? = some m →
      (s.setThread t { m with roots := m.roots.erase obj }).color.Guarded
  | _ => True

-- One thread goes on with its roots and with all that it had buffered.
theorem sustains_setThread {m m' : Mutator} (hm : s.threads[t]? = some m)
    (hgraph : s'.graph = s.graph) (hmarks : s'.marks = s.marks)
    (hthreads : s'.threads = s.threads.set t m') (hroots : ∀ r ∈ m.roots, r ∈ m'.roots)
    (hunflushed : ∀ x ∈ m.unflushed, s.marks x = false →
      x ∈ m'.unflushed ∨ .push (.new x false false) ∈ s'.work)
    (hwork : ∀ op ∈ s.work, op ∈ s'.work) : s.color.Sustains s'.color := by
  have hpending := pending_of_set hm hthreads (fun o ho => hmarks ▸ ho) hroots hunflushed hwork
  exact sustains_of_pending hgraph hmarks hpending

-- Where the mark bit of a root is cleared the root is pending.
theorem sustains_clear {obj : Nat} {m : Mutator} (hm : s.threads[t]? = some m)
    (hplace : m.place = .clearing obj) (hobj : obj ∈ m.roots) (hgraph : s'.graph = s.graph)
    (hmarks : s'.marks = Function.update s.marks obj false)
    (hthreads : s'.threads = s.threads.set t (m.enqueue c obj)) (hwork : s'.work = s.work) :
    s.color.Sustains s'.color := by
  have hsame {o : Nat} (ho : o ≠ obj) : s'.marks o = s.marks o := by
    rw [hmarks, Function.update_of_ne ho]
  have hclear : s'.marks obj = false := by rw [hmarks, Function.update_self]
  have hwhite (o : Nat) (ho : s.marks o = false) : s'.marks o = false := by
    by_cases heq : o = obj
    · rw [heq]
      exact hclear
    · exact (hsame heq).trans ho
  have hroot : obj ∈ s'.roots := by
    refine mem_roots (hthreads ▸ mem_set_self hm) ?_
    rw [Mutator.enqueue_roots]
    exact hobj
  refine Coloring.Sustains.unmark (fun a ha => ?_) (fun a ha hafter => ?_) ?_ fun a b => ?_
  · by_contra hbefore
    exact absurd ha (Bool.eq_false_iff.mp (hwhite a (Bool.eq_false_iff.mpr hbefore)))
  · have ha : a = obj := by
      by_contra hne
      exact hafter ((hsame hne).trans ha)
    subst ha
    exact ⟨.visit a, Or.inr (Or.inl ⟨a, hroot, rfl⟩), Or.inl rfl⟩
  · rintro x ⟨op, hop, hx⟩ -
    refine ⟨op, pending_of_set hm hthreads hwhite (fun r hr => ?_) (fun y hy _ => Or.inl ?_)
      (fun o ho => hwork ▸ ho) op hop, hgraph ▸ hx⟩
    · rw [Mutator.enqueue_roots]
      exact hr
    · rw [Mutator.unflushed, hplace] at hy
      exact Mutator.mem_enqueue_unflushed hy
  · simp only [color, coloring, hgraph]

theorem sustains_attach (hstep : s.stepAttach = some s') : s.color.Sustains s'.color := by
  obtain ⟨-, rfl⟩ := guard_not_eq_some.mp hstep
  refine sustains_of_pending rfl rfl fun op hop => ?_
  rcases hop with hop | ⟨r, hr, rfl⟩ | ⟨x, hx, hentry⟩
  · exact Or.inl hop
  · obtain ⟨x, hx, hrx⟩ := List.mem_flatMap.mp hr
    exact Or.inr (Or.inl ⟨r, mem_roots (List.mem_append_left _ hx) hrx, rfl⟩)
  · exact Or.inr (Or.inr ⟨x, List.mem_append_left _ hx, hentry⟩)

-- The thread that is removed has no roots and nothing buffered.
theorem sustains_leave {m : Mutator} (hm : s.threads[t]? = some m)
    (hplace : m.place = .leaving) (hroots : m.roots = []) :
    s.color.Sustains ({ s with threads := s.threads.eraseIdx t } : World).color := by
  have hothers {x : Mutator} (hx : x ∈ s.threads) : x = m ∨ x ∈ s.threads.eraseIdx t :=
    eq_or_mem_eraseIdx hm hx
  refine sustains_of_pending rfl rfl fun op hop => ?_
  rcases hop with hop | ⟨r, hr, rfl⟩ | ⟨x, hx, o, ho, hentry⟩
  · exact Or.inl hop
  · obtain ⟨x, hx, hrx⟩ := List.mem_flatMap.mp hr
    rcases hothers hx with rfl | hx
    · rw [hroots] at hrx
      cases hrx
    · exact Or.inr (Or.inl ⟨r, List.mem_flatMap.mpr ⟨x, hx, hrx⟩, rfl⟩)
  · rcases hothers hx with rfl | hx
    · rw [Mutator.unflushed, hplace] at ho
      cases ho
    · exact Or.inr (Or.inr ⟨x, hx, o, ho, hentry⟩)

theorem sustains_thread (hheld : c.build = .incrementalUpdate → ∀ m ∈ s.threads, m.Holds)
    (hstep : s.stepThread c t = some s') : s.color.Sustains s'.color := by
  obtain ⟨-, m, hm, hcases⟩ := stepThread_cases hstep
  rcases hcases with ⟨obj, hbuild, hplace, rfl⟩ | ⟨obj, todo, next, hplace, rfl⟩ |
    ⟨hplace, hroots, rfl⟩ | ⟨obj, todo, next, hplace, rfl⟩ | ⟨obj, hplace, rfl⟩ | ⟨hplace, rfl⟩
  · have hobj := hheld hbuild m (List.mem_of_getElem? hm) obj (by rw [hplace]; rfl)
    exact sustains_clear hm hplace hobj rfl rfl rfl rfl
  · refine sustains_setThread hm rfl rfl rfl (fun r hr => hr) (fun x hx _ => ?_) fun op hop =>
      List.mem_cons_of_mem _ hop
    rw [Mutator.unflushed, hplace] at hx
    rcases List.mem_cons.mp hx with rfl | hx
    · exact Or.inr List.mem_cons_self
    · exact Or.inl hx
  · exact sustains_leave hm hplace hroots
  · refine sustains_setThread hm rfl rfl rfl (fun r hr => hr) (fun x hx hmark => Or.inl ?_)
      fun op hop => hop
    rw [Mutator.unflushed, hplace] at hx
    by_cases hflushes : s.flushes c obj = true
    · simpa [Mutator.unflushed, hflushes] using hx
    · rcases List.mem_cons.mp hx with rfl | hx
      · exact absurd (by simp [flushes, hmark]) hflushes
      · simpa [Mutator.unflushed, hflushes] using hx
  · refine sustains_setThread hm rfl rfl rfl (fun r hr => ?_) (fun x hx _ => ?_) fun op hop => hop
    · rwa [Mutator.rawWriteBarrier_roots]
    · rw [Mutator.unflushed, hplace] at hx
      cases hx
  · refine sustains_setThread hm rfl rfl rfl (fun r hr => hr) (fun x hx _ => ?_) fun op hop => hop
    rw [Mutator.unflushed, hplace] at hx
    cases hx

-- What a step takes away before all else: the slot that it writes, or a root.
def Cut (s : World) : Event → World → Prop
  | .store _ obj slot _, u => ∃ htraced, u = s.writeSlot obj slot htraced none
  | .drop t obj, u => ∃ m, s.threads[t]? = some m ∧
      u = s.setThread t { m with roots := m.roots.erase obj }
  | _, u => u = s

-- Every step of a mutator keeps safe what is safe after the cut.
theorem sustains_of_mutator {e : Event} (hfree : ∀ o, o ∉ s.objects → s.graph o = freeObject)
    (hheld : c.build = .incrementalUpdate → ∀ m ∈ s.threads, m.Holds)
    (hstep : s.step c e = some s') (he : e.ofMutator = true) :
    ∃ u, s.Cut e u ∧ u.color.Sustains s'.color := by
  cases e with
  | load t obj slot =>
      obtain ⟨-, m, ref, hm, -, -, rfl⟩ := stepLoad_cases hstep
      exact ⟨s, rfl, sustains_setThread hm rfl rfl rfl (fun r hr => List.mem_cons_of_mem _ hr)
        (fun x hx _ => Or.inl hx) fun op hop => hop⟩
  | writeBarrier t obj =>
      obtain ⟨-, m, hm, hplace, -, rfl⟩ := stepWriteBarrier_cases hstep
      refine ⟨s, rfl, sustains_setThread hm rfl rfl rfl
        (fun r hr => Mutator.rawWriteBarrier_roots.symm ▸ hr)
        (fun x hx _ => Or.inl (Mutator.mem_rawWriteBarrier_unflushed ?_)) fun op hop => hop⟩
      simpa [Mutator.unflushed, hplace] using hx
  | store t obj slot value =>
      obtain ⟨-, m, hm, hplace, -, hvalue, htraced, rfl⟩ := stepStore_cases hstep
      have hroots : ∀ ref ∈ value, ref ∈ s.roots := fun ref href =>
        mem_roots (List.mem_of_getElem? hm) (hvalue ref href)
      refine ⟨_, ⟨htraced, rfl⟩, (sustains_writeSlot htraced hroots).trans ?_⟩
      refine sustains_setThread (s := s.writeSlot obj slot htraced value) hm rfl rfl rfl
        (fun r hr => hr) (fun x hx _ => Or.inl ?_) fun op hop => hop
      simpa [Mutator.unflushed, hplace] using hx
  | allocate t new =>
      obtain ⟨-, m, regions, hm, hplace, hnew, hrefs, -, -, rfl⟩ := stepAllocate_cases hstep
      refine ⟨s, rfl, sustains_allocate hm ?_ hrefs rfl (fun o ho => ?_) (fun o ho => ?_) rfl
        (fun r hr => List.mem_cons_of_mem _ hr) ?_ rfl⟩
      · rw [hfree new.obj hnew]
        rfl
      · show (if _ then Function.update s.marks new.obj true else s.marks) o = true
        split
        · rw [Function.update_apply]
          split
          · rfl
          · exact ho
        · exact ho
      · split
        · exact Function.update_of_ne ho true s.marks
        · rfl
      · simp [Mutator.unflushed, hplace]
  | drop t obj =>
      obtain ⟨-, m, hm, -, rfl⟩ := stepDrop_cases hstep
      exact ⟨_, ⟨m, hm, rfl⟩, .refl _⟩
  | upgrade t weak =>
      obtain ⟨-, m, target, hm, -, -, rfl⟩ := stepUpgrade_cases hstep
      exact ⟨s, rfl, sustains_setThread hm rfl rfl rfl (fun r hr => List.mem_cons_of_mem _ hr)
        (fun x hx _ => Or.inl hx) fun op hop => hop⟩
  | attach => exact ⟨s, rfl, sustains_attach hstep⟩
  | detach t =>
      obtain ⟨-, m, hm, hplace, rfl⟩ := stepDetach_cases hstep
      refine ⟨s, rfl, sustains_setThread hm rfl rfl rfl (fun r hr => hr) (fun x hx _ => Or.inl ?_)
        fun op hop => hop⟩
      simpa [Mutator.unflushed, hplace] using hx
  | step t => exact ⟨s, rfl, sustains_thread hheld hstep⟩
  | _ => cases he

-- Every step of a mutator that meets the condition keeps the colours right.
theorem guarded_of_mutator {e : Event} (hfree : ∀ o, o ∉ s.objects → s.graph o = freeObject)
    (hheld : c.build = .incrementalUpdate → ∀ m ∈ s.threads, m.Holds) (h : s.color.Guarded)
    (hspares : s.Spares e) (hstep : s.step c e = some s') (he : e.ofMutator = true) :
    s'.color.Guarded := by
  obtain ⟨u, hcut, hsustains⟩ := sustains_of_mutator hfree hheld hstep he
  have hu : u.color.Guarded := by
    cases e with
    | store t obj slot value =>
        obtain ⟨htraced, rfl⟩ := hcut
        exact hspares htraced
    | drop t obj =>
        obtain ⟨m, hm, rfl⟩ := hcut
        exact hspares m hm
    | _ => exact hcut.symm ▸ h
  exact hu.sustain hsustains

-- Where all mark bits have been cleared the colours are right.
theorem guarded_unmarked (graph : Graph) (work : Op → Prop) :
    (coloring graph (fun _ => false) work).Guarded := by
  intro a b (ha : false = true) _
  cases ha

theorem flushThreads_roots : (flushThreads c s).roots = s.roots := by
  simp [flushThreads, roots, List.flatMap_map]

-- The entries that are not marked by now become tasks.
theorem pending_flushThreads (hparked : s.Parked) (op : Op) (hop : s.Pending op) :
    (flushThreads c s).Pending op := by
  rcases hop with hop | ⟨r, hr, rfl⟩ | ⟨m, hm, x, hx, hmark, rfl⟩
  · exact Or.inl (List.mem_append_right _ hop)
  · exact Or.inr (Or.inl ⟨r, flushThreads_roots.symm ▸ hr, rfl⟩)
  · have hentry := Mutator.unflushed_of_parked (hparked m hm) hx
    refine Or.inl (List.mem_append_left _ (List.mem_map.mpr ⟨x, ?_, rfl⟩))
    refine List.mem_filter.mpr ⟨List.mem_flatMap.mpr ⟨m, hm, hentry⟩, ?_⟩
    simp [flushes, hmark]

theorem flushThreads_ok (h : ∀ op ∈ s.work, op.Ok) : ∀ op ∈ (flushThreads c s).work, op.Ok := by
  intro op hop
  rcases List.mem_append.mp hop with hop | hop
  · obtain ⟨x, -, rfl⟩ := List.mem_map.mp hop
    exact isFresh_ok x
  · exact h op hop

end World

end Rsgc.Collection
