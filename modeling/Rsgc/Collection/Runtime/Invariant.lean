import Rsgc.Collection.Guarded
import Rsgc.Collection.Runtime.Agrees

namespace Rsgc.Collection

open Marking Storage

-- The thread is on its way out of the list of the threads.
def Place.leaves : Place → Bool
  | .flushing _ .leave | .pushing _ _ .leave | .leaving => true
  | _ => false

namespace World

variable {c : Config} {s s' : World} {t : Nat}

-- The threads are the old ones, and no further one is on its way out.
structure SameThreads (s s' : World) : Prop where
  length_eq : s'.threads.length = s.threads.length
  leaves : ∀ (t : Nat) (m' : Mutator), s'.threads[t]? = some m' → m'.place.leaves = true →
    ∃ m : Mutator, s.threads[t]? = some m ∧ m.place.leaves = true

theorem SameThreads.of_eq (h : s'.threads = s.threads) : s.SameThreads s' :=
  ⟨by rw [h], fun t m' hm hleaves => ⟨m', h ▸ hm, hleaves⟩⟩

theorem SameThreads.set {m m' : Mutator} (hm : s.threads[t]? = some m)
    (hthreads : s'.threads = s.threads.set t m')
    (hplace : m'.place.leaves = true → m.place.leaves = true) : s.SameThreads s' := by
  refine ⟨by rw [hthreads, List.length_set], fun i m'' hm'' hleaves => ?_⟩
  rw [hthreads, List.getElem?_set] at hm''
  split at hm''
  · rename_i hti
    subst hti
    split at hm''
    · obtain rfl := Option.some.inj hm''
      exact ⟨m, hm, hplace hleaves⟩
    · cases hm''
  · exact ⟨m'', hm'', hleaves⟩

theorem SameThreads.map {f : Mutator → Mutator} (hthreads : s'.threads = s.threads.map f)
    (hplace : ∀ m, (f m).place = m.place) : s.SameThreads s' := by
  refine ⟨by rw [hthreads, List.length_map], fun i m' hm' hleaves => ?_⟩
  rw [hthreads, List.getElem?_map, Option.map_eq_some_iff] at hm'
  obtain ⟨m, hm, rfl⟩ := hm'
  exact ⟨m, hm, hplace m ▸ hleaves⟩

theorem enqueue_stays {m : Mutator} {obj : Nat} : (m.enqueue c obj).place.leaves = false := by
  unfold Mutator.enqueue
  split <;> rfl

theorem rawWriteBarrier_stays {marks : Nat → Bool} {m : Mutator} {obj : Nat} :
    (m.rawWriteBarrier c marks obj).place.leaves = false := by
  unfold Mutator.rawWriteBarrier
  split
  · split
    · split
      · rfl
      · exact enqueue_stays
    · dsimp only
      split <;> rfl
  · rfl

-- Threads come, set out to leave and go in three steps only.
theorem step_threads {e : Event} (hstep : s.step c e = some s') (hattach : e ≠ .attach)
    (hdetach : ∀ t, e ≠ .detach t)
    (hleave : ∀ t, e = .step t → ∀ m, s.threads[t]? = some m → m.place ≠ .leaving) :
    s.SameThreads s' := by
  cases e with
  | load t obj slot =>
      obtain ⟨-, m, ref, hm, -, -, rfl⟩ := stepLoad_cases hstep
      exact .set hm rfl id
  | writeBarrier t obj =>
      obtain ⟨-, m, hm, -, -, rfl⟩ := stepWriteBarrier_cases hstep
      exact .set hm rfl fun hleaves => by rw [rawWriteBarrier_stays] at hleaves; cases hleaves
  | store t obj slot value =>
      obtain ⟨-, m, hm, -, -, -, -, rfl⟩ := stepStore_cases hstep
      exact .set hm rfl fun hleaves => by cases hleaves
  | allocate t new =>
      obtain ⟨-, m, regions, hm, -, -, -, -, -, rfl⟩ := stepAllocate_cases hstep
      exact .set hm rfl id
  | drop t obj =>
      obtain ⟨-, m, hm, -, rfl⟩ := stepDrop_cases hstep
      exact .set hm rfl id
  | upgrade t weak =>
      obtain ⟨-, m, target, hm, -, -, rfl⟩ := stepUpgrade_cases hstep
      exact .set hm rfl id
  | attach => exact absurd rfl hattach
  | detach t => exact absurd rfl (hdetach t)
  | step t =>
      obtain ⟨-, m, hm, hcases⟩ := stepThread_cases hstep
      rcases hcases with ⟨obj, -, -, rfl⟩ | ⟨obj, todo, next, hplace, rfl⟩ | ⟨hplace, -, -⟩ |
        ⟨obj, todo, next, hplace, rfl⟩ | ⟨obj, -, rfl⟩ | ⟨hplace, rfl⟩
      · exact .set hm rfl fun hleaves => by rw [enqueue_stays] at hleaves; cases hleaves
      · refine .set hm rfl fun hleaves => ?_
        rw [hplace]
        cases next with
        | barrier obj' => cases hleaves
        | leave => rfl
      · exact absurd hplace (hleave t rfl m hm)
      · refine .set hm rfl fun hleaves => ?_
        rw [hplace]
        cases next with
        | barrier obj' =>
            dsimp only at hleaves
            split at hleaves <;> cases hleaves
        | leave => rfl
      · exact .set hm rfl fun hleaves => by rw [rawWriteBarrier_stays] at hleaves; cases hleaves
      · exact .set hm rfl fun _ => by rw [hplace]; rfl
  | mark i =>
      obtain ⟨-, op, marks, ops, -, -, rfl⟩ := stepMark_cases hstep
      exact .of_eq rfl
  | initMark =>
      obtain ⟨-, rfl⟩ := guard_eq_some.mp hstep
      exact .map (f := fun m => { m with cmInProgress := true }) rfl fun _ => rfl
  | finalMark =>
      obtain ⟨-, rfl⟩ := guard_eq_some.mp hstep
      exact .map (f := fun m => { m with satbMarkQueue := [], cmInProgress := false }) rfl fun _ => rfl
  | finishMark =>
      obtain ⟨-, ⟨-, rfl⟩ | ⟨cycle, -, -, rfl⟩⟩ := stepFinishMark_cases hstep <;> exact .of_eq rfl
  | sweep r =>
      obtain ⟨cycle, todo, -, -, rfl⟩ := stepSweep_cases hstep
      exact .of_eq rfl
  | skip r =>
      obtain ⟨todo, -, -, rfl⟩ := stepSkip_cases hstep
      exact .of_eq rfl
  | finish =>
      obtain ⟨cycle, -, rfl⟩ := stepFinish_cases hstep
      exact .of_eq rfl
  | cancel =>
      obtain ⟨-, rfl⟩ := guard_not_eq_some.mp hstep
      exact .of_eq rfl
  | abort | full =>
      obtain ⟨-, rfl⟩ := guard_eq_some.mp hstep
      exact .of_eq rfl
  | degenerate =>
      obtain ⟨-, ⟨-, rfl⟩ | ⟨-, rfl⟩ | ⟨-, rfl⟩ | ⟨-, rfl⟩⟩ := stepDegenerate_cases hstep
      · exact .of_eq rfl
      · exact .map (f := fun m => { m with satbMarkQueue := [], cmInProgress := false }) rfl
          fun _ => rfl
      · exact .map (f := fun m => { m with satbMarkQueue := [], cmInProgress := false }) rfl
          fun _ => rfl
      · exact .of_eq rfl

-- A mutator does not cancel a collection.
theorem mutator_cancelled {e : Event} (hstep : s.step c e = some s') (he : e.ofMutator = true) :
    s'.cancelled = s.cancelled := by
  cases e with
  | load t obj slot =>
      obtain ⟨-, m, ref, -, -, -, rfl⟩ := stepLoad_cases hstep
      rfl
  | writeBarrier t obj =>
      obtain ⟨-, m, -, -, -, rfl⟩ := stepWriteBarrier_cases hstep
      rfl
  | store t obj slot value =>
      obtain ⟨-, m, -, -, -, -, -, rfl⟩ := stepStore_cases hstep
      rfl
  | allocate t new =>
      obtain ⟨-, m, regions, -, -, -, -, -, -, rfl⟩ := stepAllocate_cases hstep
      rfl
  | drop t obj =>
      obtain ⟨-, m, -, -, rfl⟩ := stepDrop_cases hstep
      rfl
  | upgrade t weak =>
      obtain ⟨-, m, target, -, -, -, rfl⟩ := stepUpgrade_cases hstep
      rfl
  | attach =>
      obtain ⟨-, rfl⟩ := guard_not_eq_some.mp hstep
      rfl
  | detach t =>
      obtain ⟨-, m, -, -, rfl⟩ := stepDetach_cases hstep
      rfl
  | step t =>
      obtain ⟨-, m, -, hcases⟩ := stepThread_cases hstep
      rcases hcases with ⟨_, -, -, rfl⟩ | ⟨_, _, _, -, rfl⟩ | ⟨-, -, rfl⟩ | ⟨_, _, _, -, rfl⟩ |
        ⟨_, -, rfl⟩ | ⟨-, rfl⟩ <;> rfl
  | _ => cases he

end World

section Memory

variable {c : HeapConfig} {mode : BarrierMode} {s s' : Store} {t : Nat}

theorem isMutator_event (t : Nat) (req : Request) : (req.event t).isMutator = true := by
  cases req <;> rfl

-- A request of a thread only touches the buffer of this thread.
theorem request_tlabs {req : Request} (hstep : s.step mode (req.event t) = some s') :
    s'.tlabs.length = s.tlabs.length ∧ ∀ u, u ≠ t → s'.tlabs[u]? = s.tlabs[u]? := by
  have hset (tlab : ThreadLocalAllocBuffer) : (s.tlabs.set t tlab).length = s.tlabs.length ∧
      ∀ u, u ≠ t → (s.tlabs.set t tlab)[u]? = s.tlabs[u]? :=
    ⟨List.length_set, fun u hu => List.getElem?_set_ne (Ne.symm hu)⟩
  obtain ⟨-, hok⟩ := Store.step_eq_some.mp hstep
  cases req with
  | bump size =>
      simp only [Request.event, Store.perform] at hok
      split at hok
      · obtain rfl := Except.ok.inj hok
        exact ⟨rfl, fun _ _ => rfl⟩
      · obtain rfl := Except.ok.inj hok
        exact hset _
  | retire =>
      simp only [Request.event, Store.perform, Except.bind_eq_ok, Except.pure_eq_ok] at hok
      obtain ⟨⟨tlab, heap⟩, -, rfl⟩ := hok
      exact hset tlab
  | refill size =>
      simp only [Request.event, Store.perform, Except.bind_eq_ok] at hok
      obtain ⟨⟨found, heap⟩, -, hok⟩ := hok
      cases found with
      | none =>
          obtain rfl := Except.ok.inj hok
          exact ⟨rfl, fun _ _ => rfl⟩
      | some found =>
          obtain rfl := Except.ok.inj hok
          exact hset found.2
  | shared size =>
      simp only [Request.event, Store.perform, Except.bind_eq_ok] at hok
      obtain ⟨⟨found, heap⟩, -, hok⟩ := hok
      cases found with
      | none =>
          obtain rfl := Except.ok.inj hok
          exact ⟨rfl, fun _ _ => rfl⟩
      | some mem =>
          obtain rfl := Except.ok.inj hok
          exact ⟨rfl, fun _ _ => rfl⟩

theorem retireAll_length {tlabs tlabs' : List ThreadLocalAllocBuffer} {h h' : Heap}
    (hok : retireAll tlabs h = .ok (tlabs', h')) : tlabs'.length = tlabs.length := by
  induction tlabs generalizing h h' tlabs' with
  | nil =>
      simp only [retireAll, Except.pure_eq_ok, Prod.mk.injEq] at hok
      obtain ⟨rfl, -⟩ := hok
      rfl
  | cons tlab rest ih =>
      simp only [retireAll, Except.bind_eq_ok, Except.pure_eq_ok, Prod.mk.injEq] at hok
      obtain ⟨⟨tlab', mid⟩, -, ⟨rest', last⟩, hrest, rfl, -⟩ := hok
      rw [List.length_cons, List.length_cons, ih hrest]

-- The buffer of a thread that goes holds nothing.
theorem tidy_eraseTlab (ht : s.Tidy c) (hnew : s.tlabs[t]? = some .new) :
    ({ s with tlabs := s.tlabs.eraseIdx t } : Store).Tidy c := by
  obtain ⟨hlt, htlab⟩ := List.getElem?_eq_some_iff.mp hnew
  refine ⟨ht.placed, ht.laid.perm fun i => ?_, fun tlab hmem => ?_, ht.objects, ht.pending⟩
  · have hperm := tailsIn_perm hlt i
    rw [List.getD_eq_getElem s.tlabs .new hlt, htlab, ThreadLocalAllocBuffer.tail_new,
      List.nil_append] at hperm
    exact hperm.append_left _
  · exact ht.tlabs tlab (List.mem_of_mem_eraseIdx hmem)

end Memory

namespace Runtime

variable {c : HeapConfig} {build : Build} {r r' : Runtime} {world : World} {s : Store}

-- What every state of a run keeps: the memory is laid out, the free set offers
-- what can be allocated from, the collector and the memory agree, and the threads
-- on their way out have closed their buffers, as have all while a pause marks.
structure Valid (c : HeapConfig) (r : Runtime) : Prop where
  tidy : r.store.Tidy c
  offers : r.store.Offers c
  agrees : r.Agrees c
  buffers : r.tlabs.length = r.world.threads.length
  closed : ∀ (t : Nat) (m : Mutator), r.world.threads[t]? = some m → m.place.leaves = true →
    r.tlabs[t]? = some .new
  paused : ∀ cycle, r.world.phase = .draining cycle → ∀ tlab ∈ r.tlabs, tlab = .new

-- The memory after a step whose phase asks nothing more of the sweep.
theorem Valid.of_memory (ht : s.Tidy c) (ho : s.Offers c) (ha : (update world s).Agrees c)
    (hpending : ∀ i ∈ world.phase.todo, i < c.opts.regionCount)
    (hvisited : (world.phase.gcPhase = .stopped ∨
        world.phase.gcPhase = .sweeping ∧ world.cancelled = false) →
      ∀ i, i < c.opts.regionCount → (s.heap.regions i).toSweep = true → i ∈ world.phase.todo)
    (hbuffers : s.tlabs.length = world.threads.length)
    (hclosed : ∀ (t : Nat) (m : Mutator), world.threads[t]? = some m → m.place.leaves = true →
      s.tlabs[t]? = some .new)
    (hpaused : ∀ cycle, world.phase = .draining cycle → ∀ tlab ∈ s.tlabs, tlab = .new) :
    (update world s).Valid c where
  tidy := ⟨ht.placed, ht.laid, ht.tlabs, ht.objects, hpending⟩
  offers := ⟨ho.opts_eq, ho.max_eq, ho.sound, hvisited⟩
  agrees := ha
  buffers := hbuffers
  closed := hclosed
  paused := hpaused

theorem Valid.closed_of_same (h : r.Valid c) (hthreads : r.world.SameThreads world) (t : Nat)
    (m : Mutator) (hm : world.threads[t]? = some m) (hleaves : m.place.leaves = true) :
    r.tlabs[t]? = some .new := by
  obtain ⟨m', hm', hleaves'⟩ := hthreads.leaves t m hm hleaves
  exact h.closed t m' hm' hleaves'

-- A step of which the memory sees nothing.
theorem Valid.frame (h : r.Valid c) (hobjects : world.objects = r.world.objects)
    (hhome : world.home = r.world.home) (hregions : world.regions = r.world.regions)
    (hthreads : r.world.SameThreads world)
    (hpending : ∀ i ∈ world.phase.todo, i < c.opts.regionCount)
    (hvisited : (world.phase.gcPhase = .stopped ∨
        world.phase.gcPhase = .sweeping ∧ world.cancelled = false) →
      ∀ i, i < c.opts.regionCount → (r.heap.regions i).toSweep = true → i ∈ world.phase.todo)
    (hpaused : ∀ cycle, world.phase = .draining cycle → r.world.phase = .draining cycle) :
    (update world r.store).Valid c :=
  .of_memory h.tidy h.offers
    (h.agrees.of_same hobjects hhome hregions rfl (fun _ => rfl) fun _ => rfl) hpending hvisited
    (h.buffers.trans hthreads.length_eq.symm) (h.closed_of_same hthreads)
    fun cycle hcycle => h.paused cycle (hpaused cycle hcycle)

theorem Valid.frame_phase (h : r.Valid c) (hobjects : world.objects = r.world.objects)
    (hhome : world.home = r.world.home) (hregions : world.regions = r.world.regions)
    (hthreads : r.world.SameThreads world) (hphase : world.phase = r.world.phase)
    (hcancelled : world.cancelled = r.world.cancelled) : (update world r.store).Valid c := by
  refine h.frame hobjects hhome hregions hthreads ?_ ?_ ?_
  · rw [hphase]
    exact h.tidy.pending
  · rw [hphase, hcancelled]
    exact h.offers.visited
  · rw [hphase]
    exact fun _ => id

-- The pauses begin with the buffers.
theorem Valid.retire (h : r.Valid c) (hok : r.store.retireTlabs = .ok s)
    (hobjects : world.objects = r.world.objects) (hhome : world.home = r.world.home)
    (hregions : world.regions = r.world.regions) (hthreads : r.world.SameThreads world)
    (hpending : ∀ i ∈ world.phase.todo, i < c.opts.regionCount)
    (hvisited : (world.phase.gcPhase = .stopped ∨
        world.phase.gcPhase = .sweeping ∧ world.cancelled = false) →
      ∀ i, i < c.opts.regionCount → (s.heap.regions i).toSweep = true → i ∈ world.phase.todo) :
    (update world s).Valid c := by
  obtain ⟨ht, hnew⟩ := h.tidy.retireTlabs h.offers.sound hok
  have ho := h.offers.retireTlabs hok
  obtain ⟨tlabs, heap, hretire, rfl⟩ := Store.retireTlabs_eq_ok hok
  have hshape := (Store.retireAll_sound h.offers.sound hretire).2
  have hlength : tlabs.length = r.tlabs.length := retireAll_length hretire
  refine .of_memory ht ho ?_ hpending hvisited ?_ (fun t m hm _ => ?_) fun _ _ => hnew
  · exact h.agrees.of_same hobjects hhome hregions rfl (Store.retireAll_sameStates hretire)
      fun i => (hshape.frame i).toSweep_eq
  · exact hlength.trans (h.buffers.trans hthreads.length_eq.symm)
  · have hlt : t < tlabs.length := by
      rw [hlength, h.buffers, ← hthreads.length_eq]
      exact (List.getElem?_eq_some_iff.mp hm).1
    rw [List.getElem?_eq_getElem hlt]
    exact congrArg some (hnew _ (List.getElem_mem hlt))

end Runtime

end Rsgc.Collection
