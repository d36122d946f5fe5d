import Rsgc.Collection.Runtime.Invariant

namespace Rsgc.Collection

open Marking Storage

theorem gcPhase_running {p : Phase} (h : p.stopped = false) : p.gcPhase ≠ .stopped := by
  cases p with
  | idle | marking | draining _ => simp [Phase.gcPhase]
  | sweeping cycle todo => cases cycle <;> simp_all [Phase.gcPhase, Phase.stopped]

theorem not_draining_of_running {p : Phase} (h : p.stopped = false) (cycle : Cycle) :
    p ≠ .draining cycle := by
  rintro rfl
  cases h

namespace Runtime

variable {c : HeapConfig} {build : Build} {r r' : Runtime} {world : World} {s : Store}
  {mode : BarrierMode}

-- A step of a mutator of which the memory sees nothing.
theorem Valid.mutator (h : r.Valid c) {e : Event}
    (hstep : r.world.step (configOf c build) e = some world) (he : e.ofMutator = true)
    (hsame : r.world.SameHeap world) (hthreads : r.world.SameThreads world) :
    (update world r.store).Valid c :=
  h.frame_phase hsame.objects hsame.home hsame.regions hthreads
    (World.step_of_mutator hstep he).phase (World.mutator_cancelled hstep he)

theorem Valid.attach (h : r.Valid c) (hstep : r.world.stepAttach = some world)
    (hok : r.store.perform mode .register = .ok s) : (update world s).Valid c := by
  obtain ⟨hrun, rfl⟩ := guard_not_eq_some.mp hstep
  have hregister : r.store.step mode .register = some s :=
    Store.step_eq_some.mpr ⟨gcPhase_running (Bool.eq_false_iff.mpr hrun), hok⟩
  have ht := h.tidy.step (e := .register) h.offers trivial hregister
  have ho := h.offers.step hregister
  obtain rfl := Except.ok.inj hok
  refine .of_memory ht ho ?_ h.tidy.pending h.offers.visited ?_ (fun t m hm hleaves => ?_)
    fun cycle hcycle => absurd hcycle (not_draining_of_running (Bool.eq_false_iff.mpr hrun) cycle)
  · exact h.agrees.of_same rfl rfl rfl rfl (fun _ => rfl) fun _ => rfl
  · change (r.tlabs ++ [_]).length = (r.world.threads ++ [_]).length
    rw [List.length_append, List.length_append, h.buffers]
    rfl
  · change (r.world.threads ++ [_])[t]? = some m at hm
    change (r.tlabs ++ [_])[t]? = some _
    rcases Nat.lt_trichotomy t r.world.threads.length with hlt | rfl | hgt
    · rw [List.getElem?_append_left hlt] at hm
      rw [List.getElem?_append_left (by rw [h.buffers]; exact hlt)]
      exact h.closed t m hm hleaves
    · rw [← h.buffers]
      exact List.getElem?_concat_length
    · rw [List.getElem?_eq_none (by simp only [List.length_append, List.length_singleton]; omega)]
        at hm
      cases hm

theorem Valid.detach (h : r.Valid c) {t : Nat} (hstep : r.world.stepDetach t = some world)
    (hok : r.store.perform mode (.retire t) = .ok s) : (update world s).Valid c := by
  obtain ⟨hrun, m, hm, -, rfl⟩ := World.stepDetach_cases hstep
  have hlt : t < r.tlabs.length := by
    rw [h.buffers]
    exact (List.getElem?_eq_some_iff.mp hm).1
  have hretire : r.store.step mode (.retire t) = some s :=
    Store.step_eq_some.mpr ⟨⟨gcPhase_running hrun, hlt⟩, hok⟩
  have ht := h.tidy.step (e := .retire t) h.offers trivial hretire
  have ho := h.offers.step hretire
  simp only [Store.perform, Except.bind_eq_ok, Except.pure_eq_ok] at hok
  obtain ⟨⟨tlab, heap⟩, htlab, rfl⟩ := hok
  have hshape := (ThreadLocalAllocBuffer.retire_sound h.offers.sound htlab).2
  obtain ⟨-, hnew⟩ := (h.tidy.laid.perm (Store.held_perm hlt)).retire (h.tidy.tlab_ok hlt)
    h.tidy.placed htlab
  have hclosed : (r.tlabs.set t tlab)[t]? = some .new := by
    rw [List.getElem?_set_self hlt, hnew]
  refine .of_memory ht ho ?_ h.tidy.pending ?_ ?_ (fun u m' hm' hleaves => ?_)
    fun cycle hcycle => absurd hcycle (not_draining_of_running hrun cycle)
  · exact h.agrees.of_same rfl rfl rfl rfl (Heap.retire_sameStates htlab)
      fun i => (hshape.frame i).toSweep_eq
  · intro hcycle i hi hflag
    exact h.offers.visited hcycle i hi ((hshape.frame i).toSweep_eq ▸ hflag)
  · change (r.tlabs.set t tlab).length = (r.world.threads.set t _).length
    rw [List.length_set, List.length_set, h.buffers]
  · change (r.world.threads.set t _)[u]? = some m' at hm'
    change (r.tlabs.set t tlab)[u]? = some _
    by_cases htu : t = u
    · subst htu
      exact hclosed
    · rw [List.getElem?_set_ne htu] at hm' ⊢
      exact h.closed u m' hm' hleaves

theorem Valid.leave (h : r.Valid c) {t : Nat} {m : Mutator} (hm : r.world.threads[t]? = some m)
    (hrun : r.world.phase.stopped = false) (hplace : m.place = .leaving) :
    (update { r.world with threads := r.world.threads.eraseIdx t }
      { r.store with tlabs := r.tlabs.eraseIdx t }).Valid c := by
  have hnew : r.tlabs[t]? = some .new := h.closed t m hm (by rw [hplace]; rfl)
  have ht := tidy_eraseTlab h.tidy hnew
  refine .of_memory ht ⟨h.offers.opts_eq, h.offers.max_eq, h.offers.sound, h.offers.visited⟩ ?_
    h.tidy.pending h.offers.visited ?_ (fun u m' hm' hleaves => ?_)
    fun cycle hcycle => absurd hcycle (not_draining_of_running hrun cycle)
  · exact h.agrees.of_same rfl rfl rfl rfl (fun _ => rfl) fun _ => rfl
  · change (r.tlabs.eraseIdx t).length = (r.world.threads.eraseIdx t).length
    rw [List.length_eraseIdx, List.length_eraseIdx, h.buffers]
  · change (r.world.threads.eraseIdx t)[u]? = some m' at hm'
    change (r.tlabs.eraseIdx t)[u]? = some _
    rw [List.getElem?_eraseIdx] at hm' ⊢
    split
    · rename_i hlt
      rw [if_pos hlt] at hm'
      exact h.closed u m' hm' hleaves
    · rename_i hge
      rw [if_neg hge] at hm'
      exact h.closed (u + 1) m' hm' hleaves

theorem Valid.thread (h : r.Valid c) {t : Nat}
    (hstep : r.world.step (configOf c build) (.step t) = some world)
    (hok : r.respond mode (.step t) = .ok s) : (update world s).Valid c := by
  obtain rfl := Except.ok.inj hok
  obtain ⟨hrun, m, hm, hcases⟩ := World.stepThread_cases hstep
  by_cases hplace : m.place = .leaving
  · rcases hcases with ⟨_, -, hother, -⟩ | ⟨_, _, _, hother, -⟩ | ⟨-, -, rfl⟩ |
      ⟨_, _, _, hother, -⟩ | ⟨_, hother, -⟩ | ⟨hother, -⟩
    · rw [hplace] at hother
      cases hother
    · rw [hplace] at hother
      cases hother
    · rw [if_pos (by simp [leaves, hm, hplace])]
      exact h.leave hm hrun hplace
    all_goals
      rw [hplace] at hother
      cases hother
  · rw [if_neg (by simp [leaves, hm, hplace])]
    refine h.mutator hstep rfl (World.step_frame hstep rfl)
      (World.step_threads hstep (by simp) (by simp) fun u hu m' hm' => ?_)
    obtain rfl := Event.step.inj hu
    obtain rfl := Option.some.inj (hm.symm.trans hm')
    exact hplace

-- The pause has marked. A degenerated collection prepares no regions.
theorem Valid.finishMark (h : r.Valid c)
    (hstep : r.world.stepFinishMark (configOf c build) = some world)
    (hok : r.respond mode .finishMark = .ok s) : (update world s).Valid c := by
  obtain rfl := Except.ok.inj hok
  have hrange (i : Nat) : i ∈ List.range (configOf c build).numRegions ↔ i < c.opts.regionCount :=
    List.mem_range
  obtain ⟨-, ⟨hphase, rfl⟩ | ⟨cycle, hcycle, hphase, rfl⟩⟩ := World.stepFinishMark_cases hstep
  · rw [if_pos hphase]
    exact h.frame rfl rfl rfl (.of_eq rfl) (fun i => (hrange i).mp) (fun _ i hi _ => (hrange i).mpr hi)
      fun _ hother => by cases hother
  · rw [if_neg (by rw [hphase]; simpa using hcycle)]
    have ht := (h.tidy.prepareSweep (h.paused cycle hphase) : (r.store.prepareSweep r.store.phase).Tidy c)
    exact .of_memory ht h.offers.startSweep (h.agrees.prepare h.tidy rfl rfl rfl rfl rfl)
      (fun i => (hrange i).mp) (fun _ i hi _ => (hrange i).mpr hi) h.buffers h.closed
      fun _ hother => by cases hother

theorem Valid.sweepStep (h : r.Valid c) {i : Nat} (hstep : r.world.stepSweep i = some world)
    (hok : r.store.sweepIndex i = .ok s) : (update world s).Valid c := by
  obtain ⟨cycle, todo, hphase, hi, rfl⟩ := World.stepSweep_cases hstep
  have htodo : r.store.unswept = todo := by
    change r.world.phase.todo = todo
    rw [hphase]
    rfl
  have hmem : i ∈ r.store.unswept := htodo ▸ hi
  have ht := h.tidy.sweepIndex hmem hok
  have ho := h.offers.sweepIndex hok
  have ha : (update { r.world.sweepRegion i with phase := .sweeping cycle (todo.erase i) } s).Agrees
      c := h.agrees.sweep h.tidy (h.tidy.pending i hmem) hok rfl rfl rfl
  obtain ⟨heap, -, rfl⟩ := Store.sweepIndex_eq_ok hok
  have hgc : r.store.phase = (Phase.sweeping cycle (todo.erase i)).gcPhase := by
    change r.world.phase.gcPhase = _
    rw [hphase]
    cases cycle <;> rfl
  refine .of_memory ht ho ha (fun j hj => h.tidy.pending j (htodo ▸ List.mem_of_mem_erase hj))
    (fun hcycle j hj hflag => ?_) h.buffers h.closed fun _ hother => by cases hother
  have hvisited := ho.visited (by rw [hgc]; exact hcycle) j hj hflag
  rw [htodo] at hvisited
  exact hvisited

theorem Valid.finishStep (h : r.Valid c) (hstep : r.world.stepFinish = some world)
    (hok : r.respond mode .finish = .ok s) : (update world s).Valid c := by
  obtain ⟨cycle, hphase, rfl⟩ := World.stepFinish_cases hstep
  simp only [respond] at hok
  split at hok
  · obtain rfl := Except.ok.inj hok
    exact h.frame rfl rfl rfl (.of_eq rfl) (by simp [Phase.todo]) (by simp [Phase.gcPhase]) (by simp)
  · rename_i hdone
    have hunswept : r.store.unswept = [] := by
      change r.world.phase.todo = []
      rw [hphase]
      rfl
    have hgc : r.store.phase = (Phase.sweeping cycle []).gcPhase := by
      change r.world.phase.gcPhase = _
      rw [hphase]
    have hcycle : r.store.phase = .stopped ∨ r.store.phase = .sweeping ∧ r.store.cancelled = false := by
      rw [hgc]
      cases cycle with
      | concurrent => exact Or.inr ⟨rfl, Bool.eq_false_iff.mpr fun hc => hdone ⟨hphase, hc⟩⟩
      | degenerated | full => exact Or.inl rfl
    have ht := h.tidy.finish hok
    have ho := h.offers.finish hunswept hcycle hok
    obtain ⟨heap, hrebuild, rfl⟩ := Store.finish_eq_ok hok
    obtain ⟨fs, heq, -⟩ := r.heap.rebuild_eq
    obtain rfl : r.heap.setFreeSet fs = heap := by
      have hrebuild : r.heap.rebuild = .ok heap := hrebuild
      rw [heq] at hrebuild
      exact Except.ok.inj hrebuild
    refine .of_memory ht ho ?_ (by simp [Phase.todo]) (by simp [Phase.gcPhase]) h.buffers h.closed
      (by simp)
    exact h.agrees.of_same rfl rfl rfl rfl (fun _ => rfl) fun _ => rfl

-- The pauses that begin with the marking.
theorem Valid.pause (h : r.Valid c) (hok : r.store.retireTlabs = .ok s)
    (hsame : r.world.SameHeap world) (hthreads : r.world.SameThreads world)
    (hphase : world.phase = .idle ∨ world.phase = .marking ∨ (∃ cycle, world.phase = .draining cycle) ∨
      world.phase = .sweeping .degenerated (List.range c.opts.regionCount)) :
    (update world s).Valid c := by
  refine h.retire hok hsame.objects hsame.home hsame.regions hthreads ?_ ?_
  · rcases hphase with hphase | hphase | ⟨cycle, hphase⟩ | hphase <;> rw [hphase]
    · simp [Phase.todo]
    · simp [Phase.todo]
    · simp [Phase.todo]
    · exact fun i hi => List.mem_range.mp hi
  · rcases hphase with hphase | hphase | ⟨cycle, hphase⟩ | hphase <;> rw [hphase]
    · simp [Phase.gcPhase]
    · simp [Phase.gcPhase]
    · simp [Phase.gcPhase]
    · exact fun _ i hi _ => List.mem_range.mpr hi

theorem Valid.worldStep (h : r.Valid c) {e : Event} (hnew : ∀ t new, e ≠ .allocate t new)
    (hstep : r.world.step (configOf c build) e = some world) (hok : r.respond mode e = .ok s) :
    (update world s).Valid c := by
  cases e with
  | load | writeBarrier | drop | upgrade =>
      obtain rfl := Except.ok.inj hok
      exact h.mutator hstep rfl (World.step_frame hstep rfl)
        (World.step_threads hstep (by simp) (by simp) (by simp))
  | store t obj slot value =>
      obtain rfl := Except.ok.inj hok
      have hthreads := World.step_threads hstep (by simp) (by simp) (by simp)
      obtain ⟨-, m, -, -, -, -, _, rfl⟩ := World.stepStore_cases hstep
      exact h.frame_phase rfl rfl rfl hthreads rfl rfl
  | allocate t new => exact absurd rfl (hnew t new)
  | attach =>
      have hregister : r.store.perform mode .register = .ok s := hok
      exact h.attach hstep hregister
  | detach t =>
      have hretire : r.store.perform mode (.retire t) = .ok s := hok
      exact h.detach hstep hretire
  | step t => exact h.thread hstep hok
  | mark i =>
      obtain rfl := Except.ok.inj hok
      obtain ⟨-, op, marks, ops, -, -, rfl⟩ := World.stepMark_cases hstep
      exact h.frame_phase rfl rfl rfl (.of_eq rfl) rfl rfl
  | initMark =>
      refine h.pause hok (World.step_frame hstep rfl)
        (World.step_threads hstep (by simp) (by simp) (by simp)) ?_
      obtain ⟨-, rfl⟩ := guard_eq_some.mp hstep
      exact Or.inr (Or.inl rfl)
  | finalMark | full =>
      refine h.pause hok (World.step_frame hstep rfl)
        (World.step_threads hstep (by simp) (by simp) (by simp)) ?_
      obtain ⟨-, rfl⟩ := guard_eq_some.mp hstep
      exact Or.inr (Or.inr (Or.inl ⟨_, rfl⟩))
  | degenerate =>
      refine h.pause hok (World.step_frame hstep rfl)
        (World.step_threads hstep (by simp) (by simp) (by simp)) ?_
      obtain ⟨⟨hidle, -⟩, ⟨-, rfl⟩ | ⟨-, rfl⟩ | ⟨-, rfl⟩ | ⟨-, rfl⟩⟩ :=
        World.stepDegenerate_cases hstep
      · exact Or.inl hidle
      · exact Or.inr (Or.inr (Or.inl ⟨_, rfl⟩))
      · exact Or.inr (Or.inr (Or.inl ⟨_, rfl⟩))
      · exact Or.inr (Or.inr (Or.inr rfl))
  | finishMark => exact h.finishMark hstep hok
  | sweep i => exact h.sweepStep hstep hok
  | skip i =>
      obtain rfl := Except.ok.inj hok
      obtain ⟨todo, hphase, hcancelled, rfl⟩ := World.stepSkip_cases hstep
      have htodo : r.store.unswept = todo := by
        change r.world.phase.todo = todo
        rw [hphase]
        rfl
      refine h.frame rfl rfl rfl (.of_eq rfl) (fun j hj => ?_) ?_ (by simp)
      · exact h.tidy.pending j (htodo ▸ List.mem_of_mem_erase hj)
      · simp [Phase.gcPhase, hcancelled]
  | finish => exact h.finishStep hstep hok
  | cancel =>
      obtain rfl := Except.ok.inj hok
      obtain ⟨hrun, rfl⟩ := guard_not_eq_some.mp hstep
      refine h.frame rfl rfl rfl (.of_eq rfl) h.tidy.pending ?_ fun _ => id
      have hgc := gcPhase_running (Bool.eq_false_iff.mpr hrun)
      rintro (hstopped | ⟨-, hcancelled⟩)
      · exact absurd hstopped hgc
      · cases hcancelled
  | abort =>
      obtain rfl := Except.ok.inj hok
      obtain ⟨-, rfl⟩ := guard_eq_some.mp hstep
      exact h.frame rfl rfl rfl (.of_eq rfl) (by simp [Phase.todo]) (by simp [Phase.gcPhase]) (by simp)

-- A thread that asks has a buffer, and the memory lets it.
theorem Asks.thread {t : Nat} (h : r.Asks t) :
    r.world.phase.stopped = false ∧ ∃ m, r.world.threads[t]? = some m ∧ m.place = .free := by
  obtain ⟨m, hm, hplace⟩ := (Option.any_eq_true ..).mp h.2
  exact ⟨h.1, m, hm, of_decide_eq_true hplace⟩

-- What a request can come to: no memory for an object, or a new block.
theorem Valid.request_cases (h : r.Valid c) {t : Nat} {req : Request}
    (hroomy : r.store.Roomy (req.event t)) (hstep : r.store.step mode (req.event t) = some s) :
    s.Tidy c ∧ s.Offers c ∧ r.heap.SameShape s.heap ∧
      ((r.given s = none ∧ s.objects = r.blocks ∧ r.heap.Opens s.heap) ∨
        ∃ b, r.given s = some b ∧ Store.Gains c r.store s b) := by
  obtain ⟨hshape, hcases⟩ :=
    Store.mutator_cases h.offers h.tidy (isMutator_event t req) hroomy hstep
  refine ⟨h.tidy.step h.offers hroomy hstep, h.offers.step hstep, hshape, ?_⟩
  rcases hcases with ⟨hobjects, hopens⟩ | ⟨b, hgains⟩
  · refine Or.inl ⟨?_, hobjects, hopens⟩
    have hsame : s.objects = r.blocks := hobjects
    rw [given, hsame, if_neg (Nat.lt_irrefl _)]
  · refine Or.inr ⟨b, ?_, hgains⟩
    have hcons : s.objects = b :: r.blocks := hgains.1
    rw [given, hcons, if_pos (by simp)]
    rfl

theorem Valid.request (h : r.Valid c) {t : Nat} {req : Request} {new : NewObject}
    (hroomy : r.store.Roomy (req.event t))
    (hstep : r.step c build (.request t req new) = some r') : r'.Valid c := by
  obtain ⟨hasks, hstep⟩ := Option.ite_none_right_eq_some.mp hstep
  obtain ⟨s, hs, hreceive⟩ := Option.bind_eq_some_iff.mp hstep
  obtain ⟨hrun, m, hm, hplace⟩ := hasks.thread
  obtain ⟨ht, ho, hshape, hcases⟩ := h.request_cases hroomy hs
  obtain ⟨hlength, hothers⟩ := request_tlabs hs
  have hvisited : ∀ world : World, world.phase = r.world.phase → world.cancelled = r.world.cancelled →
      (world.phase.gcPhase = .stopped ∨
        world.phase.gcPhase = .sweeping ∧ world.cancelled = false) →
      ∀ i, i < c.opts.regionCount → (s.heap.regions i).toSweep = true → i ∈ world.phase.todo := by
    intro world hphase hcancelled hcycle i hi hflag
    rw [hphase, hcancelled] at hcycle
    rw [hphase]
    exact h.offers.visited hcycle i hi ((hshape.frame i).toSweep_eq ▸ hflag)
  have hclosed : ∀ world : World, r.world.SameThreads world → ∀ (u : Nat) (m' : Mutator),
      world.threads[u]? = some m' → m'.place.leaves = true → s.tlabs[u]? = some .new := by
    intro world hthreads u m' hm' hleaves
    have hold := h.closed_of_same hthreads u m' hm' hleaves
    obtain ⟨m'', hm'', hleaves'⟩ := hthreads.leaves u m' hm' hleaves
    rw [hothers u]
    · exact hold
    · rintro rfl
      obtain rfl := Option.some.inj (hm.symm.trans hm'')
      rw [hplace] at hleaves'
      cases hleaves'
  unfold receive at hreceive
  rcases hcases with ⟨hnone, hobjects, hopens⟩ | ⟨b, hsome, hgains⟩
  · rw [hnone] at hreceive
    obtain rfl := Option.some.inj hreceive
    refine .of_memory ht ho (h.agrees.opens h.tidy rfl rfl rfl hobjects hopens hshape) h.tidy.pending
      (hvisited _ rfl rfl) (hlength.trans h.buffers) (hclosed _ (.of_eq rfl)) ?_
    exact fun cycle hcycle => absurd hcycle (not_draining_of_running hrun cycle)
  · rw [hsome] at hreceive
    obtain ⟨world, hworld, rfl⟩ := Option.map_eq_some_iff.mp hreceive
    have hbeside := World.step_of_mutator hworld rfl
    have hcancelled := World.mutator_cancelled hworld rfl
    have hthreads := World.step_threads hworld (by simp) (by simp) (by simp)
    obtain ⟨regions, hplaced, hshows⟩ :=
      h.agrees.place h.tidy ht hgains build hshape new
    refine .of_memory ht ho ?_ ?_ (hvisited _ hbeside.phase hcancelled)
      (hlength.trans (h.buffers.trans hthreads.length_eq.symm)) (hclosed _ hthreads) ?_
    · have hobjects : s.objects = b :: r.blocks := hgains.1
      obtain ⟨-, m', regions', -, -, -, -, -, hplaced', rfl⟩ := World.stepAllocate_cases hworld
      obtain rfl := Option.some.inj (hplaced'.symm.trans hplaced)
      refine ⟨fun o => ?_, fun b' hb' => ?_, hshows⟩
      · change o ∈ b.addr :: r.world.objects ↔ ∃ b' ∈ s.objects, b'.addr = o
        rw [hobjects, List.mem_cons, h.agrees.objects]
        simp [eq_comm]
      · change b' ∈ s.objects at hb'
        change Function.update r.world.home b.addr (c.regionIndex b.addr) b'.addr = _
        rcases List.mem_cons.mp (hobjects ▸ hb') with rfl | hold
        · rw [Function.update_self]
        · rw [Function.update_of_ne (fresh_block ht hgains hold)]
          exact h.agrees.home b' hold
    · rw [hbeside.phase]
      exact h.tidy.pending
    · rw [hbeside.phase]
      exact fun cycle hcycle => absurd hcycle (not_draining_of_running hrun cycle)

-- A refill finds room for its object.
def Roomy (r : Runtime) : RuntimeEvent → Prop
  | .world _ => True
  | .request t req _ => r.store.Roomy (req.event t)

theorem step_world {e : Event} (hstep : r.step c build (.world e) = some r') :
    (∀ t new, e ≠ .allocate t new) ∧ ∃ world s, r.world.step (configOf c build) e = some world ∧
      r.respond build.barrierMode e = .ok s ∧ r' = update world s := by
  have hbind (h : (r.world.step (configOf c build) e).bind (fun world =>
      ((r.respond build.barrierMode e).toOption).map fun s => update world s) = some r') :
      ∃ world s, r.world.step (configOf c build) e = some world ∧
        r.respond build.barrierMode e = .ok s ∧ r' = update world s := by
    obtain ⟨world, hworld, h⟩ := Option.bind_eq_some_iff.mp h
    obtain ⟨s, hs, rfl⟩ := Option.map_eq_some_iff.mp h
    exact ⟨world, s, hworld, Except.toOption_eq_some.mp hs, rfl⟩
  cases e with
  | allocate t new => cases hstep
  | _ => exact ⟨by simp, hbind hstep⟩

theorem Valid.step (h : r.Valid c) {e : RuntimeEvent} (hroomy : r.Roomy e)
    (hstep : r.step c build e = some r') : r'.Valid c := by
  cases e with
  | world e =>
      obtain ⟨hnew, world, s, hworld, hok, rfl⟩ := step_world hstep
      exact h.worldStep hnew hworld hok
  | request t req new => exact h.request hroomy hstep

end Runtime

end Rsgc.Collection
