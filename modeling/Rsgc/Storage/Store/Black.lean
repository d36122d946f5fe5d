import Rsgc.Storage.Store.Layout

namespace Rsgc.Storage

namespace Store

variable {c : HeapConfig} {mode : BarrierMode} {s t : Store}

-- From the init-mark safepoint to the end of the concurrent sweep.
def InCycle (s : Store) : Prop := s.phase = .marking ∨ s.phase = .sweeping

-- What was allocated in the cycle is marked, and no sweep has freed it.
def Black (s : Store) : Prop :=
  s.InCycle → ∀ b ∈ s.fresh, s.marks b.addr = true ∧ b ∈ s.objects

-- Steps that touch neither the marks nor the records.
theorem Black.congr (hb : s.Black) (hphase : t.phase = s.phase) (hmarks : t.marks = s.marks)
    (hobjects : t.objects = s.objects) (hfresh : t.fresh = s.fresh) : t.Black := by
  intro hcycle b hmem
  unfold InCycle at hcycle
  rw [hphase] at hcycle
  rw [hfresh] at hmem
  rw [hmarks, hobjects]
  exact hb hcycle b hmem

-- The mutator marks the object before the collector can look at it.
theorem Black.place (hb : s.Black) (mem size : Nat) : (place .satb s mem size).Black := by
  intro hcycle b hmem
  have hcycle : s.InCycle := hcycle
  have hfresh : (Store.place .satb s mem size).fresh = ⟨mem, size, .object⟩ :: s.fresh :=
    if_pos hcycle
  have hmarks : (Store.place .satb s mem size).marks = Function.update s.marks mem true := by
    simp [Store.place]
  rw [hfresh] at hmem
  rw [hmarks]
  rcases List.mem_cons.mp hmem with rfl | hmem
  · exact ⟨Function.update_self _ _ _, List.mem_cons_self⟩
  · obtain ⟨hmark, hobject⟩ := hb hcycle b hmem
    refine ⟨?_, List.mem_cons_of_mem _ hobject⟩
    by_cases haddr : b.addr = mem
    · rw [haddr, Function.update_self]
    · rw [Function.update_of_ne haddr, hmark]

-- A visit of the sweeper keeps what is marked.
theorem Black.sweepIndex (hb : s.Black) (ht : s.Tidy c) {i : Nat} (hi : i ∈ s.unswept)
    (hok : s.sweepIndex i = .ok t) : t.Black := by
  obtain ⟨heap, hsweep, rfl⟩ := sweepIndex_eq_ok hok
  intro hcycle b hmem
  obtain ⟨hmark, hobject⟩ := hb hcycle b hmem
  refine ⟨hmark, ?_⟩
  obtain ⟨hkind, _⟩ := ht.objects b hobject
  have hlt : i < s.heap.numRegions := by
    rw [ht.placed.numRegions_eq]
    exact ht.pending i hi
  have hin : b ∈ objectsIn c s.objects (c.regionIndex b.addr) :=
    List.mem_filter.mpr ⟨hobject, by simp⟩
  have hsurvives : b ∈ objectsIn c (s.objects.filter fun o => heap.isLive o.addr)
      (c.regionIndex b.addr) := by
    rw [ht.objectsIn_swept hlt hsweep, Heap.mem_survivors hkind]
    refine ⟨hin, ?_⟩
    rintro ⟨_, _, hunmarked⟩
    rw [hmark] at hunmarked
    cases hunmarked
  exact (List.mem_filter.mp hsurvives).1

theorem retireTlabs_records (hok : s.retireTlabs = .ok t) : t.phase = s.phase ∧
    t.marks = s.marks ∧ t.objects = s.objects ∧ t.fresh = s.fresh := by
  obtain ⟨tlabs, heap, _, rfl⟩ := retireTlabs_eq_ok hok
  exact ⟨rfl, rfl, rfl, rfl⟩

theorem Black.step {e : StoreEvent} (hb : s.Black) (ht : s.Tidy c)
    (hstep : s.step .satb e = some t) : t.Black := by
  obtain ⟨henabled, hok⟩ := step_eq_some.mp hstep
  cases e with
  | register | cancel | skip index =>
      obtain rfl := Except.ok.inj hok
      exact hb.congr rfl rfl rfl rfl
  | bump thread size =>
      simp only [perform] at hok
      split at hok
      · obtain rfl := Except.ok.inj hok
        exact hb
      · rename_i mem tlab heap _
        obtain rfl := Except.ok.inj hok
        have hset : (s.setTlab thread tlab heap).Black := hb.congr rfl rfl rfl rfl
        exact hset.place mem size
  | refill thread size =>
      simp only [perform, Except.bind_eq_ok] at hok
      obtain ⟨⟨found, heap⟩, _, hok⟩ := hok
      cases found with
      | none =>
          obtain rfl := Except.ok.inj hok
          exact hb.congr rfl rfl rfl rfl
      | some found =>
          obtain ⟨mem, tlab⟩ := found
          obtain rfl := Except.ok.inj hok
          have hset : (s.setTlab thread tlab heap).Black := hb.congr rfl rfl rfl rfl
          exact hset.place mem size
  | retire thread =>
      simp only [perform, Except.bind_eq_ok, Except.pure_eq_ok] at hok
      obtain ⟨retired, _, rfl⟩ := hok
      exact hb.congr rfl rfl rfl rfl
  | shared size =>
      simp only [perform, Except.bind_eq_ok] at hok
      obtain ⟨⟨found, heap⟩, _, hok⟩ := hok
      cases found with
      | none =>
          obtain rfl := Except.ok.inj hok
          exact hb.congr rfl rfl rfl rfl
      | some mem =>
          obtain rfl := Except.ok.inj hok
          have hset : ({ s with heap := heap } : Store).Black := hb.congr rfl rfl rfl rfl
          exact hset.place mem size
  | initMark =>
      simp only [perform, Except.bind_eq_ok, Except.pure_eq_ok] at hok
      obtain ⟨u, _, rfl⟩ := hok
      intro _ b hmem
      cases hmem
  | mark addr =>
      obtain rfl := Except.ok.inj hok
      intro hcycle b hmem
      obtain ⟨hmark, hobject⟩ := hb hcycle b hmem
      refine ⟨?_, hobject⟩
      by_cases haddr : b.addr = addr
      · simp [haddr]
      · simp [Function.update_of_ne haddr, hmark]
  | unmark addr => exact absurd rfl henabled.2
  | finalMark =>
      simp only [perform, Except.bind_eq_ok, Except.pure_eq_ok] at hok
      obtain ⟨u, hretire, rfl⟩ := hok
      obtain ⟨_, hmarks, hobjects, hfresh⟩ := retireTlabs_records hretire
      intro _ b hmem
      have hmem : b ∈ u.fresh := hmem
      rw [hfresh] at hmem
      change u.marks b.addr = true ∧ b ∈ u.objects
      rw [hmarks, hobjects]
      exact hb (Or.inl henabled.1) b hmem
  | sweep index => exact hb.sweepIndex ht henabled.2 hok
  | abort =>
      obtain rfl := Except.ok.inj hok
      intro hcycle
      simp [InCycle] at hcycle
  | finishSweep | finishStopped =>
      obtain ⟨heap, _, rfl⟩ := finish_eq_ok hok
      intro hcycle
      simp [InCycle] at hcycle
  | stop marks | degenerate marks =>
      simp only [perform, Except.bind_eq_ok, Except.pure_eq_ok] at hok
      obtain ⟨u, _, rfl⟩ := hok
      intro hcycle
      simp [InCycle, prepareSweep] at hcycle

theorem black_of_via (hs : (storeMachine c .satb).Via Roomy s) : s.Black := by
  refine Machine.Via.invariant_of (fun _ h => tidy_of_via h) (fun u hinit => ?_)
    (fun _ _ _ ht hb _ hstep => hb.step ht hstep) hs
  obtain ⟨fs, _, heq⟩ := newStore_eq c
  have hinit : newStore c = .ok u := hinit
  rw [heq] at hinit
  obtain rfl := Except.ok.inj hinit
  intro hcycle
  simp [InCycle] at hcycle

-- Everything allocated since the init-mark safepoint is still allocated, in every
-- state of the cycle and when its sweep is over.
theorem fresh_objects_survive (c : HeapConfig) (s : Store)
    (hs : (storeMachine c .satb).Via Roomy s) :
    (s.InCycle → ∀ b ∈ s.fresh, b ∈ s.objects ∧ s.heap.isLive b.addr = true) ∧
      ∀ t, s.step .satb .finishSweep = some t →
        ∀ b ∈ s.fresh, b ∈ t.objects ∧ t.heap.isLive b.addr = true := by
  have hblack := black_of_via hs
  have ht := tidy_of_via hs
  have hlive : ∀ u : Store, u.Tidy c → ∀ b ∈ u.objects, u.heap.isLive b.addr = true := by
    intro u hu b hb
    obtain ⟨hkind, hlt⟩ := hu.objects b hb
    have hheld : b ∈ held c u (c.regionIndex b.addr) :=
      List.mem_append_left _ (List.mem_filter.mpr ⟨hb, by simp⟩)
    exact hu.laid.isLive hu.placed (hu.placed.numRegions_eq ▸ hlt) hheld hkind
  refine ⟨fun hcycle b hb => ?_, fun t hstep b hb => ?_⟩
  · obtain ⟨_, hobject⟩ := hblack hcycle b hb
    exact ⟨hobject, hlive s ht b hobject⟩
  · have htidy := ht.step (offers_of_reachable hs.reachable) (e := .finishSweep) trivial hstep
    obtain ⟨henabled, hok⟩ := step_eq_some.mp hstep
    obtain ⟨_, hobject⟩ := hblack (Or.inr henabled.1) b hb
    obtain ⟨heap, _, rfl⟩ := finish_eq_ok hok
    exact ⟨hobject, hlive _ htidy b hobject⟩

theorem fresh_objects_survive_small : ∃ s t, (storeMachine .small .satb).Via Roomy s ∧
    s.fresh.length = 3 ∧ s.step .satb .finishSweep = some t ∧
      ∀ b ∈ s.fresh, b ∈ t.objects ∧ t.heap.isLive b.addr = true := by
  have hrun : ((newStore .small).toOption.bind fun s => (storeMachine .small .satb).run s
      [.register, .shared 64, .initMark, .refill 0 16, .shared 4096, .finalMark, .sweep 0, .sweep 1,
        .refill 0 32, .sweep 2, .sweep 3, .sweep 4, .sweep 5, .sweep 6, .sweep 7, .sweep 8,
        .sweep 9]).map (fun s => (s.fresh.length, (s.step .satb .finishSweep).isSome)) =
          some (3, true) := by decide +kernel
  obtain ⟨s, hs, hend⟩ := Option.map_eq_some_iff.mp hrun
  obtain ⟨start, hstart, hs⟩ := Option.bind_eq_some_iff.mp hs
  obtain ⟨hlength, hstep⟩ := Prod.mk.inj hend
  obtain ⟨t, ht⟩ := Option.isSome_iff_exists.mp hstep
  have hreachable : (storeMachine .small .satb).Reachable s :=
    Machine.run_reachable (Machine.Via.init (Except.toOption_eq_some.mp hstart)) hs
  have hvia := via_of_rigid ⟨by decide, by decide⟩ rfl hreachable
  exact ⟨s, t, hvia, hlength, ht,
    (fresh_objects_survive .small s hvia).2 t ht⟩

-- With elastic buffers an object that overruns its buffer leaves `top` behind
-- `end`, and the next object of the thread is put into the region behind it. The
-- sweep of that region frees it.
theorem elastic_overrun_frees_fresh_object : ∃ s t b,
    (storeMachine .elastic .satb).Reachable s ∧ s.step .satb .finishSweep = some t ∧
      b ∈ s.fresh ∧ b ∉ t.objects ∧ t.heap.isLive b.addr = false := by
  have hrun : ((newStore .elastic).toOption.bind fun s => (storeMachine .elastic .satb).run s
      [.shared 4112, .shared 2048, .stop (fun addr => addr = 16384), .sweep 0, .sweep 1, .sweep 2,
        .sweep 3, .sweep 4, .finishStopped, .register, .initMark, .finalMark, .shared 4096,
        .shared 1024, .shared 16, .refill 0 4096, .bump 0 16, .sweep 0, .sweep 1, .sweep 2,
        .sweep 3, .sweep 4]).bind (fun s => (s.step .satb .finishSweep).map fun t =>
      decide (⟨17424, 16, .object⟩ ∈ s.fresh ∧ ⟨17424, 16, .object⟩ ∉ t.objects ∧
        t.heap.isLive 17424 = false)) = some true := by decide +kernel
  obtain ⟨s, hs, hstep⟩ := Option.bind_eq_some_iff.mp hrun
  obtain ⟨start, hstart, hs⟩ := Option.bind_eq_some_iff.mp hs
  obtain ⟨t, ht, hfreed⟩ := Option.map_eq_some_iff.mp hstep
  obtain ⟨hfresh, hgone, hdead⟩ := of_decide_eq_true hfreed
  exact ⟨s, t, _, Machine.run_reachable (Machine.Via.init (Except.toOption_eq_some.mp hstart)) hs, ht,
    hfresh, hgone, hdead⟩

end Store

end Rsgc.Storage
