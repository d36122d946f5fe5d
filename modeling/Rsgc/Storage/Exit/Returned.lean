import Mathlib.Data.List.Nodup
import Rsgc.Storage.Exit.Settled
import Rsgc.Storage.Store.Buffers

namespace Rsgc.Storage

namespace Exits

variable {c : HeapConfig} {mode : BarrierMode} {s u : Exits}

theorem mem_insertion {thread : Nat} {i : Insertion} (hi : i ∈ s.insertion thread) :
    i = ⟨thread, s.lab thread, s.regionSwept thread⟩ ∧ (s.store.tlab thread).limit ≠ 0 ∧
      s.tailSize thread ≠ 0 := by
  unfold insertion at hi
  split at hi
  · rename_i hopen
    exact ⟨List.mem_singleton.mp hi, hopen⟩
  · cases hi

-- What the stores behind the check have left of the buffer.
def Cleared (tlab : ThreadLocalAllocBuffer) : ExitPlace → Prop
  | .topCleared => tlab.top = 0
  | .endCleared => tlab.top = 0 ∧ tlab.limit = 0
  | .startCleared => tlab.start = 0 ∧ tlab.top = 0 ∧ tlab.limit = 0
  | _ => True

-- The settled store is a state of a run of the store. A buffer whose tail has
-- been inserted is closed or about to be closed, and no pause sees one that is not.
structure Inv (c : HeapConfig) (mode : BarrierMode) (s : Exits) : Prop where
  via : (storeMachine c mode).Via Store.Roomy (s.store.settle s.place)
  sweeping : ∀ i ∈ s.sweeping, (s.store.heap.regions i).toSweep = true
  logged : ∀ i ∈ s.inserted, i.lab ≤ s.lab i.thread ∧ (i.lab = s.lab i.thread →
    (s.place i.thread).isSettled = true ∨ s.store.tlab i.thread = .new)
  unused : ∀ thread, s.place thread = .unused → s.tailSize thread = 0
  cleared : ∀ thread, Cleared (s.store.tlab thread) (s.place thread)
  pausing : s.pausing = true → ∀ thread < s.store.tlabs.length, (s.place thread).isExposed = false
  once : (s.inserted.map fun i => (i.thread, i.lab)).Nodup
  unswept : ∀ i ∈ s.inserted, i.swept = false

theorem Inv.tidy (h : s.Inv c mode) : (s.store.settle s.place).Tidy c := Store.tidy_of_via h.via

-- What a pause finds settled has `end` at zero.
theorem Inv.limit_eq_zero (h : s.Inv c mode) (hpausing : s.pausing = true) {thread : Nat}
    (hsettled : (s.place thread).isSettled = true) : (s.store.tlab thread).limit = 0 := by
  by_cases hlt : thread < s.store.tlabs.length
  swap
  · rw [Store.tlab_eq_new (Nat.le_of_not_lt hlt)]
    rfl
  have hexposed := h.pausing hpausing thread hlt
  have hcleared := h.cleared thread
  cases hplace : s.place thread with
  | returned | topCleared =>
      rw [hplace] at hexposed
      cases hexposed
  | endCleared =>
      rw [hplace] at hcleared
      exact hcleared.2
  | startCleared =>
      rw [hplace] at hcleared
      exact hcleared.2.2
  | running | checked | unused | exited =>
      rw [hplace] at hsettled
      cases hsettled

theorem open_tlab_mem {thread : Nat} (hopen : s.tailSize thread ≠ 0)
    (hplace : (s.place thread).isSettled = false) :
    thread < s.store.tlabs.length ∧ s.store.tlab thread ∈ (s.store.settle s.place).tlabs := by
  have hlt : thread < s.store.tlabs.length := by
    by_contra hge
    refine hopen ?_
    unfold tailSize
    rw [Store.tlab_eq_new (by omega)]
    rfl
  refine ⟨hlt, ?_⟩
  rw [← Store.settle_tlab_of_ne hplace]
  exact Store.tlab_mem (by simpa using hlt)

-- An unused tail is not in a region that is being swept.
theorem Inv.regionSwept (h : s.Inv c mode) {thread : Nat} (hopen : s.tailSize thread ≠ 0)
    (hplace : (s.place thread).isSettled = false) : s.regionSwept thread = false := by
  obtain ⟨-, hmem⟩ := open_tlab_mem hopen hplace
  have hswept := h.tidy.open_region_swept hmem hopen
  unfold Exits.regionSwept
  by_contra hsweeping
  have hin := h.sweeping _ (by simpa using hsweeping)
  rw [show (s.store.settle s.place).heap = s.store.heap from rfl, hin] at hswept
  cases hswept

-- The tails that the threads of a list give back were not given back before.
theorem Inv.append_insertions (h : s.Inv c mode) {threads : List Nat} (hnodup : threads.Nodup)
    (hplace : ∀ thread ∈ threads, (s.place thread).isSettled = true →
      (s.store.tlab thread).limit = 0) :
    ((s.inserted ++ threads.flatMap s.insertion).map fun i => (i.thread, i.lab)).Nodup ∧
      ∀ i ∈ s.inserted ++ threads.flatMap s.insertion, i.swept = false := by
  refine ⟨?_, fun i hi => ?_⟩
  · rw [List.map_append, List.nodup_append]
    refine ⟨h.once, ?_, ?_⟩
    · rw [List.map_flatMap, List.nodup_flatMap]
      refine ⟨fun thread _ => ?_, ?_⟩
      · unfold insertion
        split <;> simp
      · refine hnodup.imp fun {t v} hne key hkey hkey' => ?_
        obtain ⟨i, hi, rfl⟩ := List.mem_map.mp hkey
        obtain ⟨j, hj, hij⟩ := List.mem_map.mp hkey'
        obtain ⟨rfl, -⟩ := mem_insertion hi
        obtain ⟨rfl, -⟩ := mem_insertion hj
        exact hne (congrArg Prod.fst hij).symm
    · rintro key hold key' hnew rfl
      obtain ⟨i, hi, rfl⟩ := List.mem_map.mp hold
      obtain ⟨j, hj, hij⟩ := List.mem_map.mp hnew
      obtain ⟨thread, hthread, hj⟩ := List.mem_flatMap.mp hj
      obtain ⟨rfl, hlimit, -⟩ := mem_insertion hj
      obtain ⟨hsame, hlab⟩ : thread = i.thread ∧ s.lab thread = i.lab := Prod.mk.inj hij
      subst hsame
      obtain hsettled | hclosed := (h.logged i hi).2 hlab.symm
      · exact hlimit (hplace _ hthread hsettled)
      · exact hlimit (by rw [hclosed]; rfl)
  · obtain hold | hnew := List.mem_append.mp hi
    · exact h.unswept i hold
    · obtain ⟨thread, hthread, hi⟩ := List.mem_flatMap.mp hnew
      obtain ⟨rfl, hlimit, hopen⟩ := mem_insertion hi
      refine h.regionSwept hopen ?_
      by_contra hsettled
      exact hlimit (hplace thread hthread (by simpa using hsettled))

theorem stepStore_eq_some {e : StoreEvent} (hstep : s.stepStore mode e = some u) :
    s.Enabled e ∧ ∃ store, s.store.step mode e = some store ∧
      u = { s with
        store := store
        pausing := false
        sweeping := s.sweepingAfter e
        lab := s.labAfter e
        inserted := s.inserted ++ s.insertions e } := by
  obtain ⟨henabled, hstep⟩ := Option.ite_none_right_eq_some.mp hstep
  obtain ⟨store, hstore, rfl⟩ := Option.map_eq_some_iff.mp hstep
  exact ⟨henabled, store, hstore, rfl⟩

-- The threads whose buffers a step of the store retires.
theorem Inv.insertions_eq (h : s.Inv c mode) {e : StoreEvent} (henabled : s.Enabled e) :
    ∃ threads : List Nat, threads.Nodup ∧ (∀ thread ∈ threads,
        (s.place thread).isSettled = true → (s.store.tlab thread).limit = 0) ∧
      s.insertions e = threads.flatMap s.insertion := by
  have hpausing : e.isPause = true → s.pausing = true := fun hpause => henabled.2.1 ▸ hpause
  cases e with
  | retire thread =>
      have hrunning := henabled.1 thread rfl
      exact ⟨[thread], List.nodup_singleton _, by simp [hrunning, ExitPlace.isSettled],
        by simp [insertions]⟩
  | initMark | finalMark | stop | degenerate =>
      exact ⟨List.range s.store.tlabs.length, List.nodup_range,
        fun t _ => h.limit_eq_zero (hpausing rfl), rfl⟩
  | _ => exact ⟨[], List.nodup_nil, nofun, rfl⟩

theorem labAfter_eq {e : StoreEvent} {thread : Nat} (he : ¬ ∃ size, e = .refill thread size) :
    s.labAfter e thread = s.lab thread := by
  cases e with
  | refill other size =>
      have hne : thread ≠ other := fun heq => he ⟨size, by rw [heq]⟩
      exact Function.update_of_ne hne ..
  | _ => rfl

theorem insertions_lab {e : StoreEvent} {i : Insertion} (hi : i ∈ s.insertions e) :
    i.lab = s.lab i.thread ∧ ¬ ∃ size, e = .refill i.thread size := by
  have hin : ∀ thread, i ∈ s.insertion thread → i.lab = s.lab i.thread := by
    intro thread hi
    obtain ⟨rfl, -⟩ := mem_insertion hi
    rfl
  cases e with
  | retire thread => exact ⟨hin thread hi, nofun⟩
  | initMark | finalMark | stop | degenerate =>
      obtain ⟨thread, _, hi⟩ := List.mem_flatMap.mp hi
      exact ⟨hin thread hi, nofun⟩
  | _ => cases hi

theorem Inv.settle_step (h : s.Inv c mode) {e : StoreEvent} {store : Store}
    (henabled : s.Enabled e) (hstore : s.store.step mode e = some store) :
    (s.store.settle s.place).step mode e = some (store.settle s.place) := by
  refine Store.settle_step (fun thread hthread => ?_) (fun hpause i => ?_) hstore
  · rw [henabled.1 thread hthread]
    rfl
  · exact h.limit_eq_zero (henabled.2.1 ▸ hpause)

theorem Inv.closed_of_pause (h : s.Inv c mode) {e : StoreEvent} {store : Store}
    (henabled : s.Enabled e) (hpause : e.isPause = true)
    (hstore : s.store.step mode e = some store) (thread : Nat) :
    (s.place thread).isSettled = true ∨ store.tlab thread = .new := by
  by_cases hlt : thread < (store.settle s.place).tlabs.length
  · have hclosed := h.tidy.closed_of_pause (Store.offers_of_reachable h.via.reachable).sound hpause
      (h.settle_step henabled hstore) _ (Store.tlab_mem hlt)
    rw [Store.settle_tlab] at hclosed
    split at hclosed
    · rename_i hsettled
      exact Or.inl hsettled
    · exact Or.inr hclosed
  · rw [Store.settle_length] at hlt
    exact Or.inr (Store.tlab_eq_new (by omega))

-- A buffer whose tail a step of the store gives back is closed by that step.
theorem Inv.closed_of_insertion (h : s.Inv c mode) {e : StoreEvent} {store : Store}
    (henabled : s.Enabled e) (hstore : s.store.step mode e = some store) {i : Insertion}
    (hi : i ∈ s.insertions e) :
    (s.place i.thread).isSettled = true ∨ store.tlab i.thread = .new := by
  cases e with
  | retire thread =>
      obtain ⟨rfl, hlimit, -⟩ := mem_insertion hi
      obtain ⟨hrunning, hok⟩ := Store.step_eq_some.mp hstore
      simp only [Store.perform, Except.bind_eq_ok, Except.pure_eq_ok] at hok
      obtain ⟨⟨tlab, heap⟩, hretire, rfl⟩ := hok
      obtain ⟨hzero, -⟩ | ⟨-, hnew, -⟩ := ThreadLocalAllocBuffer.retire_cases hretire
      · exact absurd hzero hlimit
      · right
        rw [Store.setTlab_tlab, if_pos ⟨rfl, hrunning.2⟩]
        exact hnew
  | initMark | finalMark | stop | degenerate => exact h.closed_of_pause henabled rfl hstore _
  | _ => cases hi

-- A step of the store does not touch the buffer of a thread that is about to close it.
theorem Inv.tlab_eq (h : s.Inv c mode) {e : StoreEvent} {store : Store} (henabled : s.Enabled e)
    (hstore : s.store.step mode e = some store) {thread : Nat}
    (hretiring : (s.place thread).isRetiring = true) (hplace : s.place thread ≠ .checked) :
    store.tlab thread = s.store.tlab thread := by
  by_cases hpause : e.isPause = true
  · have hpausing : s.pausing = true := henabled.2.1 ▸ hpause
    refine Store.tlab_of_pause ?_ hpause hstore
    cases hp : s.place thread with
    | unused =>
        by_cases hlt : thread < s.store.tlabs.length
        · have hexposed := h.pausing hpausing thread hlt
          rw [hp] at hexposed
          cases hexposed
        · rw [Store.tlab_eq_new (Nat.le_of_not_lt hlt)]
          rfl
    | returned | topCleared | endCleared | startCleared =>
        exact h.limit_eq_zero hpausing (by rw [hp]; rfl)
    | checked => exact absurd hp hplace
    | running | exited =>
        rw [hp] at hretiring
        cases hretiring
  · refine Store.tlab_of_step (fun heq => ?_) (by simpa using hpause) hstore
    rw [henabled.1 thread heq] at hretiring
    cases hretiring

theorem Inv.stepStore (h : s.Inv c mode) {e : StoreEvent} (hgood : s.ExitsApart (.store e))
    (hstep : s.stepStore mode e = some u) : u.Inv c mode := by
  obtain ⟨henabled, store, hstore, rfl⟩ := stepStore_eq_some hstep
  have hsettled := h.settle_step henabled hstore
  obtain ⟨threads, hnodup, hplace, hinsertions⟩ := h.insertions_eq henabled
  obtain ⟨honce, hunswept⟩ := h.append_insertions hnodup hplace
  refine ⟨Machine.Via.step h.via (Store.settle_roomy.mpr hgood) hsettled, fun i hi => ?_,
    fun i hi => ?_, fun thread hthread => ?_, fun thread => ?_, nofun, ?_, ?_⟩
  · have hkeeps : e ≠ .sweep i → i ∈ s.sweeping → (store.heap.regions i).toSweep = true :=
      fun hne hin => by
        have hoffers := Store.offers_of_reachable h.via.reachable
        have hkept := hoffers.keeps_toSweep hsettled hne (h.sweeping i hin)
        exact hkept
    cases e with
    | sweep index =>
        obtain ⟨hin, hne⟩ := List.mem_filter.mp hi
        have hne : i ≠ index := by simpa using hne
        exact hkeeps (fun heq => hne (StoreEvent.sweep.inj heq).symm) hin
    | _ => exact hkeeps nofun hi
  · obtain hold | hnew := List.mem_append.mp hi
    · obtain ⟨hle, hlast⟩ := h.logged i hold
      by_cases hrefill : ∃ size, e = .refill i.thread size
      · obtain ⟨size, rfl⟩ := hrefill
        -- the thread has a new buffer
        have hlab : s.labAfter (.refill i.thread size) i.thread = s.lab i.thread + 1 :=
          Function.update_self ..
        exact ⟨by simp only [hlab]; omega, fun heq => by simp only [hlab] at heq; omega⟩
      · have hlab : s.labAfter e i.thread = s.lab i.thread := labAfter_eq hrefill
        refine ⟨by simp only [hlab]; exact hle, fun heq => ?_⟩
        simp only [hlab] at heq
        by_cases hpause : e.isPause = true
        · exact h.closed_of_pause henabled hpause hstore i.thread
        · exact (hlast heq).imp_right fun hclosed =>
            Store.new_of_step hclosed hrefill (by simpa using hpause) hstore
    · obtain ⟨hlab, hrefill⟩ := insertions_lab hnew
      exact ⟨by simp only [labAfter_eq hrefill, hlab]; exact Nat.le_refl _,
        fun _ => h.closed_of_insertion henabled hstore hnew⟩
  · have hthread : s.place thread = .unused := hthread
    have hsame : store.tlab thread = s.store.tlab thread :=
      h.tlab_eq henabled hstore (by rw [hthread]; rfl) (by rw [hthread]; nofun)
    unfold tailSize
    rw [hsame]
    exact h.unused thread hthread
  · have hcleared := h.cleared thread
    cases hthread : s.place thread with
    | topCleared | endCleared | startCleared =>
        have hsame : store.tlab thread = s.store.tlab thread :=
          h.tlab_eq henabled hstore (by rw [hthread]; rfl) (by rw [hthread]; nofun)
        rw [hthread] at hcleared
        simp only [hsame]
        exact hcleared
    | running | checked | returned | unused | exited =>
        trivial
  · rw [hinsertions]
    exact honce
  · rw [hinsertions]
    exact hunswept

theorem cleared_new (place : ExitPlace) : Cleared .new place := by
  cases place <;> simp [Cleared, ThreadLocalAllocBuffer.new]

-- One thread moves on, and may store to its buffer.
theorem Inv.move (h : s.Inv c mode) {thread : Nat} {place : ExitPlace}
    {tlab : ThreadLocalAllocBuffer} (safe : Nat → Bool)
    (hvia : (storeMachine c mode).Via Store.Roomy
      ((s.store.setTlab thread tlab s.store.heap).settle (Function.update s.place thread place)))
    (hlogged : (s.place thread).isSettled = true ∨ s.store.tlab thread = .new →
      place.isSettled = true ∨ tlab = .new)
    (hunused : place = .unused → wrapSub tlab.limit tlab.top = 0) (hcleared : Cleared tlab place)
    (hpausing : s.pausing = true → thread < s.store.tlabs.length → place.isExposed = false) :
    ({ s.setPlace thread place with
        store := s.store.setTlab thread tlab s.store.heap
        safe := safe } : Exits).Inv c mode := by
  have hself : (s.store.setTlab thread tlab s.store.heap).tlab thread = tlab ∨
      (s.store.setTlab thread tlab s.store.heap).tlab thread = .new := by
    rw [Store.setTlab_tlab]
    by_cases hlt : thread < s.store.tlabs.length
    · exact Or.inl (if_pos ⟨rfl, hlt⟩)
    · rw [if_neg fun hin => hlt hin.2]
      exact Or.inr (Store.tlab_eq_new (by omega))
  have hother : ∀ other ≠ thread, (s.store.setTlab thread tlab s.store.heap).tlab other =
      s.store.tlab other := by
    intro other hne
    rw [Store.setTlab_tlab, if_neg fun hin => hne hin.1.symm]
  refine ⟨hvia, h.sweeping, fun i hi => ?_, fun other hplace => ?_, fun other => ?_,
    fun hp other hlt => ?_, h.once, h.unswept⟩
  · obtain ⟨hle, hlast⟩ := h.logged i hi
    refine ⟨hle, fun heq => ?_⟩
    by_cases hi : i.thread = thread
    · have hnext := hlogged (hi ▸ hlast heq)
      simp only [Exits.setPlace, hi, Function.update_self]
      obtain hsame | hnew := hself
      · rw [hsame]
        exact hnext
      · exact Or.inr hnew
    · simp only [Exits.setPlace, Function.update_of_ne hi, hother _ hi]
      exact hlast heq
  · unfold tailSize
    by_cases hi : other = thread
    · subst hi
      simp only [Exits.setPlace, Function.update_self] at hplace
      obtain hsame | hnew := hself
      · simp only [hsame]
        exact hunused hplace
      · simp only [hnew]
        rfl
    · simp only [Exits.setPlace, Function.update_of_ne hi] at hplace
      simp only [hother _ hi]
      exact h.unused other hplace
  · by_cases hi : other = thread
    · subst hi
      simp only [Exits.setPlace, Function.update_self]
      obtain hsame | hnew := hself
      · rw [hsame]
        exact hcleared
      · rw [hnew]
        exact cleared_new place
    · simp only [Exits.setPlace, Function.update_of_ne hi, hother _ hi]
      exact h.cleared other
  · have hregistered : other < s.store.tlabs.length := by
      simpa [Store.setTlab] using hlt
    by_cases hi : other = thread
    · subst hi
      simp only [Exits.setPlace, Function.update_self]
      exact hpausing hp hregistered
    · simp only [Exits.setPlace, Function.update_of_ne hi]
      exact h.pausing hp other hregistered

-- A thread that finds its buffer open or closed changes nothing else.
theorem Inv.setPlace (h : s.Inv c mode) {thread : Nat} {place : ExitPlace}
    (hbefore : (s.place thread).isSettled = false) (hafter : place.isSettled = false)
    (hunused : place = .unused → s.tailSize thread = 0)
    (hpausing : s.pausing = true → thread < s.store.tlabs.length → place.isExposed = false)
    (safe : Nat → Bool) :
    ({ s.setPlace thread place with safe := safe } : Exits).Inv c mode := by
  have hself : s.store.setTlab thread (s.store.tlab thread) s.store.heap = s.store :=
    Store.setTlab_self rfl
  have hsame : ∀ i, (Function.update s.place thread place i).isSettled =
      (s.place i).isSettled := by
    intro i
    by_cases hi : i = thread
    · subst hi
      rw [Function.update_self, hbefore, hafter]
    · rw [Function.update_of_ne hi]
  have hvia : (storeMachine c mode).Via Store.Roomy
      ((s.store.setTlab thread (s.store.tlab thread) s.store.heap).settle
        (Function.update s.place thread place)) := by
    rw [hself, Store.settle_congr hsame]
    exact h.via
  have hcleared : Cleared (s.store.tlab thread) place := by
    cases place with
    | running | checked | returned | unused | exited => trivial
    | topCleared | endCleared | startCleared => cases hafter
  have hmoved := h.move safe hvia
    (fun hlogged => Or.inr (hlogged.resolve_left (by simp [hbefore]))) hunused hcleared hpausing
  rwa [hself] at hmoved

-- Giving the tail back is the retirement of the settled buffer.
theorem Inv.freeRemaining (h : s.Inv c mode) {thread : Nat} (hplace : s.place thread = .checked)
    (hopen : s.tailSize thread ≠ 0) {heap : Heap}
    (hfree : (s.store.tlab thread).freeRemaining s.store.heap = .ok heap) :
    ({ s.setPlace thread .returned with
        store := { s.store with heap := heap }
        inserted := s.inserted ++ [⟨thread, s.lab thread, s.regionSwept thread⟩] } : Exits).Inv
      c mode := by
  have hne : (s.place thread).isSettled = false := by rw [hplace]; rfl
  obtain ⟨hlt, hmem⟩ := open_tlab_mem hopen hne
  have hpausing : s.pausing = false := by
    by_contra hpausing
    have hexposed := h.pausing (by simpa using hpausing) thread hlt
    rw [hplace] at hexposed
    cases hexposed
  have hlimit : (s.store.tlab thread).limit ≠ 0 := by
    obtain hnew | ⟨_, _, _, _, _, _, hpos⟩ := h.tidy.tlabs _ hmem
    · refine absurd ?_ hopen
      unfold tailSize
      rw [hnew]
      rfl
    · omega
  have hphase : s.store.phase ≠ .stopped := by
    intro hstopped
    refine hlimit ?_
    rw [Store.closed_of_via h.via hstopped _ hmem]
    rfl
  have hretire : (s.store.settle s.place).step mode (.retire thread) =
      some ((s.store.settle s.place).setTlab thread .new heap) := by
    refine Store.step_eq_some.mpr ⟨⟨hphase, by simpa using hlt⟩, ?_⟩
    simp only [Store.perform, Except.bind_eq_ok, Except.pure_eq_ok]
    refine ⟨(.new, heap), ?_, rfl⟩
    rw [Store.settle_tlab_of_ne hne]
    unfold ThreadLocalAllocBuffer.retire
    rw [if_pos hlimit, show (s.store.settle s.place).heap = s.store.heap from rfl, hfree]
    rfl
  have hinsertion : [(⟨thread, s.lab thread, s.regionSwept thread⟩ : Insertion)] =
      [thread].flatMap s.insertion := by
    simp only [List.flatMap_cons, List.flatMap_nil, List.append_nil, insertion]
    rw [if_pos ⟨hlimit, hopen⟩]
  obtain ⟨honce, hunswept⟩ := h.append_insertions (List.nodup_singleton thread)
    (by simp [hne])
  rw [hinsertion]
  refine ⟨?_, fun i hi => ?_, fun i hi => ?_, fun other hother => ?_, fun other => ?_,
    fun hp => absurd hp (by simp [Exits.setPlace, hpausing]), honce, hunswept⟩
  · have hroomy : (s.store.settle s.place).Roomy (.retire thread) := trivial
    have hvia := Machine.Via.step (m := storeMachine c mode) h.via hroomy hretire
    have hself : ({ s.store with heap := heap } : Store) =
        s.store.setTlab thread (s.store.tlab thread) heap :=
      (Store.setTlab_self (s := { s.store with heap := heap }) rfl).symm
    have hreturned : ExitPlace.returned.isSettled = true ∨
        s.store.tlab thread = ThreadLocalAllocBuffer.new := Or.inl rfl
    rw [← Store.settle_setPlace hreturned, ← hself] at hvia
    exact hvia
  · have hkept := (Store.offers_of_reachable h.via.reachable).keeps_toSweep hretire (by simp)
      (h.sweeping i hi)
    exact hkept
  · obtain hold | hnew := List.mem_append.mp hi
    · obtain ⟨hle, hlast⟩ := h.logged i hold
      refine ⟨hle, fun heq => (hlast heq).imp_left fun hsettled => ?_⟩
      by_cases hi : i.thread = thread
      · simp [Exits.setPlace, hi, ExitPlace.isSettled]
      · simpa [Exits.setPlace, Function.update_of_ne hi] using hsettled
    · rw [← hinsertion] at hnew
      obtain rfl := List.mem_singleton.mp hnew
      refine ⟨Nat.le_refl _, fun _ => Or.inl ?_⟩
      simp only [Exits.setPlace, Function.update_self]
      rfl
  · by_cases hi : other = thread
    · simp [Exits.setPlace, hi] at hother
    · exact h.unused other (by simpa [Exits.setPlace, Function.update_of_ne hi] using hother)
  · by_cases hi : other = thread
    · simp [Exits.setPlace, hi, Cleared]
    · simp only [Exits.setPlace, Function.update_of_ne hi]
      exact h.cleared other

-- The stores behind it retire a buffer without a tail, or one that the settled store has
-- closed already.
theorem Inv.clear_via (h : s.Inv c mode) {thread : Nat}
    (hplace : (s.place thread).isSettled = true ∨ s.place thread = .unused) :
    (storeMachine c mode).Via Store.Roomy
      ((s.store.settle s.place).setTlab thread .new s.store.heap) := by
  by_cases hnew : (s.store.settle s.place).tlab thread = .new
  · have hself := Store.setTlab_self hnew
    rw [show (s.store.settle s.place).heap = s.store.heap from rfl] at hself
    rw [hself]
    exact h.via
  · have hne : ¬(s.place thread).isSettled = true := fun hsettled => hnew (by
      rw [Store.settle_tlab, if_pos hsettled])
    have hempty : s.tailSize thread = 0 := h.unused thread (hplace.resolve_left hne)
    have hlt : thread < (s.store.settle s.place).tlabs.length := by
      by_contra hge
      exact hnew (Store.tlab_eq_new (by omega))
    have hmem := Store.tlab_mem hlt
    have hsame := Store.settle_tlab_of_ne (by simpa using hne) s.store
    have hlimit : (s.store.tlab thread).limit ≠ 0 := by
      obtain hclosed | ⟨_, _, _, _, _, _, hpos⟩ := h.tidy.tlabs _ hmem
      · exact absurd hclosed hnew
      · rw [hsame] at hpos
        omega
    have hphase : s.store.phase ≠ .stopped := fun hstopped =>
      hnew (Store.closed_of_via h.via hstopped _ hmem)
    have hretire : (s.store.settle s.place).step mode (.retire thread) =
        some ((s.store.settle s.place).setTlab thread .new s.store.heap) := by
      refine Store.step_eq_some.mpr ⟨⟨hphase, hlt⟩, ?_⟩
      simp only [Store.perform, Except.bind_eq_ok, Except.pure_eq_ok]
      refine ⟨(.new, s.store.heap), ?_, rfl⟩
      rw [hsame]
      unfold ThreadLocalAllocBuffer.retire ThreadLocalAllocBuffer.freeRemaining
      rw [if_pos hlimit, if_neg (by simpa [tailSize] using hempty)]
      rfl
    have hroomy : (s.store.settle s.place).Roomy (.retire thread) := trivial
    exact Machine.Via.step (m := storeMachine c mode) h.via hroomy hretire

-- What one of these stores leaves, by the place that it is at.
theorem clearNext_cases {tlab tlab' : ThreadLocalAllocBuffer} {before place : ExitPlace}
    (hcleared : Cleared tlab before) (hnext : clearNext tlab before = some (tlab', place)) :
    (before.isSettled = true ∨ before = .unused) ∧ (place.isSettled = true ∨ tlab' = .new) ∧
      Cleared tlab' place ∧ place ≠ .unused ∧
      (before.isExposed = false → place.isExposed = false) := by
  cases before with
  | returned =>
      obtain ⟨rfl, rfl⟩ := Prod.mk.inj (Option.some.inj hnext)
      exact ⟨Or.inl rfl, Or.inl rfl, rfl, nofun, nofun⟩
  | unused =>
      obtain ⟨rfl, rfl⟩ := Prod.mk.inj (Option.some.inj hnext)
      exact ⟨Or.inr rfl, Or.inl rfl, rfl, nofun, nofun⟩
  | topCleared =>
      obtain ⟨rfl, rfl⟩ := Prod.mk.inj (Option.some.inj hnext)
      exact ⟨Or.inl rfl, Or.inl rfl, ⟨hcleared, rfl⟩, nofun, fun _ => rfl⟩
  | endCleared =>
      obtain ⟨rfl, rfl⟩ := Prod.mk.inj (Option.some.inj hnext)
      exact ⟨Or.inl rfl, Or.inl rfl, ⟨rfl, hcleared⟩, nofun, fun _ => rfl⟩
  | startCleared =>
      obtain ⟨rfl, rfl⟩ := Prod.mk.inj (Option.some.inj hnext)
      obtain ⟨start, top, limit, bitmap⟩ := tlab
      obtain ⟨rfl, rfl, rfl⟩ := hcleared
      exact ⟨Or.inl rfl, Or.inr rfl, trivial, nofun, fun _ => rfl⟩
  | running | checked | exited => cases hnext

theorem Inv.clear (h : s.Inv c mode) {thread : Nat} {tlab : ThreadLocalAllocBuffer}
    {place : ExitPlace}
    (hnext : clearNext (s.store.tlab thread) (s.place thread) = some (tlab, place)) :
    ({ s.setPlace thread place with
        store := s.store.setTlab thread tlab s.store.heap } : Exits).Inv c mode := by
  obtain ⟨hbefore, hclosed, hcleared, hunused, hexposed⟩ :=
    clearNext_cases (h.cleared thread) hnext
  have hvia := h.clear_via hbefore
  rw [← Store.settle_setPlace hclosed] at hvia
  exact h.move s.safe hvia (fun _ => hclosed) (fun heq => absurd heq hunused) hcleared
    fun hp hlt => hexposed (h.pausing hp thread hlt)

theorem Inv.step (h : s.Inv c mode) {e : ExitEvent} (hgood : s.ExitsApart e)
    (hstep : s.step mode e = some u) : u.Inv c mode := by
  cases e with
  | store e => exact h.stepStore hgood hstep
  | beginPause =>
      obtain ⟨-, rfl⟩ := guard_eq_some.mp hstep
      exact ⟨h.via, h.sweeping, h.logged, h.unused, h.cleared,
        fun _ thread hlt => hgood thread (List.mem_range.mpr hlt), h.once, h.unswept⟩
  | startSweep index =>
      obtain ⟨⟨-, -, -, hsweep⟩, rfl⟩ := guard_eq_some.mp hstep
      refine ⟨h.via, fun i hi => ?_, h.logged, h.unused, h.cleared, h.pausing, h.once, h.unswept⟩
      obtain rfl | hi := List.mem_cons.mp hi
      · exact hsweep
      · exact h.sweeping i hi
  | exit thread safe =>
      obtain ⟨⟨-, hplace, -⟩, rfl⟩ := guard_eq_some.mp hstep
      refine h.setPlace (by rw [hplace]; rfl) ?_ ?_ (fun hp _ => ?_) _
      · split <;> rfl
      · split <;> nofun
      · rw [if_neg (by simpa using hgood hp)]
        rfl
  | freeRemaining thread =>
      simp only [Exits.step, stepExit] at hstep
      obtain ⟨⟨hplace, -⟩, hstep⟩ := Option.ite_none_right_eq_some.mp hstep
      split at hstep
      · rename_i hopen
        obtain ⟨heap, hfree, rfl⟩ := Option.map_eq_some_iff.mp hstep
        exact h.freeRemaining hplace hopen (Except.toOption_eq_some.mp hfree)
      · rename_i hopen
        obtain rfl := Option.some.inj hstep
        have hafter : ExitPlace.unused.isSettled = false := rfl
        refine h.setPlace (by rw [hplace]; rfl) hafter (fun _ => by simpa using hopen)
          (fun hp hlt => ?_) s.safe
        have hexposed := h.pausing hp thread hlt
        rw [hplace] at hexposed
        cases hexposed
  | clear thread =>
      simp only [Exits.step, stepExit] at hstep
      obtain ⟨-, hstep⟩ := Option.ite_none_right_eq_some.mp hstep
      obtain ⟨⟨tlab, place⟩, hnext, rfl⟩ := Option.map_eq_some_iff.mp hstep
      exact h.clear hnext

theorem inv_of_via (hs : (exitMachine c mode).Via ExitsApart s) : s.Inv c mode := by
  refine Machine.Via.invariant ?_ (fun _ _ _ h hg hstep => h.step hg hstep) hs
  rintro s ⟨store, hstore, rfl⟩
  have hself := Store.settle_eq_self (p := fun _ => ExitPlace.running) (fun _ => rfl) store
  have hvia : (storeMachine c mode).Via Store.Roomy (store.settle fun _ => .running) := by
    rw [hself]
    exact Machine.Via.init hstore
  exact ⟨hvia, nofun, nofun, nofun, fun _ => trivial, nofun, List.nodup_nil, nofun⟩

theorem tails_returned_once (hs : (exitMachine c mode).Via ExitsApart s) : s.ReturnedOnce := by
  have h := inv_of_via hs
  exact ⟨h.once, h.unswept, (List.pairwise_append.mp h.tidy.blocks_pairwise).2.1⟩

private def startExits (store : Store) : Exits :=
  ⟨store, fun _ => .running, fun _ => false, false, [], fun _ => 0, []⟩

-- The init-mark pause retires the buffer of thread 1 while thread 0 is between its store to
-- `end` and the one to `start`.
theorem tails_returned_once_at_exit : ∃ s, (exitMachine .small .satb).Via ExitsApart s ∧
    s.place 0 = .exited ∧ s.inserted.length = 2 ∧ s.ReturnedOnce := by
  have hrun : ((newStore .small).toOption.bind fun store =>
      (exitMachine .small .satb).runVia ExitsApart (startExits store)
        [.store .register, .store .register, .store (.refill 0 16), .store (.refill 1 16),
          .exit 0 true, .freeRemaining 0, .clear 0, .clear 0, .beginPause, .store .initMark,
          .clear 0, .clear 0]).map (fun s => (s.place 0, s.inserted.length)) =
            some (.exited, 2) := by decide +kernel
  obtain ⟨s, hs, hvalues⟩ := Option.map_eq_some_iff.mp hrun
  obtain ⟨hexited, hlength⟩ := Prod.mk.inj hvalues
  obtain ⟨store, hstore, hs⟩ := Option.bind_eq_some_iff.mp hs
  have hinit : (exitMachine .small .satb).init (startExits store) :=
    ⟨store, Except.toOption_eq_some.mp hstore, rfl⟩
  have hvia := Machine.via_of_runVia (Machine.Via.init hinit) hs
  exact ⟨s, hvia, hexited, hlength, tails_returned_once hvia⟩

-- The thread of `main_thread` has given its tail back but not closed its buffer
-- when the init-mark pause retires it again.
theorem safe_exit_returns_tail_twice : ∃ s, (exitMachine .small .satb).Reachable s ∧
    ¬ s.ReturnedOnce := by
  have hrun : ((newStore .small).toOption.bind fun store =>
      (exitMachine .small .satb).run (startExits store)
        [.store .register, .store (.refill 0 16), .exit 0 true, .freeRemaining 0, .beginPause,
          .store .initMark]).map (fun s => s.inserted.map fun i => (i.thread, i.lab)) =
            some [(0, 1), (0, 1)] := by decide +kernel
  obtain ⟨s, hs, hkeys⟩ := Option.map_eq_some_iff.mp hrun
  obtain ⟨store, hstore, hs⟩ := Option.bind_eq_some_iff.mp hs
  have hinit : (exitMachine .small .satb).init (startExits store) :=
    ⟨store, Except.toOption_eq_some.mp hstore, rfl⟩
  refine ⟨s, Machine.run_reachable (Machine.Via.init hinit) hs, fun honce => ?_⟩
  have hnodup := honce.once
  rw [hkeys] at hnodup
  simp at hnodup

end Exits

end Rsgc.Storage
