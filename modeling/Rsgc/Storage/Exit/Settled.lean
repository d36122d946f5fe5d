import Mathlib.Data.List.Indexes
import Rsgc.Storage.Exit

namespace Rsgc.Storage

-- The thread is done with the tail of its buffer.
def ExitPlace.isSettled : ExitPlace → Bool
  | .returned | .topCleared | .endCleared | .startCleared => true
  | _ => false

namespace Store

variable {c : HeapConfig} {mode : BarrierMode} {s t : Store} {p : Nat → ExitPlace}

-- The store in which a buffer counts as closed as soon as its tail has been
-- given back.
def settle (p : Nat → ExitPlace) (s : Store) : Store :=
  { s with tlabs := s.tlabs.mapIdx fun i tlab => if (p i).isSettled = true then .new else tlab }

@[simp] theorem settle_length (p : Nat → ExitPlace) (s : Store) :
    (s.settle p).tlabs.length = s.tlabs.length := by
  simp [settle]

theorem settle_tlab (p : Nat → ExitPlace) (s : Store) (thread : Nat) :
    (s.settle p).tlab thread = if (p thread).isSettled = true then .new else s.tlab thread := by
  unfold tlab settle
  rw [List.getD_eq_getElem?_getD, List.getD_eq_getElem?_getD, List.getElem?_mapIdx]
  cases s.tlabs[thread]? with
  | none => simp
  | some tlab => rfl

theorem settle_tlab_of_ne {thread : Nat} (hp : (p thread).isSettled = false) (s : Store) :
    (s.settle p).tlab thread = s.tlab thread := by
  rw [settle_tlab, if_neg (by simp [hp])]

theorem settle_setTlab {thread : Nat} (hp : (p thread).isSettled = false) (s : Store)
    (tlab : ThreadLocalAllocBuffer) (heap : Heap) :
    (s.setTlab thread tlab heap).settle p = (s.settle p).setTlab thread tlab heap := by
  unfold setTlab settle
  congr 1
  refine List.ext_getElem? fun i => ?_
  simp only [List.getElem?_mapIdx, List.getElem?_set, List.length_mapIdx]
  by_cases hi : thread = i
  · subst hi
    by_cases hlt : thread < s.tlabs.length
    · simp [hlt, hp]
    · simp [hlt]
  · simp [hi]

theorem settle_eq_self (hp : ∀ i, (p i).isSettled = false) (s : Store) : s.settle p = s := by
  unfold settle
  congr 1
  refine List.ext_getElem? fun i => ?_
  rw [List.getElem?_mapIdx]
  simp [hp i]

theorem settle_enabled {e : StoreEvent} (hp : ∀ thread ∈ e.thread, (p thread).isSettled = false) :
    (s.settle p).Enabled mode e ↔ s.Enabled mode e := by
  cases e with
  | refill thread size =>
      have hthread := settle_tlab_of_ne (hp thread rfl) s
      simp only [Enabled, settle_length, hthread]
      rfl
  | bump | retire =>
      simp only [Enabled, settle_length]
      rfl
  | _ => exact Iff.rfl

theorem settle_roomy {e : StoreEvent} : (s.settle p).Roomy e ↔ s.Roomy e := by
  cases e <;> exact Iff.rfl

theorem settle_register (p : Nat → ExitPlace) (s : Store) :
    settle p { s with tlabs := s.tlabs ++ [.new] } =
      { s.settle p with tlabs := (s.settle p).tlabs ++ [.new] } := by
  unfold settle
  congr 1
  rw [List.mapIdx_append]
  simp

-- A pause does not touch a buffer that counts as closed, as its thread has set `end` to zero.
theorem settle_retireAll {tlabs tlabs' : List ThreadLocalAllocBuffer} {h h' : Heap}
    (hp : ∀ i, (p i).isSettled = true → (tlabs.getD i .new).limit = 0)
    (hok : retireAll tlabs h = .ok (tlabs', h')) :
    retireAll (tlabs.mapIdx fun i tlab => if (p i).isSettled = true then .new else tlab) h =
        .ok (tlabs'.mapIdx fun i tlab => if (p i).isSettled = true then .new else tlab, h') ∧
      ∀ i, (tlabs.getD i .new).limit = 0 → tlabs'.getD i .new = tlabs.getD i .new := by
  induction tlabs generalizing tlabs' h h' p with
  | nil =>
      simp only [retireAll, Except.pure_eq_ok, Prod.mk.injEq] at hok
      obtain ⟨rfl, rfl⟩ := hok
      exact ⟨rfl, fun _ _ => rfl⟩
  | cons tlab rest ih =>
      simp only [retireAll, Except.bind_eq_ok, Except.pure_eq_ok, Prod.mk.injEq] at hok
      obtain ⟨⟨first, h1⟩, hfirst, ⟨others, h2⟩, hothers, rfl, rfl⟩ := hok
      have hhead : tlab.limit = 0 → first = tlab ∧ h1 = h := by
        intro hzero
        unfold ThreadLocalAllocBuffer.retire at hfirst
        rw [if_neg (by simpa using hzero)] at hfirst
        obtain ⟨rfl, rfl⟩ := Prod.mk.inj (Except.ok.inj hfirst)
        exact ⟨rfl, rfl⟩
      obtain ⟨hrest, hsame⟩ := ih (p := fun i => p (i + 1)) (fun i hi => hp (i + 1) hi) hothers
      refine ⟨?_, fun i hi => ?_⟩
      · rw [List.mapIdx_cons, List.mapIdx_cons, retireAll]
        cases hsettled : (p 0).isSettled with
        | true =>
            obtain ⟨rfl, rfl⟩ := hhead (hp 0 hsettled)
            have hnew : ThreadLocalAllocBuffer.retire .new h1 = .ok (.new, h1) := rfl
            simp only [if_true, hnew, Except.ok_bind, hrest]
            rfl
        | false =>
            simp only [Bool.false_eq_true, if_false, hfirst, Except.ok_bind, hrest]
            rfl
      · cases i with
        | zero => exact (hhead hi).1
        | succ i => exact hsame i hi

-- It leaves such a buffer as it is.
theorem tlab_of_pause {e : StoreEvent} {thread : Nat} (hclosed : (s.tlab thread).limit = 0)
    (hpause : e.isPause = true) (hstep : s.step mode e = some t) :
    t.tlab thread = s.tlab thread := by
  obtain ⟨-, hok⟩ := step_eq_some.mp hstep
  have hsame : ∀ u, s.retireTlabs = .ok u → u.tlab thread = s.tlab thread := by
    intro u hu
    obtain ⟨tlabs, heap, hretire, rfl⟩ := retireTlabs_eq_ok hu
    exact (settle_retireAll (p := fun _ => .running) nofun hretire).2 thread hclosed
  cases e with
  | initMark | finalMark | stop | degenerate =>
      simp only [perform, Except.bind_eq_ok, Except.pure_eq_ok] at hok
      obtain ⟨u, hretire, rfl⟩ := hok
      exact hsame u hretire
  | _ => cases hpause

theorem settle_retireTlabs (hp : ∀ i, (p i).isSettled = true → (s.tlab i).limit = 0)
    (hok : s.retireTlabs = .ok t) : (s.settle p).retireTlabs = .ok (t.settle p) := by
  obtain ⟨tlabs, heap, hretire, rfl⟩ := retireTlabs_eq_ok hok
  have hsettled := (settle_retireAll hp hretire).1
  unfold retireTlabs
  rw [show (s.settle p).heap = s.heap from rfl]
  unfold settle
  simp only [hsettled, Except.ok_bind]
  rfl

-- A step does the same in the settled store.
theorem settle_perform {e : StoreEvent} (hp : ∀ thread ∈ e.thread, (p thread).isSettled = false)
    (he : e.isPause = true → ∀ i, (p i).isSettled = true → (s.tlab i).limit = 0) (hok : s.perform mode e = .ok t) :
    (s.settle p).perform mode e = .ok (t.settle p) := by
  cases e with
  | register =>
      obtain rfl := Except.ok.inj hok
      exact congrArg Except.ok (settle_register p s).symm
  | bump thread size =>
      have hthread := hp thread rfl
      simp only [perform] at hok ⊢
      rw [settle_tlab_of_ne hthread, show (s.settle p).heap = s.heap from rfl]
      split at hok
      · rename_i hnone
        obtain rfl := Except.ok.inj hok
        rfl
      · rename_i mem tlab heap hsome
        obtain rfl := Except.ok.inj hok
        simp only [← settle_setTlab hthread]
        rfl
  | refill thread size =>
      have hthread := hp thread rfl
      simp only [perform, Except.bind_eq_ok] at hok ⊢
      obtain ⟨⟨found, heap⟩, hrefill, hok⟩ := hok
      refine ⟨(found, heap), hrefill, ?_⟩
      cases found with
      | none =>
          obtain rfl := Except.ok.inj hok
          rfl
      | some found =>
          obtain ⟨mem, tlab⟩ := found
          obtain rfl := Except.ok.inj hok
          simp only [← settle_setTlab hthread]
          rfl
  | retire thread =>
      have hthread := hp thread rfl
      simp only [perform, Except.bind_eq_ok, Except.pure_eq_ok] at hok ⊢
      obtain ⟨⟨tlab, heap⟩, hretire, rfl⟩ := hok
      rw [settle_tlab_of_ne hthread]
      exact ⟨(tlab, heap), hretire, (settle_setTlab hthread _ _ _).symm⟩
  | shared size =>
      simp only [perform, Except.bind_eq_ok] at hok ⊢
      obtain ⟨⟨found, heap⟩, hshared, hok⟩ := hok
      refine ⟨(found, heap), hshared, ?_⟩
      cases found <;> obtain rfl := Except.ok.inj hok <;> rfl
  | sweep index =>
      obtain ⟨heap, hsweep, rfl⟩ := sweepIndex_eq_ok hok
      simp only [perform, sweepIndex, Except.bind_eq_ok, Except.pure_eq_ok]
      exact ⟨heap, hsweep, rfl⟩
  | finishSweep | finishStopped =>
      obtain ⟨heap, hrebuild, rfl⟩ := finish_eq_ok hok
      simp only [perform, finish, Except.bind_eq_ok, Except.pure_eq_ok]
      exact ⟨heap, hrebuild, rfl⟩
  | mark | unmark | skip | cancel | abort =>
      obtain rfl := Except.ok.inj hok
      rfl
  | initMark | finalMark | stop | degenerate =>
      simp only [perform, Except.bind_eq_ok, Except.pure_eq_ok] at hok ⊢
      obtain ⟨u, hretire, rfl⟩ := hok
      exact ⟨_, settle_retireTlabs (he rfl) hretire, rfl⟩

theorem settle_step {e : StoreEvent} (hp : ∀ thread ∈ e.thread, (p thread).isSettled = false)
    (he : e.isPause = true → ∀ i, (p i).isSettled = true → (s.tlab i).limit = 0)
    (hstep : s.step mode e = some t) : (s.settle p).step mode e = some (t.settle p) := by
  obtain ⟨henabled, hok⟩ := step_eq_some.mp hstep
  exact step_eq_some.mpr ⟨(settle_enabled hp).mpr henabled, settle_perform hp he hok⟩

-- The buffer of a thread that is done with its tail is closed in the settled store already.
theorem settle_setPlace {thread : Nat} {place : ExitPlace} {tlab : ThreadLocalAllocBuffer}
    (hclosed : place.isSettled = true ∨ tlab = .new) (s : Store) (heap : Heap) :
    settle (Function.update p thread place) (s.setTlab thread tlab heap) =
      (s.settle p).setTlab thread .new heap := by
  have hnew : (if place.isSettled = true then ThreadLocalAllocBuffer.new else tlab) = .new := by
    split
    · rfl
    · rename_i hplace
      exact hclosed.resolve_left hplace
  unfold setTlab settle
  congr 1
  refine List.ext_getElem? fun i => ?_
  simp only [List.getElem?_mapIdx, List.getElem?_set, List.length_mapIdx]
  by_cases hi : thread = i
  · subst hi
    by_cases hlt : thread < s.tlabs.length
    · simp [hlt, hnew]
    · simp [hlt]
  · simp [hi, Function.update_of_ne (Ne.symm hi)]

theorem settle_congr {q : Nat → ExitPlace}
    (h : ∀ i, (p i).isSettled = (q i).isSettled) (s : Store) : s.settle p = s.settle q := by
  unfold settle
  simp only [h]

end Store

end Rsgc.Storage
