import Rsgc.Storage.ObjectStart

namespace Rsgc.Storage

namespace HeapRegion

variable {r r' : HeapRegion}

theorem addFree_bits {addr size : Nat} (h : r.addFree addr size = .ok r') :
    r'.objectStartBitmap = r.objectStartBitmap := by
  obtain ⟨l, _, rfl⟩ := addFree_eq_ok h
  rfl

theorem makeRegularAllocation_bits (h : r.makeRegularAllocation = .ok r') :
    r'.objectStartBitmap = r.objectStartBitmap := by
  rcases makeRegularAllocation_cases h with ⟨_, rfl⟩ | ⟨_, filled, hadd, rfl⟩
  · rfl
  · have hbits := addFree_bits hadd
    exact hbits

theorem allocate_bits {size : Nat} {mem : Option Nat} (h : r.allocate size = .ok (mem, r')) :
    r'.objectStartBitmap = r.objectStartBitmap := by
  obtain ⟨base, hbase, ⟨_, _, rfl⟩ | ⟨entry, _, _, _, ⟨_, rfl⟩ | ⟨_, filled, hadd, rfl⟩⟩⟩ :=
    allocate_cases h
  · have hbits := makeRegularAllocation_bits hbase
    exact hbits
  · have hbits := makeRegularAllocation_bits hbase
    exact hbits
  · have hbits := makeRegularAllocation_bits hbase
    exact (addFree_bits hadd).trans hbits

end HeapRegion

namespace Heap

variable {c : HeapConfig} {h h' : Heap} {held objs objs' tails : Nat → List Space}
  {mem : Option Nat}

-- The step sets no start bit except the one of `mem`, and leaves the humongous
-- objects alone.
structure SetsOnly (h h' : Heap) (mem : Option Nat) : Prop where
  opts_eq : h'.opts = h.opts
  memStart_eq : h'.memStart = h.memStart
  bits : ∀ i a, (h'.regions i).objectStartBitmap a = true →
    (h.regions i).objectStartBitmap a = true ∨ (mem = some a ∧ h.regionIndex a = i)
  conts : ∀ i, (h'.regions i).typ = .humongousCont → (h.regions i).typ = .humongousCont
  starts : ∀ i, (h.regions i).typ = .humongousStart → (h'.regions i).typ = .humongousStart

theorem SetsOnly.refl (h : Heap) (mem : Option Nat) : h.SetsOnly h mem :=
  ⟨rfl, rfl, fun _ _ => Or.inl, fun _ => id, fun _ => id⟩

theorem SetsOnly.trans {h'' : Heap} (a : h.SetsOnly h' mem) (b : h'.SetsOnly h'' mem) :
    h.SetsOnly h'' mem where
  opts_eq := b.opts_eq.trans a.opts_eq
  memStart_eq := b.memStart_eq.trans a.memStart_eq
  bits := by
    intro i addr hbit
    rcases b.bits i addr hbit with hold | ⟨hmem, hindex⟩
    · exact a.bits i addr hold
    · refine Or.inr ⟨hmem, ?_⟩
      unfold regionIndex at hindex ⊢
      rwa [a.opts_eq, a.memStart_eq] at hindex
  conts := fun i => a.conts i ∘ b.conts i
  starts := fun i => b.starts i ∘ a.starts i

theorem SetsOnly.weaken (a : h.SetsOnly h' none) : h.SetsOnly h' mem where
  opts_eq := a.opts_eq
  memStart_eq := a.memStart_eq
  bits := by
    intro i addr hbit
    rcases a.bits i addr hbit with hold | ⟨hnone, _⟩
    · exact Or.inl hold
    · cases hnone
  conts := a.conts
  starts := a.starts

theorem SetsOnly.of_regions (hopts : h'.opts = h.opts) (hmem : h'.memStart = h.memStart)
    (hregions : h'.regions = h.regions) : h.SetsOnly h' mem := by
  refine ⟨hopts, hmem, fun i a hbit => ?_, fun i hcont => ?_, fun i hstart => ?_⟩
  · rw [hregions] at hbit
    exact Or.inl hbit
  · rwa [hregions] at hcont
  · rwa [hregions]

theorem SetsOnly.setRegion {i : Nat} {r : HeapRegion}
    (hbits : ∀ a, r.objectStartBitmap a = true →
      (h.regions i).objectStartBitmap a = true ∨ (mem = some a ∧ h.regionIndex a = i))
    (hcont : r.typ = .humongousCont → (h.regions i).typ = .humongousCont)
    (hstart : (h.regions i).typ = .humongousStart → r.typ = .humongousStart) :
    h.SetsOnly (h.setRegion i r) mem := by
  refine ⟨rfl, rfl, fun j a => ?_, fun j => ?_, fun j => ?_⟩
  · rw [setRegion_regions, Function.update_apply]
    split
    · rename_i hj
      subst hj
      exact hbits a
    · exact Or.inl
  · rw [setRegion_regions, Function.update_apply]
    split
    · rename_i hj
      subst hj
      exact hcont
    · exact id
  · rw [setRegion_regions, Function.update_apply]
    split
    · rename_i hj
      subst hj
      exact hstart
    · exact id

theorem SetsOnly.sameKind {i : Nat} {r : HeapRegion}
    (hbits : r.objectStartBitmap = (h.regions i).objectStartBitmap)
    (htyp : r.typ = (h.regions i).typ) : h.SetsOnly (h.setRegion i r) mem := by
  apply SetsOnly.setRegion
  · intro a hbit
    rw [hbits] at hbit
    exact Or.inl hbit
  · rw [htyp]
    exact id
  · rw [htyp]
    exact id

theorem SetsOnly.setStartBit {addr : Nat} (h : Heap) :
    h.SetsOnly (h.setStartBit (h.regionIndex addr) addr) (some addr) := by
  refine SetsOnly.setRegion (fun a hbit => ?_) id id
  by_cases ha : a = addr
  · exact Or.inr ⟨by rw [ha], by rw [ha]⟩
  · refine Or.inl ?_
    simpa [HeapRegion.setStartBit, Function.update_of_ne ha] using hbit

theorem SetsOnly.writeHeader (h : Heap) (addr size : Nat) :
    h.SetsOnly (h.writeHeader addr size) mem := SetsOnly.sameKind rfl rfl

theorem SetsOnly.zeroFill (h : Heap) (addr size : Nat) :
    h.SetsOnly (h.zeroFill addr size) mem := SetsOnly.sameKind rfl rfl

theorem SetsOnly.markLive {addr : Nat} (h : Heap) :
    h.SetsOnly (h.markLive addr) (some addr) := by
  unfold Heap.markLive
  simp only
  split
  · exact SetsOnly.refl h _
  · exact SetsOnly.setStartBit h

theorem SetsOnly.tryRecycleTrashed (h : Heap) (i : Nat) :
    h.SetsOnly (h.tryRecycleTrashed i) mem := by
  unfold Heap.tryRecycleTrashed
  split
  · rename_i htrash
    refine SetsOnly.setRegion (fun a hbit => ?_) ?_ fun hstart => ?_
    · simp [HeapRegion.recycle] at hbit
    · simp [HeapRegion.recycle, htrash]
    · simp [HeapRegion.isTrash, hstart] at htrash
  · exact SetsOnly.refl h mem

theorem SetsOnly.retireRegion (h : Heap) (i : Nat) : h.SetsOnly (h.retireRegion i) mem :=
  SetsOnly.of_regions (TouchesOnly.retireRegion h i).opts_eq
    (TouchesOnly.retireRegion h i).memStart_eq (retireRegion_regions h i)

theorem SetsOnly.recordAllocation {i addr : Nat} (h : Heap) (req : AllocRequest) (size : Nat)
    (hindex : h.regionIndex addr = i) :
    h.SetsOnly (h.recordAllocation i req size addr) (some addr) := by
  have hused : h.SetsOnly (h.setFreeSet (h.freeSet.increaseUsed size)) (some addr) :=
    SetsOnly.of_regions rfl rfl rfl
  unfold Heap.recordAllocation
  simp only
  split
  · exact hused
  · rw [← hindex]
    exact hused.trans (SetsOnly.setStartBit (h.setFreeSet (h.freeSet.increaseUsed size)))

section Requests

variable {req : AllocRequest} {result : AllocResult}

theorem SetsOnly.tryAllocateIn {i : Nat} (ho : h.Offered i)
    (hindex : ∀ addr, result.mem = some addr → h.regionIndex addr = i)
    (hok : h.tryAllocateIn i req = .ok (result, h')) : h.SetsOnly h' result.mem := by
  obtain ⟨size, mid, halloc, hcases⟩ := tryAllocateIn_cases hok
  have hrecycled : h.SetsOnly (h.tryRecycleTrashed i) result.mem :=
    SetsOnly.tryRecycleTrashed h i
  have hmid : h.SetsOnly mid result.mem := by
    obtain ⟨_, ⟨_, _, rfl⟩ | ⟨_, ⟨r, hr, rfl⟩, _⟩⟩ := allocateIn_cases halloc
    · exact hrecycled
    · obtain ⟨_, htyp⟩ := HeapRegion.allocate_sameFrame hr
      have hbits := HeapRegion.allocate_bits hr
      have hcommit : (h.tryRecycleTrashed i).SetsOnly
          ((h.tryRecycleTrashed i).commitIfNeeded i) result.mem :=
        SetsOnly.of_regions (TouchesOnly.commitIfNeeded _ i i).opts_eq
          (TouchesOnly.commitIfNeeded _ i i).memStart_eq (commitIfNeeded_regions _ i)
      refine (hrecycled.trans hcommit).trans (SetsOnly.setRegion (fun a hbit => ?_) ?_ ?_)
      · rw [hbits] at hbit
        rw [commitIfNeeded_regions]
        exact Or.inl hbit
      · simp [htyp]
      · -- a region that is offered holds no humongous object
        rw [commitIfNeeded_regions]
        intro hstart
        have hallowed := ho.allowed
        have hold : (h.regions i).typ = .humongousStart := by
          unfold Heap.tryRecycleTrashed at hstart
          split at hstart
          · rename_i htrash
            simp [HeapRegion.recycle, htrash] at hstart
          · exact hstart
        simp [HeapRegion.isAllocAllowed, HeapRegion.isEmpty, HeapRegion.isTrash, hold] at hallowed
  rcases hcases with ⟨_, _, rfl⟩ | ⟨addr, hsome, _, rfl⟩
  · exact hmid.trans (SetsOnly.retireRegion mid i)
  · have haddr : mid.regionIndex addr = i := by
      rw [← hindex addr hsome]
      unfold regionIndex
      rw [hmid.opts_eq, hmid.memStart_eq]
    rw [hsome] at hmid ⊢
    have hrecord := hmid.trans (SetsOnly.recordAllocation mid req size haddr)
    split
    · exact hrecord.trans (SetsOnly.retireRegion _ i)
    · exact hrecord

theorem SetsOnly.allocateSingleLoop {indices : List Nat} {inNewRegion : Bool} (hl : h.Laid held)
    (hp : h.Placed c) (hs : h.Sound) (hdvd : 16 ∣ req.size) (hpos : 0 < req.size)
    (hmin : 0 < req.minSize)
    (hok : h.allocateSingleLoop req inNewRegion indices = .ok (result, h')) :
    h.SetsOnly h' result.mem := by
  induction indices generalizing h inNewRegion with
  | nil =>
      simp only [Heap.allocateSingleLoop, Except.pure_eq_ok, Prod.mk.injEq] at hok
      obtain ⟨rfl, rfl⟩ := hok
      exact SetsOnly.refl _ _
  | cons i rest ih =>
      unfold Heap.allocateSingleLoop at hok
      by_cases hbit : h.freeSet.isMutatorFree i = true
      · rw [if_pos hbit] at hok
        simp only [Except.bind_eq_ok] at hok
        obtain ⟨⟨tried, mid⟩, htry, hrest⟩ := hok
        have ho := hs.offered i hbit
        have hpmid := hp.sameShape (TouchesOnly.tryAllocateIn htry).sameShape
        obtain ⟨size, hlmid, _⟩ := hl.tryAllocateIn hp hs hbit hdvd hpos hmin htry
        have hindex : ∀ addr, tried.mem = some addr → h.regionIndex addr = i := by
          intro addr haddr
          rw [haddr] at hlmid
          have hlt : i < mid.numRegions := by
            unfold numRegions
            rw [(TouchesOnly.tryAllocateIn htry).opts_eq]
            exact ho.lt
          obtain ⟨_, hindex, _⟩ := hlmid.regionIndex_tail hpmid hlt
            (Function.update_self i _ held)
          unfold regionIndex at hindex ⊢
          rwa [hpmid.opts_eq, hpmid.memStart_eq, ← hp.opts_eq, ← hp.memStart_eq] at hindex
        have hmid := SetsOnly.tryAllocateIn ho hindex htry
        cases hmem : tried.mem with
        | some addr =>
            simp only [hmem, Except.pure_eq_ok, Prod.mk.injEq] at hrest
            obtain ⟨rfl, rfl⟩ := hrest
            exact hmid
        | none =>
            simp only [hmem] at hrest
            rw [hmem] at hmid hlmid
            have hsame : Function.update held i (handedOut none size ++ held i) = held := by
              simp [handedOut]
            rw [hsame] at hlmid
            exact hmid.weaken.trans (ih hlmid hpmid (hs.tryAllocateIn hbit htry) hrest)
      · rw [if_neg hbit] at hok
        exact ih hl hp hs hok

theorem SetsOnly.refill {size : Nat} {found : Option (Nat × ThreadLocalAllocBuffer)}
    (haligned : AlignedTlabs c.opts) (hl : h.Laid held) (hp : h.Placed c) (hs : h.Sound)
    (hpos : 0 < size) (hle : size ≤ threadTlabSize c.opts) (hok : h.refill size = .ok (found, h')) :
    h.SetsOnly h' (found.map Prod.fst) := by
  obtain ⟨result, mid, halloc, hcases⟩ := refill_cases hok
  have hreq : (labRequest h.opts).size = threadTlabSize c.opts := by
    rw [hp.opts_eq]
    rfl
  have hmin : 0 < (labRequest h.opts).minSize := by
    have hge := c.geometry.minTlab_ge
    rw [hp.opts_eq]
    exact Nat.lt_of_lt_of_le (by omega) hge
  unfold Heap.allocate at halloc
  rw [if_neg (by rw [hreq, hp.opts_eq]; exact Nat.not_lt.mpr haligned.tlab_le)] at halloc
  have hsingle := SetsOnly.allocateSingleLoop hl hp hs (by rw [hreq]; exact haligned.tlab_dvd)
    (by rw [hreq]; omega) hmin halloc
  rcases hcases with ⟨hnone, rfl, rfl⟩ | ⟨mem, hmem, rfl, rfl⟩
  · rw [hnone] at hsingle
    exact hsingle
  · rw [hmem] at hsingle
    have hzero := hsingle.trans (SetsOnly.zeroFill mid mem result.req.actualSize)
    exact hzero.trans (SetsOnly.setStartBit _)

end Requests

-- A new object is recorded by its start bit.
theorem Recorded.keep (hr : h.Recorded objs) (hk : h.SetsOnly h' mem)
    (hsub : ∀ i, ∀ b ∈ objs i, b ∈ objs' i)
    (hnew : ∀ addr, mem = some addr → ∃ b ∈ objs' (h.regionIndex addr), b.addr = addr) :
    h'.Recorded objs' := by
  have hn : h'.numRegions = h.numRegions := by
    unfold numRegions
    rw [hk.opts_eq]
  constructor
  · intro i hi a hbit
    rcases hk.bits i a hbit with hold | ⟨hmem, rfl⟩
    · obtain ⟨b, hb, haddr⟩ := hr.bits i (hn ▸ hi) a hold
      exact ⟨b, hsub i b hb, haddr⟩
    · exact hnew a hmem
  · intro j hj hcont
    obtain ⟨i, hij, hstart, b, hb, hreach⟩ := hr.owned j (hn ▸ hj) (hk.conts j hcont)
    refine ⟨i, hij, hk.starts i hstart, b, hsub i b hb, ?_⟩
    rw [hk.opts_eq]
    exact hreach

theorem Recorded.same (hr : h.Recorded objs) (hk : h.SetsOnly h' none) : h'.Recorded objs :=
  hr.keep hk (fun _ _ => id) fun _ hnone => by cases hnone

theorem Recorded.of_eq (hr : h.Recorded objs) (heq : ∀ i, objs' i = objs i) : h.Recorded objs' := by
  rwa [funext heq]

-- A humongous object owns the regions of its run.
theorem Recorded.claimRun {beg size : Nat} (hr : h.Recorded objs) (hl : h.Laid held)
    (hp : h.Placed c) (hp' : h'.Placed c)
    (hrun : ∀ j, beg ≤ j → j < beg + h.opts.requiredRegions size →
      j < h.numRegions ∧ h.canAllocateFrom j = true)
    (hframe : h'.regions = (h.claimRun beg (h.opts.requiredRegions size)).regions) (addr : Nat) :
    h'.Recorded (withObject beg addr size objs) := by
  have hn : h'.numRegions = h.numRegions := by
    unfold numRegions
    rw [hp'.opts_eq, hp.opts_eq]
  have hregion : ∀ j, h'.regions j = if beg ≤ j ∧ j < beg + h.opts.requiredRegions size then
      (h.claimHumongous beg j).regions j else h.regions j := by
    intro j
    rw [hframe]
    exact (claimRun_regions h beg _ j).2
  have hmem : ∀ i, ∀ b ∈ objs i, b ∈ withObject beg addr size objs i :=
    fun i b hb => List.mem_append_right _ hb
  constructor
  · intro j hj a hbit
    rw [hn] at hj
    rw [hregion] at hbit
    split at hbit
    · rename_i hin
      obtain ⟨hlt, hcan⟩ := hrun j hin.1 hin.2
      obtain ⟨_, hvacant, _⟩ := hl.vacant hlt hcan
      rw [(claimHumongous_region h beg j).2.2] at hbit
      split at hbit
      · cases hbit
      · rename_i htrash
        rw [hvacant (by simpa using htrash) a] at hbit
        cases hbit
    · obtain ⟨b, hb, haddr⟩ := hr.bits j hj a hbit
      exact ⟨b, hmem j b hb, haddr⟩
  · intro j hj hcont
    rw [hn] at hj
    rw [hregion] at hcont
    have hopts : h'.opts = h.opts := hp'.opts_eq.trans hp.opts_eq.symm
    by_cases hin : beg ≤ j ∧ j < beg + h.opts.requiredRegions size
    · rw [if_pos hin, (claimHumongous_region h beg j).1] at hcont
      have hne : j ≠ beg := by
        rintro rfl
        simp at hcont
      refine ⟨beg, by omega, ?_, ⟨addr, size, .object⟩, by simp [withObject], ?_⟩
      · rw [hregion, if_pos (by omega), (claimHumongous_region h beg beg).1, if_pos rfl]
      · rw [hopts]
        exact hin.2
    · rw [if_neg hin] at hcont
      obtain ⟨i, hij, hstart, b, hb, hreach⟩ := hr.owned j hj hcont
      have hout : ¬(beg ≤ i ∧ i < beg + h.opts.requiredRegions size) := by
        intro hin'
        obtain ⟨hlt, hcan⟩ := hrun i hin'.1 hin'.2
        exact (hl.vacant hlt hcan).2.2.2 hstart
      refine ⟨i, hij, ?_, b, hmem i b hb, ?_⟩
      · rw [hregion, if_neg hout]
        exact hstart
      · rw [hopts]
        exact hreach

theorem Recorded.allocateOutsideTlab {size : Nat} {found : Option Nat} (hr : h.Recorded objs)
    (hl : h.Laid held) (hp : h.Placed c) (hs : h.Sound) (hdvd : 16 ∣ size) (hpos : 0 < size)
    (hok : h.allocateOutsideTlab size = .ok (found, h')) :
    (found = none → h'.Recorded objs) ∧
      ∀ addr, found = some addr → h'.Recorded (withObject (h.regionIndex addr) addr size objs) := by
  obtain ⟨result, mid, halloc, rfl, hcases⟩ := allocateOutsideTlab_cases hok
  obtain ⟨_, htouch⟩ := allocate_sound hs halloc
  have hmid := hp.sameShape htouch.sameShape
  have hreq : (sharedRequest size).size = size := rfl
  have hnew : ∀ addr, ∃ b ∈ withObject (h.regionIndex addr) addr size objs (h.regionIndex addr),
      b.addr = addr := fun addr => ⟨⟨addr, size, .object⟩, by simp [withObject], rfl⟩
  by_cases hbig : h.opts.humongousThresholdBytes < size
  · unfold Heap.allocate at halloc
    rw [hreq, if_pos hbig, Except.pure_eq_ok] at halloc
    rcases allocateContiguous_cases h (sharedRequest size) with heq | ⟨beg, hfound, heq⟩
    · rw [halloc] at heq
      obtain ⟨rfl, rfl⟩ := Prod.mk.inj heq
      rcases hcases with ⟨_, rfl⟩ | ⟨addr, hmem, _⟩
      · exact ⟨fun _ => hr, fun addr hmem => by cases hmem⟩
      · cases hmem
    · rw [halloc] at heq
      change (result, mid) = (h.claimRun beg (h.opts.requiredRegions size)).finishContiguous
        (sharedRequest size) beg (h.opts.requiredRegions size) at heq
      change h.findRun (h.opts.requiredRegions size) _ _ _ = some beg at hfound
      obtain ⟨hnum, hrun⟩ := findRun_spec (Nat.le_refl _) (fun j hl hr => by omega) hfound
      obtain ⟨_, _, hregions, _⟩ := finishContiguous_eq
        (h.claimRun beg (h.opts.requiredRegions size)) (sharedRequest size) beg
        (h.opts.requiredRegions size)
      rw [← heq] at hregions
      have hmem : result.mem = some (mid.regions beg).bottom := by
        have hfst := congrArg (fun x => x.1.mem) heq
        rw [finishContiguous_result] at hfst
        rw [hregions]
        exact hfst
      have hindex : mid.regionIndex (mid.regions beg).bottom = beg :=
        hmid.regionIndex_eq (Nat.le_refl _) (hmid.lt_limit beg)
      have hclaimed : ∀ addr, mid.Recorded (withObject beg addr size objs) := by
        refine fun addr => hr.claimRun hl hp hmid (fun j hl' hr => ?_) hregions addr
        obtain ⟨_, hbit, hcan⟩ := hrun j hl' hr
        exact ⟨(hs.offered j hbit).lt, hcan⟩
      rcases hcases with ⟨hnone, _⟩ | ⟨addr, hsome, rfl⟩
      · simp [hmem] at hnone
      · obtain rfl : (mid.regions beg).bottom = addr := by
          rw [hmem] at hsome
          exact Option.some.inj hsome
        refine ⟨fun hnone => by simp [hmem] at hnone, fun addr haddr => ?_⟩
        obtain rfl : (mid.regions beg).bottom = addr := by
          rw [hmem] at haddr
          exact Option.some.inj haddr
        -- the first region of the run has no start bit to set
        have hlive : mid.markLive (mid.regions beg).bottom = mid := by
          unfold markLive
          simp only [hindex]
          rw [if_pos]
          rw [hregions, (claimRun_regions h beg _ beg).2, if_pos (by omega),
            HeapRegion.isHumongousStart, (claimHumongous_region h beg beg).1, if_pos rfl]
          rfl
        have hsame : h.regionIndex (mid.regions beg).bottom = beg := by
          rw [hp.regionIndex_config, ← hmid.regionIndex_config, hindex]
        rw [hlive, hsame]
        exact hclaimed _
  · unfold Heap.allocate at halloc
    rw [hreq, if_neg hbig] at halloc
    have hsingle := SetsOnly.allocateSingleLoop hl hp hs (by rw [hreq]; exact hdvd)
      (by rw [hreq]; exact hpos) hpos halloc
    rcases hcases with ⟨hnone, rfl⟩ | ⟨addr, hsome, rfl⟩
    · rw [hnone] at hsingle ⊢
      exact ⟨fun _ => hr.same hsingle, fun addr hmem => by cases hmem⟩
    · rw [hsome] at hsingle ⊢
      refine ⟨(fun hnone => by cases hnone), fun addr' haddr => ?_⟩
      obtain rfl := Option.some.inj haddr
      refine hr.keep (hsingle.trans (SetsOnly.markLive mid)) ?_ fun addr' haddr' => ?_
      · exact fun i b hb => List.mem_append_right _ hb
      · obtain rfl := Option.some.inj haddr'
        exact hnew addr

end Heap

end Rsgc.Storage
