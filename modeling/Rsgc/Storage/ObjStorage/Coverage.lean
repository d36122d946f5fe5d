import Rsgc.Storage.ObjStorage.Lists
import Rsgc.Storage.ObjStorage.Queue

namespace Rsgc.Storage

namespace StoragePlace

-- The block that one entry is taken from.
def takes : StoragePlace → Nat → Bool
  | taking block _, b | taken block _, b => block = b
  | _, _ => false

-- The blocks that a thread is going to put on one of the lists, or has to fill.
def covers : StoragePlace → Nat → Bool
  | popped _ block, b | judging _ block, b | takingAll block _ _, b | checking block, b
  | linking block, b | loading block, b | storing block _, b | pushing block _, b => block = b
  | _, _ => false

variable {p : StoragePlace} {b : Nat}

theorem locked_of_takes (h : p.takes b = true) : p.locked = true := by
  cases p with
  | taking block index => rfl
  | taken block index => rfl
  | _ => cases h

theorem covers_of_carries (h : p.carries b = true) : p.covers b = true := by
  cases p with
  | popped request block => exact h
  | loading block => exact h
  | storing block head => exact h
  | pushing block head => exact h
  | _ => cases h

theorem covers_of_queues (h : p.queues b = true) : p.covers b = true := by
  cases p with
  | checking block => exact h
  | linking block => exact h
  | loading block => exact h
  | storing block head => exact h
  | pushing block head => exact h
  | _ => cases h

end StoragePlace

namespace ObjStorage

variable {τ : Type*} [DecidableEq τ] {s u : ObjStorage τ} {t : τ} {p : StoragePlace}
  {al al' dl dl' : List Nat} {block : Nat}

theorem length_le_of_made {n : Nat} (hnodup : al.Nodup) (hmade : ∀ b ∈ al, b < n) :
    al.length ≤ n := by
  have hsub : al ⊆ List.range n := fun b hb => List.mem_range.mpr (hmade b hb)
  simpa using (List.subperm_of_subset hnodup hsub).length_le

section Listed

-- The allocation list goes over the blocks of `al`, and one entry is taken from the first.
structure Listed (s : ObjStorage τ) (al : List Nat) : Prop where
  holds : s.list.Holds al
  made : ∀ b ∈ al, b < s.created
  first : ∀ v b, (s.place v).takes b = true → s.list.head = some b

omit [DecidableEq τ] in
theorem Listed.listed_eq (h : s.Listed al) : s.listed = al :=
  h.holds.forward.walk_eq (length_le_of_made h.holds.nodup h.made)

theorem Listed.keep (h : s.Listed al) (hplace : u.place = Function.update s.place t p)
    (hlist : u.list = s.list) (hcreated : u.created = s.created)
    (hp : ∀ b, p.takes b = true → s.list.head = some b) : u.Listed al := by
  refine ⟨hlist ▸ h.holds, hcreated ▸ h.made, fun v => ?_⟩
  rw [hplace, hlist]
  by_cases hv : v = t
  · rw [hv, Function.update_self]
    exact hp
  · rw [Function.update_of_ne hv]
    exact h.first v

-- Where the list is changed, no other thread works on it.
theorem Listed.change (hplace : u.place = Function.update s.place t p)
    (hholds : u.list.Holds al) (hmade : ∀ b ∈ al, b < u.created)
    (hothers : ∀ v ≠ t, (s.place v).locked = false) (hp : p.takes = fun _ => false) :
    u.Listed al := by
  refine ⟨hholds, hmade, fun v b hv => ?_⟩
  rw [hplace] at hv
  by_cases hvt : v = t
  · rw [hvt, Function.update_self, hp] at hv
    cases hv
  · rw [Function.update_of_ne hvt] at hv
    have hlocked := StoragePlace.locked_of_takes hv
    rw [hothers v hvt] at hlocked
    cases hlocked

omit [DecidableEq τ] in
theorem Listed.unlink {list : AllocationList} (h : s.Listed al) (hhead : s.list.head = some block)
    (hunlink : s.list.unlink block = some list) : ∃ rest, al = block :: rest ∧ list.Holds rest := by
  have hfirst := h.holds.head_eq
  rw [hhead] at hfirst
  cases al with
  | nil => cases hfirst
  | cons first rest =>
      obtain rfl := Option.some.inj hfirst
      obtain ⟨list', hunlink', hholds, -⟩ := h.holds.unlink
      rw [hunlink] at hunlink'
      obtain rfl := Option.some.inj hunlink'
      exact ⟨rest, rfl, hholds⟩

omit [DecidableEq τ] in
theorem Listed.judge {list : AllocationList} (h : s.Listed al) (hblock : block < s.created)
    (hsmooth : s.list.next block = none ∨ block ∈ al ∧ s.mask block ≠ 0)
    (hjudge : s.judge block = some list) :
    ∃ al', list.Holds al' ∧ (∀ b ∈ al', b < s.created) ∧ (∀ b ∈ al, b ∈ al') ∧
      (s.mask block ≠ BitVec.allOnes 64 → block ∈ al') := by
  have hcontains : s.list.contains block = true ↔ block ∈ al :=
    h.holds.contains_iff fun hnot => hsmooth.resolve_right fun hmem => hnot hmem.1
  have hmade : ∀ b ∈ block :: al, b < s.created := by
    intro b hb
    rcases List.mem_cons.mp hb with rfl | hmem
    · exact hblock
    · exact h.made b hmem
  unfold ObjStorage.judge at hjudge
  split at hjudge
  · obtain ⟨-, rfl⟩ := guard_not_eq_some.mp hjudge
    exact ⟨al, h.holds, h.made, fun b => id, fun hne => absurd ‹_› hne⟩
  · split at hjudge
    · rename_i hcontained
      have hmem := hcontains.mp hcontained
      split at hjudge
      · rename_i hempty
        have hnext := hsmooth.resolve_right fun hnot => hnot.2 hempty
        obtain ⟨front, back, rfl⟩ := List.append_of_mem hmem
        have hback : back = [] := by
          rw [h.holds.forward.next_eq] at hnext
          exact List.head?_eq_none_iff.mp hnext
        subst hback
        rw [h.holds.requeue] at hjudge
        obtain rfl := Option.some.inj hjudge
        exact ⟨_, h.holds, h.made, fun b => id, fun _ => hmem⟩
      · obtain rfl := Option.some.inj hjudge
        exact ⟨al, h.holds, h.made, fun b => id, fun _ => hmem⟩
    · rename_i hnot
      rw [hcontains] at hnot
      have hnext := hsmooth.resolve_right fun hmem => hnot hmem.1
      split at hjudge
      · obtain rfl := Option.some.inj hjudge
        refine ⟨al ++ [block], h.holds.pushBack hnot hnext, fun b hb => ?_, fun b hb => ?_,
          fun _ => by simp⟩
        · exact hmade b (by simpa [or_comm] using hb)
        · exact List.mem_append_left _ hb
      · obtain rfl := Option.some.inj hjudge
        exact ⟨block :: al, h.holds.pushFront hnot hnext, hmade,
          fun b => List.mem_cons_of_mem block, fun _ => List.mem_cons_self⟩

theorem Listed.addBlock {request : EntryRequest} (h : s.Listed al) (hguard : s.Guarded)
    (hfree : s.owner = none) : (s.addBlock t request).Listed (al ++ [s.created]) := by
  have hnot : s.created ∉ al := fun hmem => Nat.lt_irrefl _ (h.made _ hmem)
  refine Listed.change rfl (.pushBack (h.holds.reset hnot) hnot (Function.update_self ..)) ?_
    (fun v _ => hguard.free hfree v) rfl
  intro b hb
  rcases List.mem_append.mp hb with hmem | hmem
  · exact Nat.lt_succ_of_lt (h.made b hmem)
  · rw [List.mem_singleton.mp hmem]
    exact Nat.lt_succ_self _

end Listed

section Covered

-- Every block with a free entry is on one of the lists, or a thread cares for it.
def Covered (s : ObjStorage τ) (al dl : List Nat) : Prop :=
  ∀ b < s.created, s.mask b ≠ BitVec.allOnes 64 →
    b ∈ al ∨ b ∈ dl ∨ ∃ v, (s.place v).covers b = true

theorem Covered.update (h : s.Covered al dl) (hplace : u.place = Function.update s.place t p)
    (hnew : ∀ b < u.created, u.mask b ≠ BitVec.allOnes 64 →
      b < s.created ∧ s.mask b ≠ BitVec.allOnes 64 ∨ b ∈ al' ∨ p.covers b = true)
    (hal : ∀ b ∈ al, u.mask b ≠ BitVec.allOnes 64 → b ∈ al' ∨ p.covers b = true)
    (hdl : ∀ b ∈ dl, b ∈ dl' ∨ p.covers b = true)
    (ht : ∀ b, (s.place t).covers b = true → u.mask b ≠ BitVec.allOnes 64 →
      b ∈ al' ∨ b ∈ dl' ∨ p.covers b = true ∨ ∃ v ≠ t, (s.place v).covers b = true) :
    u.Covered al' dl' := by
  have hself : ∀ b, p.covers b = true → ∃ v, (u.place v).covers b = true := fun b hb =>
    ⟨t, by rwa [hplace, Function.update_self]⟩
  have hother : ∀ b v, v ≠ t → (s.place v).covers b = true → (u.place v).covers b = true :=
    fun b v hv hb => by rwa [hplace, Function.update_of_ne hv]
  intro b hb hmask
  rcases hnew b hb hmask with ⟨hbs, hmasks⟩ | hmem | hcovers
  · rcases h b hbs hmasks with hmem | hmem | ⟨v, hv⟩
    · exact (hal b hmem hmask).imp_right fun hcovers => Or.inr (hself b hcovers)
    · exact Or.inr ((hdl b hmem).imp_right (hself b))
    · by_cases hvt : v = t
      · subst hvt
        rcases ht b hv hmask with hmem | hmem | hcovers | ⟨w, hw, hcovers⟩
        · exact Or.inl hmem
        · exact Or.inr (Or.inl hmem)
        · exact Or.inr (Or.inr (hself b hcovers))
        · exact Or.inr (Or.inr ⟨w, hother b w hw hcovers⟩)
      · exact Or.inr (Or.inr ⟨v, hother b v hvt hv⟩)
  · exact Or.inl hmem
  · exact Or.inr (Or.inr (hself b hcovers))

theorem Covered.keep (h : s.Covered al dl) (hplace : u.place = Function.update s.place t p)
    (hmask : u.mask = s.mask) (hcreated : u.created = s.created)
    (ht : ∀ b, (s.place t).covers b = true → p.covers b = true) : u.Covered al dl := by
  refine h.update hplace (fun b hb hfull => ?_) (fun b hb _ => Or.inl hb)
    (fun b hb => Or.inl hb) fun b hb _ => Or.inr (Or.inr (Or.inl (ht b hb)))
  rw [hcreated] at hb
  rw [hmask] at hfull
  exact Or.inl ⟨hb, hfull⟩

end Covered

section Tracked

variable [Fintype τ]

omit [DecidableEq τ] in
theorem Queued.queued_eq (h : s.Queued dl) (hmade : s.Made) : s.queued = dl := by
  refine h.path.walk_eq (length_le_of_made h.nodup fun b hb => ?_)
  by_contra hnot
  exact h.linked hb (hmade.unqueued b (Nat.le_of_not_lt hnot))

def Tracked (s : ObjStorage τ) : Prop :=
  ∃ al dl, s.Listed al ∧ s.Queued dl ∧ s.Covered al dl

-- The thread goes on, and touches neither the lists nor the bits.
theorem Tracked.goes (hl : s.Listed al) (hq : s.Queued dl) (hc : s.Covered al dl)
    (hplace : u.place = Function.update s.place t p) (hlist : u.list = s.list)
    (hcreated : u.created = s.created) (hmask : u.mask = s.mask)
    (hnext : u.deferredNext = s.deferredNext) (hdeferred : u.deferred = s.deferred)
    (htakes : ∀ b, p.takes b = true → s.list.head = some b)
    (hcarries : ∀ b, p.carries b = (s.place t).carries b)
    (hcovers : ∀ b, (s.place t).covers b = true → p.covers b = true)
    (hat : s.QueuedAt dl p) : u.Tracked :=
  ⟨al, dl, hl.keep hplace hlist hcreated htakes, hq.keep hplace hnext hdeferred hcarries hat,
    hc.keep hplace hmask hcreated hcovers⟩

theorem Tracked.beginMany {size : Nat} {list : AllocationList} (hsound : s.Sound)
    (h : s.Tracked) (ht : s.place t = .choosing (.many size)) (hhead : s.list.head = some block)
    (hunlink : s.list.unlink block = some list) :
    Tracked { s.goto t (.takingAll block (~~~s.mask block) size) with list := list } := by
  obtain ⟨al, dl, hl, hq, hc⟩ := h
  obtain ⟨rest, rfl, hholds⟩ := hl.unlink hhead hunlink
  refine ⟨rest, dl, Listed.change rfl hholds (fun b hb => hl.made b (List.mem_cons_of_mem _ hb))
    (fun v hv => hsound.guarded.unlocked (by rw [ht]; rfl) hv) rfl, ?_, ?_⟩
  · exact hq.keep rfl rfl rfl (fun b => by rw [ht]; rfl) trivial
  · refine hc.update rfl (fun b hb hmask => Or.inl ⟨hb, hmask⟩) (fun b hb _ => ?_)
      (fun b hb => Or.inl hb) fun b hb => ?_
    · rcases List.mem_cons.mp hb with rfl | hmem
      · exact Or.inr (decide_eq_true rfl)
      · exact Or.inl hmem
    · rw [ht] at hb
      cases hb

theorem Tracked.exchange {request : EntryRequest} {tail : Option Nat} (hsound : s.Sound)
    (h : s.Tracked) (ht : s.place t = .exchanging request block tail)
    (hdeferred : s.deferred = some block) :
    Tracked { s.goto t (.popped request block) with deferred := tail } := by
  obtain ⟨al, dl, hl, hq, hc⟩ := h
  obtain ⟨rest, rfl, hrest⟩ := hq.exchange hsound.guarded ht hdeferred
  refine ⟨al, rest, hl.keep rfl rfl rfl (fun b hb => nomatch hb), hrest, ?_⟩
  refine hc.update rfl (fun b hb hmask => Or.inl ⟨hb, hmask⟩) (fun b hb _ => Or.inl hb)
    (fun b hb => ?_) fun b hb => ?_
  · rcases List.mem_cons.mp hb with rfl | hmem
    · exact Or.inr (decide_eq_true rfl)
    · exact Or.inl hmem
  · rw [ht] at hb
    cases hb

theorem Tracked.judge {request : EntryRequest} {list : AllocationList} (hsound : s.Sound)
    (h : s.Tracked) (hsmooth : s.SmoothAt (s.place t)) (ht : s.place t = .judging request block)
    (hjudge : s.judge block = some list) :
    Tracked { s.goto t (.choosing request) with list := list } := by
  obtain ⟨al, dl, hl, hq, hc⟩ := h
  rw [ht] at hsmooth
  simp only [SmoothAt, hl.listed_eq] at hsmooth
  have hblock := hsound.made.at ht List.mem_cons_self
  obtain ⟨al', hholds, hmade, hkept, hnew⟩ := hl.judge hblock hsmooth hjudge
  refine ⟨al', dl, Listed.change rfl hholds hmade
    (fun v hv => hsound.guarded.unlocked (by rw [ht]; rfl) hv) rfl, ?_, ?_⟩
  · exact hq.keep rfl rfl rfl (fun b => by rw [ht]; rfl) trivial
  · refine hc.update rfl (fun b hb hmask => Or.inl ⟨hb, hmask⟩)
      (fun b hb _ => Or.inl (hkept b hb)) (fun b hb => Or.inl hb) fun b hb hmask => ?_
    rw [ht] at hb
    obtain rfl : block = b := of_decide_eq_true hb
    exact Or.inl (hnew hmask)

theorem Tracked.addBlock {request : EntryRequest} (hsound : s.Sound) (h : s.Tracked)
    (ht : s.place t = .adding request) (hfree : s.owner = none) :
    (s.addBlock t request).Tracked := by
  obtain ⟨al, dl, hl, hq, hc⟩ := h
  have hnext : (s.addBlock t request).deferredNext = s.deferredNext := by
    unfold ObjStorage.addBlock
    rw [← hsound.made.unqueued s.created (Nat.le_refl _), Function.update_eq_self]
  refine ⟨al ++ [s.created], dl, hl.addBlock hsound.guarded hfree, ?_, ?_⟩
  · exact hq.keep rfl hnext rfl (fun b => by rw [ht]; rfl) trivial
  · refine hc.update rfl (fun b hb hmask => ?_)
      (fun b hb _ => Or.inl (List.mem_append_left _ hb)) (fun b hb => Or.inl hb) fun b hb => ?_
    · rcases Nat.lt_succ_iff_lt_or_eq.mp hb with hlt | rfl
      · simp only [ObjStorage.addBlock, Function.update_of_ne (Nat.ne_of_lt hlt)] at hmask
        exact Or.inl ⟨hlt, hmask⟩
      · exact Or.inr (Or.inl (by simp))
    · rw [ht] at hb
      cases hb

theorem Tracked.take {index : Nat} (hsound : s.Sound) (h : s.Tracked)
    (ht : s.place t = .taking block index) :
    Tracked { s.goto t (.taken block index) with
      mask := Function.update s.mask block (s.mask block + BitVec.twoPow 64 index) } := by
  obtain ⟨al, dl, hl, hq, hc⟩ := h
  have hfree : s.mask block ≠ BitVec.allOnes 64 := by
    intro hfull
    have hat := hsound.bits.place t
    rw [ht] at hat
    have hbit := hat.2
    rw [hfull, BitVec.getLsbD_allOnes, decide_eq_false_iff_not] at hbit
    exact hbit hat.1
  refine ⟨al, dl, hl.keep rfl rfl rfl fun b hb => hl.first t b (by rwa [ht]), ?_, ?_⟩
  · exact hq.keep rfl rfl rfl (fun b => by rw [ht]; rfl) trivial
  · refine hc.update rfl (fun b hb hmask => Or.inl ⟨hb, ?_⟩) (fun b hb _ => Or.inl hb)
      (fun b hb => Or.inl hb) fun b hb => ?_
    · by_cases hne : b = block
      · rwa [hne]
      · simp only [Function.update_of_ne hne] at hmask
        exact hmask
    · rw [ht] at hb
      cases hb

theorem Tracked.finishFull {index : Nat} {list : AllocationList} (hsound : s.Sound)
    (h : s.Tracked) (ht : s.place t = .taken block index)
    (hfull : s.mask block = BitVec.allOnes 64) (hunlink : s.list.unlink block = some list) :
    (s.finish t block index list).Tracked := by
  obtain ⟨al, dl, hl, hq, hc⟩ := h
  have hhead := hl.first t block (by simp [ht, StoragePlace.takes])
  obtain ⟨rest, rfl, hholds⟩ := hl.unlink hhead hunlink
  refine ⟨rest, dl, Listed.change rfl hholds (fun b hb => hl.made b (List.mem_cons_of_mem _ hb))
    (fun v hv => hsound.guarded.unlocked (by rw [ht]; rfl) hv) rfl, ?_, ?_⟩
  · exact hq.keep rfl rfl rfl (fun b => by rw [ht]; rfl) trivial
  · refine hc.update rfl (fun b hb hmask => Or.inl ⟨hb, hmask⟩) (fun b hb hmask => ?_)
      (fun b hb => Or.inl hb) fun b hb => ?_
    · rcases List.mem_cons.mp hb with rfl | hmem
      · exact absurd hfull hmask
      · exact Or.inl hmem
    · rw [ht] at hb
      cases hb

theorem Tracked.takeAll {size : Nat} {new : BitVec 64} (hsound : s.Sound) (h : s.Tracked)
    (hsmooth : s.SmoothAt (s.place t)) (ht : s.place t = .takingAll block new size) :
    (s.takeAll t block new size).Tracked := by
  obtain ⟨al, dl, hl, hq, hc⟩ := h
  rw [ht] at hsmooth
  simp only [SmoothAt, hq.queued_eq hsound.made] at hsmooth
  have hdisjoint : s.mask block &&& new = 0 := by
    have hat := hsound.bits.place t
    rw [ht] at hat
    exact hat
  refine ⟨al, dl, hl.keep rfl rfl rfl fun b hb => ?_, ?_, ?_⟩
  · split at hb <;> cases hb
  · exact hq.keep rfl rfl rfl (fun b => by rw [ht]; split <;> rfl) (by split <;> trivial)
  · refine hc.update rfl (fun b hb hmask => Or.inl ⟨hb, fun hfull => hmask ?_⟩)
      (fun b hb _ => Or.inl hb) (fun b hb => Or.inl hb) fun b hb hmask => ?_
    · simp only [ObjStorage.takeAll]
      by_cases hne : b = block
      · subst hne
        rw [hfull, BitVec.allOnes_and] at hdisjoint
        rw [Function.update_self, hdisjoint]
        simpa using hfull
      · rwa [Function.update_of_ne hne]
    · rw [ht] at hb
      obtain rfl : block = b := of_decide_eq_true hb
      rcases hsmooth with hnew | hmem | ⟨v, hv⟩
      · simp only [ObjStorage.takeAll, Function.update_self, hnew, BitVec.add_not_self] at hmask
        exact absurd rfl hmask
      · exact Or.inr (Or.inl hmem)
      · have hvt : v ≠ t := by
          rintro rfl
          rw [ht] at hv
          cases hv
        exact Or.inr (Or.inr (Or.inr ⟨v, hvt, StoragePlace.covers_of_queues hv⟩))

theorem Tracked.clear {releasing : BitVec 64} (h : s.Tracked)
    (ht : s.place t = .clearing block releasing) : (s.clear t block releasing).Tracked := by
  obtain ⟨al, dl, hl, hq, hc⟩ := h
  refine ⟨al, dl, hl.keep rfl rfl rfl fun b hb => ?_, ?_, ?_⟩
  · split at hb <;> cases hb
  · exact hq.keep rfl rfl rfl (fun b => by rw [ht]; split <;> rfl) (by split <;> trivial)
  · refine hc.update rfl (fun b hb hmask => ?_) (fun b hb _ => Or.inl hb)
      (fun b hb => Or.inl hb) fun b hb => ?_
    · by_cases hfull : s.mask b = BitVec.allOnes 64
      · by_cases hne : b = block
        · subst hne
          rw [if_pos (Or.inr hfull)]
          exact Or.inr (Or.inr (decide_eq_true rfl))
        · simp only [ObjStorage.clear, Function.update_of_ne hne] at hmask
          exact absurd hfull hmask
      · exact Or.inl ⟨hb, hfull⟩
    · rw [ht] at hb
      cases hb

theorem Tracked.skip (h : s.Tracked) (ht : s.place t = .checking block)
    (hlinked : s.deferredNext block ≠ none) : (s.goto t .idle).Tracked := by
  obtain ⟨al, dl, hl, hq, hc⟩ := h
  refine ⟨al, dl, hl.keep rfl rfl rfl (fun b hb => nomatch hb),
    hq.keep rfl rfl rfl (fun b => by rw [ht]; rfl) trivial, ?_⟩
  refine hc.update rfl (fun b hb hmask => Or.inl ⟨hb, hmask⟩) (fun b hb _ => Or.inl hb)
    (fun b hb => Or.inl hb) fun b hb _ => ?_
  rw [ht] at hb
  obtain rfl : block = b := of_decide_eq_true hb
  rcases hq.of_linked hlinked with hmem | ⟨v, hv⟩
  · exact Or.inr (Or.inl hmem)
  · have hvt : v ≠ t := by
      rintro rfl
      rw [ht] at hv
      cases hv
    exact Or.inr (Or.inr (Or.inr ⟨v, hvt, StoragePlace.covers_of_carries hv⟩))

theorem Tracked.push {head : Option Nat} (h : s.Tracked) (ht : s.place t = .pushing block head)
    (hdeferred : s.deferred = head) :
    Tracked { s.goto t .idle with deferred := some block } := by
  obtain ⟨al, dl, hl, hq, hc⟩ := h
  refine ⟨al, block :: dl, hl.keep rfl rfl rfl (fun b hb => nomatch hb), hq.push ht hdeferred, ?_⟩
  refine hc.update rfl (fun b hb hmask => Or.inl ⟨hb, hmask⟩) (fun b hb _ => Or.inl hb)
    (fun b hb => Or.inl (List.mem_cons_of_mem block hb)) fun b hb _ => ?_
  rw [ht] at hb
  obtain rfl : block = b := of_decide_eq_true hb
  exact Or.inr (Or.inl List.mem_cons_self)

theorem Tracked.move (hsound : s.Sound) (h : s.Tracked) (hsmooth : s.SmoothAt (s.place t))
    (hmove : s.Move t u) : u.Tracked := by
  have htracked := h
  obtain ⟨al, dl, hl, hq, hc⟩ := h
  cases hmove with
  | allocate ht hfree =>
      exact .goes hl hq hc rfl rfl rfl rfl rfl rfl (fun b hb => nomatch hb)
        (fun b => by rw [ht]; rfl) (fun b hb => by rw [ht] at hb; cases hb) trivial
  | release ht hheld =>
      exact .goes hl hq hc rfl rfl rfl rfl rfl rfl (fun b hb => nomatch hb)
        (fun b => by rw [ht]; rfl) (fun b hb => by rw [ht] at hb; cases hb) trivial
  | beginOne ht hhead hlt =>
      refine .goes hl hq hc rfl rfl rfl rfl rfl rfl (fun b hb => ?_)
        (fun b => by rw [ht]; rfl) (fun b hb => by rw [ht] at hb; cases hb) trivial
      rw [hhead]
      exact congrArg some (of_decide_eq_true hb)
  | beginMany ht hhead hunlink => exact htracked.beginMany hsound ht hhead hunlink
  | pop ht hdeferred =>
      have hmem : _ ∈ dl := List.mem_of_head? (hq.path.head_eq.symm.trans hdeferred)
      obtain ⟨ht, -⟩ | ⟨old, tail, ht⟩ := ht
      · exact .goes hl hq hc rfl rfl rfl rfl rfl rfl (fun b hb => nomatch hb)
          (fun b => by rw [ht]; rfl) (fun b hb => by rw [ht] at hb; cases hb) hmem
      · exact .goes hl hq hc rfl rfl rfl rfl rfl rfl (fun b hb => nomatch hb)
          (fun b => by rw [ht]; rfl) (fun b hb => by rw [ht] at hb; cases hb) hmem
  | giveUp ht =>
      obtain ht | ⟨old, tail, ht⟩ := ht
      · exact .goes hl hq hc rfl rfl rfl rfl rfl rfl (fun b hb => nomatch hb)
          (fun b => by rw [ht]; rfl) (fun b hb => by rw [ht] at hb; cases hb) trivial
      · exact .goes hl hq hc rfl rfl rfl rfl rfl rfl (fun b hb => nomatch hb)
          (fun b => by rw [ht]; rfl) (fun b hb => by rw [ht] at hb; cases hb) trivial
  | readTail ht =>
      have hat := hq.place t
      rw [ht] at hat
      exact .goes hl hq hc rfl rfl rfl rfl rfl rfl (fun b hb => nomatch hb)
        (fun b => by rw [ht]; rfl) (fun b hb => by rw [ht] at hb; cases hb) ⟨hat, rfl⟩
  | exchange ht hdeferred => exact htracked.exchange hsound ht hdeferred
  | detach ht =>
      exact ⟨al, dl, hl.keep rfl rfl rfl (fun b hb => nomatch hb), hq.detach ht,
        hc.keep rfl rfl rfl fun b hb => by rw [ht] at hb; exact hb⟩
  | judge ht hjudge => exact htracked.judge hsound hsmooth ht hjudge
  | addBlock ht hfree => exact htracked.addBlock hsound ht hfree
  | take ht => exact htracked.take hsound ht
  | finishFull ht hfull hunlink => exact htracked.finishFull hsound ht hfull hunlink
  | finish ht hfull =>
      exact .goes hl hq hc rfl rfl rfl rfl rfl rfl (fun b hb => nomatch hb)
        (fun b => by rw [ht]; rfl) (fun b hb => by rw [ht] at hb; cases hb) trivial
  | takeAll ht => exact htracked.takeAll hsound hsmooth ht
  | clear ht => exact htracked.clear ht
  | skip ht hlinked => exact htracked.skip ht hlinked
  | check ht hfree =>
      exact .goes hl hq hc rfl rfl rfl rfl rfl rfl (fun b hb => nomatch hb)
        (fun b => by rw [ht]; rfl) (fun b hb => by rw [ht] at hb; exact hb) trivial
  | link ht =>
      rw [ht] at hsmooth
      exact ⟨al, dl, hl.keep rfl rfl rfl (fun b hb => nomatch hb), hq.link ht hsmooth,
        hc.keep rfl rfl rfl fun b hb => by rw [ht] at hb; exact hb⟩
  | load ht =>
      obtain ht | ⟨head, ht⟩ := ht
      · exact .goes hl hq hc rfl rfl rfl rfl rfl rfl (fun b hb => nomatch hb)
          (fun b => by rw [ht]; rfl) (fun b hb => by rw [ht] at hb; exact hb) trivial
      · exact .goes hl hq hc rfl rfl rfl rfl rfl rfl (fun b hb => nomatch hb)
          (fun b => by rw [ht]; rfl) (fun b hb => by rw [ht] at hb; exact hb) trivial
  | store ht =>
      exact ⟨al, dl, hl.keep rfl rfl rfl (fun b hb => nomatch hb), hq.store ht,
        hc.keep rfl rfl rfl fun b hb => by rw [ht] at hb; exact hb⟩
  | push ht hdeferred => exact htracked.push ht hdeferred

end Tracked

end ObjStorage

end Rsgc.Storage
