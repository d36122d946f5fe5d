import Rsgc.Lib.BitWalk
import Rsgc.Lib.Census
import Rsgc.Storage.ObjStorage.Made

namespace Rsgc.Storage

namespace StoragePlace

def locked : StoragePlace → Bool
  | choosing _ | popping _ _ | exchanging _ _ _ | popped _ _ | judging _ _ | taking _ _
  | taken _ _ | takingAll _ _ _ => true
  | _ => false

-- The entries of a block that are taken and not returned, or not released yet.
def pending : StoragePlace → Nat → BitVec 64
  | taken block index, b => if block = b then BitVec.twoPow 64 index else 0
  | clearing block releasing, b => if block = b then releasing else 0
  | _, _ => 0

end StoragePlace

namespace ObjStorage

variable {τ : Type*} [DecidableEq τ] {s u : ObjStorage τ} {t : τ} {p : StoragePlace}

section Mutex

-- The thread with the mutex is the one that is where it needs it.
def Guarded (s : ObjStorage τ) : Prop := ∀ t, (s.place t).locked = true ↔ s.owner = some t

omit [DecidableEq τ] in
theorem Guarded.unlocked (h : s.Guarded) (ht : (s.place t).locked = true) {v : τ} (hv : v ≠ t) :
    (s.place v).locked = false := by
  rw [Bool.eq_false_iff]
  intro hlocked
  have hsame := ((h t).mp ht).symm.trans ((h v).mp hlocked)
  exact hv (Option.some.inj hsame).symm

omit [DecidableEq τ] in
theorem Guarded.free (h : s.Guarded) (hfree : s.owner = none) (v : τ) :
    (s.place v).locked = false := by
  rw [Bool.eq_false_iff]
  intro hlocked
  rw [(h v).mp hlocked] at hfree
  cases hfree

theorem Guarded.keep (h : s.Guarded) (hplace : u.place = Function.update s.place t p)
    (howner : u.owner = s.owner) (hp : p.locked = (s.place t).locked) : u.Guarded := by
  intro v
  rw [hplace, howner]
  by_cases hv : v = t
  · subst hv
    rw [Function.update_self, hp]
    exact h v
  · rw [Function.update_of_ne hv]
    exact h v

theorem Guarded.lock (h : s.Guarded) (hplace : u.place = Function.update s.place t p)
    (hfree : s.owner = none) (howner : u.owner = some t) (hp : p.locked = true) : u.Guarded := by
  intro v
  rw [hplace, howner]
  by_cases hv : v = t
  · subst hv
    simp [hp]
  · rw [Function.update_of_ne hv, h.free hfree v]
    simp [Ne.symm hv]

theorem Guarded.unlock (h : s.Guarded) (hplace : u.place = Function.update s.place t p)
    (ht : (s.place t).locked = true) (howner : u.owner = none) (hp : p.locked = false) :
    u.Guarded := by
  intro v
  rw [hplace, howner]
  by_cases hv : v = t
  · subst hv
    simp [hp]
  · rw [Function.update_of_ne hv, h.unlocked ht hv]
    simp

theorem Guarded.move (h : s.Guarded) (hmove : s.Move t u) : u.Guarded := by
  cases hmove with
  | allocate ht hfree => exact h.lock rfl hfree rfl rfl
  | release ht hheld => exact h.keep rfl rfl (by rw [ht]; rfl)
  | beginOne ht hhead hlt => exact h.keep rfl rfl (by rw [ht]; rfl)
  | beginMany ht hhead hunlink => exact h.keep rfl rfl (by rw [ht]; rfl)
  | pop ht hdeferred =>
      obtain ⟨ht, _⟩ | ⟨old, tail, ht⟩ := ht
      · exact h.keep rfl rfl (by rw [ht]; rfl)
      · exact h.keep rfl rfl (by rw [ht]; rfl)
  | giveUp ht =>
      obtain ht | ⟨old, tail, ht⟩ := ht
      · exact h.unlock rfl (by rw [ht]; rfl) rfl rfl
      · exact h.unlock rfl (by rw [ht]; rfl) rfl rfl
  | readTail ht => exact h.keep rfl rfl (by rw [ht]; rfl)
  | exchange ht hdeferred => exact h.keep rfl rfl (by rw [ht]; rfl)
  | detach ht => exact h.keep rfl rfl (by rw [ht]; rfl)
  | judge ht hjudge => exact h.keep rfl rfl (by rw [ht]; rfl)
  | addBlock ht hfree => exact h.lock rfl hfree rfl rfl
  | take ht => exact h.keep rfl rfl (by rw [ht]; rfl)
  | finishFull ht hfull hunlink => exact h.unlock rfl (by rw [ht]; rfl) rfl rfl
  | finish ht hfull => exact h.unlock rfl (by rw [ht]; rfl) rfl rfl
  | takeAll ht => exact h.unlock rfl (by rw [ht]; rfl) rfl (by split <;> rfl)
  | clear ht => exact h.keep rfl rfl (by rw [ht]; split <;> rfl)
  | skip ht hlinked => exact h.keep rfl rfl (by rw [ht]; rfl)
  | check ht hfree => exact h.keep rfl rfl (by rw [ht]; rfl)
  | link ht => exact h.keep rfl rfl (by rw [ht]; rfl)
  | load ht =>
      obtain ht | ⟨head, ht⟩ := ht
      · exact h.keep rfl rfl (by rw [ht]; rfl)
      · exact h.keep rfl rfl (by rw [ht]; rfl)
  | store ht => exact h.keep rfl rfl (by rw [ht]; rfl)
  | push ht hdeferred => exact h.keep rfl rfl (by rw [ht]; rfl)

end Mutex

section Bits

variable [Fintype τ]

-- The free entries that a thread is about to take.
def BitsAt (s : ObjStorage τ) : StoragePlace → Prop
  | .taking block index => index < 64 ∧ (s.mask block).getLsbD index = false
  | .takingAll block new _ => s.mask block &&& new = 0
  | _ => True

-- A bit is set just when its entry is held by a caller or pending at one thread.
structure Bits (s : ObjStorage τ) : Prop where
  owners : ∀ b i, ((s.held b).getLsbD i).toNat +
    ∑ v, (((s.place v).pending b).getLsbD i).toNat = ((s.mask b).getLsbD i).toNat
  place : ∀ v, s.BitsAt (s.place v)

omit [DecidableEq τ] [Fintype τ] in
theorem bitsAt_of_unlocked (hp : p.locked = false) : s.BitsAt p := by
  cases p <;> trivial

-- What one thread does to the bits, the others apart.
theorem Bits.update (h : s.Bits) (hplace : u.place = Function.update s.place t p)
    (hbits : ∀ b i n, ((s.held b).getLsbD i).toNat +
        ((((s.place t).pending b).getLsbD i).toNat + n) = ((s.mask b).getLsbD i).toNat →
      ((u.held b).getLsbD i).toNat + (((p.pending b).getLsbD i).toNat + n) =
        ((u.mask b).getLsbD i).toNat)
    (hp : u.BitsAt p) (hothers : ∀ v ≠ t, u.BitsAt (s.place v)) : u.Bits := by
  refine ⟨fun b i => ?_, fun v => ?_⟩
  · obtain ⟨n, hn⟩ := sum_split (fun q : StoragePlace => ((q.pending b).getLsbD i).toNat) s.place t
    have hself := hn (s.place t)
    rw [Function.update_eq_self] at hself
    have hold := h.owners b i
    rw [hself] at hold
    rw [hplace, hn]
    exact hbits b i n hold
  · rw [hplace]
    by_cases hv : v = t
    · subst hv
      rw [Function.update_self]
      exact hp
    · rw [Function.update_of_ne hv]
      exact hothers v hv

-- The bits are not touched.
theorem Bits.keep (h : s.Bits) (hplace : u.place = Function.update s.place t p)
    (hmask : u.mask = s.mask) (hheld : u.held = s.held)
    (hp : ∀ b, p.pending b = (s.place t).pending b) (hat : u.BitsAt p) : u.Bits := by
  refine h.update hplace (fun b i n hn => ?_) hat fun v _ => ?_
  · rwa [hmask, hheld, hp]
  · have hv := h.place v
    unfold BitsAt at hv ⊢
    rwa [hmask]

-- One block is touched: its entries that are held, set, and pending at the thread.
theorem Bits.update_block {block : Nat} {held mask pending pending' : BitVec 64} (h : s.Bits)
    (hplace : u.place = Function.update s.place t p)
    (hheld : u.held = Function.update s.held block held)
    (hmask : u.mask = Function.update s.mask block mask)
    (hold : ∀ b, (s.place t).pending b = if block = b then pending else 0)
    (hnew : ∀ b, p.pending b = if block = b then pending' else 0)
    (hbits : ∀ i n, ((s.held block).getLsbD i).toNat + ((pending.getLsbD i).toNat + n) =
        ((s.mask block).getLsbD i).toNat →
      (held.getLsbD i).toNat + ((pending'.getLsbD i).toNat + n) = (mask.getLsbD i).toNat)
    (hp : u.BitsAt p) (hothers : ∀ v ≠ t, u.BitsAt (s.place v)) : u.Bits := by
  refine h.update hplace (fun b i n hn => ?_) hp hothers
  rw [hold] at hn
  rw [hheld, hmask, hnew]
  by_cases hb : block = b
  · subst hb
    rw [if_pos rfl] at hn ⊢
    rw [Function.update_self, Function.update_self]
    exact hbits i n hn
  · rw [if_neg hb] at hn ⊢
    rwa [Function.update_of_ne (Ne.symm hb), Function.update_of_ne (Ne.symm hb)]

theorem pending_idle (block b : Nat) :
    StoragePlace.idle.pending b = if block = b then 0 else 0 := (ite_self _).symm

@[simp] theorem zero_bit (i : Nat) : (0 : BitVec 64).getLsbD i = false := BitVec.getLsbD_zero

theorem twoPow_bit {index i : Nat} :
    (BitVec.twoPow 64 index).getLsbD i = true ↔ index < 64 ∧ index = i := by
  simp [BitVec.getLsbD_twoPow]

theorem Bits.release {block index : Nat} (h : s.Bits) (ht : s.place t = .idle)
    (hheld : (s.held block).getLsbD index = true) :
    Bits { s.goto t (.clearing block (BitVec.twoPow 64 index)) with
      held := Function.update s.held block (s.held block ^^^ BitVec.twoPow 64 index) } := by
  refine h.update_block rfl rfl (Function.update_eq_self block s.mask).symm
    (by rw [ht]; exact pending_idle block) (fun b => rfl) (fun i n hn => ?_) trivial
    fun v _ => h.place v
  rw [BitVec.getLsbD_xor]
  cases hbit : (BitVec.twoPow 64 index).getLsbD i with
  | false => simpa using hn
  | true =>
      obtain ⟨_, rfl⟩ := twoPow_bit.mp hbit
      rw [hheld] at hn ⊢
      simpa using hn

theorem Bits.take {block index : Nat} (h : s.Bits) (hguard : s.Guarded)
    (ht : s.place t = .taking block index) :
    Bits { s.goto t (.taken block index) with
      mask := Function.update s.mask block (s.mask block + BitVec.twoPow 64 index) } := by
  have hat := h.place t
  rw [ht] at hat
  obtain ⟨hlt, hclear⟩ := hat
  have hdisjoint : s.mask block &&& BitVec.twoPow 64 index = 0 := by
    apply BitVec.eq_of_getLsbD_eq
    intro i _
    rw [BitVec.getLsbD_and]
    cases hbit : (BitVec.twoPow 64 index).getLsbD i with
    | false => simp
    | true =>
        obtain ⟨_, rfl⟩ := twoPow_bit.mp hbit
        simp [hclear]
  refine h.update_block rfl (Function.update_eq_self block s.held).symm rfl
    (by rw [ht]; exact pending_idle block) (fun b => rfl) (fun i n hn => ?_) trivial
    fun v hv => bitsAt_of_unlocked (hguard.unlocked (by rw [ht]; rfl) hv)
  rw [BitVec.add_eq_or_of_and_eq_zero _ _ hdisjoint, BitVec.getLsbD_or]
  cases hbit : (BitVec.twoPow 64 index).getLsbD i with
  | false => simpa using hn
  | true =>
      obtain ⟨_, rfl⟩ := twoPow_bit.mp hbit
      rw [hclear] at hn
      simp only [Bool.toNat_false] at hn
      simp only [Bool.or_true, Bool.toNat_true]
      omega

theorem handOut_le {limit i : Nat} {taken : BitVec 64}
    (hleft : (handOut limit taken).getLsbD i = true) : taken.getLsbD i = true := by
  induction limit generalizing taken with
  | zero => exact hleft
  | succ limit ih =>
      unfold handOut at hleft
      split at hleft
      · simp at hleft
      · exact ((BitWalk.getLsbD_clear ‹_› i).mp (ih hleft)).1

theorem Bits.takeAll {block size : Nat} {new : BitVec 64} (h : s.Bits) (hguard : s.Guarded)
    (ht : s.place t = .takingAll block new size) : (s.takeAll t block new size).Bits := by
  have hdisjoint := h.place t
  rw [ht] at hdisjoint
  have hnew : ∀ b, StoragePlace.pending (if handOut size new = 0 then .idle
      else .clearing block (handOut size new)) b = if block = b then handOut size new else 0 := by
    intro b
    split
    · rename_i hzero
      rw [hzero]
      exact pending_idle block b
    · rfl
  refine h.update_block rfl rfl rfl (by rw [ht]; exact pending_idle block) hnew
    (fun i n hn => ?_) (by split <;> trivial)
    fun v hv => bitsAt_of_unlocked (hguard.unlocked (by rw [ht]; rfl) hv)
  rw [BitVec.add_eq_or_of_and_eq_zero _ _ hdisjoint, BitVec.getLsbD_or, BitVec.getLsbD_or,
    BitVec.getLsbD_xor]
  have hand := congrArg (fun x => x.getLsbD i) hdisjoint
  simp only [BitVec.getLsbD_and, zero_bit] at hand
  simp only [zero_bit, Bool.toNat_false, Nat.zero_add] at hn
  cases hbit : new.getLsbD i with
  | false =>
      have hrest : (handOut size new).getLsbD i = false := by
        rw [Bool.eq_false_iff]
        intro hleft
        rw [handOut_le hleft] at hbit
        cases hbit
      simpa [hrest] using hn
  | true =>
      rw [hbit, Bool.and_true] at hand
      rw [hand, Bool.toNat_false] at hn
      have hfree : (s.held block).getLsbD i = false := by
        rw [← Bool.toNat_eq_zero]
        omega
      have hn' : n = 0 := by omega
      rw [hand, hfree, hn']
      cases (handOut size new).getLsbD i <;> rfl

theorem Bits.finish {block index : Nat} (h : s.Bits) (ht : s.place t = .taken block index)
    (list : AllocationList) : (s.finish t block index list).Bits := by
  refine h.update_block rfl rfl (Function.update_eq_self block s.mask).symm
    (fun b => by rw [ht]; rfl) (pending_idle block) (fun i n hn => ?_) trivial
    fun v _ => h.place v
  rw [BitVec.getLsbD_or]
  cases hbit : (BitVec.twoPow 64 index).getLsbD i with
  | false => simpa [hbit] using hn
  | true =>
      have hle : ((s.mask block).getLsbD i).toNat ≤ 1 := Bool.toNat_le _
      rw [hbit, Bool.toNat_true] at hn
      simp only [Bool.or_true, Bool.toNat_true, zero_bit, Bool.toNat_false]
      omega

-- What is pending at a thread is set and not held.
theorem Bits.of_pending {b i : Nat} (h : s.Bits)
    (hbit : ((s.place t).pending b).getLsbD i = true) :
    (s.mask b).getLsbD i = true ∧ (s.held b).getLsbD i = false := by
  have howners := h.owners b i
  obtain ⟨n, hn⟩ := sum_split (fun q : StoragePlace => ((q.pending b).getLsbD i).toNat) s.place t
  have hself := hn (s.place t)
  rw [Function.update_eq_self] at hself
  rw [hself, hbit, Bool.toNat_true] at howners
  have hle : ((s.mask b).getLsbD i).toNat ≤ 1 := Bool.toNat_le _
  rw [← Bool.toNat_eq_one, ← Bool.toNat_eq_zero]
  omega

theorem Bits.releasing {block i : Nat} {releasing : BitVec 64} (h : s.Bits)
    (ht : s.place t = .clearing block releasing) (hbit : releasing.getLsbD i = true) :
    (s.mask block).getLsbD i = true := by
  refine (h.of_pending (t := t) (b := block) (i := i) ?_).1
  simpa [ht, StoragePlace.pending] using hbit

theorem Bits.clear_le {block b i : Nat} {releasing : BitVec 64} (h : s.Bits)
    (ht : s.place t = .clearing block releasing)
    (hbit : ((s.clear t block releasing).mask b).getLsbD i = true) :
    (s.mask b).getLsbD i = true := by
  simp only [ObjStorage.clear] at hbit
  by_cases hb : b = block
  · subst hb
    rw [Function.update_self, BitVec.getLsbD_xor] at hbit
    cases hreleasing : releasing.getLsbD i with
    | true => exact h.releasing ht hreleasing
    | false => rwa [hreleasing, Bool.xor_false] at hbit
  · rwa [Function.update_of_ne hb] at hbit

theorem Bits.clear {block : Nat} {releasing : BitVec 64} (h : s.Bits)
    (ht : s.place t = .clearing block releasing) : (s.clear t block releasing).Bits := by
  have hnew : ∀ b, StoragePlace.pending (if releasing = s.mask block ∨
      s.mask block = BitVec.allOnes 64 then .checking block else .idle) b =
        if block = b then 0 else 0 := by
    intro b
    split <;> exact pending_idle block b
  refine h.update_block rfl (Function.update_eq_self block s.held).symm rfl
    (fun b => by rw [ht]; rfl) hnew (fun i n hn => ?_) (by split <;> trivial) fun v _ => ?_
  · rw [BitVec.getLsbD_xor]
    cases hbit : releasing.getLsbD i with
    | false => simpa [hbit] using hn
    | true =>
        rw [hbit, h.releasing ht hbit, Bool.toNat_true] at hn
        simp only [h.releasing ht hbit, bne_self_eq_false, Bool.toNat_false,
          zero_bit]
        omega
  · have hv := h.place v
    cases hplace : s.place v with
    | taking b index =>
        rw [hplace] at hv
        refine ⟨hv.1, ?_⟩
        rw [Bool.eq_false_iff]
        intro hbit
        have hset := h.clear_le ht hbit
        rw [hv.2] at hset
        cases hset
    | takingAll b new size =>
        rw [hplace] at hv
        apply BitVec.eq_of_getLsbD_eq
        intro i _
        have hand := congrArg (fun x => x.getLsbD i) hv
        simp only [BitVec.getLsbD_and, zero_bit, Bool.and_eq_false_iff] at hand
        rw [BitVec.getLsbD_and, zero_bit, Bool.and_eq_false_iff]
        refine hand.imp_left fun hfree => ?_
        rw [Bool.eq_false_iff]
        intro hbit
        have hset := h.clear_le ht hbit
        rw [hfree] at hset
        cases hset
    | _ => trivial

-- A new block has no entries yet.
theorem Bits.addBlock (h : s.Bits) (hguard : s.Guarded) (hfree : s.owner = none)
    (hfresh : s.mask s.created = 0) {request : EntryRequest} (ht : s.place t = .adding request) :
    (s.addBlock t request).Bits := by
  have hmask : (s.addBlock t request).mask = s.mask := by
    unfold ObjStorage.addBlock
    rw [← hfresh, Function.update_eq_self]
  have hothers : ∀ v ≠ t, (s.addBlock t request).BitsAt (s.place v) :=
    fun v _ => bitsAt_of_unlocked (hguard.free hfree v)
  refine h.update rfl (fun b i n hn => ?_) trivial hothers
  rw [ht] at hn
  rw [hmask]
  exact hn

theorem free_bit {mask : BitVec 64} (hlt : (~~~mask).ctz.toNat < 64) :
    mask.getLsbD (~~~mask).ctz.toNat = false := by
  have hne : ~~~mask ≠ 0#64 := by
    rw [← BitVec.ctz_lt_iff_ne_zero, BitVec.lt_def]
    exact hlt
  have hset := BitVec.getLsbD_true_ctz_of_ne_zero hne
  rw [BitVec.getLsbD_not, Bool.and_eq_true] at hset
  simpa using hset.2

theorem Bits.move (h : s.Bits) (hguard : s.Guarded) (hfresh : s.mask s.created = 0)
    (hmove : s.Move t u) : u.Bits := by
  cases hmove with
  | allocate ht hfree => exact h.keep rfl rfl rfl (by rw [ht]; exact fun _ => rfl) trivial
  | release ht hheld => exact h.release ht hheld
  | beginOne ht hhead hlt =>
      exact h.keep rfl rfl rfl (by rw [ht]; exact fun _ => rfl) ⟨hlt, free_bit hlt⟩
  | beginMany ht hhead hunlink =>
      exact h.keep rfl rfl rfl (by rw [ht]; exact fun _ => rfl) (BitVec.and_not_self _)
  | pop ht hdeferred =>
      obtain ⟨ht, _⟩ | ⟨old, tail, ht⟩ := ht
      · exact h.keep rfl rfl rfl (by rw [ht]; exact fun _ => rfl) trivial
      · exact h.keep rfl rfl rfl (by rw [ht]; exact fun _ => rfl) trivial
  | giveUp ht =>
      obtain ht | ⟨old, tail, ht⟩ := ht
      · exact h.keep rfl rfl rfl (by rw [ht]; exact fun _ => rfl) trivial
      · exact h.keep rfl rfl rfl (by rw [ht]; exact fun _ => rfl) trivial
  | readTail ht => exact h.keep rfl rfl rfl (by rw [ht]; exact fun _ => rfl) trivial
  | exchange ht hdeferred => exact h.keep rfl rfl rfl (by rw [ht]; exact fun _ => rfl) trivial
  | detach ht => exact h.keep rfl rfl rfl (by rw [ht]; exact fun _ => rfl) trivial
  | judge ht hjudge => exact h.keep rfl rfl rfl (by rw [ht]; exact fun _ => rfl) trivial
  | addBlock ht hfree => exact h.addBlock hguard hfree hfresh ht
  | take ht => exact h.take hguard ht
  | finishFull ht hfull hunlink => exact h.finish ht _
  | finish ht hfull => exact h.finish ht _
  | takeAll ht => exact h.takeAll hguard ht
  | clear ht => exact h.clear ht
  | skip ht hlinked => exact h.keep rfl rfl rfl (by rw [ht]; exact fun _ => rfl) trivial
  | check ht hfree => exact h.keep rfl rfl rfl (by rw [ht]; exact fun _ => rfl) trivial
  | link ht => exact h.keep rfl rfl rfl (by rw [ht]; exact fun _ => rfl) trivial
  | load ht =>
      obtain ht | ⟨head, ht⟩ := ht
      · exact h.keep rfl rfl rfl (by rw [ht]; exact fun _ => rfl) trivial
      · exact h.keep rfl rfl rfl (by rw [ht]; exact fun _ => rfl) trivial
  | store ht => exact h.keep rfl rfl rfl (by rw [ht]; exact fun _ => rfl) trivial
  | push ht hdeferred => exact h.keep rfl rfl rfl (by rw [ht]; exact fun _ => rfl) trivial

-- What holds in every run, also where the lists have gone wrong.
structure Sound (s : ObjStorage τ) : Prop where
  guarded : s.Guarded
  made : s.Made
  bits : s.Bits

theorem Sound.move (h : s.Sound) (hmove : s.Move t u) : u.Sound :=
  ⟨h.guarded.move hmove, h.made.move hmove,
    h.bits.move h.guarded (h.made.mask _ (Nat.le_refl _)) hmove⟩

end Bits

end ObjStorage

end Rsgc.Storage
