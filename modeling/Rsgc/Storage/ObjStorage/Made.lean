import Rsgc.Storage.ObjStorage.Moves

namespace Rsgc.Storage

-- A link that leads to none but the first `n` blocks.
def Below (n : Nat) (p : Option Nat) : Prop := ∀ b ∈ p, b < n

namespace Below

variable {m n b : Nat} {p : Option Nat} {f : Nat → Option Nat}

@[simp] theorem none_below : Below n none := fun _ hb => nomatch hb

@[simp] theorem some_iff : Below n (some b) ↔ b < n := by
  simp [Below]

theorem mono (hle : m ≤ n) (h : Below m p) : Below n p := fun b hb => Nat.lt_of_lt_of_le (h b hb) hle

theorem update (h : ∀ x, Below n (f x)) (hp : Below n p) (x : Nat) :
    Below n (Function.update f b p x) := by
  by_cases hx : x = b
  · rw [hx, Function.update_self]
    exact hp
  · rw [Function.update_of_ne hx]
    exact h x

theorem nil : ∀ b ∈ ([] : List Nat), b < n := fun _ hb => nomatch hb

theorem single (hb : b < n) : ∀ x ∈ [b], x < n := by
  simpa using hb

theorem cons (hb : b < n) (hp : Below n p) : ∀ x ∈ b :: p.toList, x < n := by
  intro x hx
  rcases List.mem_cons.mp hx with rfl | hmem
  · exact hb
  · exact hp x (Option.mem_toList.mp hmem)

end Below

namespace AllocationList

structure Made (n : Nat) (l : AllocationList) : Prop where
  head : Below n l.head
  tail : Below n l.tail
  prev : ∀ b, Below n (l.prev b)
  next : ∀ b, Below n (l.next b)

variable {l l' : AllocationList} {m n b : Nat}

theorem Made.mono (hle : m ≤ n) (h : l.Made m) : l.Made n :=
  ⟨h.head.mono hle, h.tail.mono hle, fun b => (h.prev b).mono hle, fun b => (h.next b).mono hle⟩

theorem Made.pushFront (h : l.Made n) (hb : b < n) : (l.pushFront b).Made n := by
  unfold AllocationList.pushFront
  split
  · exact ⟨Below.some_iff.mpr hb, Below.some_iff.mpr hb, h.prev, h.next⟩
  · rename_i old hhead
    have hold : Below n (some old) := hhead ▸ h.head
    exact ⟨Below.some_iff.mpr hb, h.tail, Below.update h.prev (Below.some_iff.mpr hb),
      Below.update h.next hold⟩

theorem Made.pushBack (h : l.Made n) (hb : b < n) : (l.pushBack b).Made n := by
  unfold AllocationList.pushBack
  split
  · exact ⟨Below.some_iff.mpr hb, Below.some_iff.mpr hb, h.prev, h.next⟩
  · rename_i old htail
    have hold : Below n (some old) := htail ▸ h.tail
    exact ⟨h.head, Below.some_iff.mpr hb, Below.update h.prev hold,
      Below.update h.next (Below.some_iff.mpr hb)⟩

theorem Made.unlink (h : l.Made n) (hunlink : l.unlink b = some l') : l'.Made n := by
  have hprev := h.prev b
  have hnext := h.next b
  unfold AllocationList.unlink at hunlink
  split at hunlink
  · obtain ⟨_, rfl⟩ := guard_eq_some.mp hunlink
    exact ⟨Below.none_below, Below.none_below, h.prev, h.next⟩
  · rename_i next hp hn
    rw [hn] at hnext
    obtain ⟨_, rfl⟩ := guard_eq_some.mp hunlink
    exact ⟨hnext, h.tail, Below.update h.prev Below.none_below, h.next⟩
  · rename_i prev hp hn
    rw [hp] at hprev
    obtain ⟨_, rfl⟩ := guard_eq_some.mp hunlink
    exact ⟨h.head, hprev, h.prev, Below.update h.next Below.none_below⟩
  · rename_i prev next hp hn
    rw [hn] at hnext
    rw [hp] at hprev
    obtain rfl := Option.some.inj hunlink
    exact ⟨h.head, h.tail, Below.update h.prev hprev, Below.update h.next hnext⟩

end AllocationList

-- The blocks that a thread knows where it is.
def StoragePlace.blocks : StoragePlace → List Nat
  | idle | choosing _ | adding _ => []
  | popping _ block | popped _ block | judging _ block | taking block _ | taken block _
  | takingAll block _ _ | clearing block _ | checking block | linking block | loading block =>
      [block]
  | exchanging _ block tail => block :: tail.toList
  | storing block head | pushing block head => block :: head.toList

namespace ObjStorage

-- All blocks that anything leads to have been made, and the others are as new.
structure Made {τ : Type*} (s : ObjStorage τ) : Prop where
  list : s.list.Made s.created
  deferred : Below s.created s.deferred
  deferredNext : ∀ b, Below s.created (s.deferredNext b)
  place : ∀ t, ∀ b ∈ (s.place t).blocks, b < s.created
  mask : ∀ b, s.created ≤ b → s.mask b = 0
  held : ∀ b, s.created ≤ b → s.held b = 0
  unqueued : ∀ b, s.created ≤ b → s.deferredNext b = none

variable {τ : Type*} [DecidableEq τ] {s u : ObjStorage τ} {t : τ} {p : StoragePlace} {block : Nat}

omit [DecidableEq τ] in
theorem Made.at (h : s.Made) (ht : s.place t = p) (hb : block ∈ p.blocks) : block < s.created :=
  h.place t block (ht ▸ hb)

omit [DecidableEq τ] in
theorem Made.of_held (h : s.Made) {index : Nat} (hheld : (s.held block).getLsbD index = true) :
    block < s.created := by
  by_contra hnot
  rw [h.held block (Nat.le_of_not_lt hnot)] at hheld
  simp at hheld

theorem Made.goto (h : s.Made) (hp : ∀ b ∈ p.blocks, b < s.created) (v : τ) :
    ∀ b ∈ (Function.update s.place t p v).blocks, b < s.created := by
  by_cases hv : v = t
  · rw [hv, Function.update_self]
    exact hp
  · rw [Function.update_of_ne hv]
    exact h.place v

theorem fresh_update {α : Type*} {f : Nat → α} {n b : Nat} {x y : α}
    (h : ∀ b, n ≤ b → f b = x) (hb : b < n) : ∀ b', n ≤ b' → Function.update f b y b' = x := by
  intro b' hb'
  rw [Function.update_of_ne (by omega)]
  exact h b' hb'

omit [DecidableEq τ] in
theorem Made.judge {list : AllocationList} (h : s.Made) (hb : block < s.created)
    (hjudge : s.judge block = some list) : list.Made s.created := by
  unfold ObjStorage.judge at hjudge
  split at hjudge
  · obtain ⟨_, rfl⟩ := guard_not_eq_some.mp hjudge
    exact h.list
  · split at hjudge
    · split at hjudge
      · obtain ⟨l', hunlink, rfl⟩ := Option.map_eq_some_iff.mp hjudge
        exact (h.list.unlink hunlink).pushBack hb
      · obtain rfl := Option.some.inj hjudge
        exact h.list
    · split at hjudge
      · obtain rfl := Option.some.inj hjudge
        exact h.list.pushBack hb
      · obtain rfl := Option.some.inj hjudge
        exact h.list.pushFront hb

theorem Made.addBlock {request : EntryRequest} (h : s.Made) : (s.addBlock t request).Made := by
  have hle : s.created ≤ s.created + 1 := Nat.le_succ _
  have hlt : s.created < s.created + 1 := Nat.lt_succ_self _
  have hlist := h.list.mono hle
  refine ⟨AllocationList.Made.pushBack ?_ hlt, h.deferred.mono hle, ?_, ?_, ?_, ?_, ?_⟩
  · exact ⟨hlist.head, hlist.tail, Below.update hlist.prev Below.none_below,
      Below.update hlist.next Below.none_below⟩
  · exact Below.update (fun b => (h.deferredNext b).mono hle) Below.none_below
  · exact fun v b hb => Nat.lt_succ_of_lt (h.goto (p := .choosing request) Below.nil v b hb)
  · exact fresh_update (fun b hb => h.mask b (Nat.le_of_succ_le hb)) hlt
  · exact fun b hb => h.held b (Nat.le_of_succ_le hb)
  · exact fresh_update (fun b hb => h.unqueued b (Nat.le_of_succ_le hb)) hlt

theorem Made.move (h : s.Made) (hmove : s.Move t u) : u.Made := by
  cases hmove with
  | allocate ht hfree => exact { h with place := h.goto Below.nil }
  | release ht hheld =>
      have hb := h.of_held hheld
      exact { h with place := h.goto (Below.single hb), held := fresh_update h.held hb }
  | beginOne ht hhead hlt =>
      have hb := Below.some_iff.mp (hhead ▸ h.list.head)
      exact { h with place := h.goto (Below.single hb) }
  | beginMany ht hhead hunlink =>
      have hb := Below.some_iff.mp (hhead ▸ h.list.head)
      exact { h with place := h.goto (Below.single hb), list := h.list.unlink hunlink }
  | pop ht hdeferred =>
      have hb := Below.some_iff.mp (hdeferred ▸ h.deferred)
      exact { h with place := h.goto (Below.single hb) }
  | giveUp ht => exact { h with place := h.goto Below.nil }
  | @readTail request block ht =>
      have hb := h.at ht List.mem_cons_self
      have htail : Below s.created (s.afterDeferred block) := by
        unfold afterDeferred
        split
        · exact Below.none_below
        · exact h.deferredNext block
      exact { h with place := h.goto (Below.cons hb htail) }
  | exchange ht hdeferred =>
      have hb := h.at ht List.mem_cons_self
      have htail : Below s.created _ := fun b hb =>
        h.at ht (List.mem_cons_of_mem _ (Option.mem_toList.mpr hb))
      exact { h with place := h.goto (Below.single hb), deferred := htail }
  | detach ht =>
      have hb := h.at ht List.mem_cons_self
      exact { h with
        place := h.goto (Below.single hb)
        deferredNext := Below.update h.deferredNext Below.none_below
        unqueued := fresh_update h.unqueued hb }
  | judge ht hjudge =>
      have hb := h.at ht List.mem_cons_self
      exact { h with place := h.goto Below.nil, list := h.judge hb hjudge }
  | addBlock ht hfree => exact h.addBlock
  | take ht =>
      have hb := h.at ht List.mem_cons_self
      exact { h with place := h.goto (Below.single hb), mask := fresh_update h.mask hb }
  | finishFull ht hfull hunlink =>
      have hb := h.at ht List.mem_cons_self
      exact { h with
        place := h.goto Below.nil
        list := h.list.unlink hunlink
        held := fresh_update h.held hb }
  | finish ht hfull =>
      have hb := h.at ht List.mem_cons_self
      exact { h with place := h.goto Below.nil, held := fresh_update h.held hb }
  | takeAll ht =>
      have hb := h.at ht List.mem_cons_self
      refine { h with
        place := h.goto ?_
        mask := fresh_update h.mask hb
        held := fresh_update h.held hb }
      split
      · exact Below.nil
      · exact Below.single hb
  | clear ht =>
      have hb := h.at ht List.mem_cons_self
      refine { h with place := h.goto ?_, mask := fresh_update h.mask hb }
      split
      · exact Below.single hb
      · exact Below.nil
  | skip ht hlinked => exact { h with place := h.goto Below.nil }
  | check ht hfree =>
      have hb := h.at ht List.mem_cons_self
      exact { h with place := h.goto (Below.single hb) }
  | link ht =>
      have hb := h.at ht List.mem_cons_self
      exact { h with
        place := h.goto (Below.single hb)
        deferredNext := Below.update h.deferredNext (Below.some_iff.mpr hb)
        unqueued := fresh_update h.unqueued hb }
  | @load block ht =>
      have hb : block < s.created := by
        obtain ht | ⟨head, ht⟩ := ht
        · exact h.at ht List.mem_cons_self
        · exact h.at ht List.mem_cons_self
      exact { h with place := h.goto (Below.cons hb h.deferred) }
  | @store block head ht =>
      have hb := h.at ht List.mem_cons_self
      have hhead : Below s.created head := fun b hb =>
        h.at ht (List.mem_cons_of_mem _ (Option.mem_toList.mpr hb))
      have hnext : head.getD block < s.created := by
        cases head with
        | none => exact hb
        | some next => exact Below.some_iff.mp hhead
      exact { h with
        place := h.goto (Below.cons hb hhead)
        deferredNext := Below.update h.deferredNext (Below.some_iff.mpr hnext)
        unqueued := fresh_update h.unqueued hb }
  | push ht hdeferred =>
      have hb := h.at ht List.mem_cons_self
      exact { h with
        place := h.goto Below.nil
        deferred := Below.some_iff.mpr hb }

end ObjStorage

end Rsgc.Storage
