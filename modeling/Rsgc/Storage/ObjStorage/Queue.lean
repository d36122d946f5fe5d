import Mathlib.Data.List.Nodup
import Rsgc.Storage.ObjStorage.Bits

namespace Rsgc.Storage

-- The blocks that a thread is putting on the deferred list or has just taken from it.
def StoragePlace.carries : StoragePlace → Nat → Bool
  | popped _ block, b | loading block, b | storing block _, b | pushing block _, b => block = b
  | _, _ => false

namespace ObjStorage

variable {τ : Type*} [DecidableEq τ]

-- What a thread knows of the deferred list `dl`.
def QueuedAt (s : ObjStorage τ) (dl : List Nat) : StoragePlace → Prop
  | .popping _ block => block ∈ dl
  | .exchanging _ block tail => block ∈ dl ∧ s.afterDeferred block = tail
  | .pushing block head => s.deferredNext block = some (head.getD block)
  | _ => True

-- The deferred list goes over the blocks of `dl`, and the link of a block is set just when it
-- is there, once, or one thread carries it.
structure Queued [Fintype τ] (s : ObjStorage τ) (dl : List Nat) : Prop where
  path : Path s.afterDeferred s.deferred dl
  owners : ∀ b, dl.count b + census (fun p : StoragePlace => p.carries b) s.place =
    (s.deferredNext b).isSome.toNat
  place : ∀ v, s.QueuedAt dl (s.place v)

variable [Fintype τ] {s u : ObjStorage τ} {t : τ} {p : StoragePlace} {dl : List Nat} {block : Nat}

omit [DecidableEq τ] in
theorem Queued.nodup (h : s.Queued dl) : dl.Nodup := by
  rw [List.nodup_iff_count_le_one]
  intro b
  have howners := h.owners b
  have hle : (s.deferredNext b).isSome.toNat ≤ 1 := Bool.toNat_le _
  omega

omit [DecidableEq τ] in
theorem Queued.linked (h : s.Queued dl) (hmem : block ∈ dl) : s.deferredNext block ≠ none := by
  intro hnone
  have howners := h.owners block
  have hpos := List.count_pos_iff.mpr hmem
  rw [hnone, Option.isSome_none, Bool.toNat_false] at howners
  omega

omit [DecidableEq τ] in
theorem Queued.of_linked (h : s.Queued dl) (hlinked : s.deferredNext block ≠ none) :
    block ∈ dl ∨ ∃ v, (s.place v).carries block = true := by
  by_contra hnot
  rw [not_or, not_exists] at hnot
  have howners := h.owners block
  have hnone : census (fun p : StoragePlace => p.carries block) s.place = 0 :=
    census_eq_zero.mpr fun v => Bool.eq_false_iff.mpr (hnot.2 v)
  rw [hnone, List.count_eq_zero.mpr hnot.1, Option.isSome_iff_ne_none.mpr hlinked] at howners
  cases howners

omit [DecidableEq τ] in
theorem Queued.of_free (h : s.Queued dl) (hfree : s.deferredNext block = none) :
    block ∉ dl ∧ ∀ v, (s.place v).carries block = false := by
  have howners := h.owners block
  rw [hfree, Option.isSome_none, Bool.toNat_false, Nat.add_eq_zero_iff] at howners
  exact ⟨List.count_eq_zero.mp howners.1, census_eq_zero.mp howners.2⟩

-- The thread itself apart from the others.
theorem carries_split (b : Nat) :
    census (fun p : StoragePlace => p.carries b) (Function.update s.place t .idle) +
      ((s.place t).carries b).toNat = census (fun p : StoragePlace => p.carries b) s.place :=
  census_update (fun p : StoragePlace => p.carries b) s.place t .idle

-- A block that a thread carries is not on the list, and no other thread carries it.
theorem Queued.of_carried (h : s.Queued dl) (hcarries : (s.place t).carries block = true) :
    block ∉ dl ∧ ∀ v ≠ t, (s.place v).carries block = false := by
  have howners := h.owners block
  have hsplit := carries_split (s := s) (t := t) block
  have hle : (s.deferredNext block).isSome.toNat ≤ 1 := Bool.toNat_le _
  rw [hcarries, Bool.toNat_true] at hsplit
  have hothers : census (fun p : StoragePlace => p.carries block)
      (Function.update s.place t .idle) = 0 := by omega
  refine ⟨List.count_eq_zero.mp (by omega), fun v hv => ?_⟩
  have hother := census_eq_zero.mp hothers v
  rwa [Function.update_of_ne hv] at hother

omit [DecidableEq τ] [Fintype τ] in
theorem afterDeferred_of_ne {next : Option Nat}
    (hnext : u.deferredNext = Function.update s.deferredNext block next) {b : Nat}
    (hb : b ≠ block) : u.afterDeferred b = s.afterDeferred b := by
  unfold afterDeferred
  rw [hnext, Function.update_of_ne hb]

-- Neither the list nor its links are touched.
theorem Queued.keep (h : s.Queued dl) (hplace : u.place = Function.update s.place t p)
    (hnext : u.deferredNext = s.deferredNext) (hdeferred : u.deferred = s.deferred)
    (hcarries : ∀ b, p.carries b = (s.place t).carries b) (hp : s.QueuedAt dl p) :
    u.Queued dl := by
  have hafter : u.afterDeferred = s.afterDeferred := by
    funext b
    unfold afterDeferred
    rw [hnext]
  refine ⟨?_, fun b => ?_, fun v => ?_⟩
  · rw [hafter, hdeferred]
    exact h.path
  · have hcensus := census_update (fun p : StoragePlace => p.carries b) s.place t p
    rw [hcarries] at hcensus
    rw [hplace, hnext, Nat.add_right_cancel hcensus]
    exact h.owners b
  · have hat : s.QueuedAt dl (u.place v) := by
      rw [hplace]
      by_cases hv : v = t
      · rw [hv, Function.update_self]
        exact hp
      · rw [Function.update_of_ne hv]
        exact h.place v
    unfold QueuedAt at hat ⊢
    rwa [hafter, hnext]

-- The link of a block is set that is not on the list and that no other thread carries.
theorem Queued.relink {next : Option Nat} (h : s.Queued dl)
    (hplace : u.place = Function.update s.place t p)
    (hnext : u.deferredNext = Function.update s.deferredNext block next)
    (hdeferred : u.deferred = s.deferred)
    (hfree : block ∉ dl ∧ ∀ v ≠ t, (s.place v).carries block = false)
    (hcarries : ∀ b, p.carries b = if b = block then next.isSome else (s.place t).carries b)
    (hp : u.QueuedAt dl p) : u.Queued dl := by
  have hafter : ∀ b ∈ dl, u.afterDeferred b = s.afterDeferred b := fun b hb =>
    afterDeferred_of_ne hnext (ne_of_mem_of_not_mem hb hfree.1)
  refine ⟨?_, fun b => ?_, fun v => ?_⟩
  · rw [hdeferred]
    exact h.path.congr hafter
  · have howners := h.owners b
    have hcensus := census_update (fun p : StoragePlace => p.carries b) s.place t p
    have hcarriesb := hcarries b
    rw [hplace, hnext]
    by_cases hb : b = block
    · subst hb
      have hothers : census (fun p : StoragePlace => p.carries b)
          (Function.update s.place t .idle) = 0 := by
        rw [census_eq_zero]
        intro v
        by_cases hv : v = t
        · rw [hv, Function.update_self]
          rfl
        · rw [Function.update_of_ne hv]
          exact hfree.2 v hv
      have hsplit := carries_split (s := s) (t := t) b
      rw [if_pos rfl] at hcarriesb
      rw [hothers] at hsplit
      rw [hcarriesb] at hcensus
      rw [Function.update_self, List.count_eq_zero.mpr hfree.1]
      omega
    · rw [if_neg hb] at hcarriesb
      rw [hcarriesb] at hcensus
      rw [Function.update_of_ne hb, Nat.add_right_cancel hcensus]
      exact howners
  · rw [hplace]
    by_cases hv : v = t
    · rw [hv, Function.update_self]
      exact hp
    · rw [Function.update_of_ne hv]
      have hat := h.place v
      have hother := hfree.2 v hv
      cases hpv : s.place v with
      | popping request b =>
          rw [hpv] at hat
          exact hat
      | exchanging request b tail =>
          rw [hpv] at hat
          exact ⟨hat.1, (hafter b hat.1).trans hat.2⟩
      | pushing b head =>
          rw [hpv] at hat hother
          have hb : b ≠ block := of_decide_eq_false hother
          simp only [QueuedAt, hnext, Function.update_of_ne hb]
          exact hat
      | _ => trivial

theorem Queued.detach {request : EntryRequest} (h : s.Queued dl)
    (ht : s.place t = .popped request block) :
    Queued ((s.goto t (.judging request block)).link block none) dl := by
  have hself : (s.place t).carries block = true := by simp [ht, StoragePlace.carries]
  have hcarried := h.of_carried hself
  refine h.relink rfl rfl rfl hcarried (fun b => ?_) trivial
  split
  · rfl
  · rename_i hb
    simp [ht, StoragePlace.carries, Ne.symm hb]

theorem Queued.link (h : s.Queued dl) (ht : s.place t = .linking block)
    (hfree : s.deferredNext block = none) :
    Queued ((s.goto t (.loading block)).link block (some block)) dl := by
  have hfree := h.of_free hfree
  refine h.relink rfl rfl rfl ⟨hfree.1, fun v _ => hfree.2 v⟩ (fun b => ?_) trivial
  split
  · rename_i hb
    simp [StoragePlace.carries, hb]
  · rename_i hb
    simp [ht, StoragePlace.carries, Ne.symm hb]

theorem Queued.store {head : Option Nat} (h : s.Queued dl)
    (ht : s.place t = .storing block head) :
    Queued ((s.goto t (.pushing block head)).link block (some (head.getD block))) dl := by
  have hself : (s.place t).carries block = true := by simp [ht, StoragePlace.carries]
  have hcarried := h.of_carried hself
  refine h.relink rfl rfl rfl hcarried (fun b => ?_) ?_
  · split
    · rename_i hb
      simp [StoragePlace.carries, hb]
    · rename_i hb
      simp [ht, StoragePlace.carries, Ne.symm hb]
  · simp [QueuedAt, ObjStorage.link]

omit [DecidableEq τ] [Fintype τ] in
theorem count_cons (b : Nat) :
    (block :: dl).count b = dl.count b + (decide (block = b)).toNat := by
  rw [List.count_cons]
  by_cases hb : block = b
  · simp [hb]
  · simp [hb]

-- The first block goes from the list to the thread that has popped it.
theorem Queued.exchange {request : EntryRequest} {tail : Option Nat} (h : s.Queued dl)
    (hguard : s.Guarded) (ht : s.place t = .exchanging request block tail)
    (hdeferred : s.deferred = some block) :
    ∃ rest, dl = block :: rest ∧
      Queued { s.goto t (.popped request block) with deferred := tail } rest := by
  have hpath := h.path
  rw [hdeferred] at hpath
  cases dl with
  | nil => cases hpath.head_eq
  | cons first rest =>
      obtain ⟨hfirst, hrest⟩ := Path.cons_iff.mp hpath
      obtain rfl := Option.some.inj hfirst
      have hat := h.place t
      rw [ht] at hat
      rw [hat.2] at hrest
      refine ⟨rest, rfl, hrest, fun b => ?_, fun v => ?_⟩
      · have howners := h.owners b
        have hcensus := census_update (fun p : StoragePlace => p.carries b) s.place t
          (.popped request block)
        have hold : (s.place t).carries b = false := by rw [ht]; rfl
        have hnew : (StoragePlace.popped request block).carries b = decide (block = b) := rfl
        rw [hold, hnew, Bool.toNat_false, Nat.add_zero] at hcensus
        rw [count_cons] at howners
        simp only [ObjStorage.goto]
        omega
      · simp only [ObjStorage.goto]
        by_cases hv : v = t
        · rw [hv, Function.update_self]
          trivial
        · rw [Function.update_of_ne hv]
          have hlocked := hguard.unlocked (t := t) (by rw [ht]; rfl) hv
          have hother := h.place v
          cases hpv : s.place v with
          | pushing b head =>
              rw [hpv] at hother
              exact hother
          | popping request b =>
              rw [hpv] at hlocked
              cases hlocked
          | exchanging request b tail =>
              rw [hpv] at hlocked
              cases hlocked
          | _ => trivial

theorem Queued.push {head : Option Nat} (h : s.Queued dl) (ht : s.place t = .pushing block head)
    (hdeferred : s.deferred = head) :
    Queued { s.goto t .idle with deferred := some block } (block :: dl) := by
  have hat := h.place t
  rw [ht] at hat
  have hself : (s.place t).carries block = true := by simp [ht, StoragePlace.carries]
  have hcarried := h.of_carried hself
  have hafter : s.afterDeferred block = s.deferred := by
    unfold afterDeferred
    rw [hat, hdeferred]
    cases head with
    | none => simp
    | some first =>
        have hmem : first ∈ dl := by
          have hhead := h.path.head_eq
          rw [hdeferred] at hhead
          exact List.mem_of_head? hhead.symm
        have hne : first ≠ block := ne_of_mem_of_not_mem hmem hcarried.1
        simp [hne]
  refine ⟨Path.cons_iff.mpr ⟨rfl, ?_⟩, fun b => ?_, fun v => ?_⟩
  · have hpath := h.path
    rw [← hafter] at hpath
    exact hpath
  · have howners := h.owners b
    have hsplit := carries_split (s := s) (t := t) b
    have hold : (s.place t).carries b = decide (block = b) := by rw [ht]; rfl
    rw [hold] at hsplit
    rw [count_cons]
    simp only [ObjStorage.goto]
    omega
  · simp only [ObjStorage.goto]
    by_cases hv : v = t
    · rw [hv, Function.update_self]
      trivial
    · rw [Function.update_of_ne hv]
      have hother := h.place v
      cases hpv : s.place v with
      | popping request b =>
          rw [hpv] at hother
          exact List.mem_cons_of_mem block hother
      | exchanging request b tail =>
          rw [hpv] at hother
          exact ⟨List.mem_cons_of_mem block hother.1, hother.2⟩
      | pushing b head =>
          rw [hpv] at hother
          exact hother
      | _ => trivial

end ObjStorage

end Rsgc.Storage
