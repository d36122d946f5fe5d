import Rsgc.Collection.Guarded

namespace Rsgc.Collection

open Marking Storage

namespace World

variable {c : Config} {s s' : World} {t : Nat}

-- The cleared objects that can be reached are marked again, or will be.
def Refound (s : World) : Prop := ∀ o ∈ s.cleared, s.Reaches o → s.color.Safe o

-- The condition on the steps. A store or a dropped root does not take the last
-- protection from a cleared object that can still be reached, and an upgrade leads
-- to none without protection. The marking must not begin an array that it cuts up
-- wrongly.
def Held (s : World) : Event → Prop
  | .mark i => ∀ op, s.work[i]? = some op → op.Short s.graph
  | .store _ obj slot _ => s.phase = .marking →
      ∀ htraced, (s.writeSlot obj slot htraced none).Refound
  | .drop t obj => s.phase = .marking → ∀ m, s.threads[t]? = some m →
      (s.setThread t { m with roots := m.roots.erase obj }).Refound
  | .upgrade t weak => s.phase = .marking → ∀ m, s.threads[t]? = some m → ∀ target ∈ s.weak weak,
      (s.setThread t { m with roots := target :: m.roots }).Refound
  | _ => True

-- A cleared object that is marked again has been read since, or will be.
def Rescanned (s : World) : Prop :=
  ∀ o ∈ s.cleared, s.marks o = true → ∀ slot, (s.graph o).Traced slot →
    (o, slot) ∈ s.scanned ∨ ∃ op ∈ s.work, op.Covers s.graph o slot

structure Update (s : World) : Prop where
  steady : s.Steady
  free : ∀ o, o ∉ s.objects → s.graph o = freeObject
  ok : ∀ op ∈ s.work, op.Ok
  holds : ∀ m ∈ s.threads, m.Holds
  roots : s.phase = .draining .concurrent → ∀ r ∈ s.roots, s.marks r = true
  refound : s.phase = .marking ∨ s.phase = .draining .concurrent → s.Refound
  rescanned : s.phase = .marking ∨ s.phase = .draining .concurrent → s.Rescanned

-- What holds of the roots and goes along the references holds of all that is
-- reachable.
theorem Reaches.along {P : Nat → Prop} {o : Nat} (ho : s.Reaches o) (hroots : ∀ r ∈ s.roots, P r)
    (hedges : ∀ a b, P a → s.graph.Edge a b → P b) : P o := by
  obtain ⟨r, hr, hpath⟩ := ho
  induction hpath with
  | refl => exact hroots r hr
  | tail _ hedge ih => exact hedges _ _ ih hedge

theorem reaches_root {r : Nat} (hr : r ∈ s.roots) : s.Reaches r :=
  ⟨r, hr, Relation.ReflTransGen.refl⟩

theorem Reaches.tail {a b : Nat} (ha : s.Reaches a) (hab : s.graph.Edge a b) : s.Reaches b := by
  obtain ⟨r, hr, hpath⟩ := ha
  exact ⟨r, hr, hpath.tail hab⟩

-- A step that brings no new reference and no new root.
theorem Reaches.of_le {o : Nat} (ho : s'.Reaches o) (hroots : ∀ r ∈ s'.roots, s.Reaches r)
    (hgraph : s'.graph = s.graph) : s.Reaches o := by
  refine ho.along hroots fun a b ha hab => ?_
  rw [hgraph] at hab
  exact ha.tail hab

-- One thread gets roots that were reachable.
theorem Reaches.of_set {m m' : Mutator} {o : Nat} (ho : s'.Reaches o) (hm : s.threads[t]? = some m)
    (hthreads : s'.threads = s.threads.set t m') (hgraph : s'.graph = s.graph)
    (hnew : ∀ r ∈ m'.roots, r ∈ m.roots ∨ s.Reaches r) : s.Reaches o := by
  refine ho.of_le (fun r hr => ?_) hgraph
  rcases roots_of_set hthreads hr with hr | hr
  · exact reaches_root hr
  · have hmem := List.mem_of_getElem? hm
    exact (hnew r hr).elim (fun hr => reaches_root (mem_roots hmem hr)) id

theorem reaches_store {obj : Nat} {slot : Slot} {value : Option Nat} {u : World} {o : Nat}
    (hstep : s.stepStore t obj slot value = some s') (hcut : s.Cut (.store t obj slot value) u)
    (ho : s'.Reaches o) : u.Reaches o := by
  obtain ⟨-, m, hm, -, -, hvalue, htraced, rfl⟩ := stepStore_cases hstep
  obtain ⟨_, rfl⟩ := hcut
  have hmem := List.mem_of_getElem? hm
  refine ho.along (fun r hr => ?_) ?_
  · rcases roots_of_set rfl hr with hr | hr
    · exact reaches_root hr
    · exact reaches_root (mem_roots hmem hr)
  · rintro a b ha ⟨slot', href⟩
    have href' := (writeSlot_ref htraced value a slot').symm.trans href
    split at href'
    · exact reaches_root (mem_roots hmem (hvalue b href'))
    · rename_i hslot
      exact ha.tail ⟨slot', by rw [writeSlot_ref, if_neg hslot, href']⟩

-- What is reachable after an allocation was reachable, or is the new object.
theorem reaches_allocate {new : NewObject} {o : Nat} (hstep : s.stepAllocate c t new = some s')
    (ho : s'.Reaches o) : s.Reaches o ∨ o = new.obj := by
  obtain ⟨-, m, regions, hm, -, -, hrefs, -, -, rfl⟩ := stepAllocate_cases hstep
  have hmem := List.mem_of_getElem? hm
  refine ho.along (P := fun a => s.Reaches a ∨ a = new.obj) (fun r hr => ?_) fun a b ha hab => ?_
  · rcases roots_of_set rfl hr with hr | hr
    · exact Or.inl (reaches_root hr)
    · exact (List.mem_cons.mp hr).symm.imp (fun hr => reaches_root (mem_roots hmem hr)) id
  · obtain ⟨slot, href⟩ := hab
    by_cases heq : a = new.obj
    · subst heq
      simp only [Function.update_self] at href
      obtain ⟨entry, hentry, rfl⟩ := Object.ref_mem href
      exact Or.inl (reaches_root (mem_roots hmem (hrefs entry hentry)))
    · simp only [Function.update_of_ne heq] at href
      exact Or.inl ((ha.resolve_right heq).tail ⟨slot, href⟩)

theorem reaches_thread {o : Nat} (hstep : s.stepThread c t = some s') (ho : s'.Reaches o) :
    s.Reaches o := by
  obtain ⟨-, m, hm, hcases⟩ := stepThread_cases hstep
  rcases hcases with ⟨obj, -, -, rfl⟩ | ⟨obj, todo, next, -, rfl⟩ | ⟨-, -, rfl⟩ |
    ⟨obj, todo, next, -, rfl⟩ | ⟨obj, -, rfl⟩ | ⟨-, rfl⟩
  · refine ho.of_set hm rfl rfl fun r hr => Or.inl ?_
    rwa [Mutator.enqueue_roots] at hr
  · exact ho.of_set hm rfl rfl fun r hr => Or.inl hr
  · refine ho.of_le (fun r hr => ?_) rfl
    obtain ⟨x, hx, hrx⟩ := List.mem_flatMap.mp hr
    exact reaches_root (mem_roots (List.mem_of_mem_eraseIdx hx) hrx)
  · exact ho.of_set hm rfl rfl fun r hr => Or.inl hr
  · refine ho.of_set hm rfl rfl fun r hr => Or.inl ?_
    rwa [Mutator.rawWriteBarrier_roots] at hr
  · exact ho.of_set hm rfl rfl fun r hr => Or.inl hr

-- An upgrade apart, a mutator reaches only what could be reached after the cut.
theorem reaches_of_mutator {e : Event} {u : World} {o : Nat} (hstep : s.step c e = some s')
    (he : e.ofMutator = true) (hcut : s.Cut e u) (hupgrade : ∀ t weak, e ≠ .upgrade t weak)
    (ho : s'.Reaches o) : u.Reaches o ∨ ∃ t new, e = .allocate t new ∧ o = new.obj := by
  cases e with
  | load t obj slot =>
      obtain rfl := hcut
      obtain ⟨-, m, ref, hm, hobj, href, rfl⟩ := stepLoad_cases hstep
      have hreach := (reaches_root (mem_roots (List.mem_of_getElem? hm) hobj)).tail ⟨slot, href⟩
      refine Or.inl (ho.of_set hm rfl rfl fun r hr => ?_)
      rcases List.mem_cons.mp hr with rfl | hr
      · exact Or.inr hreach
      · exact Or.inl hr
  | writeBarrier t obj =>
      obtain rfl := hcut
      obtain ⟨-, m, hm, -, -, rfl⟩ := stepWriteBarrier_cases hstep
      refine Or.inl (ho.of_set hm rfl rfl fun r hr => Or.inl ?_)
      rwa [Mutator.rawWriteBarrier_roots] at hr
  | store t obj slot value => exact Or.inl (reaches_store hstep hcut ho)
  | allocate t new =>
      obtain rfl := hcut
      exact (reaches_allocate hstep ho).imp id fun heq => ⟨t, new, rfl, heq⟩
  | drop t obj =>
      obtain ⟨-, m, hm, -, rfl⟩ := stepDrop_cases hstep
      obtain ⟨m', hm', rfl⟩ := hcut
      obtain rfl := Option.some.inj (hm.symm.trans hm')
      exact Or.inl ho
  | upgrade t weak => exact absurd rfl (hupgrade t weak)
  | attach =>
      obtain rfl := hcut
      obtain ⟨-, rfl⟩ := guard_not_eq_some.mp hstep
      refine Or.inl (ho.of_le (fun r hr => ?_) rfl)
      obtain ⟨x, hx, hrx⟩ := List.mem_flatMap.mp hr
      rcases List.mem_append.mp hx with hx | hx
      · exact reaches_root (mem_roots hx hrx)
      · rw [List.mem_singleton.mp hx] at hrx
        cases hrx
  | detach t =>
      obtain rfl := hcut
      obtain ⟨-, m, hm, -, rfl⟩ := stepDetach_cases hstep
      exact Or.inl (ho.of_set hm rfl rfl fun r hr => Or.inl hr)
  | step t =>
      obtain rfl := hcut
      exact Or.inl (reaches_thread hstep ho)
  | _ => cases he

-- A mark bit is cleared only of an object that the thread holds.
theorem cleared_of_mutator {e : Event} {u : World} {o : Nat} (hstep : s.step c e = some s')
    (he : e.ofMutator = true) (hcut : s.Cut e u) (hheld : ∀ m ∈ s.threads, m.Holds)
    (ho : o ∈ s'.cleared) : o ∈ s'.roots ∨
      (o ∈ u.cleared ∧ ∀ t new, e = .allocate t new → o ≠ new.obj) := by
  have hsame {u' : World} (hu : u = u') (hold : o ∈ u'.cleared)
      (hnew : ∀ t new, e = .allocate t new → o ≠ new.obj) :
      o ∈ s'.roots ∨ (o ∈ u.cleared ∧ ∀ t new, e = .allocate t new → o ≠ new.obj) :=
    Or.inr ⟨hu ▸ hold, hnew⟩
  cases e with
  | load t obj slot =>
      obtain ⟨-, m, ref, -, -, -, rfl⟩ := stepLoad_cases hstep
      exact hsame hcut ho (by simp)
  | writeBarrier t obj =>
      obtain ⟨-, m, -, -, -, rfl⟩ := stepWriteBarrier_cases hstep
      exact hsame hcut ho (by simp)
  | store t obj slot value =>
      obtain ⟨-, m, -, -, -, -, htraced, rfl⟩ := stepStore_cases hstep
      obtain ⟨_, rfl⟩ := hcut
      exact Or.inr ⟨ho, by simp⟩
  | allocate t new =>
      obtain ⟨-, m, regions, -, -, -, -, -, -, rfl⟩ := stepAllocate_cases hstep
      obtain ⟨hold, hne⟩ := List.mem_filter.mp ho
      refine hsame hcut hold fun t' new' heq => ?_
      obtain ⟨-, rfl⟩ := Event.allocate.inj heq
      simpa using hne
  | drop t obj =>
      obtain ⟨-, m, -, -, rfl⟩ := stepDrop_cases hstep
      obtain ⟨m', -, rfl⟩ := hcut
      exact Or.inr ⟨ho, by simp⟩
  | upgrade t weak =>
      obtain ⟨-, m, target, -, -, -, rfl⟩ := stepUpgrade_cases hstep
      exact hsame hcut ho (by simp)
  | attach =>
      obtain ⟨-, rfl⟩ := guard_not_eq_some.mp hstep
      exact hsame hcut ho (by simp)
  | detach t =>
      obtain ⟨-, m, -, -, rfl⟩ := stepDetach_cases hstep
      exact hsame hcut ho (by simp)
  | step t =>
      obtain ⟨-, m, hm, hcases⟩ := stepThread_cases hstep
      rcases hcases with ⟨obj, -, hplace, rfl⟩ | ⟨obj, todo, next, -, rfl⟩ | ⟨-, -, rfl⟩ |
        ⟨obj, todo, next, -, rfl⟩ | ⟨obj, -, rfl⟩ | ⟨-, rfl⟩
      · rcases List.mem_cons.mp ho with rfl | ho
        · have hobj := hheld m (List.mem_of_getElem? hm) o (by rw [hplace]; rfl)
          exact Or.inl (mem_roots (mem_set_self hm) (Mutator.enqueue_roots.symm ▸ hobj))
        · exact hsame hcut ho (by simp)
      all_goals exact hsame hcut ho (by simp)
  | _ => cases he

theorem refound_of_mutator {e : Event} (hfree : ∀ o, o ∉ s.objects → s.graph o = freeObject)
    (hholds : ∀ m ∈ s.threads, m.Holds) (h : s.Refound) (hheld : s.Held e)
    (hmarking : s.phase = .marking) (hstep : s.step c e = some s') (he : e.ofMutator = true) :
    s'.Refound := by
  by_cases hupgrade : ∃ t weak, e = .upgrade t weak
  · obtain ⟨t, weak, rfl⟩ := hupgrade
    obtain ⟨-, m, target, hm, -, htarget, rfl⟩ := stepUpgrade_cases hstep
    exact hheld hmarking m hm target htarget
  · obtain ⟨u, hcut, hsustains⟩ := sustains_of_mutator hfree (fun _ => hholds) hstep he
    have hu : u.Refound := by
      cases e with
      | store t obj slot value =>
          obtain ⟨htraced, rfl⟩ := hcut
          exact hheld hmarking htraced
      | drop t obj =>
          obtain ⟨m, hm, rfl⟩ := hcut
          exact hheld hmarking m hm
      | upgrade t weak => exact absurd ⟨t, weak, rfl⟩ hupgrade
      | _ => exact hcut.symm ▸ h
    intro o ho hreach
    rcases cleared_of_mutator hstep he hcut hholds ho with hroot | ⟨hbefore, hnew⟩
    · exact safe_of_root hroot
    · rcases reaches_of_mutator hstep he hcut (fun t weak heq => hupgrade ⟨t, weak, heq⟩) hreach
        with hreach | ⟨t, new, heq, hobj⟩
      · exact hsustains.safe o (hu o hbefore hreach)
      · exact absurd hobj (hnew t new heq)

-- A step that leaves the cleared objects that are marked as they are.
theorem Rescanned.keep (h : s.Rescanned) (hcleared : ∀ o ∈ s'.cleared, s'.marks o = true →
      o ∈ s.cleared ∧ s.marks o = true)
    (htraced : ∀ o ∈ s'.cleared, ∀ slot, (s'.graph o).Traced slot → (s.graph o).Traced slot)
    (hscanned : ∀ o ∈ s'.cleared, s'.marks o = true → ∀ slot, (o, slot) ∈ s.scanned →
      (o, slot) ∈ s'.scanned)
    (hcovers : ∀ o ∈ s'.cleared, ∀ slot, ∀ op ∈ s.work, op.Covers s.graph o slot →
      op ∈ s'.work ∧ op.Covers s'.graph o slot) : s'.Rescanned := by
  intro o ho hmark slot hslot
  obtain ⟨hbefore, hmarked⟩ := hcleared o ho hmark
  rcases h o hbefore hmarked slot (htraced o ho slot hslot) with hread | ⟨op, hop, hc⟩
  · exact Or.inl (hscanned o ho hmark slot hread)
  · exact Or.inr ⟨op, hcovers o ho slot op hop hc⟩

theorem Rescanned.setThread (h : s.Rescanned) (hgraph : s'.graph = s.graph)
    (hcleared : s'.cleared = s.cleared) (hmarks : s'.marks = s.marks)
    (hscanned : s'.scanned = s.scanned) (hwork : ∀ op ∈ s.work, op ∈ s'.work) : s'.Rescanned := by
  refine h.keep (fun o ho hmark => ⟨hcleared ▸ ho, hmarks ▸ hmark⟩) (fun o _ slot hslot => ?_)
    (fun o _ _ slot hread => hscanned ▸ hread) fun o _ slot op hop hc => ⟨hwork op hop, ?_⟩
  · rwa [hgraph] at hslot
  · rwa [hgraph]

theorem rescanned_thread (h : s.Rescanned) (hstep : s.stepThread c t = some s') : s'.Rescanned := by
  obtain ⟨-, m, -, hcases⟩ := stepThread_cases hstep
  rcases hcases with ⟨obj, -, -, rfl⟩ | ⟨obj, todo, next, -, rfl⟩ | ⟨-, -, rfl⟩ |
    ⟨obj, todo, next, -, rfl⟩ | ⟨obj, -, rfl⟩ | ⟨-, rfl⟩
  · have hne {o : Nat} (hmark : Function.update s.marks obj false o = true) : o ≠ obj := by
      rintro rfl
      rw [Function.update_self] at hmark
      cases hmark
    refine h.keep (fun o ho hmark => ⟨(List.mem_cons.mp ho).resolve_left (hne hmark), ?_⟩)
      (fun o _ slot hslot => hslot) (fun o _ hmark slot hread => ?_)
      fun o _ slot op hop hc => ⟨hop, hc⟩
    · simpa only [Function.update_of_ne (hne hmark)] using hmark
    · exact List.mem_filter.mpr ⟨hread, by simpa using hne hmark⟩
  · exact h.setThread rfl rfl rfl rfl fun op hop => List.mem_cons_of_mem _ hop
  all_goals exact h.setThread rfl rfl rfl rfl fun op hop => hop

theorem rescanned_of_mutator {e : Event} (h : s.Rescanned) (hstep : s.step c e = some s')
    (he : e.ofMutator = true) : s'.Rescanned := by
  cases e with
  | load t obj slot =>
      obtain ⟨-, m, ref, -, -, -, rfl⟩ := stepLoad_cases hstep
      exact h.setThread rfl rfl rfl rfl fun op hop => hop
  | writeBarrier t obj =>
      obtain ⟨-, m, -, -, -, rfl⟩ := stepWriteBarrier_cases hstep
      exact h.setThread rfl rfl rfl rfl fun op hop => hop
  | store t obj slot value =>
      obtain ⟨-, m, -, -, -, -, htraced, rfl⟩ := stepStore_cases hstep
      refine h.keep (fun o ho hmark => ⟨ho, hmark⟩) (fun o _ slot' hs => ?_)
        (fun o _ _ slot hread => hread) fun o _ slot' op hop hc =>
          ⟨hop, (writeSlot_covers htraced value o slot' op).mpr hc⟩
      by_cases hne : o = obj
      · subst hne
        simpa [Object.store] using hs
      · simpa [hne] using hs
  | allocate t new =>
      obtain ⟨-, m, regions, -, -, -, -, -, -, rfl⟩ := stepAllocate_cases hstep
      have hne {o : Nat} (ho : o ∈ s.cleared.filter fun obj => obj ≠ new.obj) : o ≠ new.obj := by
        simpa using (List.mem_filter.mp ho).2
      refine h.keep (fun o ho hmark => ⟨(List.mem_filter.mp ho).1, ?_⟩) (fun o ho slot hs => ?_)
        (fun o _ _ slot hread => hread) fun o ho slot op hop hc => ⟨hop, ?_⟩
      · change (if _ then Function.update s.marks new.obj true else s.marks) o = true at hmark
        split at hmark
        · rwa [Function.update_of_ne (hne ho)] at hmark
        · exact hmark
      · simpa only [Function.update_of_ne (hne ho)] using hs
      · cases op with
        | push task => simpa only [Op.Covers, Function.update_of_ne (hne ho)] using hc
        | scan | visit | spill => exact hc
  | drop t obj =>
      obtain ⟨-, m, -, -, rfl⟩ := stepDrop_cases hstep
      exact h.setThread rfl rfl rfl rfl fun op hop => hop
  | upgrade t weak =>
      obtain ⟨-, m, target, -, -, -, rfl⟩ := stepUpgrade_cases hstep
      exact h.setThread rfl rfl rfl rfl fun op hop => hop
  | attach =>
      obtain ⟨-, rfl⟩ := guard_not_eq_some.mp hstep
      exact h.setThread rfl rfl rfl rfl fun op hop => hop
  | detach t =>
      obtain ⟨-, m, -, -, rfl⟩ := stepDetach_cases hstep
      exact h.setThread rfl rfl rfl rfl fun op hop => hop
  | step t => exact rescanned_thread h hstep
  | _ => cases he

end World

end Rsgc.Collection
