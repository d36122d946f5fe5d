import Rsgc.Collection.Stale

namespace Rsgc.Marking.Object

theorem ref_store (o : Object) (slot : Slot) (h : o.Traced slot) (value : Option Nat)
    (slot' : Slot) : (o.store slot h value).ref slot' = if slot' = slot then value else o.ref slot' := by
  unfold ref store
  rw [List.find?_append]
  by_cases hslot : slot' = slot
  · subst hslot
    cases value with
    | none => simp [List.find?_filter]
    | some r => simp
  · have hnew : (value.toList.map fun r => (slot, r)).find? (fun entry => entry.1 = slot') = none := by
      cases value <;> simp [Ne.symm hslot]
    have hold : (o.refs.filter fun entry => entry.1 ≠ slot).find? (fun entry => entry.1 = slot') =
        o.refs.find? fun entry => entry.1 = slot' := by
      rw [List.find?_filter]
      congr 1
      funext entry
      by_cases hentry : entry.1 = slot' <;> simp [hentry, hslot]
    rw [hnew, hold, if_neg hslot, Option.none_or]

theorem ref_mem {o : Object} {slot : Slot} {r : Nat} (h : o.ref slot = some r) :
    ∃ entry ∈ o.refs, entry.2 = r := by
  obtain ⟨entry, hentry, rfl⟩ := Option.map_eq_some_iff.mp h
  exact ⟨entry, List.mem_of_find?_eq_some hentry, rfl⟩

end Rsgc.Marking.Object

namespace Rsgc.Collection

open Marking Storage

theorem isFresh_ok (obj : Nat) : (Op.push (.new obj false false)).Ok := Or.inl rfl

-- The buffered objects that the thread, or the final mark, will still look at.
def Mutator.unflushed (m : Mutator) : List Nat :=
  match m.place with
  | .flushing todo _ => todo
  | .pushing obj todo _ => obj :: todo
  | .leaving => []
  | _ => m.satbMarkQueue

theorem Mutator.enqueue_roots {c : Config} {m : Mutator} {obj : Nat} :
    (m.enqueue c obj).roots = m.roots := by
  unfold enqueue
  split <;> rfl

theorem Mutator.rawWriteBarrier_roots {c : Config} {m : Mutator} {marks : Nat → Bool} {obj : Nat} :
    (m.rawWriteBarrier c marks obj).roots = m.roots := by
  unfold rawWriteBarrier
  split
  · split
    · split
      · rfl
      · exact enqueue_roots
    · rfl
  · rfl

namespace World

variable {c : Config} {s s' : World} {t : Nat}

-- What the marking works on or will: its operations, the roots, which the final
-- mark visits again, and the buffered objects that are not marked.
def Pending (s : World) (op : Op) : Prop :=
  op ∈ s.work ∨ (∃ r ∈ s.roots, op = .visit r) ∨
    ∃ m ∈ s.threads, ∃ x ∈ m.unflushed, s.marks x = false ∧ op = .push (.new x false false)

def color (s : World) : Coloring Nat := coloring s.graph s.marks s.Pending

theorem mem_roots {m : Mutator} (hm : m ∈ s.threads) {r : Nat} (hr : r ∈ m.roots) : r ∈ s.roots :=
  List.mem_flatMap.mpr ⟨m, hm, hr⟩

theorem safe_of_root {r : Nat} (hr : r ∈ s.roots) : s.color.Safe r :=
  Coloring.Safe.of_source ⟨.visit r, Or.inr (Or.inl ⟨r, hr, rfl⟩), Or.inl rfl⟩

-- A step that marks nothing and leaves all that was pending.
theorem sustains_of_pending (hgraph : s'.graph = s.graph) (hmarks : s'.marks = s.marks)
    (hpending : ∀ op, s.Pending op → s'.Pending op) : s.color.Sustains s'.color := by
  refine (Coloring.Advances.of_le ?_ ?_ ?_).sustains ?_
  · simp [color, coloring, hmarks]
  · rintro x ⟨op, hop, hx⟩
    exact ⟨op, hpending op hop, hgraph ▸ hx⟩
  · intro a b (hab : s.graph.Edge a b)
    exact (hgraph ▸ hab : s'.graph.Edge a b)
  · intro a b _ (hab : s'.graph.Edge a b)
    exact Or.inl (hgraph ▸ hab : s.graph.Edge a b)

theorem mem_set_of_mem {threads : List Mutator} {i : Nat} {m x : Mutator} (m' : Mutator)
    (hm : threads[i]? = some m) (hx : x ∈ threads) : x = m ∨ x ∈ threads.set i m' := by
  obtain ⟨j, hj⟩ := List.mem_iff_getElem?.mp hx
  by_cases hji : i = j
  · subst hji
    exact Or.inl (Option.some.inj (hj.symm.trans hm))
  · exact Or.inr (List.mem_of_getElem? ((List.getElem?_set_ne hji).trans hj))

theorem mem_set_self {threads : List Mutator} {i : Nat} {m m' : Mutator}
    (hm : threads[i]? = some m) : m' ∈ threads.set i m' := by
  obtain ⟨hlt, -⟩ := List.getElem?_eq_some_iff.mp hm
  exact List.mem_set hlt m'

-- The roots of the threads after one of them has changed.
theorem roots_of_set {m' : Mutator} (hthreads : s'.threads = s.threads.set t m') {r : Nat}
    (hr : r ∈ s'.roots) : r ∈ s.roots ∨ r ∈ m'.roots := by
  obtain ⟨x, hx, hrx⟩ := List.mem_flatMap.mp hr
  rw [hthreads] at hx
  rcases List.mem_or_eq_of_mem_set hx with hx | rfl
  · exact Or.inl (mem_roots hx hrx)
  · exact Or.inr hrx

-- One thread goes on; what it had buffered is still buffered, or a task by now.
theorem pending_of_set {m m' : Mutator} (hm : s.threads[t]? = some m)
    (hthreads : s'.threads = s.threads.set t m')
    (hmarks : ∀ o, s.marks o = false → s'.marks o = false) (hroots : ∀ r ∈ m.roots, r ∈ m'.roots)
    (hunflushed : ∀ x ∈ m.unflushed, s.marks x = false →
      x ∈ m'.unflushed ∨ .push (.new x false false) ∈ s'.work)
    (hwork : ∀ op ∈ s.work, op ∈ s'.work) (op : Op) (hop : s.Pending op) : s'.Pending op := by
  rcases hop with hop | ⟨r, hr, rfl⟩ | ⟨x, hx, o, ho, hmark, rfl⟩
  · exact Or.inl (hwork op hop)
  · refine Or.inr (Or.inl ⟨r, ?_, rfl⟩)
    obtain ⟨x, hx, hrx⟩ := List.mem_flatMap.mp hr
    rcases mem_set_of_mem m' hm hx with rfl | hx
    · exact List.mem_flatMap.mpr ⟨m', hthreads ▸ mem_set_self hm, hroots r hrx⟩
    · exact List.mem_flatMap.mpr ⟨x, hthreads ▸ hx, hrx⟩
  · rcases mem_set_of_mem m' hm hx with rfl | hx
    · rcases hunflushed o ho hmark with ho | ho
      · exact Or.inr (Or.inr ⟨m', hthreads ▸ mem_set_self hm, o, ho, hmarks o hmark, rfl⟩)
      · exact Or.inl ho
    · exact Or.inr (Or.inr ⟨x, hthreads ▸ hx, o, ho, hmarks o hmark, rfl⟩)

-- A step of the marking, of one of its operations or a visit to a root.
theorem sustains_of_step {op : Op} {ops : List Op}
    (hstep : op.step s.graph s.marks = some (s'.marks, ops)) (hok : op.Ok)
    (hshort : op.Short s.graph) (hgraph : s'.graph = s.graph) (hthreads : s'.threads = s.threads)
    (hkeep : ∀ o ∈ s.work, o = op ∨ o ∈ s'.work) (hnew : ∀ o ∈ ops, o ∈ s'.work) :
    s.color.Sustains s'.color := by
  have hadvances : s.color.Advances (coloring s.graph s'.marks s'.Pending) := by
    refine Op.step_advances hstep hok hshort ?_ fun o ho => Or.inl (hnew o ho)
    rintro o (ho | ⟨r, hr, rfl⟩ | ⟨m, hm, x, hx, hmark, rfl⟩)
    · exact (hkeep o ho).imp id Or.inl
    · exact Or.inr (Or.inr (Or.inl ⟨r, by rwa [roots, hthreads], rfl⟩))
    · refine Or.inr ?_
      by_cases hafter : s'.marks x = true
      · -- The step marks `x` and leaves the task for it.
        have hvisit : op = .visit x :=
          ((Op.step_marks hstep x).mp hafter).resolve_left (by simp [hmark])
        subst hvisit
        simp only [Op.step, hmark, Bool.false_eq_true, if_false] at hstep
        obtain ⟨-, rfl⟩ := Prod.mk.inj (Option.some.inj hstep)
        exact Or.inl (hnew _ (List.mem_singleton_self _))
      · exact Or.inr (Or.inr ⟨m, hthreads ▸ hm, x, hx, Bool.eq_false_iff.mpr hafter, rfl⟩)
  have hcolor : s'.color = coloring s.graph s'.marks s'.Pending := by rw [color, hgraph]
  rw [hcolor]
  exact hadvances.sustains fun a b _ hab => Or.inl hab

-- What `collectRoots` does for one root.
def visit (s : World) (ref : Nat) : World :=
  { s with marks := (visitRoot (s.marks, s.work) ref).1
           work := (visitRoot (s.marks, s.work) ref).2 }

theorem collectRoots_eq (s : World) : s.collectRoots = s.roots.foldl visit s := by
  have hfold (refs : List Nat) (s : World) : refs.foldl visit s =
      { s with marks := (refs.foldl visitRoot (s.marks, s.work)).1
               work := (refs.foldl visitRoot (s.marks, s.work)).2 } := by
    induction refs generalizing s with
    | nil => rfl
    | cons ref rest ih =>
        rw [List.foldl_cons, ih]
        rfl
  exact (hfold s.roots s).symm

theorem visit_step (s : World) (ref : Nat) :
    ∃ ops, (Op.visit ref).step s.graph s.marks = some ((s.visit ref).marks, ops) ∧
      (s.visit ref).work = ops ++ s.work := by
  unfold visit visitRoot
  simp only [Op.step]
  split
  · exact ⟨[], rfl, rfl⟩
  · exact ⟨[.push (.new ref false false)], rfl, rfl⟩

-- What visiting roots keeps.
theorem foldl_visit {P : World → Prop} (hstep : ∀ s ref, P s → P (s.visit ref)) (refs : List Nat)
    (h : P s) : P (refs.foldl visit s) := by
  induction refs generalizing s with
  | nil => exact h
  | cons ref rest ih => exact ih (hstep s ref h)

theorem sustains_visit (s : World) (ref : Nat) : s.color.Sustains (s.visit ref).color := by
  obtain ⟨ops, hstep, hwork⟩ := s.visit_step ref
  refine sustains_of_step hstep trivial trivial rfl rfl (fun o ho => Or.inr ?_) fun o ho => ?_
  · exact hwork ▸ List.mem_append_right _ ho
  · exact hwork ▸ List.mem_append_left _ ho

theorem ok_visit (s : World) (ref : Nat) (h : ∀ op ∈ s.work, op.Ok) :
    ∀ op ∈ (s.visit ref).work, op.Ok := by
  obtain ⟨ops, hstep, hwork⟩ := s.visit_step ref
  intro op hop
  rw [hwork] at hop
  rcases List.mem_append.mp hop with hop | hop
  · exact Op.step_ok hstep trivial trivial op hop
  · exact h op hop

theorem visit_marks (s : World) (ref o : Nat) :
    (s.visit ref).marks o = true ↔ s.marks o = true ∨ o = ref := by
  obtain ⟨ops, hstep, -⟩ := s.visit_step ref
  rw [Op.step_marks hstep, Op.visit.injEq]
  exact or_congr_right eq_comm

theorem collectRoots_marks (s : World) (o : Nat) :
    s.collectRoots.marks o = true ↔ s.marks o = true ∨ o ∈ s.roots := by
  have hfold (refs : List Nat) (s : World) :
      (refs.foldl visit s).marks o = true ↔ s.marks o = true ∨ o ∈ refs := by
    induction refs generalizing s with
    | nil => simp
    | cons ref rest ih => rw [List.foldl_cons, ih, visit_marks, List.mem_cons, or_assoc]
  rw [collectRoots_eq, hfold]

theorem collectRoots_sustains (s : World) : s.color.Sustains s.collectRoots.color := by
  rw [collectRoots_eq]
  refine foldl_visit (P := fun u => s.color.Sustains u.color) (fun u ref hu => ?_) _ (.refl _)
  exact hu.trans (sustains_visit u ref)

theorem collectRoots_ok (h : ∀ op ∈ s.work, op.Ok) : ∀ op ∈ s.collectRoots.work, op.Ok := by
  rw [collectRoots_eq]
  exact foldl_visit (P := fun s => ∀ op ∈ s.work, op.Ok) ok_visit _ h

-- A slot is written. The new value is a root, so this is no worse than clearing
-- the slot.
def writeSlot (s : World) (obj : Nat) (slot : Slot) (htraced : (s.graph obj).Traced slot)
    (value : Option Nat) : World :=
  { s with graph := Function.update s.graph obj ((s.graph obj).store slot htraced value) }

theorem writeSlot_ref {obj : Nat} {slot : Slot} (htraced : (s.graph obj).Traced slot)
    (value : Option Nat) (o : Nat) (slot' : Slot) :
    ((s.writeSlot obj slot htraced value).graph o).ref slot' =
      if o = obj ∧ slot' = slot then value else (s.graph o).ref slot' := by
  by_cases ho : o = obj
  · subst ho
    simp [writeSlot, Object.ref_store]
  · simp [writeSlot, ho]

theorem writeSlot_covers {obj : Nat} {slot : Slot} (htraced : (s.graph obj).Traced slot)
    (value : Option Nat) (o : Nat) (slot' : Slot) (op : Op) :
    op.Covers (s.writeSlot obj slot htraced value).graph o slot' ↔ op.Covers s.graph o slot' := by
  have hshape : ((s.writeSlot obj slot htraced value).graph o).itemSlots =
      (s.graph o).itemSlots := by
    by_cases ho : o = obj
    · subst ho
      simp [writeSlot, Object.store]
    · simp [writeSlot, ho]
  cases op with
  | push task => simp only [Op.Covers, hshape]
  | scan | visit | spill => rfl

theorem sustains_writeSlot {obj : Nat} {slot : Slot} (htraced : (s.graph obj).Traced slot)
    {value : Option Nat} (hvalue : ∀ ref ∈ value, ref ∈ s.roots) :
    (s.writeSlot obj slot htraced none).color.Sustains
      (s.writeSlot obj slot htraced value).color := by
  have href {o : Nat} {slot' : Slot} {x : Nat}
      (hx : ((s.writeSlot obj slot htraced none).graph o).ref slot' = some x) :
      ((s.writeSlot obj slot htraced value).graph o).ref slot' = some x := by
    rw [writeSlot_ref] at hx ⊢
    split at hx
    · cases hx
    · rw [if_neg ‹_›]
      exact hx
  refine Coloring.Advances.sustains (Coloring.Advances.of_le (fun _ => Iff.rfl) ?_ ?_) ?_
  · rintro x ⟨op, hop, rfl | ⟨o, slot', hcovers, hx⟩⟩
    · exact ⟨_, hop, Or.inl rfl⟩
    · refine ⟨op, hop, Or.inr ⟨o, slot', ?_, href hx⟩⟩
      rw [writeSlot_covers] at hcovers ⊢
      exact hcovers
  · rintro a b ⟨slot', hx⟩
    exact ⟨slot', href hx⟩
  · rintro a b - ⟨slot', hx⟩
    rw [writeSlot_ref] at hx
    split at hx
    · exact Or.inr (safe_of_root (hvalue b hx))
    · rename_i hslot
      refine Or.inl ⟨slot', ?_⟩
      rw [writeSlot_ref, if_neg hslot]
      exact hx

-- A new object refers to roots. Its address had no slots before.
theorem sustains_allocate {obj : Nat} {object : Object} {m m' : Mutator}
    (hm : s.threads[t]? = some m) (hfree : (s.graph obj).refs = [])
    (hrefs : ∀ entry ∈ object.refs, entry.2 ∈ m.roots)
    (hgraph : s'.graph = Function.update s.graph obj object)
    (hkeep : ∀ o, s.marks o = true → s'.marks o = true)
    (hmarks : ∀ o, o ≠ obj → s'.marks o = s.marks o)
    (hthreads : s'.threads = s.threads.set t m') (hroots : ∀ r ∈ m.roots, r ∈ m'.roots)
    (hunflushed : m'.unflushed = m.unflushed) (hwork : s'.work = s.work) :
    s.color.Sustains s'.color := by
  have hnone (slot : Slot) : (s.graph obj).ref slot = none := by simp [Object.ref, hfree]
  have hsame {o : Nat} (ho : o ≠ obj) : s'.graph o = s.graph o := by
    rw [hgraph, Function.update_of_ne ho]
  have hedge {a b : Nat} (hab : s.graph.Edge a b) : a ≠ obj ∧ s'.graph.Edge a b := by
    obtain ⟨slot, href⟩ := hab
    have ha : a ≠ obj := by
      rintro rfl
      rw [hnone slot] at href
      cases href
    exact ⟨ha, slot, (hsame ha).symm ▸ href⟩
  -- Everything pending stays so, but for an entry of the new object itself.
  have hpending (op : Op) (hop : s.Pending op) (hne : op ≠ .push (.new obj false false)) :
      s'.Pending op := by
    let u : World := { s' with graph := s.graph, marks := s.marks }
    have hold : u.Pending op :=
      pending_of_set hm (show u.threads = s.threads.set t m' from hthreads) (fun o ho => ho) hroots
        (fun x hx _ => Or.inl (hunflushed ▸ hx)) (fun o ho => (hwork ▸ ho : o ∈ s'.work)) op hop
    rcases hold with hold | hold | ⟨x, hx, o, ho, hmark, rfl⟩
    · exact Or.inl hold
    · exact Or.inr (Or.inl hold)
    · have hne : o ≠ obj := fun heq => hne (by rw [heq])
      exact Or.inr (Or.inr ⟨x, hx, o, ho, (hmarks o hne).trans hmark, rfl⟩)
  have hadvances : s.color.Advances s'.color := by
    refine ⟨fun a ha => hkeep a ha, fun x hx hwhite => ?_, fun a b hab ha => ?_⟩
    · obtain ⟨op, hop, rfl | ⟨o, slot, hcovers, href⟩⟩ := hx
      · exact Coloring.Safe.of_source ⟨_, hpending _ hop (by simp), Or.inl rfl⟩
      · obtain ⟨ho, -⟩ := hedge ⟨slot, href⟩
        have hne : op ≠ .push (.new obj false false) := by
          rintro rfl
          exact ho hcovers.1.symm
        refine Coloring.Safe.of_source ⟨op, hpending op hop hne, Or.inr ⟨o, slot, ?_, ?_⟩⟩
        · cases op with
          | push task => simpa only [Op.Covers, hsame ho] using hcovers
          | scan | visit | spill => exact hcovers
        · exact (hsame ho).symm ▸ href
    · obtain ⟨hne, hab'⟩ := hedge hab.1
      exact Or.inr ⟨fun hafter => ha ((hmarks a hne).symm.trans hafter), hab'⟩
  refine hadvances.sustains ?_
  rintro a b - ⟨slot, href⟩
  by_cases ha : a = obj
  · subst ha
    rw [hgraph, Function.update_self] at href
    obtain ⟨entry, hentry, rfl⟩ := Object.ref_mem href
    have hroot : entry.2 ∈ m'.roots := hroots _ (hrefs entry hentry)
    exact Or.inr (safe_of_root (mem_roots (hthreads ▸ mem_set_self hm) hroot))
  · exact Or.inl ⟨slot, hsame ha ▸ href⟩

end World

end Rsgc.Collection
