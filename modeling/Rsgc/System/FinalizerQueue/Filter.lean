import Mathlib.Data.List.Nodup
import Rsgc.System.FinalizerQueue

namespace Rsgc.System

namespace FinalizerQueue

variable {τ φ : Type} {s t : FinalizerQueue τ φ} {marked : Pointer → Bool}
  {kept rest chain : List Pointer} {prev current : Pointer}

theorem registration_setNext (s : FinalizerQueue τ φ) (node next : Pointer) :
    (s.setNext node next).registration = s.registration := by
  funext n
  unfold registration setNext
  by_cases hn : n = node
  · subst hn
    simp only [Function.update_self]
  · simp only [Function.update_of_ne hn]

theorem next_setNext (s : FinalizerQueue τ φ) (node next : Pointer) :
    (s.setNext node next).next = Function.update s.next node next := by
  funext n
  unfold FinalizerQueue.next setNext
  by_cases hn : n = node
  · subst hn
    simp only [Function.update_self]
  · simp only [Function.update_of_ne hn]

theorem node_setNext {node n : Pointer} (next : Pointer) (hn : n ≠ node) :
    (s.setNext node next).node n = s.node n := Function.update_of_ne hn ..

-- What does not depend on the links.
structure SameRest (s t : FinalizerQueue τ φ) : Prop where
  registration_eq : t.registration = s.registration
  place_eq : t.place = s.place
  begun_eq : t.begun = s.begun
  added_eq : t.added = s.added
  runs_eq : t.runs = s.runs

theorem SameRest.refl (s : FinalizerQueue τ φ) : SameRest s s := ⟨rfl, rfl, rfl, rfl, rfl⟩

theorem SameRest.trans {u : FinalizerQueue τ φ} (h : SameRest s t) (h' : SameRest t u) :
    SameRest s u :=
  ⟨h'.registration_eq.trans h.registration_eq, h'.place_eq.trans h.place_eq,
    h'.begun_eq.trans h.begun_eq, h'.added_eq.trans h.added_eq, h'.runs_eq.trans h.runs_eq⟩

-- The cell at `current` is left out.
structure Removes (prev current : Pointer) (s t : FinalizerQueue τ φ) : Prop extends
    SameRest s t where
  next_eq : t.next = if prev = 0 then s.next else Function.update s.next prev (s.next current)
  list_eq : t.list = if prev = 0 then s.next current else s.list
  node_eq : ∀ n, prev = 0 ∨ n ≠ prev → t.node n = s.node n
  boxed_eq : t.boxed = Function.update s.boxed current false
  calls_eq : t.calls = s.calls ++ [(s.registration current, s.runs.length)]

theorem finalizeEntry_removes (s : FinalizerQueue τ φ) (prev current : Pointer) :
    Removes prev current s (s.finalizeEntry prev current) := by
  unfold finalizeEntry
  by_cases hprev : prev = 0
  · simp only [hprev, if_true]
    exact ⟨⟨rfl, rfl, rfl, rfl, rfl⟩, by rw [if_pos rfl]; rfl, by rw [if_pos rfl], fun _ _ => rfl,
      rfl, rfl⟩
  · simp only [hprev, if_false]
    refine ⟨⟨registration_setNext s prev _, rfl, rfl, rfl, rfl⟩, ?_, ?_, fun n hn => ?_, rfl, rfl⟩
    · rw [if_neg hprev]
      exact next_setNext s prev _
    · rw [if_neg hprev]
      rfl
    · exact node_setNext (s := s) _ (hn.resolve_left hprev)

def keeps (marked : Pointer → Bool) (s : FinalizerQueue τ φ) (node : Pointer) : Bool :=
  marked (s.registration node).object

-- What a run leaves, where `kept` are the cells that it has passed and `rest` those
-- that it still had to visit.
structure Filters (marked : Pointer → Bool) (kept rest : List Pointer) (s t : FinalizerQueue τ φ) :
    Prop extends SameRest s t where
  linked : Segment t.next t.list (kept ++ rest.filter (keeps marked s)) 0
  node_eq : ∀ n, n ∉ kept ++ rest → t.node n = s.node n
  boxed_eq : ∀ n, n ∉ rest ∨ keeps marked s n = true → t.boxed n = s.boxed n
  calls_eq : t.calls = s.calls ++
    (rest.filter fun n => !keeps marked s n).map fun n => (s.registration n, s.runs.length)

theorem Filters.keep (h : Filters marked (kept ++ [current]) rest s t)
    (hkeeps : keeps marked s current = true) : Filters marked kept (current :: rest) s t := by
  refine ⟨h.toSameRest, ?_, fun n hn => h.node_eq n (by simpa using hn), fun n hn => ?_, ?_⟩
  · rw [List.filter_cons_of_pos hkeeps]
    simpa using h.linked
  · apply h.boxed_eq
    exact hn.imp_left fun hout hmem => hout (List.mem_cons_of_mem current hmem)
  · rw [List.filter_cons_of_neg (by simp [hkeeps])]
    exact h.calls_eq

theorem Filters.drop {u : FinalizerQueue τ φ} (h : Filters marked kept rest u t)
    (hremoves : Removes prev current s u) (hlast : Segment.IsLast 0 kept prev)
    (hkeeps : ¬keeps marked s current = true) : Filters marked kept (current :: rest) s t := by
  have hreg := hremoves.registration_eq
  have hsame : keeps marked u = keeps marked s := by
    funext n
    unfold keeps
    rw [hreg]
  refine ⟨hremoves.toSameRest.trans h.toSameRest, ?_, fun n hn => ?_, fun n hn => ?_, ?_⟩
  · rw [List.filter_cons_of_neg hkeeps, ← hsame]
    exact h.linked
  · simp only [List.mem_append, List.mem_cons, not_or] at hn
    obtain ⟨hkept, hne, hrest⟩ := hn
    rw [h.node_eq n (by simp [hkept, hrest]), hremoves.node_eq n]
    obtain ⟨-, rfl⟩ | ⟨init, rfl⟩ := hlast
    · exact Or.inl rfl
    · exact Or.inr fun heq => hkept (by simp [heq])
  · have hne : n ≠ current := by
      rintro rfl
      rcases hn with hn | hn
      · exact hn List.mem_cons_self
      · exact hkeeps hn
    rw [h.boxed_eq n, hremoves.boxed_eq, Function.update_of_ne hne]
    rw [hsame]
    exact hn.imp_left fun hout hmem => hout (List.mem_cons_of_mem current hmem)
  · rw [h.calls_eq, hremoves.calls_eq, hreg, hsame, hremoves.runs_eq,
      List.filter_cons_of_pos (by simpa using hkeeps)]
    simp

-- By induction on what is left of the list. The link behind the kept cells
-- leads to the cell that comes next.
theorem runFrom_filters (marked : Pointer → Bool) (rest : List Pointer) :
    ∀ {fuel : Nat} {s : FinalizerQueue τ φ} {kept : List Pointer} {prev current : Pointer},
      Segment s.next s.list kept current → Segment s.next current rest 0 →
      Segment.IsLast 0 kept prev → 0 ∉ kept ++ rest → (kept ++ rest).Nodup → rest.length ≤ fuel →
      ∃ t, runFrom marked fuel s current prev = some t ∧ Filters marked kept rest s t := by
  induction rest with
  | nil =>
      intro fuel s kept prev current hkept hrest hlast hnull hnodup hfuel
      have hend : current = 0 := hrest
      refine ⟨s, ?_, SameRest.refl s, ?_, fun _ _ => rfl, fun _ _ => rfl, ?_⟩
      · cases fuel with
        | zero => simp [runFrom, hend]
        | succ fuel => simp [runFrom, hend]
      · rw [List.filter_nil, List.append_nil]
        exact hend ▸ hkept
      · rw [List.filter_nil, List.map_nil, List.append_nil]
  | cons n rest ih =>
      intro fuel s kept prev current hkept hrest hlast hnull hnodup hfuel
      obtain ⟨rfl, hrest⟩ := hrest
      obtain ⟨fuel, rfl⟩ : ∃ k, fuel = k + 1 := ⟨fuel - 1, by simp at hfuel; omega⟩
      have hpos : current ≠ 0 := fun hz => hnull (hz ▸ by simp)
      have hshort : rest.length ≤ fuel := by simpa using hfuel
      simp only [runFrom, hpos, if_false]
      by_cases hmarked : marked (s.registration current).object = true
      · rw [if_pos hmarked]
        have hassoc : kept ++ current :: rest = kept ++ [current] ++ rest := by simp
        rw [hassoc] at hnull hnodup
        obtain ⟨t, ht, hfilters⟩ := ih (Segment.concat_iff.mpr ⟨hkept, rfl⟩) hrest
          (Or.inr ⟨kept, rfl⟩) hnull hnodup hshort
        exact ⟨t, ht, hfilters.keep hmarked⟩
      · rw [if_neg hmarked]
        have hremoves := finalizeEntry_removes s prev current
        obtain ⟨hkeptNodup, _, hcross⟩ := List.nodup_append.mp hnodup
        have hapart : ∀ x ∈ kept, x ∉ rest := fun x hx hmem =>
          hcross x hx x (List.mem_cons_of_mem current hmem) rfl
        have hkept' := hkept.retarget (s.next current) hlast (fun h => hnull (by simp [h])) hkeptNodup
        have hrest' := hrest.retarget_apart (s.next current) hlast hapart
        rw [← hremoves.next_eq] at hkept' hrest'
        rw [← hremoves.list_eq] at hkept'
        have hnull' : 0 ∉ kept ++ rest := fun h => hnull (by
          rcases List.mem_append.mp h with h | h
          · simp [h]
          · simp [h])
        have hnodup' : (kept ++ rest).Nodup :=
          hnodup.sublist ((List.sublist_cons_self current rest).append_left kept)
        obtain ⟨t, ht, hfilters⟩ := ih hkept' hrest' hlast hnull' hnodup' hshort
        exact ⟨t, ht, hfilters.drop hremoves hlast hmarked⟩

end FinalizerQueue

end Rsgc.System
