import Mathlib.Data.List.Basic

namespace Rsgc

namespace Runs

variable {α : Type*} {p : α → Bool} {list before after run opened : List α}

-- A longest part of the list, without a gap, whose elements all satisfy `p`.
def IsRun (p : α → Bool) (list run : List α) : Prop :=
  run ≠ [] ∧ (∀ a ∈ run, p a = true) ∧ ∃ before after, list = before ++ (run ++ after) ∧
    (∀ a ∈ before.getLast?, p a = false) ∧ (∀ a ∈ after.head?, p a = false)

def close (run : List α) : List (List α) := if run.isEmpty then [] else [run]

-- The runs of the list from left to right, where `opened` is the run that its
-- first elements may go on with.
def runsFrom (p : α → Bool) : List α → List α → List (List α)
  | opened, [] => close opened
  | opened, a :: rest =>
      if p a then runsFrom p (opened ++ [a]) rest else close opened ++ runsFrom p [] rest

theorem close_of_ne_nil (h : run ≠ []) : close run = [run] := by
  simp [close, h]

theorem flatten_close (run : List α) : (close run).flatten = run := by
  by_cases h : run = []
  · simp [close, h]
  · simp [close_of_ne_nil h]

theorem mem_close : run ∈ close opened ↔ run = opened ∧ opened ≠ [] := by
  by_cases h : opened = []
  · simp [close, h]
  · simp [close_of_ne_nil h, h]

-- The runs together are what the filter keeps.
theorem flatten_runsFrom (p : α → Bool) (opened list : List α) :
    (runsFrom p opened list).flatten = opened ++ list.filter p := by
  induction list generalizing opened with
  | nil => simp [runsFrom, flatten_close]
  | cons a rest ih =>
      unfold runsFrom
      by_cases ha : p a = true
      · rw [if_pos ha, ih, List.filter_cons_of_pos ha, List.append_assoc]
        rfl
      · rw [if_neg ha, List.flatten_append, flatten_close, ih, List.filter_cons_of_neg ha]
        rfl

theorem runsFrom_of_forall (h : ∀ a ∈ list, p a = true) :
    runsFrom p opened list = close (opened ++ list) := by
  induction list generalizing opened with
  | nil => simp [runsFrom]
  | cons a rest ih =>
      unfold runsFrom
      rw [if_pos (h a List.mem_cons_self), ih fun b hb => h b (List.mem_cons_of_mem a hb),
        List.append_assoc]
      rfl

-- In a list of nothing but such elements the only run is the list.
theorem isRun_of_forall (h : ∀ a ∈ list, p a = true) : IsRun p list run ↔ run = list ∧ list ≠ [] := by
  constructor
  · rintro ⟨hne, hrun, before, after, rfl, hbefore, hafter⟩
    have hleft : before = [] := by
      cases hlast : before.getLast? with
      | none => exact List.getLast?_eq_none_iff.mp hlast
      | some a =>
          have hmem := List.mem_of_getLast? hlast
          have htrue := h a (List.mem_append_left _ hmem)
          rw [hbefore a hlast] at htrue
          cases htrue
    have hright : after = [] := by
      cases hhead : after.head? with
      | none => exact List.head?_eq_none_iff.mp hhead
      | some a =>
          have hmem := List.mem_of_head? hhead
          have htrue := h a (by simp [hmem])
          rw [hafter a hhead] at htrue
          cases htrue
    subst hleft hright
    simpa using hne
  · rintro ⟨rfl, hne⟩
    exact ⟨hne, h, [], [], by simp, by simp, by simp⟩

-- An element without `p` parts the runs on its left from those on its right.
theorem isRun_append_cons {xs ys : List α} {a : α} (ha : p a = false) :
    IsRun p (xs ++ a :: ys) run ↔ IsRun p xs run ∨ IsRun p ys run := by
  constructor
  · rintro ⟨hne, hrun, before, after, heq, hbefore, hafter⟩
    rcases List.append_eq_append_iff.mp heq with ⟨middle, rfl, hmiddle⟩ | ⟨middle, rfl, hmiddle⟩
    · rcases List.cons_eq_append_iff.mp hmiddle with ⟨rfl, hcons⟩ | ⟨middle', rfl, rfl⟩
      · -- the run would start with the element that has no `p`
        obtain ⟨b, rest, rfl⟩ := List.exists_cons_of_ne_nil hne
        have hb := hrun b List.mem_cons_self
        obtain ⟨rfl, _⟩ := List.cons.inj hcons
        rw [ha] at hb
        cases hb
      · refine Or.inr ⟨hne, hrun, middle', after, rfl, fun b hb => hbefore b ?_, hafter⟩
        simp [List.getLast?_append, List.getLast?_cons, Option.mem_def.mp hb]
    · rcases List.append_eq_append_iff.mp hmiddle with ⟨tail, rfl, rfl⟩ | ⟨tail, rfl, htail⟩
      · refine Or.inl ⟨hne, hrun, before, tail, rfl, hbefore, fun b hb => hafter b ?_⟩
        simp [List.head?_append, Option.mem_def.mp hb]
      · rcases List.cons_eq_append_iff.mp htail with ⟨rfl, rfl⟩ | ⟨tail', rfl, rfl⟩
        · refine Or.inl ⟨hne, hrun, before, [], by simp, hbefore, by simp⟩
        · have htrue := hrun a (by simp)
          rw [ha] at htrue
          cases htrue
  · rintro (⟨hne, hrun, before, after, rfl, hbefore, hafter⟩ |
      ⟨hne, hrun, before, after, rfl, hbefore, hafter⟩)
    · refine ⟨hne, hrun, before, after ++ a :: ys, by simp, hbefore, ?_⟩
      cases after with
      | nil => simpa using ha
      | cons b rest => simpa using hafter
    · refine ⟨hne, hrun, xs ++ a :: before, after, by simp, ?_, hafter⟩
      intro b hb
      cases hlast : before.getLast? with
      | none =>
          obtain rfl := List.getLast?_eq_none_iff.mp hlast
          simp at hb
          rwa [← hb]
      | some c =>
          have hbc : c = b := by
            simpa [List.getLast?_append, List.getLast?_cons, hlast] using hb
          exact hbefore b (by simp [hlast, hbc])

-- The walk over a list finds each of its runs.
theorem mem_runsFrom (hopened : ∀ a ∈ opened, p a = true) :
    run ∈ runsFrom p opened list ↔ IsRun p (opened ++ list) run := by
  induction list generalizing opened with
  | nil => rw [List.append_nil, isRun_of_forall hopened, runsFrom, mem_close]
  | cons a rest ih =>
      unfold runsFrom
      by_cases ha : p a = true
      · have hlonger : ∀ b ∈ opened ++ [a], p b = true := by
          intro b hb
          rcases List.mem_append.mp hb with hb | hb
          · exact hopened b hb
          · rwa [List.mem_singleton.mp hb]
        rw [if_pos ha, ih hlonger, List.append_assoc]
        rfl
      · rw [if_neg ha, List.mem_append, ih (by simp), isRun_append_cons (by simpa using ha),
          isRun_of_forall hopened, mem_close, List.nil_append]

end Runs

end Rsgc
