import Mathlib.Data.List.Nodup
import Mathlib.Logic.Function.Basic

namespace Rsgc

-- Following `next` from `a` one meets the cells of the list and arrives at `b`.
def Segment {α : Type*} (next : α → α) : α → List α → α → Prop
  | a, [], b => a = b
  | a, x :: rest, b => a = x ∧ Segment next (next x) rest b

namespace Segment

variable {α : Type*} {next : α → α}

theorem append_iff {a c : α} {xs ys : List α} :
    Segment next a (xs ++ ys) c ↔ ∃ b, Segment next a xs b ∧ Segment next b ys c := by
  induction xs generalizing a with
  | nil => exact ⟨fun h => ⟨a, rfl, h⟩, fun ⟨_, hab, h⟩ => hab ▸ h⟩
  | cons x rest ih =>
      constructor
      · rintro ⟨hax, h⟩
        obtain ⟨b, hrest, hys⟩ := ih.mp h
        exact ⟨b, ⟨hax, hrest⟩, hys⟩
      · rintro ⟨b, ⟨hax, hrest⟩, hys⟩
        exact ⟨hax, ih.mpr ⟨b, hrest, hys⟩⟩

theorem concat_iff {a x c : α} {xs : List α} :
    Segment next a (xs ++ [x]) c ↔ Segment next a xs x ∧ next x = c := by
  rw [append_iff]
  constructor
  · rintro ⟨b, hxs, rfl, hc⟩
    exact ⟨hxs, hc⟩
  · rintro ⟨hxs, hc⟩
    exact ⟨x, hxs, rfl, hc⟩

theorem congr {next' : α → α} {a b : α} {xs : List α} (hsame : ∀ x ∈ xs, next' x = next x)
    (h : Segment next a xs b) : Segment next' a xs b := by
  induction xs generalizing a with
  | nil => exact h
  | cons x rest ih =>
      obtain ⟨rfl, hrest⟩ := h
      refine ⟨rfl, ?_⟩
      rw [hsame a List.mem_cons_self]
      exact ih (fun y hy => hsame y (List.mem_cons_of_mem a hy)) hrest

-- What is met before `b` for the first time is determined by the pointers.
theorem unique {a b : α} {xs ys : List α} (hxs : Segment next a xs b) (hys : Segment next a ys b)
    (hbx : b ∉ xs) (hby : b ∉ ys) : xs = ys := by
  induction xs generalizing a ys with
  | nil =>
      obtain rfl : a = b := hxs
      cases ys with
      | nil => rfl
      | cons y rest => exact absurd (List.mem_cons.mpr (Or.inl hys.1)) hby
  | cons x rest ih =>
      obtain ⟨rfl, hxs⟩ := hxs
      cases ys with
      | nil => exact absurd (List.mem_cons.mpr (Or.inl hys.symm)) hbx
      | cons y others =>
          obtain ⟨rfl, hys⟩ := hys
          rw [ih hxs hys (fun h => hbx (List.mem_cons_of_mem _ h))
            fun h => hby (List.mem_cons_of_mem _ h)]

-- The last cell of the first list is made to point to the second one.
theorem join {next' : α → α} {a b c d x : α} {xs ys : List α} (hxs : Segment next a (xs ++ [x]) b)
    (hys : Segment next c ys d) (hlink : next' x = c) (hfirst : ∀ y ∈ xs, next' y = next y)
    (hsecond : ∀ y ∈ ys, next' y = next y) : Segment next' a (xs ++ [x] ++ ys) d := by
  obtain ⟨hinit, _⟩ := concat_iff.mp hxs
  exact append_iff.mpr ⟨c, concat_iff.mpr ⟨hinit.congr hfirst, hlink⟩, hys.congr hsecond⟩

variable [DecidableEq α]

theorem update_iff {a b x y : α} {xs : List α} (hx : x ∉ xs) :
    Segment (Function.update next x y) a xs b ↔ Segment next a xs b := by
  induction xs generalizing a with
  | nil => exact Iff.rfl
  | cons z rest ih =>
      have hzx : z ≠ x := fun h => hx (h ▸ List.mem_cons_self)
      simp only [Segment, Function.update_of_ne hzx]
      rw [ih fun h => hx (List.mem_cons_of_mem _ h)]

-- The last cell of a segment is made to point elsewhere.
theorem relink {a b x c : α} {xs : List α} (h : Segment next a (xs ++ [x]) b) (hx : x ∉ xs) :
    Segment (Function.update next x c) a (xs ++ [x]) c := by
  rw [concat_iff] at h ⊢
  exact ⟨(update_iff hx).mpr h.1, Function.update_self ..⟩

-- The last of the cells that were walked over, or `null` where there is none yet.
def IsLast (null : α) (xs : List α) (last : α) : Prop :=
  xs = [] ∧ last = null ∨ ∃ init, xs = init ++ [last]

-- The link that leads on from these cells is `next` of the last one, or the head.
theorem retarget {a b null last : α} {xs : List α} (c : α) (h : Segment next a xs b)
    (hlast : IsLast null xs last) (hnull : null ∉ xs) (hnodup : xs.Nodup) :
    Segment (if last = null then next else Function.update next last c)
      (if last = null then c else a) xs c := by
  obtain ⟨rfl, rfl⟩ | ⟨init, rfl⟩ := hlast
  · rw [if_pos rfl, if_pos rfl]
    rfl
  · have hne : last ≠ null := fun heq => hnull (heq ▸ List.mem_append_right _ List.mem_cons_self)
    have hinit : last ∉ init := fun hmem =>
      (List.nodup_append.mp hnodup).2.2 last hmem last List.mem_cons_self rfl
    rw [if_neg hne, if_neg hne]
    exact h.relink hinit

theorem retarget_apart {a b null last : α} {xs ys : List α} (c : α) (h : Segment next a ys b)
    (hlast : IsLast null xs last) (hapart : ∀ x ∈ xs, x ∉ ys) :
    Segment (if last = null then next else Function.update next last c) a ys b := by
  by_cases hne : last = null
  · rw [if_pos hne]
    exact h
  · rw [if_neg hne]
    obtain ⟨-, heq⟩ | ⟨init, rfl⟩ := hlast
    · exact absurd heq hne
    · exact (update_iff (hapart last (by simp))).mpr h

end Segment

-- With links that may be null, from `p` to the null link.
def Path {α : Type*} (next : α → Option α) (p : Option α) (l : List α) : Prop :=
  Segment (fun q => q.bind next) p (l.map some) none

namespace Path

-- What is met on the way, as far as the fuel goes.
def walk {α : Type*} (next : α → Option α) : Nat → Option α → List α
  | 0, _ => []
  | _ + 1, none => []
  | fuel + 1, some x => x :: walk next fuel (next x)

variable {α : Type*} {next next' : α → Option α} {p : Option α} {x y : α} {l l' : List α}

@[simp] theorem nil_iff : Path next p [] ↔ p = none := Iff.rfl

@[simp] theorem cons_iff : Path next p (x :: l) ↔ p = some x ∧ Path next (next x) l := by
  constructor
  · rintro ⟨rfl, h⟩
    exact ⟨rfl, h⟩
  · rintro ⟨rfl, h⟩
    exact ⟨rfl, h⟩

theorem congr (hsame : ∀ x ∈ l, next' x = next x) (h : Path next p l) : Path next' p l := by
  refine Segment.congr (fun q hq => ?_) h
  obtain ⟨x, hx, rfl⟩ := List.mem_map.mp hq
  exact hsame x hx

theorem head_eq (h : Path next p l) : p = l.head? := by
  cases l with
  | nil => exact h
  | cons x rest => exact (cons_iff.mp h).1

theorem walk_eq {fuel : Nat} (h : Path next p l) (hfuel : l.length ≤ fuel) :
    walk next fuel p = l := by
  induction l generalizing fuel p with
  | nil =>
      obtain rfl := nil_iff.mp h
      cases fuel <;> rfl
  | cons x rest ih =>
      obtain ⟨rfl, hrest⟩ := cons_iff.mp h
      obtain ⟨fuel, rfl⟩ := Nat.exists_eq_add_one.mpr (Nat.lt_of_lt_of_le (Nat.succ_pos _) hfuel)
      unfold walk
      rw [ih hrest (Nat.le_of_succ_le_succ hfuel)]

theorem append_iff : Path next p (l ++ l') ↔
    ∃ q, Segment (fun q => q.bind next) p (l.map some) q ∧ Path next q l' := by
  unfold Path
  rw [List.map_append, Segment.append_iff]

theorem next_eq (h : Path next p (l ++ x :: l')) : next x = l'.head? := by
  obtain ⟨q, _, hrest⟩ := append_iff.mp h
  exact (cons_iff.mp hrest).2.head_eq

-- The path up to one that is made to point nowhere.
theorem cut [DecidableEq α] (h : Path next p (l ++ x :: l')) (hx : x ∉ l) :
    Path (Function.update next x none) p (l ++ [x]) := by
  obtain ⟨q, hfirst, hrest⟩ := append_iff.mp h
  obtain ⟨rfl, _⟩ := cons_iff.mp hrest
  refine append_iff.mpr ⟨some x, hfirst.congr fun r hr => ?_, by simp⟩
  obtain ⟨y, hy, rfl⟩ := List.mem_map.mp hr
  exact Function.update_of_ne (ne_of_mem_of_not_mem hy hx) ..

-- One on the path is left out.
theorem bypass [DecidableEq α] (h : Path next p (l ++ x :: y :: l')) (hx : x ∉ l) (hx' : x ∉ l') :
    Path (Function.update next x l'.head?) p (l ++ x :: l') := by
  obtain ⟨q, hfirst, hrest⟩ := append_iff.mp h
  obtain ⟨rfl, hnext⟩ := cons_iff.mp hrest
  obtain ⟨_, hback⟩ := cons_iff.mp hnext
  refine append_iff.mpr ⟨some x, hfirst.congr fun r hr => ?_, cons_iff.mpr ⟨rfl, ?_⟩⟩
  · obtain ⟨z, hz, rfl⟩ := List.mem_map.mp hr
    exact Function.update_of_ne (ne_of_mem_of_not_mem hz hx) ..
  · rw [Function.update_self, ← hback.head_eq]
    exact hback.congr fun z hz => Function.update_of_ne (ne_of_mem_of_not_mem hz hx') ..

-- One that is not on the path is put in front of it.
theorem push [DecidableEq α] (h : Path next p l) (hy : y ∉ l) :
    Path (Function.update next y p) (some y) (y :: l) := by
  refine cons_iff.mpr ⟨rfl, ?_⟩
  rw [Function.update_self]
  exact h.congr fun x hx => Function.update_of_ne (ne_of_mem_of_not_mem hx hy) ..

-- The last one is made to point to one that points nowhere.
theorem concat [DecidableEq α] (h : Path next p (l ++ [x])) (hx : x ∉ l)
    (hy : y ∉ l ++ [x]) (hend : next y = none) :
    Path (Function.update next x (some y)) p (l ++ [x, y]) := by
  have hyx : y ≠ x := fun heq => hy (by simp [heq])
  induction l generalizing p with
  | nil =>
      obtain ⟨rfl, _⟩ := cons_iff.mp h
      simp [Function.update_of_ne hyx, hend]
  | cons z rest ih =>
      obtain ⟨rfl, hrest⟩ := cons_iff.mp h
      have hzx : z ≠ x := fun heq => hx (by simp [heq])
      refine cons_iff.mpr ⟨rfl, ?_⟩
      rw [Function.update_of_ne hzx]
      exact ih hrest (fun hmem => hx (List.mem_cons_of_mem z hmem))
        (fun hmem => hy (List.mem_cons_of_mem z hmem))

end Path

end Rsgc
