import Mathlib.Data.List.Perm.Basic

namespace Rsgc

namespace Keyed

variable {K V : Type*} [BEq K] {l l' : List (K × V)} {f : K → Option V} {k : K} {v : V}

-- The list holds the graph of `f`, with one pair for each class of equal keys.
structure Represents (l : List (K × V)) (f : K → Option V) : Prop where
  distinct : l.Pairwise fun a b => (a.1 == b.1) = false
  lookup_iff : ∀ k v, f k = some v ↔ ∃ e ∈ l, (e.1 == k) = true ∧ e.2 = v

def put (f : K → Option V) (k : K) (v : Option V) : K → Option V :=
  fun k' => if k == k' then v else f k'

theorem represents_nil : Represents ([] : List (K × V)) fun _ => none :=
  ⟨List.Pairwise.nil, fun k v => by simp⟩

theorem Represents.none_iff (h : Represents l f) : f k = none ↔ ∀ e ∈ l, (e.1 == k) = false := by
  rw [Option.eq_none_iff_forall_ne_some]
  constructor
  · intro hnone e he
    by_contra hkey
    exact hnone e.2 ((h.lookup_iff k e.2).mpr ⟨e, he, by simpa using hkey, rfl⟩)
  · intro hall v hv
    obtain ⟨e, he, hkey, _⟩ := (h.lookup_iff k v).mp hv
    rw [hall e he] at hkey
    cases hkey

theorem put_put (f : K → Option V) (k : K) (v v' : Option V) :
    put (put f k v) k v' = put f k v' := by
  funext other
  unfold put
  by_cases hkey : (k == other) = true
  · rw [if_pos hkey, if_pos hkey]
  · rw [if_neg hkey, if_neg hkey, if_neg hkey]

section Equal

variable [EquivBEq K]

theorem Represents.perm (h : Represents l f) (hperm : l.Perm l') : Represents l' f := by
  refine ⟨hperm.pairwise h.distinct fun hab => ?_, fun k v => ?_⟩
  · rwa [BEq.comm]
  · rw [h.lookup_iff]
    exact exists_congr fun e => and_congr_left fun _ => hperm.mem_iff

-- A pair in front answers for its key, and the others for the rest.
theorem Represents.cons (h : Represents l f) (hfresh : ∀ e ∈ l, (e.1 == k) = false) :
    Represents ((k, v) :: l) (put f k (some v)) := by
  refine ⟨List.pairwise_cons.mpr ⟨fun e he => ?_, h.distinct⟩, fun k' v' => ?_⟩
  · rw [BEq.comm]
    exact hfresh e he
  · unfold put
    simp only [List.mem_cons, exists_eq_or_imp]
    by_cases hkey : (k == k') = true
    · have hothers : ∀ e ∈ l, (e.1 == k') = false := fun e he => by
        by_contra hsame
        have heq : (e.1 == k) = true := BEq.trans (by simpa using hsame) (BEq.symm hkey)
        rw [hfresh e he] at heq
        cases heq
      have hnone : ¬∃ e ∈ l, (e.1 == k') = true ∧ e.2 = v' := by
        rintro ⟨e, he, hsame, _⟩
        rw [hothers e he] at hsame
        cases hsame
      simp [hkey, hnone]
    · simp [hkey, h.lookup_iff]

theorem Represents.tail (h : Represents ((k, v) :: l) f) : Represents l (put f k none) := by
  obtain ⟨hfirst, hrest⟩ := List.pairwise_cons.mp h.distinct
  refine ⟨hrest, fun k' v' => ?_⟩
  unfold put
  by_cases hkey : (k == k') = true
  · rw [if_pos hkey]
    constructor
    · intro hnone
      cases hnone
    · rintro ⟨e, he, hsame, _⟩
      have heq : (k == e.1) = true := BEq.trans hkey (BEq.symm hsame)
      rw [hfirst e he] at heq
      cases heq
  · rw [if_neg hkey, h.lookup_iff]
    simp only [List.mem_cons, exists_eq_or_imp]
    exact or_iff_right fun hfront => hkey hfront.1

theorem Represents.head (h : Represents ((k, v) :: l) f) : f k = some v :=
  (h.lookup_iff k v).mpr ⟨(k, v), List.mem_cons_self, BEq.refl k, rfl⟩

theorem Represents.congr_key (h : Represents l f) {k' : K} (hkey : (k == k') = true) :
    f k = f k' := by
  apply Option.ext
  intro v
  rw [h.lookup_iff, h.lookup_iff]
  refine exists_congr fun e => and_congr_right fun _ => and_congr_left fun _ => ?_
  exact ⟨fun hsame => BEq.trans hsame hkey, fun hsame => BEq.trans hsame (BEq.symm hkey)⟩

theorem put_congr (f : K → Option V) {k' : K} (hkey : (k == k') = true) (v : Option V) :
    put f k v = put f k' v := by
  funext other
  have hsame : (k == other) = (k' == other) := by
    rw [Bool.eq_iff_iff]
    exact ⟨fun h => BEq.trans (BEq.symm hkey) h, fun h => BEq.trans hkey h⟩
  unfold put
  rw [hsame]

theorem Represents.put_none (h : Represents l f) (hnone : f k = none) : put f k none = f := by
  funext other
  unfold put
  by_cases hkey : (k == other) = true
  · rw [if_pos hkey, ← h.congr_key hkey, hnone]
  · rw [if_neg hkey]

-- A pair with an equal key in place of the first.
theorem Represents.replace (h : Represents ((k, v) :: l) f) (v' : V) :
    Represents ((k, v') :: l) (put f k (some v')) := by
  have hfresh : ∀ e ∈ l, (e.1 == k) = false := fun e he => by
    rw [BEq.comm]
    exact (List.pairwise_cons.mp h.distinct).1 e he
  have hput := h.tail.cons (v := v') hfresh
  rwa [put_put] at hput

end Equal

end Keyed

end Rsgc
