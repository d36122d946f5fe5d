import Rsgc.System.HashMap.Entries

namespace Rsgc.System

namespace HashMap

open Buckets (entries)
open Keyed (Represents)

variable {K V : Type} {hash : K → Nat} {m : HashMap K V} {it : Iter K V}

-- The entries that an iterator has before it.
def remaining (m : HashMap K V) (it : Iter K V) : List (HashNode K V) :=
  it.chain ++ (List.range' it.index (m.len - it.index)).flatMap m.nodes

-- The answer is the first of `pairs`, and the entries of the others are left.
def YieldsFirst (hash : K → Nat) (m : HashMap K V) (pairs : List (K × V))
    (answer : Except HashPanic (Option (K × V) × Iter K V)) : Prop :=
  ∃ it, answer = .ok (pairs.head?, it) ∧ m.remaining it = pairs.tail.map (nodeOf hash)

theorem yieldEntry_first {pairs : List (K × V)} {node : HashNode K V}
    (hleft : node :: m.remaining it = pairs.map (nodeOf hash)) :
    YieldsFirst hash m pairs (yieldEntry node it) := by
  cases pairs with
  | nil => cases hleft
  | cons e rest =>
      rw [List.map_cons] at hleft
      obtain ⟨rfl, hrest⟩ := List.cons.inj hleft
      exact ⟨it, rfl, hrest⟩

theorem nextChain_first {pairs : List (K × V)} {rounds index : Nat}
    (hrounds : rounds = m.len - index)
    (hleft : (List.range' index rounds).flatMap m.nodes = pairs.map (nodeOf hash)) :
    YieldsFirst hash m pairs (m.nextChain rounds index) := by
  induction rounds generalizing index with
  | zero =>
      have hnone : pairs = [] := List.map_eq_nil_iff.mp hleft.symm
      subst hnone
      refine ⟨⟨index, []⟩, rfl, ?_⟩
      unfold remaining
      rw [← hrounds]
      rfl
  | succ rounds ih =>
      have hrest : rounds = m.len - (index + 1) := by omega
      rw [List.range'_succ, List.flatMap_cons] at hleft
      unfold nextChain
      cases hchain : m.nodes index with
      | nil =>
          rw [hchain, List.nil_append] at hleft
          exact ih hrest hleft
      | cons node rest =>
          rw [hchain, List.cons_append, hrest] at hleft
          exact yieldEntry_first hleft

theorem next_first {pairs : List (K × V)} (hleft : m.remaining it = pairs.map (nodeOf hash)) :
    YieldsFirst hash m pairs (m.next it) := by
  unfold remaining at hleft
  unfold next
  cases hchain : it.chain with
  | nil =>
      rw [hchain, List.nil_append] at hleft
      exact nextChain_first rfl hleft
  | cons node rest =>
      rw [hchain, List.cons_append] at hleft
      exact yieldEntry_first hleft

theorem collect_ok {pairs : List (K × V)} {fuel : Nat} (hfuel : pairs.length < fuel)
    (hleft : m.remaining it = pairs.map (nodeOf hash)) : m.collect fuel it = .ok (some pairs) := by
  induction pairs generalizing fuel it with
  | nil =>
      obtain ⟨fuel, rfl⟩ := Nat.exists_eq_add_one.mpr hfuel
      obtain ⟨it', hnext, _⟩ := next_first hleft
      unfold collect
      rw [hnext]
      rfl
  | cons e rest ih =>
      obtain ⟨fuel, rfl⟩ := Nat.exists_eq_add_one.mpr (Nat.zero_lt_of_lt hfuel)
      obtain ⟨it', hnext, hleft'⟩ := next_first hleft
      rw [List.length_cons, Nat.add_lt_add_iff_right] at hfuel
      unfold collect
      rw [hnext, Except.ok_bind]
      simp only [List.head?_cons, ih hfuel hleft', Except.ok_bind]
      rfl

theorem remaining_iter : m.remaining iter = entries m.len m.nodes := by
  unfold remaining iter entries
  rw [List.range_eq_range', List.nil_append]
  rfl

-- The iterator yields the graph of the finite map, and ends.
theorem iter_yields [BEq K] [EquivBEq K] {f : K → Option V} (h : Holds hash m.len m.nodes f) :
    ∃ pairs, Represents pairs f ∧
      ∀ fuel > pairs.length, m.collect fuel iter = .ok (some pairs) := by
  obtain ⟨l, hl, hentries⟩ := h
  obtain ⟨pairs, hpairs, hperm⟩ :
      Relation.Comp (fun a b => a = b.map (nodeOf hash)) List.Perm (entries m.len m.nodes) l := by
    rw [List.eq_map_comp_perm]
    exact hentries
  have hleft : m.remaining iter = pairs.map (nodeOf hash) := remaining_iter.trans hpairs
  exact ⟨pairs, hl.perm hperm.symm, fun fuel hfuel => collect_ok hfuel hleft⟩

end HashMap

end Rsgc.System
