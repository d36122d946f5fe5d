import Rsgc.System.HashMap

namespace Rsgc.System

namespace HashMap

open Buckets (entries)
open Keyed (Represents)

variable {K V : Type} [BEq K] {hash : K → Nat} {m : HashMap K V} {f : K → Option V} {k : K} {v : V}
  {n : Nat} {nodes dst : Nat → List (HashNode K V)}

def nodeOf (hash : K → Nat) (e : K × V) : HashNode K V := ⟨hash e.1, e.1, some e.2⟩

-- Every entry lies in the chain of its hash.
def Placed (hash : K → Nat) (n : Nat) (nodes : Nat → List (HashNode K V)) : Prop :=
  ∀ i < n, ∀ node ∈ nodes i, hash node.key % n = i

-- The chains hold the graph of `f`.
def Holds (hash : K → Nat) (n : Nat) (nodes : Nat → List (HashNode K V)) (f : K → Option V) :
    Prop :=
  ∃ l, Represents l f ∧ (entries n nodes).Perm (l.map (nodeOf hash))

structure Denotes (hash : K → Nat) (m : HashMap K V) (f : K → Option V) : Prop where
  len_pos : 0 < m.len
  placed : Placed hash m.len m.nodes
  holds : Holds hash m.len m.nodes f

section Search

theorem search_some {h : Nat} {chain before after : List (HashNode K V)} {node : HashNode K V}
    (hfound : search h k chain = some (before, node, after)) :
    chain = before ++ node :: after ∧
      (∀ other ∈ before, ¬(other.hash = h ∧ (other.key == k) = true)) ∧
      node.hash = h ∧ (node.key == k) = true := by
  induction chain generalizing before with
  | nil => cases hfound
  | cons first rest ih =>
      unfold search at hfound
      by_cases hmatch : first.hash = h ∧ (first.key == k) = true
      · rw [if_pos hmatch] at hfound
        cases hfound
        exact ⟨rfl, by simp, hmatch⟩
      · rw [if_neg hmatch] at hfound
        obtain ⟨⟨before', node', after'⟩, hrest, heq⟩ := Option.map_eq_some_iff.mp hfound
        cases heq
        obtain ⟨hchain, hbefore, hnode⟩ := ih hrest
        refine ⟨by rw [hchain, List.cons_append], fun other hother => ?_, hnode⟩
        rcases List.mem_cons.mp hother with rfl | hother
        · exact hmatch
        · exact hbefore other hother

theorem search_append {h : Nat} {before after : List (HashNode K V)} {node : HashNode K V}
    (hbefore : ∀ other ∈ before, ¬(other.hash = h ∧ (other.key == k) = true))
    (hnode : node.hash = h ∧ (node.key == k) = true) :
    search h k (before ++ node :: after) = some (before, node, after) := by
  induction before with
  | nil =>
      rw [List.nil_append]
      unfold search
      rw [if_pos hnode]
  | cons first rest ih =>
      rw [List.cons_append]
      unfold search
      rw [if_neg (hbefore first List.mem_cons_self),
        ih fun other hother => hbefore other (List.mem_cons_of_mem first hother)]
      rfl

theorem search_none {h : Nat} {chain : List (HashNode K V)} (hnone : search h k chain = none) :
    ∀ node ∈ chain, ¬(node.hash = h ∧ (node.key == k) = true) := by
  induction chain with
  | nil => simp
  | cons first rest ih =>
      unfold search at hnone
      by_cases hmatch : first.hash = h ∧ (first.key == k) = true
      · rw [if_pos hmatch] at hnone
        cases hnone
      · rw [if_neg hmatch] at hnone
        intro node hnode
        rcases List.mem_cons.mp hnode with rfl | hrest
        · exact hmatch
        · exact ih (Option.map_eq_none_iff.mp hnone) node hrest

@[simp] theorem position_eq (h : Nat) (hpos : 0 < n) : position h n = .ok (h % n) := by
  unfold position
  rw [Except.bind_eq_ok]
  exact ⟨(), Except.ensure_eq_ok.mpr (by omega), rfl⟩

theorem Holds.of_perm {n' : Nat} {nodes' : Nat → List (HashNode K V)} (h : Holds hash n nodes f)
    (hperm : (entries n' nodes').Perm (entries n nodes)) : Holds hash n' nodes' f := by
  obtain ⟨l, hl, hentries⟩ := h
  exact ⟨l, hl, hperm.trans hentries⟩

omit [BEq K] in
theorem Placed.update {index : Nat} {chain : List (HashNode K V)} (h : Placed hash n nodes)
    (hchain : ∀ node ∈ chain, hash node.key % n = index) :
    Placed hash n (Function.update nodes index chain) := by
  intro i hi node hnode
  by_cases hindex : i = index
  · subst hindex
    rw [Function.update_self] at hnode
    exact hchain node hnode
  · rw [Function.update_of_ne hindex] at hnode
    exact h i hi node hnode

-- Where the search in the chain of a key finds nothing, the key has no value.
theorem Denotes.absent (h : m.Denotes hash f)
    (hhash : ∀ a b : K, (a == b) = true → hash a = hash b)
    (hnone : search (hash k) k (m.nodes (hash k % m.len)) = none) : f k = none := by
  obtain ⟨l, hl, hentries⟩ := h.holds
  rw [hl.none_iff]
  intro e he
  by_contra hkey
  have hequal : (e.1 == k) = true := by simpa using hkey
  have hmem : nodeOf hash e ∈ entries m.len m.nodes :=
    hentries.mem_iff.mpr (List.mem_map.mpr ⟨e, he, rfl⟩)
  obtain ⟨i, hi, hin⟩ := Buckets.mem_entries.mp hmem
  have hplace : hash e.1 % m.len = i := h.placed i hi _ hin
  rw [hhash e.1 k hequal] at hplace
  rw [← hplace] at hin
  exact search_none hnone _ hin ⟨hhash e.1 k hequal, hequal⟩

end Search

section Update

variable [EquivBEq K]

-- What the search finds stands for the value of the key; the rest of the table does
-- not depend on it.
theorem Denotes.found {before after : List (HashNode K V)} {node : HashNode K V}
    (h : m.Denotes hash f)
    (hfound : search (hash k) k (m.nodes (hash k % m.len)) = some (before, node, after)) :
    ∃ v l, node = nodeOf hash (node.key, v) ∧ (node.key == k) = true ∧
      m.nodes (hash k % m.len) = before ++ node :: after ∧
      Represents ((node.key, v) :: l) f ∧
      ∀ chain, (entries m.len (Function.update m.nodes (hash k % m.len)
        (before ++ (chain ++ after)))).Perm (chain ++ l.map (nodeOf hash)) := by
  obtain ⟨hchain, _, _, hkey⟩ := search_some hfound
  have hlt : hash k % m.len < m.len := Nat.mod_lt _ h.len_pos
  obtain ⟨others, hothers⟩ := Buckets.entries_splice m.nodes hlt before after
  have hself := hothers [node]
  rw [List.singleton_append, ← hchain, Function.update_eq_self, List.singleton_append] at hself
  obtain ⟨pairs, hpairs, hentries⟩ := h.holds
  have hmem : node ∈ pairs.map (nodeOf hash) := by
    rw [← hentries.mem_iff, hself.mem_iff]
    exact List.mem_cons_self
  obtain ⟨e, he, hnode⟩ := List.mem_map.mp hmem
  obtain ⟨front, back, rfl⟩ := List.append_of_mem he
  have hpairs' : (front ++ e :: back).Perm (e :: (front ++ back)) := List.perm_middle
  have hkeyed : e = (node.key, e.2) := by
    rw [← hnode]
    rfl
  refine ⟨e.2, front ++ back, ?_, hkey, hchain, ?_, fun chain => ?_⟩
  · rw [← hkeyed, hnode]
  · rw [← hkeyed]
    exact hpairs.perm hpairs'
  · have hmapped := hpairs'.map (nodeOf hash)
    rw [List.map_cons, hnode] at hmapped
    have hrest : others.Perm ((front ++ back).map (nodeOf hash)) :=
      (hself.symm.trans (hentries.trans hmapped)).cons_inv
    exact (hothers chain).trans (hrest.append_left chain)

theorem Denotes.value {before after : List (HashNode K V)} {node : HashNode K V}
    (h : m.Denotes hash f)
    (hfound : search (hash k) k (m.nodes (hash k % m.len)) = some (before, node, after)) :
    ∃ v, node.value = some v ∧ f k = some v := by
  obtain ⟨v, l, hnode, hkey, _, hpairs, _⟩ := h.found hfound
  have hvalue : node.value = some v := congrArg HashNode.value hnode
  exact ⟨v, hvalue, (hpairs.congr_key hkey).symm.trans hpairs.head⟩

-- The found entry with another value.
theorem Denotes.replaced {before after : List (HashNode K V)} {node : HashNode K V}
    (h : m.Denotes hash f)
    (hfound : search (hash k) k (m.nodes (hash k % m.len)) = some (before, node, after)) (v : V) :
    (m.setChain (hash k % m.len) (before ++ { node with value := some v } :: after)).Denotes hash
      (Keyed.put f k (some v)) := by
  obtain ⟨old, l, hnode, hkey, hchain, hpairs, hentries⟩ := h.found hfound
  have hplaced := h.placed (hash k % m.len) (Nat.mod_lt _ h.len_pos)
  rw [hchain] at hplaced
  refine ⟨h.len_pos, h.placed.update fun other hother => ?_, (node.key, v) :: l, ?_, ?_⟩
  · rcases List.mem_append.mp hother with hbefore | hrest
    · exact hplaced other (List.mem_append_left _ hbefore)
    · rcases List.mem_cons.mp hrest with rfl | hafter
      · exact hplaced node (List.mem_append_right _ List.mem_cons_self)
      · exact hplaced other (List.mem_append_right _ (List.mem_cons_of_mem _ hafter))
  · rw [← Keyed.put_congr f hkey]
    exact hpairs.replace v
  · have hhash : node.hash = hash node.key := congrArg HashNode.hash hnode
    have hreplaced := hentries [{ node with value := some v }]
    rw [hhash] at hreplaced
    unfold setChain
    rw [hhash]
    exact hreplaced

theorem Denotes.removed {before after : List (HashNode K V)} {node : HashNode K V}
    (h : m.Denotes hash f)
    (hfound : search (hash k) k (m.nodes (hash k % m.len)) = some (before, node, after)) :
    (m.setChain (hash k % m.len) (before ++ after)).Denotes hash (Keyed.put f k none) := by
  obtain ⟨old, l, _, hkey, hchain, hpairs, hentries⟩ := h.found hfound
  have hplaced := h.placed (hash k % m.len) (Nat.mod_lt _ h.len_pos)
  rw [hchain] at hplaced
  refine ⟨h.len_pos, h.placed.update fun other hother => ?_, l, ?_, hentries []⟩
  · rcases List.mem_append.mp hother with hbefore | hafter
    · exact hplaced other (List.mem_append_left _ hbefore)
    · exact hplaced other (List.mem_append_right _ (List.mem_cons_of_mem _ hafter))
  · rw [← Keyed.put_congr f hkey]
    exact hpairs.tail

-- A new entry, in any chain.
theorem Holds.prepend {index : Nat} (h : Holds hash n nodes f) (hlt : index < n)
    (hnone : f k = none) (v : V) :
    Holds hash n (Function.update nodes index (nodeOf hash (k, v) :: nodes index))
      (Keyed.put f k (some v)) := by
  obtain ⟨l, hl, hentries⟩ := h
  refine ⟨(k, v) :: l, hl.cons (hl.none_iff.mp hnone), ?_⟩
  rw [List.map_cons]
  exact (Buckets.entries_cons_perm nodes hlt _).trans (hentries.cons _)

end Update

end HashMap

end Rsgc.System
