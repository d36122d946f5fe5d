import Rsgc.System.HashMap.Resize

namespace Rsgc.System

open HashMap (OccupiedCall)

inductive HashMapCall (K V : Type)
  | put (key : K) (value : V)
  | get (key : K)
  | getMut (key : K) (f : V → V)
  | remove (key : K)
  | entry (key : K) (vacant : Option V) (call : OccupiedCall V)

namespace HashMapCall

variable {K V : Type} [BEq K]

-- The answer and the new map.
def perform (hash : K → Nat) (m : HashMap K V) :
    HashMapCall K V → Except HashPanic (Option V × HashMap K V)
  | put key value => m.put hash key value
  | get key => (m.get hash key).map fun answer => (answer, m)
  | getMut key f => m.getMut hash key f
  | remove key => m.remove hash key
  | entry key vacant call => m.entry hash key vacant call

end HashMapCall

namespace HashMap

-- What an occupied entry with the value `v` does on a finite map.
def OccupiedCall.onMap {K V : Type} [BEq K] (f : K → Option V) (k : K) (v : V) :
    OccupiedCall V → K → Option V
  | .get => f
  | .getMut g => Keyed.put f k (some (g v))
  | .insert value => Keyed.put f k (some value)
  | .remove => Keyed.put f k none

end HashMap

namespace HashMapCall

variable {K V : Type} [BEq K]

-- The same on a finite map.
def onMap (f : K → Option V) : HashMapCall K V → Option V × (K → Option V)
  | put key value => (f key, Keyed.put f key (some value))
  | get key => (f key, f)
  | getMut key g =>
      match f key with
      | none => (none, f)
      | some v => (some v, Keyed.put f key (some (g v)))
  | remove key => (f key, Keyed.put f key none)
  | entry key vacant call =>
      match f key, vacant with
      | none, none => (none, f)
      | none, some value => (none, Keyed.put f key (some value))
      | some v, _ => (some v, call.onMap f key v)

end HashMapCall

namespace HashMap

variable {K V : Type} [BEq K] {hash : K → Nat} {m : HashMap K V} {f : K → Option V} {k : K}

-- A resize has an array to move the entries to.
def CanResize (m : HashMap K V) : Prop := 0 < newArrayLen (m.len * 2)

-- What a fresh key needs: the counter does not overflow, nor does a resize; an entry that
-- the masked hash has put in its chain lies in the chain of its key, or is moved there.
def PutFits (m : HashMap K V) : Prop :=
  m.count + 1 < 2 ^ 32 ∧ (threshold m.len ≤ m.count → m.CanResize)

def InsertFits (hash : K → Nat) (m : HashMap K V) (k : K) : Prop :=
  m.count + 1 < 2 ^ 32 ∧
    if threshold m.len < m.count + 1 then m.CanResize
    else m.len - 1 &&& hash k = hash k % m.len

theorem Denotes.search_cases [EquivBEq K] (h : m.Denotes hash f)
    (hhash : ∀ a b : K, (a == b) = true → hash a = hash b) (k : K) :
    (f k = none ∧ search (hash k) k (m.nodes (hash k % m.len)) = none) ∨
      ∃ before node after v, f k = some v ∧ node.value = some v ∧
        search (hash k) k (m.nodes (hash k % m.len)) = some (before, node, after) := by
  cases hsearch : search (hash k) k (m.nodes (hash k % m.len)) with
  | none => exact .inl ⟨h.absent hhash hsearch, rfl⟩
  | some found =>
      obtain ⟨v, hvalue, hf⟩ := h.value hsearch
      exact .inr ⟨found.1, found.2.1, found.2.2, v, hf, hvalue, rfl⟩

theorem growForPut_ok (h : m.Denotes hash f) (hfits : m.PutFits) :
    ∃ grown, growForPut hash m = .ok grown ∧ grown.count = m.count ∧ grown.Denotes hash f := by
  unfold growForPut
  by_cases hfull : threshold m.len ≤ m.count
  · rw [if_pos hfull]
    exact resize_ok (hfits.2 hfull) h.holds
  · rw [if_neg hfull]
    exact ⟨m, rfl, rfl, h⟩

omit [BEq K] in
theorem incrementCount_ok (hlt : m.count + 1 < 2 ^ 32) :
    m.incrementCount = .ok { m with count := m.count + 1 } := by
  unfold incrementCount
  exact Except.bind_eq_ok.mpr ⟨(), Except.ensure_eq_ok.mpr hlt, rfl⟩

-- The emptied entry is still where the search of its key ends.
theorem occupied_remove_eq [EquivBEq K] (hhash : ∀ a b : K, (a == b) = true → hash a = hash b)
    (hpos : 0 < m.len) {before after : List (HashNode K V)} {node : HashNode K V} {v : V}
    (hsearch : search (hash k) k (m.nodes (hash k % m.len)) = some (before, node, after))
    (hvalue : node.value = some v) :
    m.occupied hash (hash k % m.len) before node after .remove =
      .ok (v, m.setChain (hash k % m.len) (before ++ after)) := by
  obtain ⟨_, hbefore, hnode, hkey⟩ := search_some hsearch
  have hsame : hash node.key = hash k := hhash _ _ hkey
  have hagain : search (hash k) node.key (before ++ { node with value := none } :: after) =
      some (before, { node with value := none }, after) := by
    refine search_append (fun other hother hmatch => ?_) ⟨hnode, BEq.refl node.key⟩
    exact hbefore other hother ⟨hmatch.1, BEq.trans hmatch.2 hkey⟩
  unfold occupied remove setChain unwrap
  simp only [hsame, position_eq _ hpos, Except.ok_bind, Function.update_self, hagain, hvalue,
    Except.pure_bind', Function.update_idem]
  rfl

section Calls

variable [EquivBEq K] (hhash : ∀ a b : K, (a == b) = true → hash a = hash b)
  (h : m.Denotes hash f)

include hhash h

theorem get_ok (k : K) : m.get hash k = .ok (f k) := by
  unfold get
  rw [position_eq _ h.len_pos, Except.ok_bind]
  rcases h.search_cases hhash k with
    ⟨hf, hsearch⟩ | ⟨before, node, after, v, hf, hvalue, hsearch⟩
  · rw [hsearch, hf]
    rfl
  · rw [hsearch, hf]
    exact congrArg Except.ok hvalue

theorem put_ok (k : K) (v : V) (hfits : f k = none → m.PutFits) :
    ∃ m', m.put hash k v = .ok (f k, m') ∧ m'.Denotes hash (Keyed.put f k (some v)) := by
  unfold put
  rw [position_eq _ h.len_pos, Except.ok_bind]
  rcases h.search_cases hhash k with
    ⟨hf, hsearch⟩ | ⟨before, node, after, old, hf, hvalue, hsearch⟩
  · obtain ⟨grown, hgrown, hcount, hdenotes⟩ := growForPut_ok h (hfits hf)
    have hlt : hash k % grown.len < grown.len := Nat.mod_lt _ hdenotes.len_pos
    have hincrement := incrementCount_ok (m := grown) (by rw [hcount]; exact (hfits hf).1)
    rw [hsearch, hf]
    simp only [hgrown, Except.ok_bind, position_eq _ hdenotes.len_pos, hincrement]
    refine ⟨_, rfl, hdenotes.len_pos, hdenotes.placed.update fun node hnode => ?_,
      hdenotes.holds.prepend hlt hf v⟩
    rcases List.mem_cons.mp hnode with rfl | hnode
    · rfl
    · exact hdenotes.placed _ hlt node hnode
  · rw [hsearch, hf, ← hvalue]
    exact ⟨_, rfl, h.replaced hsearch v⟩

theorem getMut_ok (k : K) (g : V → V) :
    ∃ m', m.getMut hash k g = .ok (((HashMapCall.getMut k g).onMap f).1, m') ∧
      m'.Denotes hash ((HashMapCall.getMut k g).onMap f).2 := by
  unfold getMut
  rw [position_eq _ h.len_pos, Except.ok_bind]
  rcases h.search_cases hhash k with
    ⟨hf, hsearch⟩ | ⟨before, node, after, old, hf, hvalue, hsearch⟩
  · simp only [hsearch, HashMapCall.onMap, hf]
    exact ⟨m, rfl, h⟩
  · simp only [hsearch, HashMapCall.onMap, hf, hvalue, Option.map_some]
    exact ⟨_, rfl, h.replaced hsearch (g old)⟩

theorem remove_ok (k : K) :
    ∃ m', m.remove hash k = .ok (f k, m') ∧ m'.Denotes hash (Keyed.put f k none) := by
  unfold remove
  rw [position_eq _ h.len_pos, Except.ok_bind]
  rcases h.search_cases hhash k with
    ⟨hf, hsearch⟩ | ⟨before, node, after, old, hf, hvalue, hsearch⟩
  · rw [hsearch, hf]
    refine ⟨m, rfl, ?_⟩
    obtain ⟨l, hl, _⟩ := h.holds
    rwa [hl.put_none hf]
  · rw [hsearch, hf, ← hvalue]
    exact ⟨_, rfl, h.removed hsearch⟩

theorem occupied_remove_ok {before after : List (HashNode K V)} {node : HashNode K V} {v : V}
    (hsearch : search (hash k) k (m.nodes (hash k % m.len)) = some (before, node, after))
    (hvalue : node.value = some v) :
    ∃ m', m.occupied hash (hash k % m.len) before node after .remove = .ok (v, m') ∧
      m'.Denotes hash (Keyed.put f k none) :=
  ⟨_, occupied_remove_eq hhash h.len_pos hsearch hvalue, h.removed hsearch⟩

theorem occupied_ok {before after : List (HashNode K V)} {node : HashNode K V} {v : V}
    (hsearch : search (hash k) k (m.nodes (hash k % m.len)) = some (before, node, after))
    (hvalue : node.value = some v) (call : OccupiedCall V) :
    ∃ m', m.occupied hash (hash k % m.len) before node after call = .ok (v, m') ∧
      m'.Denotes hash (call.onMap f k v) := by
  cases call with
  | get =>
      unfold occupied unwrap
      rw [hvalue]
      exact ⟨m, rfl, h⟩
  | getMut g =>
      unfold occupied unwrap
      rw [hvalue]
      exact ⟨_, rfl, h.replaced hsearch (g v)⟩
  | insert value =>
      unfold occupied unwrap
      rw [hvalue]
      exact ⟨_, rfl, h.replaced hsearch value⟩
  | remove => exact occupied_remove_ok hhash h hsearch hvalue

omit hhash in
theorem vacantInsert_ok (hf : f k = none) (v : V) (hfits : m.InsertFits hash k) :
    ∃ m', m.vacantInsert hash (hash k) k v = .ok m' ∧
      m'.Denotes hash (Keyed.put f k (some v)) := by
  have hpos := h.len_pos
  have hmask : m.len - 1 &&& hash k < m.len := by
    have hle : m.len - 1 &&& hash k ≤ m.len - 1 := Nat.and_le_left
    omega
  have hholds := h.holds.prepend hmask hf v
  have hincrement := incrementCount_ok (m := m.prepend (m.len - 1 &&& hash k) (hash k) k v) hfits.1
  unfold vacantInsert
  simp only [ensure_bind hmask, hincrement, Except.ok_bind]
  unfold InsertFits at hfits
  by_cases hgrow : threshold m.len < m.count + 1
  · rw [if_pos hgrow] at hfits
    obtain ⟨grown, hgrown, _, hdenotes⟩ := resize_ok (m := { m.prepend _ _ k v with
      count := m.count + 1 }) hfits.2 hholds
    refine ⟨grown, ?_, hdenotes⟩
    exact (if_pos hgrow).trans hgrown
  · rw [if_neg hgrow] at hfits
    refine ⟨_, if_neg hgrow, hpos, ?_, hholds⟩
    rw [hfits.2]
    refine h.placed.update fun node hnode => ?_
    rcases List.mem_cons.mp hnode with rfl | hnode
    · rfl
    · exact h.placed _ (Nat.mod_lt _ hpos) node hnode

theorem entry_ok (k : K) (vacant : Option V) (call : OccupiedCall V)
    (hfits : vacant ≠ none → f k = none → m.InsertFits hash k) :
    ∃ m', m.entry hash k vacant call = .ok (((HashMapCall.entry k vacant call).onMap f).1, m') ∧
      m'.Denotes hash ((HashMapCall.entry k vacant call).onMap f).2 := by
  unfold entry
  rw [position_eq _ h.len_pos, Except.ok_bind]
  rcases h.search_cases hhash k with
    ⟨hf, hsearch⟩ | ⟨before, node, after, old, hf, hvalue, hsearch⟩
  · cases vacant with
    | none =>
        simp only [hsearch, HashMapCall.onMap, hf]
        exact ⟨m, rfl, h⟩
    | some value =>
        obtain ⟨m', hm', hdenotes⟩ := vacantInsert_ok h hf value (hfits (by simp) hf)
        simp only [hsearch, HashMapCall.onMap, hf, hm', Except.ok_bind]
        exact ⟨m', rfl, hdenotes⟩
  · obtain ⟨m', hm', hdenotes⟩ := occupied_ok hhash h hsearch hvalue call
    simp only [hsearch, HashMapCall.onMap, hf, hm', Except.ok_bind]
    exact ⟨m', rfl, hdenotes⟩

end Calls

end HashMap

end Rsgc.System
