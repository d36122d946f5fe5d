import Mathlib.Data.Set.List
import Rsgc.System.HashMap.Refines

namespace Rsgc.System

namespace HashMap

open Buckets (entries)

variable {K V : Type} {hash : K → Nat} {m m' : HashMap K V} {k : K} {pos : Nat}
  {node : HashNode K V} {before after : List (HashNode K V)}

-- `HashMap::len`
def mapLen (m : HashMap K V) : Nat := m.count

def storedKeys (m : HashMap K V) : List K := (entries m.len m.nodes).map HashNode.key

-- The iterator yields pairs with different keys, and `len` is their number.
def LenExact [BEq K] (m : HashMap K V) : Prop :=
  ∃ pairs : List (K × V), pairs.Pairwise (fun a b => (a.1 == b.1) = false) ∧
    (∀ fuel > pairs.length, m.collect fuel iter = .ok (some pairs)) ∧ m.mapLen = pairs.length

def Stored [BEq K] (m : HashMap K V) (k : K) : Prop := ∃ other ∈ m.storedKeys, (other == k) = true

-- The search for a key finds nothing in the chain where it belongs.
def Misses [BEq K] (hash : K → Nat) (m : HashMap K V) (k : K) : Prop :=
  search (hash k) k (m.nodes (hash k % m.len)) = none

def OccupiedCall.Removes : OccupiedCall V → Prop
  | .remove => True
  | _ => False

-- Each entry has a value, and the hash of its key; it may lie in any chain.
structure Whole (hash : K → Nat) (m : HashMap K V) : Prop where
  len_pos : 0 < m.len
  nodes : ∀ node ∈ entries m.len m.nodes, ∃ v, node = nodeOf hash (node.key, v)

section Counting

-- The iterator yields all that is stored.
theorem Whole.yields (h : m.Whole hash) :
    ∃ pairs : List (K × V), entries m.len m.nodes = pairs.map (nodeOf hash) ∧
      pairs.map Prod.fst = m.storedKeys ∧
      ∀ fuel > pairs.length, m.collect fuel iter = .ok (some pairs) := by
  have hrange : entries m.len m.nodes ∈ Set.range (List.map (nodeOf (V := V) hash)) := by
    rw [Set.range_list_map]
    intro node hnode
    obtain ⟨v, hv⟩ := h.nodes node hnode
    exact ⟨(node.key, v), hv.symm⟩
  obtain ⟨pairs, hpairs⟩ := hrange
  have hleft : m.remaining iter = pairs.map (nodeOf hash) := remaining_iter.trans hpairs.symm
  refine ⟨pairs, hpairs.symm, ?_, fun fuel hfuel => collect_ok hfuel hleft⟩
  unfold storedKeys
  rw [← hpairs, List.map_map]
  rfl

variable [BEq K]

theorem Whole.lenExact_iff (h : m.Whole hash) :
    m.LenExact ↔ m.storedKeys.Pairwise (fun a b => (a == b) = false) ∧
      m.count = m.storedKeys.length := by
  obtain ⟨pairs, _, hkeys, hcollect⟩ := h.yields
  rw [← hkeys, List.pairwise_map, List.length_map]
  constructor
  · rintro ⟨others, hdistinct, hothers, hlen⟩
    have hfuel := hcollect (max pairs.length others.length + 1) (by omega)
    rw [hothers _ (by omega)] at hfuel
    obtain rfl := Option.some.inj (Except.ok.inj hfuel)
    exact ⟨hdistinct, hlen⟩
  · rintro ⟨hdistinct, hlen⟩
    exact ⟨pairs, hdistinct, hcollect, hlen⟩

theorem lenExact_of_kept [EquivBEq K] (hm : m.Whole hash) (hm' : m'.Whole hash)
    (hexact : m.LenExact)
    (hkeys : m'.storedKeys.Perm m.storedKeys) (hcount : m'.count = m.count) : m'.LenExact := by
  obtain ⟨hdistinct, hlen⟩ := hm.lenExact_iff.mp hexact
  refine hm'.lenExact_iff.mpr ⟨hkeys.symm.pairwise hdistinct fun hab => ?_, ?_⟩
  · rwa [BEq.comm]
  · rw [hcount, hlen, hkeys.length_eq]

theorem not_lenExact_of_taken (hm : m.Whole hash) (hm' : m'.Whole hash) (hexact : m.LenExact)
    (hkeys : m.storedKeys.Perm (k :: m'.storedKeys)) (hcount : m'.count = m.count) :
    ¬m'.LenExact := by
  intro hexact'
  obtain ⟨_, hlen⟩ := hm.lenExact_iff.mp hexact
  obtain ⟨_, hlen'⟩ := hm'.lenExact_iff.mp hexact'
  rw [hkeys.length_eq, List.length_cons] at hlen
  omega

theorem lenExact_added_iff [EquivBEq K] (hm : m.Whole hash) (hm' : m'.Whole hash)
    (hexact : m.LenExact) (hkeys : m'.storedKeys.Perm (k :: m.storedKeys))
    (hcount : m'.count = m.count + 1) : m'.LenExact ↔ ¬m.Stored k := by
  obtain ⟨hdistinct, hlen⟩ := hm.lenExact_iff.mp hexact
  have hsymm : ∀ {a b : K}, (a == b) = false → (b == a) = false := fun hab => by rwa [BEq.comm]
  have hcons : m'.storedKeys.Pairwise (fun a b => (a == b) = false) ↔
      (k :: m.storedKeys).Pairwise (fun a b => (a == b) = false) :=
    hkeys.pairwise_iff hsymm
  have hlen' : m'.count = m'.storedKeys.length := by
    rw [hcount, hlen, hkeys.length_eq, List.length_cons]
  rw [hm'.lenExact_iff, and_iff_left hlen', hcons, List.pairwise_cons, and_iff_left hdistinct]
  unfold Stored
  rw [not_exists]
  refine forall_congr' fun other => ?_
  rw [not_and, Bool.not_eq_true, BEq.comm]

end Counting

section Edits

theorem Whole.of_perm (h : m.Whole hash) (hpos : 0 < m'.len)
    (hperm : (entries m'.len m'.nodes).Perm (entries m.len m.nodes)) :
    m'.Whole hash ∧ m'.storedKeys.Perm m.storedKeys :=
  ⟨⟨hpos, fun node hnode => h.nodes node (hperm.mem_iff.mp hnode)⟩, hperm.map HashNode.key⟩

theorem Whole.of_cons (h : m.Whole hash) (hpos : 0 < m'.len) {v : V}
    (hperm : (entries m'.len m'.nodes).Perm (nodeOf hash (k, v) :: entries m.len m.nodes)) :
    m'.Whole hash ∧ m'.storedKeys.Perm (k :: m.storedKeys) := by
  refine ⟨⟨hpos, fun node hnode => ?_⟩, hperm.map HashNode.key⟩
  rcases List.mem_cons.mp (hperm.mem_iff.mp hnode) with rfl | hnode
  · exact ⟨v, rfl⟩
  · exact h.nodes node hnode

variable [BEq K]

-- The entry that the search has found, apart from all others.
theorem Whole.found (h : m.Whole hash)
    (hfound : search (hash k) k (m.nodes (hash k % m.len)) = some (before, node, after)) :
    ∃ v others, node = nodeOf hash (node.key, v) ∧
      (entries m.len m.nodes).Perm (node :: others) ∧
      ∀ part, (entries m.len (m.setChain (hash k % m.len) (before ++ (part ++ after))).nodes).Perm
        (part ++ others) := by
  obtain ⟨hchain, _⟩ := search_some hfound
  obtain ⟨others, hothers⟩ :=
    Buckets.entries_splice m.nodes (Nat.mod_lt (hash k) h.len_pos) before after
  have hself := hothers [node]
  rw [List.singleton_append, ← hchain, Function.update_eq_self, List.singleton_append] at hself
  obtain ⟨v, hv⟩ := h.nodes node (hself.mem_iff.mpr List.mem_cons_self)
  exact ⟨v, others, hv, hself, hothers⟩

theorem Whole.value (h : m.Whole hash)
    (hfound : search (hash k) k (m.nodes (hash k % m.len)) = some (before, node, after)) :
    ∃ v, node.value = some v := by
  obtain ⟨v, _, hnode, _⟩ := h.found hfound
  exact ⟨v, congrArg HashNode.value hnode⟩

theorem Whole.replaced (h : m.Whole hash)
    (hfound : search (hash k) k (m.nodes (hash k % m.len)) = some (before, node, after)) (v : V) :
    (m.setChain (hash k % m.len) (before ++ { node with value := some v } :: after)).Whole hash ∧
      (m.setChain (hash k % m.len)
        (before ++ { node with value := some v } :: after)).storedKeys.Perm m.storedKeys := by
  obtain ⟨_, others, hnode, hself, hothers⟩ := h.found hfound
  have hperm := hothers [{ node with value := some v }]
  refine ⟨⟨h.len_pos, fun other hother => ?_⟩, ?_⟩
  · rcases List.mem_cons.mp (hperm.mem_iff.mp hother) with rfl | hother
    · have hhash : node.hash = hash node.key := congrArg HashNode.hash hnode
      refine ⟨v, ?_⟩
      rw [hhash]
      rfl
    · exact h.nodes other (hself.mem_iff.mpr (List.mem_cons_of_mem node hother))
  · exact (hperm.map HashNode.key).trans (hself.map HashNode.key).symm

theorem Whole.taken (h : m.Whole hash)
    (hfound : search (hash k) k (m.nodes (hash k % m.len)) = some (before, node, after)) :
    (m.setChain (hash k % m.len) (before ++ after)).Whole hash ∧
      m.storedKeys.Perm (node.key ::
        (m.setChain (hash k % m.len) (before ++ after)).storedKeys) := by
  obtain ⟨_, others, _, hself, hothers⟩ := h.found hfound
  have hperm := hothers []
  refine ⟨⟨h.len_pos, fun other hother => ?_⟩, ?_⟩
  · exact h.nodes other (hself.mem_iff.mpr (List.mem_cons_of_mem node (hperm.mem_iff.mp hother)))
  · exact (hself.map HashNode.key).trans ((hperm.map HashNode.key).symm.cons node.key)

end Edits

section Calls

theorem resize_len {grown : HashMap K V} (h : m.Whole hash) (hlen : 0 < newArrayLen (m.len * 2))
    (hok : resize hash m = .ok grown) :
    grown.Whole hash ∧ grown.storedKeys.Perm m.storedKeys ∧ grown.count = m.count := by
  obtain ⟨moved, hmoved, hcount, hpos, _, hperm⟩ := resize_moves hlen
  obtain rfl := Except.ok.inj (hmoved.symm.trans hok)
  obtain ⟨hwhole, hkeys⟩ := h.of_perm hpos hperm
  exact ⟨hwhole, hkeys, hcount⟩

theorem position_eq_ok {h len index : Nat} (hok : position h len = .ok index) :
    0 < len ∧ index = h % len := by
  obtain ⟨_, hlen, hindex⟩ := Except.bind_eq_ok.mp hok
  exact ⟨Nat.pos_of_ne_zero (Except.ensure_eq_ok.mp hlen), (Except.pure_eq_ok.mp hindex).symm⟩

theorem incrementCount_eq {counted : HashMap K V} (hok : m.incrementCount = .ok counted) :
    counted = { m with count := m.count + 1 } := by
  obtain ⟨_, _, hcounted⟩ := Except.bind_eq_ok.mp hok
  exact (Except.pure_eq_ok.mp hcounted).symm

theorem growForPut_len {grown : HashMap K V} (h : m.Whole hash)
    (hok : growForPut hash m = .ok grown) (hpos : 0 < grown.len) :
    grown.Whole hash ∧ grown.storedKeys.Perm m.storedKeys ∧ grown.count = m.count := by
  unfold growForPut at hok
  split at hok
  · obtain ⟨nodes, _, hgrown⟩ := Except.bind_eq_ok.mp hok
    rw [← Except.pure_eq_ok.mp hgrown] at hpos
    exact resize_len h hpos hok
  · obtain rfl := Except.ok.inj hok
    exact ⟨h, List.Perm.refl _, rfl⟩

theorem prepend_len {index : Nat} (h : m.Whole hash) (hlt : index < m.len) (k : K) (v : V) :
    ({ m with count := m.count + 1 }.prepend index (hash k) k v).Whole hash ∧
      ({ m with count := m.count + 1 }.prepend index (hash k) k v).storedKeys.Perm
        (k :: m.storedKeys) :=
  h.of_cons h.len_pos (Buckets.entries_cons_perm m.nodes hlt (nodeOf hash (k, v)))

variable [BEq K] [EquivBEq K] {v : V} {r : Option V × HashMap K V}

theorem put_len (h : m.Whole hash) (hexact : m.LenExact) (hput : m.put hash k v = .ok r) :
    r.2.Whole hash ∧ (r.2.LenExact ↔ (m.Misses hash k → ¬m.Stored k)) := by
  unfold put at hput
  rw [position_eq _ h.len_pos, Except.ok_bind] at hput
  unfold Misses
  cases hsearch : search (hash k) k (m.nodes (hash k % m.len)) with
  | some found =>
      rw [hsearch] at hput
      obtain rfl := Except.ok.inj hput
      obtain ⟨hwhole, hkeys⟩ := h.replaced hsearch v
      refine ⟨hwhole, iff_of_true ?_ fun hnone => by cases hnone⟩
      exact lenExact_of_kept h hwhole hexact hkeys rfl
  | none =>
      rw [hsearch] at hput
      obtain ⟨grown, hgrown, hput⟩ := Except.bind_eq_ok.mp hput
      obtain ⟨pos, hpos, hput⟩ := Except.bind_eq_ok.mp hput
      obtain ⟨counted, hcounted, hput⟩ := Except.bind_eq_ok.mp hput
      obtain rfl := Except.ok.inj hput
      obtain ⟨hlen, rfl⟩ := position_eq_ok hpos
      obtain rfl := incrementCount_eq hcounted
      obtain ⟨hgrownWhole, hgrownKeys, hgrownCount⟩ := growForPut_len h hgrown hlen
      obtain ⟨hwhole, hkeys⟩ := prepend_len hgrownWhole (Nat.mod_lt (hash k) hlen) k v
      have hadded := lenExact_added_iff h hwhole hexact (hkeys.trans (hgrownKeys.cons k))
        (congrArg (· + 1) hgrownCount)
      exact ⟨hwhole, hadded.trans ⟨fun hnew _ => hnew, fun hnew => hnew rfl⟩⟩

omit [EquivBEq K] in
theorem remove_len (h : m.Whole hash) (hexact : m.LenExact) (hremove : m.remove hash k = .ok r) :
    r.2.Whole hash ∧ (r.2.LenExact ↔ m.Misses hash k) := by
  unfold remove at hremove
  rw [position_eq _ h.len_pos, Except.ok_bind] at hremove
  unfold Misses
  cases hsearch : search (hash k) k (m.nodes (hash k % m.len)) with
  | some found =>
      rw [hsearch] at hremove
      obtain rfl := Except.ok.inj hremove
      obtain ⟨hwhole, hkeys⟩ := h.taken hsearch
      exact ⟨hwhole, iff_of_false (not_lenExact_of_taken h hwhole hexact hkeys rfl) (by simp)⟩
  | none =>
      rw [hsearch] at hremove
      obtain rfl := Except.ok.inj hremove
      exact ⟨h, iff_of_true hexact rfl⟩

theorem getMut_len {f : V → V} (h : m.Whole hash) (hexact : m.LenExact)
    (hget : m.getMut hash k f = .ok r) : r.2.Whole hash ∧ r.2.LenExact := by
  unfold getMut at hget
  rw [position_eq _ h.len_pos, Except.ok_bind] at hget
  cases hsearch : search (hash k) k (m.nodes (hash k % m.len)) with
  | some found =>
      obtain ⟨v, hv⟩ := h.value hsearch
      simp only [hsearch, hv, Option.map_some] at hget
      obtain rfl := Except.ok.inj hget
      obtain ⟨hwhole, hkeys⟩ := h.replaced hsearch (f v)
      exact ⟨hwhole, lenExact_of_kept h hwhole hexact hkeys rfl⟩
  | none =>
      rw [hsearch] at hget
      obtain rfl := Except.ok.inj hget
      exact ⟨h, hexact⟩

theorem occupied_len (hhash : ∀ a b : K, (a == b) = true → hash a = hash b) (h : m.Whole hash)
    (hexact : m.LenExact)
    (hsearch : search (hash k) k (m.nodes (hash k % m.len)) = some (before, node, after))
    {call : OccupiedCall V} {r : V × HashMap K V}
    (hcall : m.occupied hash (hash k % m.len) before node after call = .ok r) :
    r.2.Whole hash ∧ (r.2.LenExact ↔ ¬call.Removes) := by
  obtain ⟨old, hvalue⟩ := h.value hsearch
  cases call with
  | get =>
      simp only [occupied, unwrap, hvalue] at hcall
      obtain rfl := Except.ok.inj hcall
      exact ⟨h, iff_of_true hexact id⟩
  | getMut g =>
      simp only [occupied, unwrap, hvalue] at hcall
      obtain rfl := Except.ok.inj hcall
      obtain ⟨hwhole, hkeys⟩ := h.replaced hsearch (g old)
      exact ⟨hwhole, iff_of_true (lenExact_of_kept h hwhole hexact hkeys rfl) id⟩
  | insert value =>
      simp only [occupied, unwrap, hvalue] at hcall
      obtain rfl := Except.ok.inj hcall
      obtain ⟨hwhole, hkeys⟩ := h.replaced hsearch value
      exact ⟨hwhole, iff_of_true (lenExact_of_kept h hwhole hexact hkeys rfl) id⟩
  | remove =>
      rw [occupied_remove_eq hhash h.len_pos hsearch hvalue] at hcall
      obtain rfl := Except.ok.inj hcall
      obtain ⟨hwhole, hkeys⟩ := h.taken hsearch
      refine ⟨hwhole, iff_of_false (not_lenExact_of_taken h hwhole hexact hkeys rfl) fun hnot => ?_⟩
      exact hnot trivial

theorem vacantInsert_len (h : m.Whole hash) (hexact : m.LenExact)
    (hinsert : m.vacantInsert hash (hash k) k v = .ok m') :
    m'.Whole hash ∧ (m'.LenExact ↔ ¬m.Stored k) := by
  obtain ⟨_, hlt, hinsert⟩ := Except.bind_eq_ok.mp hinsert
  obtain ⟨counted, hcounted, hinsert⟩ := Except.bind_eq_ok.mp hinsert
  obtain rfl := incrementCount_eq hcounted
  have hlt := Except.ensure_eq_ok.mp hlt
  obtain ⟨hwhole, hkeys⟩ := prepend_len h hlt k v
  split at hinsert
  · have hmem : nodeOf hash (k, v) ∈ entries m.len (m.prepend _ (hash k) k v).nodes :=
      (Buckets.entries_cons_perm m.nodes hlt _).mem_iff.mpr List.mem_cons_self
    obtain ⟨hgrown, hgrownKeys, hgrownCount⟩ :=
      resize_len hwhole (newArrayLen_pos hinsert hmem) hinsert
    exact ⟨hgrown, lenExact_added_iff h hgrown hexact (hgrownKeys.trans hkeys) hgrownCount⟩
  · obtain rfl := Except.ok.inj hinsert
    exact ⟨hwhole, lenExact_added_iff h hwhole hexact hkeys rfl⟩

theorem entry_len (hhash : ∀ a b : K, (a == b) = true → hash a = hash b) (h : m.Whole hash)
    (hexact : m.LenExact) {vacant : Option V} {call : OccupiedCall V}
    (hentry : m.entry hash k vacant call = .ok r) :
    r.2.Whole hash ∧ (r.2.LenExact ↔ (m.Misses hash k → vacant ≠ none → ¬m.Stored k) ∧
      (call.Removes → m.Misses hash k)) := by
  unfold entry at hentry
  rw [position_eq _ h.len_pos, Except.ok_bind] at hentry
  unfold Misses
  cases hsearch : search (hash k) k (m.nodes (hash k % m.len)) with
  | some found =>
      rw [hsearch] at hentry
      obtain ⟨answer, hcall, hr⟩ := Except.bind_eq_ok.mp hentry
      obtain rfl := Except.pure_eq_ok.mp hr
      obtain ⟨hwhole, hlen⟩ := occupied_len hhash h hexact hsearch hcall
      exact ⟨hwhole, hlen.trans (by simp)⟩
  | none =>
      rw [hsearch] at hentry
      cases vacant with
      | none =>
          obtain rfl := Except.ok.inj hentry
          exact ⟨h, iff_of_true hexact (by simp)⟩
      | some value =>
          obtain ⟨inserted, hinsert, hr⟩ := Except.bind_eq_ok.mp hentry
          obtain rfl := Except.pure_eq_ok.mp hr
          obtain ⟨hwhole, hlen⟩ := vacantInsert_len h hexact hinsert
          exact ⟨hwhole, hlen.trans (by simp)⟩

end Calls

end HashMap

namespace HashMapRun

open HashMap (iter)

variable {K V : Type} [BEq K] {hash : K → Nat} {s t : HashMapRun K V} {c : HashMapCall K V}

-- What is removed is not found, and what is inserted because it is not found is not stored.
def Counts (hash : K → Nat) (s : HashMapRun K V) : HashMapCall K V → Prop
  | .put key _ => s.map.Misses hash key → ¬s.map.Stored key
  | .remove key => s.map.Misses hash key
  | .entry key vacant call =>
      (s.map.Misses hash key → vacant ≠ none → ¬s.map.Stored key) ∧
        (call.Removes → s.map.Misses hash key)
  | .get _ | .getMut _ _ => True

theorem step_len [EquivBEq K] (hhash : ∀ a b : K, (a == b) = true → hash a = hash b)
    (h : s.map.Whole hash) (hexact : s.map.LenExact) (hstep : s.step hash c = some t) :
    t.map.Whole hash ∧ (t.map.LenExact ↔ s.Counts hash c) := by
  obtain ⟨r, hr, ht⟩ := Option.bind_eq_some_iff.mp hstep
  obtain rfl := Option.some.inj ht
  have hperform := Except.toOption_eq_some.mp hr
  cases c with
  | put key value => exact HashMap.put_len h hexact hperform
  | get key =>
      obtain ⟨answer, hanswer⟩ : ∃ answer, r = (answer, s.map) := by
        simp only [HashMapCall.perform] at hperform
        cases hget : s.map.get hash key with
        | error e =>
            rw [hget] at hperform
            cases hperform
        | ok answer =>
            rw [hget] at hperform
            exact ⟨answer, (Except.ok.inj hperform).symm⟩
      rw [hanswer]
      exact ⟨h, iff_of_true hexact trivial⟩
  | getMut key f =>
      obtain ⟨hwhole, hlen⟩ := HashMap.getMut_len h hexact hperform
      exact ⟨hwhole, iff_of_true hlen trivial⟩
  | remove key => exact HashMap.remove_len h hexact hperform
  | entry key vacant call => exact HashMap.entry_len hhash h hexact hperform

theorem withCapacity_len {cap : Nat} {map : HashMap K V}
    (hnew : HashMap.withCapacity cap = .ok map) : map.Whole hash ∧ map.LenExact := by
  have hdenotes : map.Denotes hash fun _ => none := withCapacity_denotes hnew
  obtain ⟨_, _, hmap⟩ := Except.bind_eq_ok.mp hnew
  obtain rfl := Except.pure_eq_ok.mp hmap
  have hwhole : (⟨0, HashMap.newArrayLen _, fun _ => []⟩ : HashMap K V).Whole hash :=
    ⟨hdenotes.len_pos, by simp⟩
  refine ⟨hwhole, hwhole.lenExact_iff.mpr ?_⟩
  simp [HashMap.storedKeys]

-- `len` counts the keys as long as each call meets the condition; the first one that does
-- not makes it wrong, since `remove` never counts down.
theorem len_exact_iff [EquivBEq K] (hhash : ∀ a b : K, (a == b) = true → hash a = hash b)
    (hs : (hashMapMachine V hash).Via (Counts hash) s) :
    s.map.LenExact ∧ ∀ c t, (hashMapMachine V hash).step s c = some t →
      (t.map.LenExact ↔ s.Counts hash c) := by
  have h : s.map.Whole hash ∧ s.map.LenExact := by
    refine Machine.Via.invariant (P := fun s => s.map.Whole hash ∧ s.map.LenExact)
      (fun s hinit => ?_) (fun s c t h hcounts hstep => ?_) hs
    · obtain ⟨cap, map, hnew, rfl⟩ := hinit
      exact withCapacity_len hnew
    · obtain ⟨hwhole, hlen⟩ := step_len hhash h.1 h.2 hstep
      exact ⟨hwhole, hlen.mpr hcounts⟩
  exact ⟨h.2, fun c t hstep => (step_len hhash h.1 h.2 hstep).2⟩

instance (m : HashMap K V) (k : K) : Decidable (m.Stored k) :=
  inferInstanceAs (Decidable (∃ other ∈ m.storedKeys, _))

instance (hash : K → Nat) (m : HashMap K V) (k : K) : Decidable (m.Misses hash k) :=
  inferInstanceAs (Decidable (_ = none))

instance : (call : HashMap.OccupiedCall V) → Decidable call.Removes
  | .remove => inferInstanceAs (Decidable True)
  | .get | .getMut _ | .insert _ => inferInstanceAs (Decidable False)

instance (hash : K → Nat) (s : HashMapRun K V) :
    (c : HashMapCall K V) → Decidable (s.Counts hash c)
  | .put _ _ => inferInstanceAs (Decidable (_ → ¬_))
  | .remove _ => inferInstanceAs (Decidable (s.map.Misses hash _))
  | .entry _ _ _ => inferInstanceAs (Decidable ((_ → _ → ¬_) ∧ (_ → _)))
  | .get _ | .getMut _ _ => inferInstanceAs (Decidable True)

-- The table is filled, past a resize; then a key is removed that is not there, and one
-- that is.
theorem len_exact_iff_resized : ∃ s t u : HashMapRun Nat Nat,
    (hashMapMachine Nat id).Via (Counts id) s ∧ s.map.mapLen = 15 ∧ s.map.LenExact ∧
      (hashMapMachine Nat id).step s (.remove 40) = some t ∧ t.map.LenExact ∧
      (hashMapMachine Nat id).step s (.remove 17) = some u ∧ ¬u.map.LenExact := by
  have hrun : ((hashMapMachine Nat id).runVia (Counts id) (emptyRun 16)
      ([.put 1 10, .put 17 20, .entry 33 (some 30) .get, .entry 1 (some 3) (.insert 40),
        .getMut 17 (· + 1), .remove 2, .entry 34 none .remove] ++
        (List.range 12).map fun i => .put (3 * i + 4) i)).map
          (fun s => (s.map.mapLen, decide (s.Counts id (.remove 40)),
            decide (s.Counts id (.remove 17)),
            ((hashMapMachine Nat id).step s (.remove 40)).isSome,
            ((hashMapMachine Nat id).step s (.remove 17)).isSome)) =
      some (15, true, false, true, true) := by
    decide +kernel
  obtain ⟨s, hs, hvalues⟩ := Option.map_eq_some_iff.mp hrun
  simp only [Prod.mk.injEq, decide_eq_true_eq, decide_eq_false_iff_not, Option.isSome_iff_exists]
    at hvalues
  obtain ⟨hlen, hmissed, hfound, ⟨t, ht⟩, u, hu⟩ := hvalues
  have hinit : (hashMapMachine Nat id).init (emptyRun 16) := ⟨16, _, rfl, rfl⟩
  have hvia := Machine.via_of_runVia (Machine.Via.init hinit) hs
  obtain ⟨hexact, hnext⟩ := len_exact_iff (fun a b hkey => by simpa using hkey) hvia
  exact ⟨s, t, u, hvia, hlen, hexact, ht, (hnext _ t ht).mpr hmissed, hu,
    fun hexact' => hfound ((hnext _ u hu).mp hexact')⟩

-- One key is put into the table and taken out again.
theorem removed_key_counted : ∃ s : HashMapRun Nat Nat, (hashMapMachine Nat id).Reachable s ∧
    s.map.mapLen = 1 ∧ (∀ fuel > 0, s.map.collect fuel iter = .ok (some [])) ∧
      ¬s.map.LenExact := by
  have hrun : ((hashMapMachine Nat id).run (emptyRun 16) [.put 1 10, .remove 1]).map
      (fun s => (s.map.mapLen, s.map.remaining iter)) = some (1, []) := by
    decide +kernel
  obtain ⟨s, hs, hvalues⟩ := Option.map_eq_some_iff.mp hrun
  obtain ⟨hlen, hleft⟩ := Prod.mk.inj hvalues
  have hinit : (hashMapMachine Nat id).init (emptyRun 16) := ⟨16, _, rfl, rfl⟩
  have hnone : s.map.remaining iter = ([] : List (Nat × Nat)).map (HashMap.nodeOf id) := hleft
  have hcollect : ∀ fuel > 0, s.map.collect fuel iter = .ok (some []) :=
    fun fuel hfuel => HashMap.collect_ok hfuel hnone
  refine ⟨s, Machine.run_reachable (Machine.Via.init hinit) hs, hlen, hcollect, ?_⟩
  rintro ⟨pairs, _, hpairs, hcount⟩
  have hall := hpairs (pairs.length + 1) (by omega)
  rw [hcollect _ (by omega)] at hall
  obtain rfl := Option.some.inj (Except.ok.inj hall)
  rw [hlen] at hcount
  cases hcount

end HashMapRun

end Rsgc.System
