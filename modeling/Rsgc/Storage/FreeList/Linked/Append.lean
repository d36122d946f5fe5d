import Mathlib.Data.List.Pairwise
import Rsgc.Storage.FreeList.Linked.Consistent

namespace Rsgc.Storage

namespace LinkedFreeList

-- One round of the loop of `append`. Both lists lie in the same memory, which is
-- that of the first.
def spliceBucket (p : LinkedFreeList × LinkedFreeList) (index : Nat) :
    Except Panic (LinkedFreeList × LinkedFreeList) := do
  ensure (index < p.2.buckets) Panic.bucketOutOfBounds
  let otherTail := p.2.tails index
  let thisHead := p.1.heads index
  if otherTail = 0 then pure p
  else
    let linked := p.1.setNext otherTail thisHead
    pure ({ linked with
        tails := if thisHead = 0 then Function.update p.1.tails index otherTail else p.1.tails
        heads := Function.update p.1.heads index (p.2.heads index) },
      { p.2 with
        memory := linked.memory
        heads := Function.update p.2.heads index 0
        tails := Function.update p.2.tails index 0 })

-- Returns what the call leaves of both lists.
def append (l other : LinkedFreeList) : Except Panic (LinkedFreeList × LinkedFreeList) := do
  let p ← (List.range l.buckets).foldlM spliceBucket (l, other)
  pure ({ p.1 with
      count := p.1.count + p.2.count
      freeBytes := p.1.freeBytes + p.2.freeBytes
      biggest := max p.1.biggest p.2.biggest }, p.2)

end LinkedFreeList

namespace RawFreeList

variable {l other : RawFreeList} {k : Nat}

-- The first `k` buckets of `other` in front of those of `l`.
def splice (l other : RawFreeList) (k : Nat) : RawFreeList :=
  { l with
    heads := fun i => (if i < k then other.heads i else []) ++ l.heads i
    tails := fun i => (l.tails i).or (if i < k then other.tails i else none) }

-- Without its first `k` buckets.
def dropBelow (l : RawFreeList) (k : Nat) : RawFreeList :=
  { l with
    heads := fun i => if i < k then [] else l.heads i
    tails := fun i => if i < k then none else l.tails i }

def append (l other : RawFreeList) : RawFreeList :=
  { l.splice other l.buckets with
    count := l.count + other.count
    freeBytes := l.freeBytes + other.freeBytes
    biggest := max l.biggest other.biggest }

section Rounds

variable (l other : RawFreeList) (k : Nat)

theorem splice_succ_heads : (l.splice other (k + 1)).heads =
    Function.update (l.splice other k).heads k (other.heads k ++ l.heads k) := by
  funext i
  by_cases hi : i = k
  · subst hi
    simp [splice]
  · have hlt : i < k + 1 ↔ i < k := by omega
    simp only [splice, Function.update_of_ne hi, hlt]

theorem splice_succ_tails : (l.splice other (k + 1)).tails =
    Function.update (l.splice other k).tails k ((l.tails k).or (other.tails k)) := by
  funext i
  by_cases hi : i = k
  · subst hi
    simp [splice]
  · have hlt : i < k + 1 ↔ i < k := by omega
    simp only [splice, Function.update_of_ne hi, hlt]

theorem dropBelow_succ_heads :
    (l.dropBelow (k + 1)).heads = Function.update (l.dropBelow k).heads k [] := by
  funext i
  by_cases hi : i = k
  · subst hi
    simp [dropBelow]
  · have hlt : i < k + 1 ↔ i < k := by omega
    simp only [dropBelow, Function.update_of_ne hi, hlt]

theorem dropBelow_succ_tails :
    (l.dropBelow (k + 1)).tails = Function.update (l.dropBelow k).tails k none := by
  funext i
  by_cases hi : i = k
  · subst hi
    simp [dropBelow]
  · have hlt : i < k + 1 ↔ i < k := by omega
    simp only [dropBelow, Function.update_of_ne hi, hlt]

end Rounds

theorem mem_dropBelow {i : Nat} {e : Entry} (h : e ∈ (l.dropBelow k).heads i) : e ∈ l.heads i := by
  simp only [dropBelow] at h
  split at h
  · cases h
  · exact h

theorem mem_splice {i : Nat} {e : Entry} (h : e ∈ (l.splice other k).heads i) :
    e ∈ other.heads i ∨ e ∈ l.heads i := by
  rcases List.mem_append.mp h with h | h
  · split at h
    · exact Or.inl h
    · cases h
  · exact Or.inr h

theorem entries_splice_perm (hbuckets : l.buckets = other.buckets) (k : Nat) :
    ((l.splice other k).entries ++ (other.dropBelow k).entries).Perm
      (l.entries ++ other.entries) := by
  have hsplit : ∀ i, ((l.splice other k).heads i ++ (other.dropBelow k).heads i).Perm
      (l.heads i ++ other.heads i) := by
    intro i
    simp only [splice, dropBelow]
    by_cases hi : i < k
    · simp only [hi, if_true, List.append_nil]
      exact List.perm_append_comm
    · simp [hi]
  unfold entries
  change (List.flatMap _ (List.range l.buckets) ++ List.flatMap _ (List.range other.buckets)).Perm _
  rw [← hbuckets]
  have hjoined := List.flatMap_append_perm (List.range l.buckets) (l.splice other k).heads
    (other.dropBelow k).heads
  have hrounds := List.Perm.flatMap_left (List.range l.buckets) fun i _ => hsplit i
  exact hjoined.trans (hrounds.trans (List.flatMap_append_perm ..).symm)

theorem entries_dropBelow (hbuckets : l.buckets ≤ k) : (l.dropBelow k).entries = [] := by
  apply List.flatMap_eq_nil_iff.mpr
  intro i hi
  exact if_pos (Nat.lt_of_lt_of_le (List.mem_range.mp hi) hbuckets)

theorem entries_append_perm (hbuckets : l.buckets = other.buckets) :
    (l.append other).entries.Perm (l.entries ++ other.entries) := by
  have hperm := entries_splice_perm hbuckets l.buckets
  rw [entries_dropBelow hbuckets.ge, List.append_nil] at hperm
  exact hperm

theorem Valid.heads_eq_nil (hvalid : l.Valid) {i : Nat} (hi : l.buckets ≤ i) : l.heads i = [] := by
  apply List.eq_nil_iff_forall_not_mem.mpr
  intro e he
  exact Nat.not_lt.mpr hi (hvalid.bucket i e he).1

theorem append_heads (ho : other.Valid) (hbuckets : l.buckets = other.buckets) (i : Nat) :
    (l.append other).heads i = other.heads i ++ l.heads i := by
  simp only [append, splice]
  by_cases hi : i < l.buckets
  · rw [if_pos hi]
  · rw [if_neg hi, ho.heads_eq_nil (by omega)]

theorem append_valid (hl : l.Valid) (ho : other.Valid) (hbuckets : l.buckets = other.buckets) :
    (l.append other).Valid where
  buckets_le := hl.buckets_le
  sum_le := by
    have hperm := (entries_append_perm hbuckets).map Entry.size
    rw [hperm.sum_eq, List.map_append, List.sum_append]
    exact Nat.add_le_add hl.sum_le ho.sum_le
  count_eq := by
    rw [(entries_append_perm hbuckets).length_eq, List.length_append, ← hl.count_eq, ← ho.count_eq]
    rfl
  bucket := by
    intro i e he
    rw [append_heads ho hbuckets] at he
    rcases List.mem_append.mp he with he | he
    · obtain ⟨hlt, hindex⟩ := ho.bucket i e he
      exact ⟨hbuckets ▸ hlt, hindex⟩
    · exact hl.bucket i e he
  above := by
    intro i hi
    obtain ⟨hfirst, hsecond⟩ := max_lt_iff.mp hi
    rw [append_heads ho hbuckets, hl.above i hfirst, ho.above i hsecond, List.append_nil]
  tails_eq := by
    intro i
    rw [append_heads ho hbuckets, List.getLast?_append]
    simp only [append, splice, hl.tails_eq i]
    by_cases hi : i < l.buckets
    · rw [if_pos hi, ho.tails_eq i]
      cases (l.heads i).getLast? with
      | none => simp
      | some e => simp
    · rw [if_neg hi, ho.heads_eq_nil (i := i) (by omega)]
      cases (l.heads i).getLast? with
      | none => simp
      | some e => simp

end RawFreeList

namespace Entry

variable {m : Memory} {e e' : Entry}

-- A link that is written into an entry leaves it stored, and every other one.
theorem Stored.setNext (h : e'.Stored m) (hsize : 16 ≤ e.size) (value : Nat)
    (hcase : e' = e ∨ e'.Apart e) : e'.Stored (m.writeLE (e.addr + 8) 8 value) := by
  apply h.congr
  intro a hlow hhigh hlink
  apply Memory.writeLE_of_not
  rcases hcase with rfl | hapart
  · omega
  · unfold Entry.Apart at hapart
    omega

theorem Apart.next_eq (hapart : e'.Apart e) (hsize : 16 ≤ e.size) (hsize' : 16 ≤ e'.size)
    (value : Nat) : (m.writeLE (e.addr + 8) 8 value).readLE (e'.addr + 8) 8 =
      m.readLE (e'.addr + 8) 8 := by
  apply Memory.readLE_congr
  intro a hlow hhigh
  unfold Entry.Apart at hapart
  exact Memory.writeLE_of_not _ _ (by omega)

instance : Std.Symm Entry.Apart := ⟨fun _ _ h => h.symm⟩

end Entry

namespace LinkedFreeList

variable {a b : LinkedFreeList} {l other : RawFreeList} {k : Nat}
  {p : LinkedFreeList × LinkedFreeList}

-- After `k` rounds of the loop.
structure Spliced (l other : RawFreeList) (k : Nat) (p : LinkedFreeList × LinkedFreeList) :
    Prop where
  memory_eq : p.2.memory = p.1.memory
  first : p.1.Represents (l.splice other k)
  second : p.2.Represents (other.dropBelow k)

-- The two lists may be joined.
structure Joinable (l other : RawFreeList) : Prop where
  valid : l.Valid
  other_valid : other.Valid
  buckets_eq : l.buckets = other.buckets
  apart : (l.entries ++ other.entries).Pairwise Entry.Apart

-- Where the last entry of bucket `k` of `other` lies, and where the others do not.
structure LastApart (l other : RawFreeList) (k : Nat) (init : List Entry) (e : Entry) : Prop where
  size_ge : 16 ≤ e.size
  first : ∀ i, ∀ e' ∈ l.heads i, e'.Apart e
  second : ∀ i, i ≠ k → ∀ e' ∈ other.heads i, e'.Apart e
  init : ∀ e' ∈ init, e'.Apart e

theorem Joinable.last_apart (h : Joinable l other) {init : List Entry} {e : Entry}
    (hlast : other.heads k = init ++ [e]) : LastApart l other k init e := by
  obtain ⟨_, hother, hcross⟩ := List.pairwise_append.mp h.apart
  have hmem : e ∈ other.heads k := by simp [hlast]
  have hin : e ∈ other.entries := (RawFreeList.mem_entries_iff h.other_valid e).mpr ⟨k, hmem⟩
  obtain ⟨hlt, hindex, hsize⟩ := h.other_valid.bucket k e hmem
  refine ⟨hsize, fun i e' he' => ?_, fun i hi e' he' => ?_, fun e' he' => ?_⟩
  · exact hcross e' ((RawFreeList.mem_entries_iff h.valid e').mpr ⟨i, he'⟩) e hin
  · have hin' := (RawFreeList.mem_entries_iff h.other_valid e').mpr ⟨i, he'⟩
    refine hother.forall hin' hin fun heq => hi ?_
    rw [← (h.other_valid.bucket i e' he').2.1, heq, hindex]
  · have hsub : (other.heads k).Sublist other.entries :=
      List.sublist_flatten_of_mem (List.mem_map_of_mem (List.mem_range.mpr hlt))
    have hbucket := hother.sublist hsub
    rw [hlast] at hbucket
    exact (List.pairwise_append.mp hbucket).2.2 e' he' e (List.mem_singleton_self e)

-- A round for a bucket that is empty in `other` changes nothing.
theorem splice_succ_of_nil (ho : other.Valid) (hnil : other.heads k = []) :
    l.splice other (k + 1) = l.splice other k ∧ other.dropBelow (k + 1) = other.dropBelow k := by
  have hnone : other.tails k = none := by simp [ho.tails_eq, hnil]
  have hheads := RawFreeList.splice_succ_heads l other k
  have htails := RawFreeList.splice_succ_tails l other k
  have hdrop := RawFreeList.dropBelow_succ_heads other k
  have hdrop' := RawFreeList.dropBelow_succ_tails other k
  rw [Function.update_eq_self_iff.mpr (by simp [RawFreeList.splice, hnil])] at hheads
  rw [Function.update_eq_self_iff.mpr (by simp [RawFreeList.splice, hnone])] at htails
  rw [Function.update_eq_self_iff.mpr (by simp [RawFreeList.dropBelow, hnil])] at hdrop
  rw [Function.update_eq_self_iff.mpr (by simp [RawFreeList.dropBelow, hnone])] at hdrop'
  constructor
  · unfold RawFreeList.splice
    congr 1
  · unfold RawFreeList.dropBelow
    congr 1

-- The two lists in the memory after the link of `e` was written.
theorem Represents.receive {s t : LinkedFreeList} {init : List Entry} {e : Entry}
    (hs : s.Represents (l.splice other k)) (ht : t.Represents (other.dropBelow k))
    (hmem : t.memory = s.memory) (hjoin : Joinable l other) (hlast : other.heads k = init ++ [e])
    (hall : (l.splice other (k + 1)).entries.Pairwise Entry.Apart) :
    ({ s.setNext e.addr (s.heads k) with
        tails := if s.heads k = 0 then Function.update s.tails k e.addr else s.tails
        heads := Function.update s.heads k (t.heads k) } : LinkedFreeList).Represents
      (l.splice other (k + 1)) := by
  have haway := hjoin.last_apart hlast
  have hown := hs.chain k
  have hmoved := ht.chain k
  have hstored := ht.stored k
  have hnext : t.next = s.next := by
    funext a
    unfold next
    rw [hmem]
  simp only [RawFreeList.splice, RawFreeList.dropBelow, Nat.lt_irrefl, if_false,
    List.nil_append] at hown hmoved hstored
  rw [hnext] at hmoved
  rw [hmem] at hstored
  have hlink : ∀ e' : Entry, e'.Apart e → 16 ≤ e'.size →
      (s.memory.writeLE (e.addr + 8) 8 (s.heads k)).readLE (e'.addr + 8) 8 = s.next e'.addr :=
    fun e' hapart hsize => hapart.next_eq haway.size_ge hsize (s.heads k)
  refine ⟨hs.buckets_eq, hs.biggest_eq, hs.count_eq, hs.free_eq, fun i => ?_, fun i => ?_,
    fun i e' he' => ?_, hall⟩
  · rw [RawFreeList.splice_succ_heads]
    by_cases hi : i = k
    · subst hi
      rw [hlast, List.map_append] at hmoved
      simp only [Function.update_self, hlast, List.map_append]
      refine Segment.join hmoved hown ?_ (fun a ha => ?_) (fun a ha => ?_)
      · refine (Memory.readLE_writeLE _ _ _ (Nat.le_refl 8)).trans ?_
        exact Nat.mod_eq_of_lt (hs.head_lt i)
      · obtain ⟨e', he', rfl⟩ := List.mem_map.mp ha
        exact hlink e' (haway.init e' he') (hstored e' (by simp [hlast, he'])).size_ge
      · obtain ⟨e', he', rfl⟩ := List.mem_map.mp ha
        exact hlink e' (haway.first i e' he') (hjoin.valid.bucket i e' he').2.2
    · simp only [Function.update_of_ne hi]
      refine Segment.congr (fun a ha => ?_) (hs.chain i)
      obtain ⟨e', he', rfl⟩ := List.mem_map.mp ha
      refine hlink e' ?_ (hs.stored i e' he').size_ge
      rcases RawFreeList.mem_splice he' with hin | hin
      · exact haway.second i hi e' hin
      · exact haway.first i e' hin
  · have hempty := hs.head_eq_zero k
    have htail := hs.tail i
    simp only [RawFreeList.splice, Nat.lt_irrefl, if_false, List.nil_append] at hempty
    rw [RawFreeList.splice_succ_tails, hjoin.valid.tails_eq, hjoin.other_valid.tails_eq, hlast]
    by_cases hnil : l.heads k = []
    · simp only [hempty.mpr hnil, hnil, if_true]
      by_cases hi : i = k
      · subst hi
        simp
      · simp only [Function.update_of_ne hi]
        exact htail
    · have hsome : (l.splice other k).tails k = (l.heads k).getLast?.map Entry.addr := by
        simp [RawFreeList.splice, hjoin.valid.tails_eq]
      obtain ⟨last, hlast'⟩ := List.getLast?_isSome.mpr hnil |> Option.isSome_iff_exists.mp
      simp only [if_neg (fun hz => hnil (hempty.mp hz)), hlast', Option.map_some, Option.some_or]
      rw [Function.update_eq_self_iff.mpr (by rw [hsome, hlast']; rfl)]
      exact htail
  · rw [RawFreeList.splice_succ_heads] at he'
    by_cases hi : i = k
    · subst hi
      rw [Function.update_self] at he'
      rcases List.mem_append.mp he' with hin | hin
      · refine (hstored e' hin).setNext haway.size_ge _ ?_
        rw [hlast] at hin
        rcases List.mem_append.mp hin with hin | hin
        · exact Or.inr (haway.init e' hin)
        · exact Or.inl (List.mem_singleton.mp hin)
      · have hkept := hs.stored i e' (List.mem_append_right _ hin)
        exact hkept.setNext haway.size_ge _ (Or.inr (haway.first i e' hin))
    · rw [Function.update_of_ne hi] at he'
      refine (hs.stored i e' he').setNext haway.size_ge _ (Or.inr ?_)
      rcases RawFreeList.mem_splice he' with hin | hin
      · exact haway.second i hi e' hin
      · exact haway.first i e' hin

theorem Represents.release {t : LinkedFreeList} {m : Memory} {init : List Entry} {e : Entry}
    (value : Nat) (ht : t.Represents (other.dropBelow k)) (hmem : t.memory = m)
    (haway : LastApart l other k init e)
    (hall : (other.dropBelow (k + 1)).entries.Pairwise Entry.Apart) :
    ({ t with
        memory := m.writeLE (e.addr + 8) 8 value
        heads := Function.update t.heads k 0
        tails := Function.update t.tails k 0 } : LinkedFreeList).Represents
      (other.dropBelow (k + 1)) where
  buckets_eq := ht.buckets_eq
  biggest_eq := ht.biggest_eq
  count_eq := ht.count_eq
  free_eq := ht.free_eq
  chain := by
    intro i
    rw [RawFreeList.dropBelow_succ_heads]
    by_cases hi : i = k
    · subst hi
      simp only [Function.update_self, List.map_nil]
      rfl
    · simp only [Function.update_of_ne hi]
      refine Segment.congr (fun a ha => ?_) (ht.chain i)
      obtain ⟨e', he', rfl⟩ := List.mem_map.mp ha
      have hin := RawFreeList.mem_dropBelow he'
      have hlink := (haway.second i hi e' hin).next_eq (m := m) haway.size_ge
        (ht.stored i e' he').size_ge value
      rw [← hmem] at hlink ⊢
      exact hlink
  tail := by
    intro i
    rw [RawFreeList.dropBelow_succ_tails]
    by_cases hi : i = k
    · subst hi
      simp only [Function.update_self, Option.getD_none]
    · simp only [Function.update_of_ne hi]
      exact ht.tail i
  stored := by
    intro i e' he'
    rw [RawFreeList.dropBelow_succ_heads] at he'
    by_cases hi : i = k
    · subst hi
      rw [Function.update_self] at he'
      cases he'
    · rw [Function.update_of_ne hi] at he'
      have hapart := haway.second i hi e' (RawFreeList.mem_dropBelow he')
      have hstored := ht.stored i e' he'
      rw [hmem] at hstored
      exact hstored.setNext haway.size_ge value (Or.inr hapart)
  apart := hall

-- The round for a bucket whose last entry in `other` is `e`.
theorem Spliced.link {init : List Entry} {e : Entry} (h : Spliced l other k p)
    (hjoin : Joinable l other) (hlast : other.heads k = init ++ [e]) :
    ∃ q, spliceBucket p k = .ok q ∧ Spliced l other (k + 1) q := by
  have hmem : e ∈ other.heads k := by simp [hlast]
  have hk : k < other.buckets := (hjoin.other_valid.bucket k e hmem).1
  have haway := hjoin.last_apart hlast
  have hstored : e.Stored p.2.memory := h.second.stored k e (by simp [RawFreeList.dropBelow, hmem])
  have hpos := hstored.addr_pos
  have htail : p.2.tails k = e.addr := by
    rw [h.second.tail]
    simp [RawFreeList.dropBelow, hjoin.other_valid.tails_eq, hlast]
  have hbuckets : k < p.2.buckets := by
    rw [h.second.buckets_eq]
    exact hk
  have hrun : spliceBucket p k = .ok
      ({ p.1.setNext e.addr (p.1.heads k) with
          tails := if p.1.heads k = 0 then Function.update p.1.tails k e.addr else p.1.tails
          heads := Function.update p.1.heads k (p.2.heads k) },
        { p.2 with
          memory := p.1.memory.writeLE (e.addr + 8) 8 (p.1.heads k)
          heads := Function.update p.2.heads k 0
          tails := Function.update p.2.tails k 0 }) := by
    unfold spliceBucket
    rw [ensure_bind hbuckets]
    simp only [htail, hpos.ne', if_false]
    rfl
  have hpermuted := RawFreeList.entries_splice_perm hjoin.buckets_eq (k + 1)
  have hall := hpermuted.symm.pairwise hjoin.apart fun hab => hab.symm
  obtain ⟨hfirst, hsecond, _⟩ := List.pairwise_append.mp hall
  refine ⟨_, hrun, rfl, h.first.receive h.second h.memory_eq hjoin hlast hfirst, ?_⟩
  exact h.second.release _ h.memory_eq haway hsecond

theorem Spliced.round (h : Spliced l other k p) (hjoin : Joinable l other) (hk : k < l.buckets) :
    ∃ q, spliceBucket p k = .ok q ∧ Spliced l other (k + 1) q := by
  rcases List.eq_nil_or_concat' (other.heads k) with hnil | ⟨init, e, hlast⟩
  · obtain ⟨hfirst, hsecond⟩ := splice_succ_of_nil (l := l) hjoin.other_valid hnil
    have htail : p.2.tails k = 0 := by
      rw [h.second.tail]
      simp [RawFreeList.dropBelow, hjoin.other_valid.tails_eq, hnil]
    have hbuckets : k < p.2.buckets := by
      rw [h.second.buckets_eq]
      exact hjoin.buckets_eq ▸ hk
    refine ⟨p, ?_, h.memory_eq, hfirst ▸ h.first, hsecond ▸ h.second⟩
    unfold spliceBucket
    rw [ensure_bind hbuckets]
    simp only [htail, if_true]
    rfl
  · exact h.link hjoin hlast

theorem Spliced.start (ha : a.Represents l) (hb : b.Represents other)
    (hmem : b.memory = a.memory) : Spliced l other 0 (a, b) := by
  have hfirst : l.splice other 0 = l := by simp [RawFreeList.splice]
  have hsecond : other.dropBelow 0 = other := by simp [RawFreeList.dropBelow]
  exact ⟨hmem, hfirst.symm ▸ ha, hsecond.symm ▸ hb⟩

theorem foldlM_spliced (hjoin : Joinable l other) (hstart : Spliced l other 0 p)
    (hk : k ≤ l.buckets) :
    ∃ q, (List.range k).foldlM spliceBucket p = .ok q ∧ Spliced l other k q := by
  induction k with
  | zero => exact ⟨p, rfl, hstart⟩
  | succ k ih =>
      obtain ⟨q, hq, hspliced⟩ := ih (by omega)
      obtain ⟨r, hr, hnext⟩ := hspliced.round hjoin (by omega)
      refine ⟨r, ?_, hnext⟩
      rw [List.range_succ, List.foldlM_append, hq, Except.ok_bind, List.foldlM_cons, hr]
      rfl

theorem append_represents (ha : a.Represents l) (hb : b.Represents other)
    (hmem : b.memory = a.memory) (hjoin : Joinable l other) :
    ∃ a' b', a.append b = .ok (a', b') ∧ b'.memory = a'.memory ∧
      a'.Represents (l.append other) ∧ b'.Represents (other.dropBelow other.buckets) := by
  obtain ⟨q, hq, h⟩ := foldlM_spliced hjoin (Spliced.start ha hb hmem) (Nat.le_refl l.buckets)
  have hfirst := h.first
  have hsecond := h.second
  have hentries : (l.append other).entries.Pairwise Entry.Apart := hfirst.apart
  have hcount : q.1.count + q.2.count = l.count + other.count := by
    rw [hfirst.count_eq, hsecond.count_eq]
    rfl
  have hfree : q.1.freeBytes + q.2.freeBytes = l.freeBytes + other.freeBytes := by
    rw [hfirst.free_eq, hsecond.free_eq]
    rfl
  have hbiggest : max q.1.biggest q.2.biggest = max l.biggest other.biggest := by
    rw [hfirst.biggest_eq, hsecond.biggest_eq]
    rfl
  rw [hjoin.buckets_eq] at hsecond
  refine ⟨{ q.1 with
      count := q.1.count + q.2.count
      freeBytes := q.1.freeBytes + q.2.freeBytes
      biggest := max q.1.biggest q.2.biggest }, q.2, ?_, h.memory_eq, ⟨hfirst.buckets_eq, hbiggest,
    hcount, hfree, hfirst.chain, hfirst.tail, hfirst.stored, hentries⟩, hsecond⟩
  unfold append
  rw [ha.buckets_eq, hq]
  rfl

-- The representation invariant of a list in memory: the heads and tails are
-- those of the chains, each entry is in the bucket of its size, the cached
-- index is not too low, and the counters are exact.
def Sound (s : LinkedFreeList) : Prop :=
  ∃ l : RawFreeList, s.Represents l ∧ l.Valid ∧ (l.entries.map Entry.size).sum = l.freeBytes

-- What `append` is to leave of the two lists.
structure Appended (a b a' b' : LinkedFreeList) : Prop where
  memory_eq : b'.memory = a'.memory
  sound : a'.Sound
  entries_perm : a'.entries.Perm (a.entries ++ b.entries)
  other_sound : b'.Sound
  other_entries : b'.entries = []
  other_count : b'.count = 0
  other_free : b'.freeBytes = 0

theorem entries_eq_nil (h : ∀ i, a.heads i = 0) : a.entries = [] := by
  apply List.flatMap_eq_nil_iff.mpr
  intro i _
  unfold bucket
  rw [h i]
  cases a.count with
  | zero => rfl
  | succ fuel => rfl

theorem dropped_heads (ho : other.Valid) (i : Nat) :
    (other.dropBelow other.buckets).heads i = [] := by
  simp only [RawFreeList.dropBelow]
  by_cases hi : i < other.buckets
  · rw [if_pos hi]
  · rw [if_neg hi, ho.heads_eq_nil (by omega)]

theorem dropped_valid (ho : other.Valid) (hcount : other.count = 0) :
    (other.dropBelow other.buckets).Valid := by
  have hnil := RawFreeList.entries_dropBelow (l := other) (Nat.le_refl other.buckets)
  refine ⟨ho.buckets_le, by simp [hnil], ?_, fun i e he => ?_, fun i _ => dropped_heads ho i,
    fun i => ?_⟩
  · rw [hnil]
    exact hcount
  · rw [dropped_heads ho] at he
    cases he
  · rw [dropped_heads ho]
    simp only [RawFreeList.dropBelow, ho.tails_eq]
    by_cases hi : i < other.buckets
    · simp [hi]
    · simp [hi, ho.heads_eq_nil (i := i) (by omega)]

-- What a call does in any case. The second list still counts what it had.
theorem append_sound (ha : a.Sound) (hb : b.Sound) (hmem : b.memory = a.memory)
    (hbuckets : a.buckets = b.buckets) (hapart : ∀ e ∈ a.entries, ∀ e' ∈ b.entries, e.Apart e') :
    ∃ a' b', a.append b = .ok (a', b') ∧ b'.memory = a'.memory ∧ a'.Sound ∧
      a'.entries.Perm (a.entries ++ b.entries) ∧ b'.entries = [] ∧ b'.count = b.count ∧
      b'.freeBytes = b.freeBytes ∧ (b.count = 0 → b'.Sound ∧ b'.freeBytes = 0) := by
  obtain ⟨l, hl, hvalid, hsum⟩ := ha
  obtain ⟨other, ho, hvalid', hsum'⟩ := hb
  have hentries := hl.entries_eq hvalid
  have hentries' := ho.entries_eq hvalid'
  have hjoin : Joinable l other := by
    refine ⟨hvalid, hvalid', ?_, List.pairwise_append.mpr ⟨hl.apart, ho.apart, ?_⟩⟩
    · rw [← hl.buckets_eq, ← ho.buckets_eq, hbuckets]
    · rw [← hentries, ← hentries']
      exact hapart
  obtain ⟨a', b', hrun, hmem', hrep, hrep'⟩ := append_represents hl ho hmem hjoin
  have hvalidAppend := RawFreeList.append_valid hvalid hvalid' hjoin.buckets_eq
  have hperm := RawFreeList.entries_append_perm hjoin.buckets_eq
  have hsound : a'.Sound := by
    refine ⟨l.append other, hrep, hvalidAppend, ?_⟩
    rw [(hperm.map Entry.size).sum_eq, List.map_append, List.sum_append, hsum, hsum']
    rfl
  have hunion : a'.entries.Perm (a.entries ++ b.entries) := by
    rw [hrep.entries_eq hvalidAppend, hentries, hentries']
    exact hperm
  have hempty : b'.entries = [] :=
    entries_eq_nil fun i => (hrep'.head_eq_zero i).mpr (dropped_heads hvalid' i)
  have hcount : b'.count = b.count := hrep'.count_eq.trans ho.count_eq.symm
  have hfree : b'.freeBytes = b.freeBytes := hrep'.free_eq.trans ho.free_eq.symm
  refine ⟨a', b', hrun, hmem', hsound, hunion, hempty, hcount, hfree, fun hzero => ?_⟩
  have hzero' : other.count = 0 := ho.count_eq.symm.trans hzero
  have hnil : other.entries = [] := List.eq_nil_of_length_eq_zero (hvalid'.count_eq.symm.trans hzero')
  have hfree' : other.freeBytes = 0 := by rw [← hsum', hnil, List.map_nil, List.sum_nil]
  refine ⟨⟨_, hrep', dropped_valid hvalid' hzero', ?_⟩, (hfree.trans ho.free_eq).trans hfree'⟩
  rw [RawFreeList.entries_dropBelow (Nat.le_refl other.buckets)]
  exact hfree'.symm

theorem Sound.count_eq (ha : a.Sound) : a.count = a.entries.length := by
  obtain ⟨l, hl, hvalid, _⟩ := ha
  rw [hl.count_eq, hl.entries_eq hvalid, hvalid.count_eq]

-- The first list gets all entries in any case, and none is linked from the second
-- one; the second one is an empty list again only if it was one before.
theorem append_exact_iff (ha : a.Sound) (hb : b.Sound) (hmem : b.memory = a.memory)
    (hbuckets : a.buckets = b.buckets) (hapart : ∀ e ∈ a.entries, ∀ e' ∈ b.entries, e.Apart e') :
    ∃ a' b', a.append b = .ok (a', b') ∧ a'.Sound ∧
      a'.entries.Perm (a.entries ++ b.entries) ∧ b'.entries = [] ∧
      (Appended a b a' b' ↔ b.entries = []) := by
  obtain ⟨a', b', hrun, hmem', hsound, hunion, hempty, hcount, _, hreset⟩ :=
    append_sound ha hb hmem hbuckets hapart
  refine ⟨a', b', hrun, hsound, hunion, hempty, fun h => ?_, fun hnil => ?_⟩
  · apply List.eq_nil_of_length_eq_zero
    rw [← hb.count_eq, ← hcount]
    exact h.other_count
  · have hzero : b.count = 0 := by rw [hb.count_eq, hnil, List.length_nil]
    obtain ⟨hsound', hfree⟩ := hreset hzero
    exact ⟨hmem', hsound, hunion, hsound', hempty, hcount.trans hzero, hfree⟩

theorem sound_of_via {opts : HeapOptions} (hsize : opts.regionSizeBytes = 2 ^ opts.regionSizeLog2)
    (hlog : opts.regionSizeLog2 < 64) (ha : (freeListMachine opts).Via Narrow a) : a.Sound := by
  obtain ⟨l, hl, hexact⟩ := represents_of_via hsize hlog ha
  exact ⟨l, hl, hexact.valid, hexact.sum_eq⟩

-- A write outside the entries does not matter.
theorem Sound.frame {m : Memory} (h : a.Sound)
    (hsame : ∀ e ∈ a.entries, ∀ x, e.addr ≤ x → x < e.addr + e.size → m x = a.memory x) :
    ({ a with memory := m } : LinkedFreeList).Sound ∧
      ({ a with memory := m } : LinkedFreeList).entries = a.entries := by
  obtain ⟨l, hl, hvalid, hsum⟩ := h
  have hentries := hl.entries_eq hvalid
  have hframe := hl.frame (m := m) fun i e he x hlow hhigh => by
    refine hsame e ?_ x hlow hhigh
    rw [hentries]
    exact (RawFreeList.mem_entries_iff hvalid e).mpr ⟨i, he⟩
  exact ⟨⟨l, hframe, hvalid, hsum⟩, (hframe.entries_eq hvalid).trans hentries.symm⟩

def listWith (memory : Memory) (addr : Nat) : Option LinkedFreeList :=
  (freeListMachine listOptions).runVia Narrow (new listOptions memory) [.add addr 64]

-- Two lists with a block each, in the memory that the second call of `add` left.
theorem exists_two_lists : ∃ a b : LinkedFreeList, a.Sound ∧ b.Sound ∧ b.memory = a.memory ∧
    a.buckets = b.buckets ∧ a.entries = [⟨4096, 64⟩] ∧ b.entries = [⟨8192, 64⟩] ∧ b.count = 1 := by
  have hrun : ((listWith (fun _ => 0) 8192).any fun b => (listWith b.memory 4096).any fun a =>
      a.buckets == b.buckets && a.entries == [⟨4096, 64⟩] && b.entries == [⟨8192, 64⟩] &&
        b.count == 1 && (List.range 64).all fun i => a.memory (8192 + i) == b.memory (8192 + i)) =
      true := by
    decide +kernel
  simp only [Option.any_eq_true, Bool.and_eq_true, beq_iff_eq, List.all_eq_true,
    List.mem_range] at hrun
  obtain ⟨b, hb, a, ha, ⟨⟨⟨hbuckets, hentries⟩, hentries'⟩, hcount⟩, hsame⟩ := hrun
  have hsound (s : LinkedFreeList) (memory : Memory) (addr : Nat)
      (hs : listWith memory addr = some s) : s.Sound :=
    sound_of_via (by decide) (by decide)
      (Machine.via_of_runVia (Machine.Via.init ⟨memory, rfl⟩) hs)
  obtain ⟨hframe, hkept⟩ := (hsound b _ _ hb).frame (m := a.memory) (by
    rw [hentries']
    rintro e he x hlow hhigh
    obtain rfl := List.mem_singleton.mp he
    obtain ⟨i, rfl⟩ := Nat.exists_eq_add_of_le hlow
    exact hsame i (Nat.add_lt_add_iff_left.mp hhigh))
  refine ⟨a, _, hsound a _ _ ha, hframe, rfl, hbuckets, hentries, ?_, hcount⟩
  rw [hkept, hentries']

theorem append_exact_iff_small : ∃ a b a' b' : LinkedFreeList, a.append b = .ok (a', b') ∧
    a'.Sound ∧ a'.entries.Perm [⟨4096, 64⟩, ⟨8192, 64⟩] ∧ b'.entries = [] ∧
    (Appended a b a' b' ↔ b.entries = []) := by
  obtain ⟨a, b, ha, hb, hmem, hbuckets, hentries, hentries', _⟩ := exists_two_lists
  have hapart : ∀ e ∈ a.entries, ∀ e' ∈ b.entries, e.Apart e' := by
    rw [hentries, hentries']
    simp [Entry.Apart]
  obtain ⟨a', b', hrun, hsound, hperm, hempty, hiff⟩ :=
    append_exact_iff ha hb hmem hbuckets hapart
  rw [hentries, hentries'] at hperm
  exact ⟨a, b, a', b', hrun, hsound, hperm, hempty, hiff⟩

-- The second list goes on counting the block that it gave away.
theorem appended_list_not_reset : ¬∀ a b : LinkedFreeList, a.Sound → b.Sound →
    b.memory = a.memory → a.buckets = b.buckets →
    (∀ e ∈ a.entries, ∀ e' ∈ b.entries, e.Apart e') →
    ∃ a' b', a.append b = .ok (a', b') ∧ Appended a b a' b' := by
  intro hall
  obtain ⟨a, b, ha, hb, hmem, hbuckets, hentries, hentries', hone⟩ := exists_two_lists
  have hapart : ∀ e ∈ a.entries, ∀ e' ∈ b.entries, e.Apart e' := by
    rw [hentries, hentries']
    simp [Entry.Apart]
  obtain ⟨a', b', hrun, h⟩ := hall a b ha hb hmem hbuckets hapart
  obtain ⟨_, b'', hrun', _, _, _, _, hcount, _⟩ := append_sound ha hb hmem hbuckets hapart
  obtain ⟨_, rfl⟩ := Prod.mk.inj (Except.ok.inj (hrun.symm.trans hrun'))
  have hzero := h.other_count
  rw [hcount, hone] at hzero
  cases hzero

end LinkedFreeList

end Rsgc.Storage
