import Rsgc.Lib.Linked
import Rsgc.Storage.FreeList.Linked
import Rsgc.Storage.FreeList.Valid
import Rsgc.System.Header.Sizes

namespace Rsgc.Storage

def Entry.Apart (e e' : Entry) : Prop := e.addr + e.size ≤ e'.addr ∨ e'.addr + e'.size ≤ e.addr

-- The bytes of an entry say how large it is.
structure Entry.Stored (m : Memory) (e : Entry) : Prop where
  addr_pos : 0 < e.addr
  size_ge : 16 ≤ e.size
  dvd : 16 ∣ e.size
  stop_le : e.addr + e.size ≤ usizeRange
  tag : System.SizeTag.decode (System.headerWord m e.addr) =
    if e.size ≤ MAX_SIZE_TAG then e.size else 0
  large : MAX_SIZE_TAG < e.size → m.readLE (System.Entry.sizeAddress e.addr) 8 = e.size

namespace Entry

variable {m m' : Memory} {e : Entry}

theorem Stored.heapSize (h : e.Stored m) : System.Entry.heapSize m e.addr = e.size := by
  have hge := h.size_ge
  unfold System.Entry.heapSize
  simp only [h.tag]
  by_cases hle : e.size ≤ MAX_SIZE_TAG
  · rw [if_pos hle, if_neg (by omega)]
  · rw [if_neg hle, if_pos rfl]
    exact h.large (by omega)

-- Only the link of the entry may have changed.
theorem Stored.congr (h : e.Stored m) (hsame : ∀ a, e.addr ≤ a → a < e.addr + e.size →
    (a < e.addr + 8 ∨ e.addr + 16 ≤ a) → m' a = m a) : e.Stored m' := by
  have hge := h.size_ge
  refine ⟨h.addr_pos, hge, h.dvd, h.stop_le, ?_, fun hlarge => ?_⟩
  · rw [System.headerWord_congr fun a hl hr => hsame a hl (by omega) (Or.inl hr), h.tag]
  · rw [← h.large hlarge]
    unfold MAX_SIZE_TAG at hlarge
    unfold System.Entry.sizeAddress
    exact Memory.readLE_congr fun a hl hr => hsame a (by omega) (by omega) (Or.inr hl)

theorem asEntry_stored {addr size : Nat} (m : Memory) (haddr : 0 < addr) (hpos : 0 < size)
    (hdvd : 16 ∣ size) (hstop : addr + size ≤ usizeRange) :
    (⟨addr, size⟩ : Entry).Stored (System.Entry.asEntry m addr size) := by
  have hdescribed : System.HeapBlock.Described (fun _ => ⟨0, false, 0, 0, false⟩)
      (System.Entry.asEntry m addr size) ⟨addr, size, none⟩ :=
    System.asEntry_described m hpos hdvd (by omega)
  exact ⟨haddr, Nat.le_of_dvd hpos hdvd, hdvd, hstop, hdescribed.tag, hdescribed.stored⟩

end Entry

namespace LinkedFreeList

variable {s s' : LinkedFreeList} {l : RawFreeList}

-- The pointers in memory are the chains of the list.
structure Represents (s : LinkedFreeList) (l : RawFreeList) : Prop where
  buckets_eq : s.buckets = l.buckets
  biggest_eq : s.biggest = l.biggest
  count_eq : s.count = l.count
  free_eq : s.freeBytes = l.freeBytes
  chain : ∀ i, Segment s.next (s.heads i) ((l.heads i).map Entry.addr) 0
  tail : ∀ i, s.tails i = (l.tails i).getD 0
  stored : ∀ i, ∀ e ∈ l.heads i, e.Stored s.memory
  apart : l.entries.Pairwise Entry.Apart

theorem Represents.head_eq_zero (h : s.Represents l) (i : Nat) :
    s.heads i = 0 ↔ l.heads i = [] := by
  have hchain := h.chain i
  cases hhead : l.heads i with
  | nil =>
      rw [hhead] at hchain
      have hnull : s.heads i = 0 := hchain
      simp [hnull]
  | cons e rest =>
      rw [hhead] at hchain
      have hpos := (h.stored i e (by simp [hhead])).addr_pos
      obtain ⟨heq, _⟩ := hchain
      simp
      omega

-- The walk in memory meets the chain.
theorem walk_eq {chain : List Entry} {fuel head : Nat}
    (hchain : Segment s.next head (chain.map Entry.addr) 0) (hfuel : chain.length ≤ fuel)
    (hstored : ∀ e ∈ chain, e.Stored s.memory) : s.walk fuel head = chain := by
  induction chain generalizing head fuel with
  | nil =>
      have hnull : head = 0 := hchain
      cases fuel with
      | zero => rfl
      | succ fuel => simp [walk, hnull]
  | cons e rest ih =>
      obtain ⟨rfl, hrest⟩ := hchain
      cases fuel with
      | zero => simp at hfuel
      | succ fuel =>
          have hfirst := hstored e List.mem_cons_self
          have hpos := hfirst.addr_pos
          have hnext := ih hrest (by simpa using hfuel)
            fun e' he' => hstored e' (List.mem_cons_of_mem e he')
          unfold walk
          rw [if_neg (by omega), hnext]
          unfold LinkedFreeList.heapSize
          rw [hfirst.heapSize]

theorem Represents.bucket_eq (h : s.Represents l) (hvalid : l.Valid) (i : Nat) :
    s.bucket i = l.heads i := by
  have hle : (l.heads i).length ≤ l.count := by
    rw [hvalid.count_eq]
    by_cases hi : i < l.buckets
    · apply List.Sublist.length_le
      exact List.sublist_flatten_of_mem (List.mem_map_of_mem (List.mem_range.mpr hi))
    · have hnil : l.heads i = [] := by
        apply List.eq_nil_iff_forall_not_mem.mpr
        intro e he
        exact hi (hvalid.bucket i e he).1
      simp [hnil]
  unfold bucket
  rw [h.count_eq]
  exact walk_eq (h.chain i) hle (h.stored i)

theorem Represents.entries_eq (h : s.Represents l) (hvalid : l.Valid) : s.entries = l.entries := by
  unfold entries RawFreeList.entries
  rw [h.buckets_eq]
  exact List.flatMap_congr fun i _ => h.bucket_eq hvalid i

-- A write outside the entries leaves them linked as they were.
theorem Represents.frame (h : s.Represents l) {m : Memory}
    (hsame : ∀ i, ∀ e ∈ l.heads i, ∀ a, e.addr ≤ a → a < e.addr + e.size → m a = s.memory a) :
    ({ s with memory := m } : LinkedFreeList).Represents l := by
  refine ⟨h.buckets_eq, h.biggest_eq, h.count_eq, h.free_eq, fun i => ?_, h.tail,
    fun i e he => ?_, h.apart⟩
  · refine Segment.congr (fun x hx => ?_) (h.chain i)
    obtain ⟨e, he, rfl⟩ := List.mem_map.mp hx
    have hge := (h.stored i e he).size_ge
    exact Memory.readLE_congr fun a hl hr => hsame i e he a (by omega) (by omega)
  · exact (h.stored i e he).congr fun a hl hr _ => hsame i e he a hl hr

theorem Entry.Apart.symm {e e' : Entry} (h : e.Apart e') : e'.Apart e := Or.symm h

-- An entry that points to the head of its bucket becomes the new head.
theorem Represents.link {e : Entry} {index : Nat} (h : s.Represents l) (hindex : index < l.buckets)
    (hstored : e.Stored s.memory) (hnext : s.next e.addr = s.heads index)
    (hapart : ∀ e' ∈ l.entries, e.Apart e') :
    ({ s with
      heads := Function.update s.heads index e.addr
      biggest := max s.biggest index
      tails := if s.next e.addr = 0 then Function.update s.tails index e.addr else s.tails
      count := s.count + 1
      freeBytes := s.freeBytes + e.size } : LinkedFreeList).Represents
        (l.link index e.addr e.size) := by
  have hsize := storedSize_of_dvd hstored.dvd
  have hperm := RawFreeList.entries_link_perm (l := l) index e.addr e.size hindex
  rw [hsize] at hperm
  refine ⟨h.buckets_eq, by simp [RawFreeList.link, h.biggest_eq], by simp [RawFreeList.link, h.count_eq],
    by simp [RawFreeList.link, h.free_eq], fun i => ?_, fun i => ?_, fun i e' he' => ?_, ?_⟩
  · simp only [RawFreeList.link]
    by_cases hi : i = index
    · subst hi
      simp only [Function.update_self, List.map_cons]
      refine ⟨rfl, ?_⟩
      change Segment s.next (s.next e.addr) _ 0
      rw [hnext]
      exact h.chain i
    · simp only [Function.update_of_ne hi]
      exact h.chain i
  · have hnull : s.next e.addr = 0 ↔ l.heads index = [] := hnext ▸ h.head_eq_zero index
    simp only [RawFreeList.link]
    by_cases hempty : l.heads index = []
    · rw [if_pos (hnull.mpr hempty), if_pos hempty]
      by_cases hi : i = index
      · subst hi
        simp
      · simp only [Function.update_of_ne hi]
        exact h.tail i
    · rw [if_neg (fun hz => hempty (hnull.mp hz)), if_neg hempty]
      exact h.tail i
  · simp only [RawFreeList.link] at he'
    by_cases hi : i = index
    · subst hi
      rw [Function.update_self, hsize] at he'
      rcases List.mem_cons.mp he' with rfl | he'
      · exact hstored
      · exact h.stored i e' he'
    · rw [Function.update_of_ne hi] at he'
      exact h.stored i e' he'
  · have hall : (e :: l.entries).Pairwise Entry.Apart := List.pairwise_cons.mpr ⟨hapart, h.apart⟩
    exact hperm.symm.pairwise hall fun hab => hab.symm

-- Without its first entry the bucket starts at the next one.
theorem Represents.unlink {e : Entry} {index : Nat} {rest : List Entry} (h : s.Represents l)
    (hindex : index < l.buckets) (hhead : l.heads index = e :: rest) :
    ({ s with
      heads := Function.update s.heads index (s.next e.addr)
      tails := if s.next e.addr = 0 then Function.update s.tails index 0 else s.tails
      biggest := index
      freeBytes := s.freeBytes - e.size
      count := s.count - 1 } : LinkedFreeList).Represents (l.unlink index e rest) := by
  have hchain := h.chain index
  rw [hhead] at hchain
  obtain ⟨heq, hrest⟩ := hchain
  have hperm := RawFreeList.entries_unlink_perm index e rest hindex hhead
  have hall := hperm.pairwise h.apart fun hab => hab.symm
  refine ⟨h.buckets_eq, rfl, by simp [RawFreeList.unlink, h.count_eq],
    by simp [RawFreeList.unlink, h.free_eq], fun i => ?_, fun i => ?_, fun i e' he' => ?_,
    (List.pairwise_cons.mp hall).2⟩
  · simp only [RawFreeList.unlink]
    by_cases hi : i = index
    · subst hi
      simp only [Function.update_self]
      exact hrest
    · simp only [Function.update_of_ne hi]
      exact h.chain i
  · have hnull : s.next e.addr = 0 ↔ rest = [] := by
      cases rest with
      | nil =>
          have hz : s.next e.addr = 0 := hrest
          simp [hz]
      | cons e' rest' =>
          have hpos := (h.stored index e' (by simp [hhead])).addr_pos
          obtain ⟨haddr, _⟩ := hrest
          simp only [reduceCtorEq, iff_false]
          omega
    simp only [RawFreeList.unlink]
    by_cases hempty : rest = []
    · rw [if_pos (hnull.mpr hempty), if_pos hempty]
      by_cases hi : i = index
      · subst hi
        simp
      · simp only [Function.update_of_ne hi]
        exact h.tail i
    · rw [if_neg (fun hz => hempty (hnull.mp hz)), if_neg hempty]
      exact h.tail i
  · simp only [RawFreeList.unlink] at he'
    by_cases hi : i = index
    · subst hi
      rw [Function.update_self] at he'
      exact h.stored i e' (by simp [hhead, he'])
    · rw [Function.update_of_ne hi] at he'
      exact h.stored i e' he'

-- Whatever is done to the memory of an entry that was taken off, no other entry
-- is touched.
theorem Represents.takeHead {e : Entry} {index : Nat} {rest : List Entry} (h : s.Represents l)
    (hvalid : l.Valid) (hhead : l.heads index = e :: rest) :
    (s.takeHead e.addr index).Represents (l.unlink index e rest) ∧
      (s.takeHead e.addr index).heapSize e.addr = e.size := by
  have hmem : e ∈ l.heads index := by simp [hhead]
  have hindex := (hvalid.bucket index e hmem).1
  have hperm := RawFreeList.entries_unlink_perm index e rest hindex hhead
  have hall := hperm.pairwise h.apart fun hab => hab.symm
  have hapart := (List.pairwise_cons.mp hall).1
  have hstored := h.stored index e hmem
  have hge := hstored.size_ge
  have hsize : (s.takeHead e.addr index).heapSize e.addr = e.size := by
    apply Entry.Stored.heapSize
    apply hstored.congr
    intro a _ _ hlink
    exact Memory.writeLE_of_not _ _ (by omega)
  refine ⟨?_, hsize⟩
  have hframe := (h.unlink hindex hhead).frame (m := s.memory.writeLE (e.addr + 8) 8 0)
    fun i e' he' a hl hr => by
      have hi : i < (l.unlink index e rest).buckets := by
        by_contra hout
        have hnil : (l.unlink index e rest).heads i = l.heads i := by
          apply Function.update_of_ne
          rintro rfl
          exact hout hindex
        rw [hnil] at he'
        exact hout (hvalid.bucket i e' he').1
      have he := hapart e' (List.mem_flatMap.mpr ⟨i, List.mem_range.mpr hi, he'⟩)
      unfold Entry.Apart at he
      exact Memory.writeLE_of_not _ _ (by omega)
  have hfree : (s.takeHead e.addr index).freeBytes = s.freeBytes - e.size := by
    unfold LinkedFreeList.takeHead LinkedFreeList.unlink LinkedFreeList.heapSize at hsize ⊢
    simp only at hsize ⊢
    rw [hsize]
    rfl
  exact ⟨hframe.buckets_eq, hframe.biggest_eq, hframe.count_eq, hfree.trans hframe.free_eq,
    hframe.chain, hframe.tail, hframe.stored, hframe.apart⟩

theorem Represents.lower (h : s.Represents l) (index : Nat) :
    ({ s with biggest := index } : LinkedFreeList).Represents { l with biggest := index } :=
  ⟨h.buckets_eq, rfl, h.count_eq, h.free_eq, h.chain, h.tail, h.stored, h.apart⟩

-- Both loops look at the same entries.
theorem Represents.allocateFrom (h : s.Represents l) (hvalid : l.Valid) (allocationSize : Nat)
    (index : Nat) :
    (s.allocateFrom allocationSize index).2.Represents (l.allocateFrom allocationSize index).2 ∧
      (s.allocateFrom allocationSize index).1 =
        ((l.allocateFrom allocationSize index).1.map fun e => (e.addr, e.size)).getD (0, 0) := by
  induction index with
  | zero => exact ⟨h.lower 0, rfl⟩
  | succ index ih =>
      cases hhead : l.heads (index + 1) with
      | nil =>
          have hnull := (h.head_eq_zero (index + 1)).mpr hhead
          unfold LinkedFreeList.allocateFrom RawFreeList.allocateFrom
          simp only [hnull, hhead]
          by_cases hlarge : 2 ^ (index + 1) < allocationSize
          · simp only [hlarge, true_or, and_self, if_true]
            exact ⟨h.lower (index + 1), rfl⟩
          · simp only [hlarge, false_and, if_false, ne_eq, not_true_eq_false]
            exact ih
      | cons e rest =>
          have hmem : e ∈ l.heads (index + 1) := by simp [hhead]
          have hchain := h.chain (index + 1)
          rw [hhead] at hchain
          obtain ⟨haddr, _⟩ := hchain
          have hstored := h.stored _ e hmem
          have hpos := hstored.addr_pos
          have hsize : s.heapSize e.addr = e.size := hstored.heapSize
          unfold LinkedFreeList.allocateFrom RawFreeList.allocateFrom
          simp only [haddr, hhead, hsize, hpos.ne', false_or, ne_eq, not_false_eq_true, if_true]
          split
          · exact ⟨h.lower (index + 1), rfl⟩
          · obtain ⟨htaken, hread⟩ := h.takeHead hvalid hhead
            refine ⟨htaken, ?_⟩
            simp [hread]

theorem Represents.allocate (h : s.Represents l) (hvalid : l.Valid) (allocationSize : Nat) :
    (s.allocate allocationSize).2.Represents (l.allocate allocationSize).2 ∧
      (s.allocate allocationSize).1 =
        ((l.allocate allocationSize).1.map fun e => (e.addr, e.size)).getD (0, 0) := by
  unfold LinkedFreeList.allocate RawFreeList.allocate
  rw [h.biggest_eq]
  exact h.allocateFrom hvalid allocationSize l.biggest

theorem Represents.clear (h : s.Represents l) : s.clear.Represents l.clear where
  buckets_eq := h.buckets_eq
  biggest_eq := rfl
  count_eq := rfl
  free_eq := rfl
  chain := fun _ => rfl
  tail := fun _ => rfl
  stored := by simp [RawFreeList.clear]
  apart := by
    rw [RawFreeList.entries_eq_nil (l := l.clear) fun _ => rfl]
    exact List.Pairwise.nil

theorem Represents.head_lt (h : s.Represents l) (i : Nat) : s.heads i < usizeRange := by
  have hchain := h.chain i
  cases hhead : l.heads i with
  | nil =>
      have hnull := (h.head_eq_zero i).mpr hhead
      rw [hnull]
      decide
  | cons e rest =>
      rw [hhead] at hchain
      have hstored := h.stored i e (by simp [hhead])
      have hge := hstored.size_ge
      have hstop := hstored.stop_le
      obtain ⟨heq, _⟩ := hchain
      omega

-- The new entry is written into memory that no other entry lies in.
theorem Represents.add {opts : HeapOptions} {addr size : Nat} (h : s.Represents l)
    (hvalid : l.Valid) (hadd : s.Addable opts addr size)
    (hindex : bucketIndexForSize size < l.buckets) :
    ∃ s', s.add addr size = .ok s' ∧
      s'.Represents (l.link (bucketIndexForSize size) addr size) := by
  have hge := Nat.le_of_dvd hadd.pos hadd.dvd
  have hentry := Entry.asEntry_stored s.memory hadd.addr_pos hadd.pos hadd.dvd hadd.stop_le
  have hsmall : ¬size < ENTRY_SIZE := Nat.not_lt.mpr hge
  have hread : System.Entry.heapSize (System.Entry.asEntry s.memory addr size) addr ≠ 0 := by
    have hsize : System.Entry.heapSize (System.Entry.asEntry s.memory addr size) addr = size :=
      hentry.heapSize
    have hpos := hadd.pos
    omega
  have hpanics : s.add addr size = .ok
      (({ s with memory := System.Entry.asEntry s.memory addr size } :
        LinkedFreeList).addEntry addr size) := by
    have hbuckets : bucketIndexForSize size < s.buckets := h.buckets_eq ▸ hindex
    unfold LinkedFreeList.add
    simp only [ensure, LinkedFreeList.heapSize, ne_eq, hadd.pos.ne', hread, hsmall, hbuckets,
      not_false_eq_true, if_true, if_false, Except.ok_bind]
    rfl
  have hlinked : (⟨addr, size⟩ : Entry).Stored ((System.Entry.asEntry s.memory addr size).writeLE
      (addr + 8) 8 (s.heads (bucketIndexForSize size))) := by
    apply hentry.congr
    intro a _ _ hlink
    exact Memory.writeLE_of_not _ _ (by omega)
  have hframe := h.frame (m := (System.Entry.asEntry s.memory addr size).writeLE
      (addr + 8) 8 (s.heads (bucketIndexForSize size))) fun i e he a hl hr => by
    have hapart := hadd.apart e (by
      rw [h.entries_eq hvalid]
      exact (RawFreeList.mem_entries_iff hvalid e).mpr ⟨i, he⟩)
    rw [Memory.writeLE_of_not _ _ (by omega), System.asEntry_of_not _ hge (by omega)]
  have hnext : (System.Entry.asEntry s.memory addr size |>.writeLE
      (addr + 8) 8 (s.heads (bucketIndexForSize size))).readLE (addr + 8) 8 =
        s.heads (bucketIndexForSize size) := by
    rw [Memory.readLE_writeLE _ _ _ (Nat.le_refl 8)]
    exact Nat.mod_eq_of_lt (h.head_lt _)
  refine ⟨_, hpanics, ?_⟩
  exact hframe.link hindex hlinked hnext fun e he => hadd.apart e (by rwa [h.entries_eq hvalid])

theorem new_represents (opts : HeapOptions) (m : Memory) :
    (new opts m).Represents (RawFreeList.new opts) where
  buckets_eq := rfl
  biggest_eq := rfl
  count_eq := rfl
  free_eq := rfl
  chain := fun _ => rfl
  tail := fun _ => rfl
  stored := by simp [RawFreeList.new]
  apart := by
    rw [RawFreeList.entries_eq_nil (l := RawFreeList.new opts) fun _ => rfl]
    exact List.Pairwise.nil

end LinkedFreeList

end Rsgc.Storage
