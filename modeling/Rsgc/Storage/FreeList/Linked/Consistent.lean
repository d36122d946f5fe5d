import Rsgc.Storage.FreeList.Linked.Refines

namespace Rsgc.Storage

-- Ten regions of 8 GiB.
def HeapConfig.vast : HeapConfig where
  pageSize := 4096
  args := { HeapConfig.wide.args with regionSize := 2 ^ 33, maxHeapSize := 10 * 2 ^ 33 }
  opts := { HeapConfig.wide.opts with
    regionSizeBytes := 2 ^ 33
    regionSizeWords := 2 ^ 30
    regionSizeBytesShift := 33
    regionSizeBytesMask := 2 ^ 33 - 1
    humongousThresholdWords := 2 ^ 29
    humongousThresholdBytes := 2 ^ 32
    maxHeapSize := 10 * 2 ^ 33
    maxTlabSize := 2 ^ 30
    regionSizeLog2 := 33 }
  page_ge := HeapConfig.small.page_ge
  setup := by rfl
  memStart := 2 ^ 33
  commited := 0

namespace RawFreeList

variable {opts : HeapOptions} {l : RawFreeList}

-- A valid list whose blocks are multiples of 16 bytes, and keep their size when it is
-- cast to `u32`, has an exact count of its free bytes.
structure Exact (opts : HeapOptions) (l : RawFreeList) : Prop where
  valid : l.Valid
  buckets_eq : l.buckets = opts.regionSizeLog2 + 1
  sum_eq : (l.entries.map Entry.size).sum = l.freeBytes
  lt : ∀ e ∈ l.entries, e.size < 2 ^ 32

theorem new_exact (opts : HeapOptions) (hlog : opts.regionSizeLog2 < 64) :
    (new opts).Exact opts := by
  have hnil : (new opts).entries = [] := entries_eq_nil fun _ => rfl
  exact ⟨new_valid opts hlog, rfl, by rw [hnil]; rfl, by simp [hnil]⟩

theorem Exact.clear (h : l.Exact opts) : l.clear.Exact opts := by
  have hnil : l.clear.entries = [] := entries_eq_nil fun _ => rfl
  exact ⟨clear_valid h.valid, h.buckets_eq, by rw [hnil]; rfl, by simp [hnil]⟩

theorem Exact.link {size : Nat} (h : l.Exact opts) (addr : Nat) (hpos : 0 < size) (hdvd : 16 ∣ size)
    (hlt : size < 2 ^ 32) (hindex : bucketIndexForSize size < l.buckets) :
    (l.link (bucketIndexForSize size) addr size).Exact opts := by
  have hperm := entries_link_perm (l := l) _ addr size hindex
  rw [storedSize_of_dvd hdvd] at hperm
  refine ⟨link_valid h.valid (Nat.le_of_dvd hpos hdvd) hindex, h.buckets_eq, ?_, fun e he => ?_⟩
  · rw [(hperm.map Entry.size).sum_eq, List.map_cons, List.sum_cons, h.sum_eq]
    exact Nat.add_comm _ _
  · rcases List.mem_cons.mp (hperm.mem_iff.mp he) with rfl | he
    · exact hlt
    · exact h.lt e he

theorem Exact.index_lt {size : Nat} (h : l.Exact opts)
    (hsize : opts.regionSizeBytes = 2 ^ opts.regionSizeLog2) (hpos : 0 < size)
    (hle : size ≤ opts.regionSizeBytes) (hlt : size < 2 ^ 32) :
    bucketIndexForSize size < l.buckets := by
  have hbuckets := h.valid.buckets_le
  rw [h.buckets_eq] at hbuckets ⊢
  refine (bucketIndexForSize_lt_iff (hsize ▸ hle) (by omega)).mpr fun hdvd => ?_
  have hbig := Nat.le_of_dvd hpos hdvd
  omega

theorem Exact.allocate (h : l.Exact opts) (allocationSize : Nat) :
    (l.allocate allocationSize).2.Exact opts := by
  have hvalid := allocate_valid h.valid allocationSize
  rcases allocate_cases h.valid allocationSize with
    ⟨i, e, rest, hhead, _, _, heq⟩ | ⟨i, _, heq⟩
  · have hindex := (h.valid.bucket i e (by simp [hhead])).1
    have hperm := entries_unlink_perm i e rest hindex hhead
    have hsum := (hperm.map Entry.size).sum_eq
    rw [h.sum_eq, List.map_cons, List.sum_cons] at hsum
    rw [heq] at hvalid ⊢
    refine ⟨hvalid, h.buckets_eq, ?_, fun e' he' => ?_⟩
    · change ((l.unlink i e rest).entries.map Entry.size).sum = l.freeBytes - e.size
      omega
    · exact h.lt e' (hperm.mem_iff.mpr (List.mem_cons_of_mem e he'))
  · rw [heq] at hvalid ⊢
    exact ⟨hvalid, h.buckets_eq, h.sum_eq, h.lt⟩

theorem Exact.bucket_size (h : l.Exact opts) {i : Nat} {e : Entry} (he : e ∈ l.heads i) :
    2 ^ i ≤ e.size ∧ e.size < 2 ^ (i + 1) := by
  obtain ⟨_, hindex, hge⟩ := h.valid.bucket i e he
  have hlt := h.lt e ((mem_entries_iff h.valid e).mpr ⟨i, he⟩)
  have hmod : e.size % 2 ^ 32 = e.size := Nat.mod_eq_of_lt hlt
  rw [bucketIndexForSize_eq, hmod, if_neg (by omega)] at hindex
  exact (Nat.log2_eq_iff (by omega)).mp hindex

-- The search passes no bucket whose entries are all large enough.
theorem allocateFrom_succeeds {allocationSize i index : Nat} {e : Entry} (he : e ∈ l.heads i)
    (hpos : 0 < i) (hle : i ≤ index) (hfits : allocationSize ≤ 2 ^ i) :
    (l.allocateFrom allocationSize index).1 ≠ none := by
  induction index with
  | zero => omega
  | succ index ih =>
      have hpow := Nat.pow_le_pow_right Nat.two_pos hle
      have hsmall : ¬2 ^ (index + 1) < allocationSize := by omega
      unfold RawFreeList.allocateFrom
      cases hhead : l.heads (index + 1) with
      | nil =>
          have hne : i ≠ index + 1 := by
            rintro rfl
            simp [hhead] at he
          simp only [hsmall, if_false]
          exact ih (by omega)
      | cons e' rest => simp [hsmall]

theorem Exact.allocate_succeeds (h : l.Exact opts) {allocationSize : Nat} {e : Entry}
    (he : e ∈ l.entries) (hfits : 2 ^ Nat.clog 2 allocationSize ≤ e.size) : (l.allocate allocationSize).1 ≠ none := by
  obtain ⟨i, hi⟩ := (mem_entries_iff h.valid e).mp he
  obtain ⟨_, hhigh⟩ := h.bucket_size hi
  have hge := (h.valid.bucket i e hi).2.2
  have hbiggest : i ≤ l.biggest := by
    by_contra habove
    rw [h.valid.above i (by omega)] at hi
    cases hi
  have hpos : 0 < i := by
    rcases Nat.eq_zero_or_pos i with rfl | hpos
    · omega
    · exact hpos
  have hlog : Nat.clog 2 allocationSize ≤ i := by
    apply Nat.le_of_lt_succ
    exact (Nat.pow_lt_pow_iff_right (by decide)).mp (Nat.lt_of_le_of_lt hfits hhigh)
  apply allocateFrom_succeeds hi hpos hbiggest
  exact (Nat.le_pow_clog (by decide) _).trans (Nat.pow_le_pow_right Nat.two_pos hlog)

end RawFreeList

namespace LinkedFreeList

variable {opts : HeapOptions} {s s' : LinkedFreeList} {l : RawFreeList}

-- What the heads, the tails, the cached index and the two counters say about
-- the entries that are linked in memory.
structure Consistent (s : LinkedFreeList) : Prop where
  linked : ∀ i, Segment s.next (s.heads i) ((s.bucket i).map Entry.addr) 0
  outside : ∀ i, s.buckets ≤ i → s.bucket i = []
  free_eq : s.freeBytes = (s.entries.map Entry.size).sum
  count_eq : s.count = s.entries.length
  bucket_size : ∀ i, ∀ e ∈ s.bucket i, 2 ^ i ≤ e.size ∧ e.size < 2 ^ (i + 1)
  tail_eq : ∀ i, s.tails i = ((s.bucket i).getLast?.map Entry.addr).getD 0
  tail_null : ∀ i, s.tails i = 0 ↔ s.heads i = 0
  above : ∀ i, s.biggest < i → s.bucket i = []
  apart : s.entries.Pairwise Entry.Apart

-- What an allocation may do: it takes the first entry of a bucket, when that is
-- large enough, or nothing; and it does take one when there surely is one.
structure Allocates (s : LinkedFreeList) (allocationSize : Nat) : Prop where
  outcome : ((s.allocate allocationSize).1 = (0, 0) ∧
      ∀ i, (s.allocate allocationSize).2.bucket i = s.bucket i) ∨
    ∃ i e rest, s.bucket i = e :: rest ∧ 0 < e.addr ∧ allocationSize ≤ e.size ∧
      (s.allocate allocationSize).1 = (e.addr, e.size) ∧
      (s.allocate allocationSize).2.bucket i = rest ∧
      ∀ j, j ≠ i → (s.allocate allocationSize).2.bucket j = s.bucket j
  succeeds : (∃ e ∈ s.entries, 2 ^ Nat.clog 2 allocationSize ≤ e.size) →
    (s.allocate allocationSize).1.1 ≠ 0

theorem Represents.consistent (h : s.Represents l) (hl : l.Exact opts) : s.Consistent := by
  have hbucket := h.bucket_eq hl.valid
  have hentries := h.entries_eq hl.valid
  exact {
    linked := fun i => by
      rw [hbucket]
      exact h.chain i
    outside := fun i hi => by
      rw [hbucket, List.eq_nil_iff_forall_not_mem]
      intro e he
      have hin := (hl.valid.bucket i e he).1
      rw [h.buckets_eq] at hi
      omega
    free_eq := by rw [hentries, hl.sum_eq, h.free_eq]
    count_eq := by rw [hentries, ← hl.valid.count_eq, h.count_eq]
    bucket_size := fun i e he => by
      rw [hbucket] at he
      exact hl.bucket_size he
    tail_eq := fun i => by rw [hbucket, h.tail, hl.valid.tails_eq]
    tail_null := fun i => by
      rw [h.head_eq_zero, h.tail, hl.valid.tails_eq]
      cases hlast : (l.heads i).getLast? with
      | none => simp [List.getLast?_eq_none_iff.mp hlast]
      | some e =>
          have hmem := List.mem_of_getLast? hlast
          have hpos := (h.stored i e hmem).addr_pos
          have hne := List.ne_nil_of_mem hmem
          simp only [Option.map_some, Option.getD_some, hne, iff_false]
          omega
    above := fun i hi => by
      rw [hbucket]
      exact hl.valid.above i (h.biggest_eq ▸ hi)
    apart := by
      rw [hentries]
      exact h.apart }

theorem Represents.allocates (h : s.Represents l) (hl : l.Exact opts) (allocationSize : Nat) :
    s.Allocates allocationSize := by
  obtain ⟨hafter, hresult⟩ := h.allocate hl.valid allocationSize
  have hbucket := h.bucket_eq hl.valid
  have hbucket' := hafter.bucket_eq (RawFreeList.allocate_valid hl.valid allocationSize)
  constructor
  · rcases RawFreeList.allocate_cases hl.valid allocationSize with
      ⟨i, e, rest, hhead, hle, _, heq⟩ | ⟨i, _, heq⟩
    · rw [heq] at hresult hbucket'
      have hpos := (h.stored i e (by simp [hhead])).addr_pos
      refine Or.inr ⟨i, e, rest, by rw [hbucket, hhead], hpos, hle, hresult, ?_, fun j hj => ?_⟩
      · rw [hbucket']
        exact Function.update_self ..
      · rw [hbucket', hbucket]
        exact Function.update_of_ne hj ..
    · rw [heq] at hresult hbucket'
      exact Or.inl ⟨hresult, fun j => by rw [hbucket', hbucket]⟩
  · rintro ⟨e, he, hfits⟩
    rw [h.entries_eq hl.valid] at he
    have hsome := hl.allocate_succeeds he hfits
    rcases RawFreeList.allocate_cases hl.valid allocationSize with
      ⟨i, e', rest, hhead, _, _, heq⟩ | ⟨i, _, heq⟩
    · rw [heq] at hresult
      have hpos := (h.stored i e' (by simp [hhead])).addr_pos
      rw [hresult]
      exact hpos.ne'
    · rw [heq] at hsome
      exact absurd rfl hsome

-- The cast to `u32` keeps the size of the block that is added.
def Narrow (_ : LinkedFreeList) : FreeListEvent → Prop
  | .add _ size => size < 2 ^ 32
  | .allocate _ | .clear | .store _ _ => True

instance (s : LinkedFreeList) : (e : FreeListEvent) → Decidable (s.Narrow e)
  | .add _ size => inferInstanceAs (Decidable (size < 2 ^ 32))
  | .allocate _ | .clear | .store _ _ => inferInstanceAs (Decidable True)

-- The abstract list that the memory holds goes along with every step.
theorem represents_of_via (hsize : opts.regionSizeBytes = 2 ^ opts.regionSizeLog2)
    (hlog : opts.regionSizeLog2 < 64) (hs : (freeListMachine opts).Via Narrow s) :
    ∃ l, s.Represents l ∧ l.Exact opts := by
  refine Machine.Via.invariant (P := fun s => ∃ l, s.Represents l ∧ l.Exact opts)
    (fun s hinit => ?_) (fun s e t hinv hnarrow hstep => ?_) hs
  · obtain ⟨m, rfl⟩ := hinit
    exact ⟨RawFreeList.new opts, new_represents opts m, RawFreeList.new_exact opts hlog⟩
  · obtain ⟨l, h, hl⟩ := hinv
    cases e with
    | add addr size =>
        obtain ⟨hadd, hok⟩ := Option.ite_none_right_eq_some.mp hstep
        have hlt : size < 2 ^ 32 := hnarrow
        have hindex := hl.index_lt hsize hadd.pos hadd.le hlt
        obtain ⟨t', ht', hrep⟩ := h.add hl.valid hadd hindex
        rw [ht'] at hok
        obtain rfl : t' = t := by simpa [Except.toOption] using hok
        exact ⟨_, hrep, hl.link addr hadd.pos hadd.dvd hlt hindex⟩
    | allocate allocationSize =>
        obtain rfl := Option.some.inj hstep
        exact ⟨_, (h.allocate hl.valid allocationSize).1, hl.allocate allocationSize⟩
    | clear =>
        obtain rfl := Option.some.inj hstep
        exact ⟨_, h.clear, hl.clear⟩
    | store addr byte =>
        obtain ⟨hout, rfl⟩ := guard_eq_some.mp hstep
        refine ⟨l, h.frame fun i e he a hlow hhigh => ?_, hl⟩
        have hmem : e ∈ s.entries := by
          rw [h.entries_eq hl.valid]
          exact (RawFreeList.mem_entries_iff hl.valid e).mpr ⟨i, he⟩
        have haway := hout e hmem
        exact Function.update_of_ne (by omega) ..

-- A call that returns has found a bucket for the block.
theorem add_index_lt {addr size : Nat} (hadd : s.Addable opts addr size)
    (hok : s.add addr size = .ok s') : bucketIndexForSize size < s.buckets := by
  have hge := Nat.le_of_dvd hadd.pos hadd.dvd
  have hlarge : ¬size < ENTRY_SIZE := Nat.not_lt.mpr hge
  unfold add at hok
  rw [ensure_bind hadd.pos.ne', if_neg hlarge] at hok
  simp only [Except.bind_eq_ok, Except.ensure_eq_ok] at hok
  obtain ⟨-, -, -, hindex, -⟩ := hok
  exact hindex

-- A larger block lands in the bucket of its lower 32 bits.
theorem Represents.narrow_of_add {addr size : Nat} (h : s.Represents l) (hl : l.Exact opts)
    (hadd : s.Addable opts addr size) (hok : s.add addr size = .ok s') (hs' : s'.Consistent) :
    size < 2 ^ 32 := by
  have hindex : bucketIndexForSize size < l.buckets := h.buckets_eq ▸ add_index_lt hadd hok
  obtain ⟨t, ht, hrep⟩ := h.add hl.valid hadd hindex
  obtain rfl : s' = t := Except.ok.inj (hok.symm.trans ht)
  have hvalid : (l.link (bucketIndexForSize size) addr size).Valid :=
    RawFreeList.link_valid hl.valid (Nat.le_of_dvd hadd.pos hadd.dvd) hindex
  have hmem : ⟨addr, size⟩ ∈ s'.bucket (bucketIndexForSize size) := by
    rw [hrep.bucket_eq hvalid]
    simp [RawFreeList.link, storedSize_of_dvd hadd.dvd]
  have hhigh := (hs'.bucket_size _ _ hmem).2
  have hbuckets := hl.valid.buckets_le
  rw [bucketIndexForSize_eq] at hhigh hindex
  split at hindex
  · omega
  · rename_i hzero
    rw [if_neg hzero] at hhigh
    have hlog : Nat.log2 (size % 2 ^ 32) < 32 :=
      (Nat.log2_lt hzero).mpr (Nat.mod_lt _ (by omega))
    exact Nat.lt_of_lt_of_le hhigh (Nat.pow_le_pow_right Nat.two_pos hlog)

-- In every run of a free list, whatever is done to memory that is not free, the
-- heads, tails and counters describe the entries, and allocation keeps its promise. A
-- further call of `add` keeps this just where the cast keeps the size.
theorem freeList_consistent (hsize : opts.regionSizeBytes = 2 ^ opts.regionSizeLog2)
    (hlog : opts.regionSizeLog2 < 64) (hs : (freeListMachine opts).Via Narrow s) :
    s.Consistent ∧ (∀ allocationSize, s.Allocates allocationSize) ∧
      ∀ addr size, s.Addable opts addr size → ((∃ s', s.add addr size = .ok s' ∧
        s'.Consistent ∧ s'.entries.Perm (⟨addr, size⟩ :: s.entries)) ↔ size < 2 ^ 32) := by
  obtain ⟨l, h, hl⟩ := represents_of_via hsize hlog hs
  refine ⟨h.consistent hl, h.allocates hl, fun addr size hadd => ⟨?_, fun hlt => ?_⟩⟩
  · rintro ⟨s', hok, hs', -⟩
    exact h.narrow_of_add hl hadd hok hs'
  · have hindex := hl.index_lt hsize hadd.pos hadd.le hlt
    obtain ⟨s', hok, hrep⟩ := h.add hl.valid hadd hindex
    have hlinked := hl.link addr hadd.pos hadd.dvd hlt hindex
    have hperm := RawFreeList.entries_link_perm (l := l) _ addr size hindex
    rw [storedSize_of_dvd hadd.dvd] at hperm
    refine ⟨s', hok, hrep.consistent hlinked, ?_⟩
    rw [hrep.entries_eq hlinked.valid, h.entries_eq hl.valid]
    exact hperm

def listOptions : HeapOptions := { regionSizeBytes := 1024, regionSizeLog2 := 10 }

-- Two blocks share a bucket, a block that was handed out is overwritten, and its
-- tail is added again.
theorem freeList_consistent_small : ∃ s, (freeListMachine listOptions).Via Narrow s ∧
    s.entries = [⟨8240, 16⟩, ⟨4096, 64⟩] ∧ s.biggest = 6 ∧ s.Consistent ∧
    (∀ allocationSize, s.Allocates allocationSize) ∧
    ∀ addr size, s.Addable listOptions addr size → ((∃ s', s.add addr size = .ok s' ∧
      s'.Consistent ∧ s'.entries.Perm (⟨addr, size⟩ :: s.entries)) ↔ size < 2 ^ 32) := by
  have hrun : ((freeListMachine listOptions).runVia Narrow (new listOptions fun _ => 0)
      [.add 4096 64, .add 8192 64, .allocate 48, .store 8200 1, .add 8240 16]).map
        (fun s => (s.entries, s.biggest)) = some ([⟨8240, 16⟩, ⟨4096, 64⟩], 6) := by
    decide +kernel
  obtain ⟨s, hs, heq⟩ := Option.map_eq_some_iff.mp hrun
  have hinit : (freeListMachine listOptions).init (new listOptions fun _ => 0) := ⟨_, rfl⟩
  have hvia := Machine.via_of_runVia (Machine.Via.init hinit) hs
  obtain ⟨hentries, hbiggest⟩ := Prod.mk.inj heq
  exact ⟨s, hvia, hentries, hbiggest, freeList_consistent (by decide) (by decide) hvia⟩

-- In a region of 8 GiB a block of 4 GiB and 16 bytes goes to the bucket of 16 bytes.
theorem large_block_misfiled : ¬∀ (c : HeapConfig) (s : LinkedFreeList),
    (freeListMachine c.opts).Reachable s →
      s.Consistent ∧ ∀ allocationSize, s.Allocates allocationSize := by
  intro hall
  have hrun : ((freeListMachine HeapConfig.vast.opts).run
      (new HeapConfig.vast.opts fun _ => 0) [.add 4096 (2 ^ 32 + 16)]).map
        (fun s => s.bucket 4) = some [⟨4096, 2 ^ 32 + 16⟩] := by decide +kernel
  obtain ⟨s, hs, hbucket⟩ := Option.map_eq_some_iff.mp hrun
  have hinit : (freeListMachine HeapConfig.vast.opts).init (new HeapConfig.vast.opts fun _ => 0) :=
    ⟨_, rfl⟩
  have hreach := Machine.run_reachable (Machine.Via.init hinit) hs
  have hmem : (⟨4096, 2 ^ 32 + 16⟩ : Entry) ∈ s.bucket 4 := hbucket ▸ List.mem_singleton_self _
  have hhigh := ((hall .vast s hreach).1.bucket_size 4 _ hmem).2
  revert hhigh
  decide

end LinkedFreeList

end Rsgc.Storage
