import Mathlib.Data.List.Basic
import Rsgc.Utils.Stack

namespace Rsgc.Utils

namespace Stack

variable {s t : Stack} {list : List Nat}

-- The link word lies in the segment, and its end can be computed.
structure Fits (s : Stack) : Prop where
  word_le : 8 ≤ s.elemSize
  bytes_lt : s.linkOffset + s.elemSize < 2 ^ 64

-- The parts of a stack that never change. The layout of a segment depends on
-- nothing else.
structure SameSizes (s t : Stack) : Prop where
  elemSize_eq : t.elemSize = s.elemSize
  segSize_eq : t.segSize = s.segSize
  fullSegSize_eq : t.fullSegSize = s.fullSegSize

theorem SameSizes.refl (s : Stack) : s.SameSizes s := ⟨rfl, rfl, rfl⟩

theorem SameSizes.trans {u : Stack} (h : s.SameSizes t) (h' : t.SameSizes u) : s.SameSizes u :=
  ⟨h'.elemSize_eq.trans h.elemSize_eq, h'.segSize_eq.trans h.segSize_eq,
    h'.fullSegSize_eq.trans h.fullSegSize_eq⟩

theorem SameSizes.linkOffset_eq (h : s.SameSizes t) : t.linkOffset = s.linkOffset := by
  unfold linkOffset
  rw [h.elemSize_eq, h.segSize_eq]

theorem SameSizes.segmentBytes_eq (h : s.SameSizes t) : t.segmentBytes = s.segmentBytes := by
  unfold segmentBytes
  rw [h.linkOffset_eq, h.elemSize_eq]

theorem SameSizes.linkAddr_eq (h : s.SameSizes t) (seg : Nat) :
    t.linkAddr seg = s.linkAddr seg := by
  unfold linkAddr
  rw [h.linkOffset_eq]

theorem SameSizes.fits (h : s.SameSizes t) (hfits : s.Fits) : t.Fits where
  word_le := h.elemSize_eq ▸ hfits.word_le
  bytes_lt := by
    rw [h.linkOffset_eq, h.elemSize_eq]
    exact hfits.bytes_lt

theorem Fits.segmentBytes_eq (h : s.Fits) : s.segmentBytes = s.linkOffset + s.elemSize :=
  Nat.mod_eq_of_lt h.bytes_lt

-- `align_up` subtracts where it should add, so that the link is always in the
-- way of the last slot.
theorem Fits.linkOffset_lt (h : s.Fits) (hseg : 0 < s.segSize) :
    s.linkOffset < s.segSize * s.elemSize := by
  have hword := h.word_le
  have hbytes := h.bytes_lt
  have hlt : s.linkOffset < 2 ^ 64 := by omega
  rcases Nat.lt_or_ge (s.segSize * s.elemSize) (2 ^ 64) with hsmall | hlarge
  · have hoffset : s.linkOffset = alignUp (s.segSize * s.elemSize) s.elemSize := by
      unfold linkOffset
      rw [Nat.mod_eq_of_lt hsmall]
    have hle : s.elemSize ≤ s.segSize * s.elemSize := Nat.le_mul_of_pos_left _ hseg
    rw [hoffset] at hbytes ⊢
    unfold alignUp at hbytes ⊢
    rw [usizeSub_of_le hle hsmall, usizeSub_of_le (show 1 ≤ s.elemSize by omega) (by omega)]
      at hbytes ⊢
    rcases Nat.eq_or_lt_of_le hle with heq | hlarger
    · -- one element in a segment: the subtraction wraps around
      have hwrap : usizeSub (s.segSize * s.elemSize - s.elemSize) 1 = 2 ^ 64 - 1 := by
        unfold usizeSub
        omega
      rw [hwrap, Nat.and_comm, Nat.and_two_pow_sub_one_eq_mod] at hbytes
      omega
    · have hsub : usizeSub (s.segSize * s.elemSize - s.elemSize) 1 =
          s.segSize * s.elemSize - s.elemSize - 1 := usizeSub_of_le (by omega) (by omega)
      rw [hsub]
      exact Nat.lt_of_le_of_lt Nat.and_le_left (by omega)
  · omega

theorem Fits.linkAddr_eq {seg : Nat} (h : s.Fits) (hstop : seg + s.segmentBytes ≤ 2 ^ 64) :
    s.linkAddr seg = seg + s.linkOffset := by
  have hbytes := h.segmentBytes_eq
  have hword := h.word_le
  unfold linkAddr
  omega

-- Only the memory changes.
structure Rewritten (s t : Stack) (memory : Memory) : Prop where
  sizes : s.SameSizes t
  maxCacheSize_eq : t.maxCacheSize = s.maxCacheSize
  curSeg_eq : t.curSeg = s.curSeg
  curSegSize_eq : t.curSegSize = s.curSegSize
  cache_eq : t.cache = s.cache
  cacheSize_eq : t.cacheSize = s.cacheSize
  chunks_eq : t.chunks = s.chunks
  memory_eq : t.memory = memory

theorem rewritten (s : Stack) (memory : Memory) :
    s.Rewritten { s with memory := memory } memory :=
  ⟨⟨rfl, rfl, rfl⟩, rfl, rfl, rfl, rfl, rfl, rfl, rfl⟩

theorem setLink_rewritten (s : Stack) (seg link : Nat) :
    s.Rewritten (s.setLink seg link) (s.memory.writeLE (s.linkAddr seg) 8 link) :=
  s.rewritten _

theorem getLink_setLink {seg link : Nat} (hlink : link < 256 ^ 8) :
    (s.setLink seg link).getLink seg = link := by
  have hset := s.setLink_rewritten seg link
  unfold getLink
  rw [hset.sizes.linkAddr_eq, hset.memory_eq, Memory.readLE_writeLE _ _ _ (Nat.le_refl 8),
    Nat.mod_eq_of_lt hlink]

-- A write outside the segment leaves its link alone.
theorem Fits.getLink_congr (h : s.Fits) (seg : Nat) (hsame : s.SameSizes t)
    (hstop : seg + s.segmentBytes ≤ 2 ^ 64)
    (hmemory : ∀ a, seg + s.linkOffset ≤ a → a < seg + s.segmentBytes →
      t.memory a = s.memory a) : t.getLink seg = s.getLink seg := by
  have hbytes := h.segmentBytes_eq
  have hword := h.word_le
  unfold getLink
  rw [hsame.linkAddr_eq, h.linkAddr_eq hstop]
  exact Memory.readLE_congr fun a hl hr => hmemory a hl (by omega)

-- What `push` needs to be right: the slot that it writes ends before the link.
structure HasRoom (s : Stack) : Prop where
  fits : s.Fits
  room : (s.size + 1) * s.elemSize ≤ s.linkOffset

-- The only segment holds the list, and has no segment before it.
structure Holds (s : Stack) (list : List Nat) : Prop where
  fits : s.Fits
  size_eq : s.curSegSize = list.length
  addr_pos : 0 < s.curSeg
  stop_le : s.curSeg + s.segmentBytes ≤ 2 ^ 64
  chunks_eq : s.chunks = [⟨s.curSeg, s.segmentBytes⟩]
  cache_eq : s.cache = 0
  cacheSize_eq : s.cacheSize = 0
  link_eq : s.getLink s.curSeg = 0
  room : list.length * s.elemSize ≤ s.linkOffset
  items : ∀ k x, list.reverse[k]? = some x →
    s.memory.readLE (s.curSeg + k * s.elemSize) s.elemSize = x

-- The segment waits in the cache, which it is alone in.
structure Waits (s : Stack) : Prop where
  fits : s.Fits
  segment_eq : s.curSeg = 0
  size_eq : s.curSegSize = s.segSize
  addr_pos : 0 < s.cache
  stop_le : s.cache + s.segmentBytes ≤ 2 ^ 64
  chunks_eq : s.chunks = [⟨s.cache, s.segmentBytes⟩]
  cacheSize_eq : s.cacheSize = 1
  link_eq : s.getLink s.cache = 0

structure Idle (s : Stack) : Prop where
  segment_eq : s.curSeg = 0
  size_eq : s.curSegSize = s.segSize
  chunks_eq : s.chunks = []
  cache_eq : s.cache = 0
  cacheSize_eq : s.cacheSize = 0

-- A run never has more than one segment: there is none, or it waits in the cache,
-- or it holds the whole list.
inductive Shape (s : Stack) : List Nat → Prop
  | idle (h : s.Idle) : Shape s []
  | cached (h : s.Waits) : Shape s []
  | active {item : Nat} {list : List Nat} (h : s.Holds (item :: list)) : Shape s (item :: list)

theorem Shape.size_eq (h : s.Shape list) (hfull : s.fullSegSize = 0) : s.size = list.length := by
  unfold size isEmpty
  cases h with
  | idle h => simp [h.segment_eq]
  | cached h => simp [h.segment_eq]
  | active h => simp [h.addr_pos.ne', hfull, h.size_eq]

theorem Shape.isEmpty_iff (h : s.Shape list) : s.isEmpty = true ↔ list = [] := by
  unfold isEmpty
  cases h with
  | idle h => simp [h.segment_eq]
  | cached h => simp [h.segment_eq]
  | active h => simp [h.addr_pos.ne']

-- Memory of others does not matter to a segment.
theorem Holds.congr {memory : Memory} (h : s.Holds list) (hset : s.Rewritten t memory)
    (hmemory : ∀ a, s.curSeg ≤ a → a < s.curSeg + s.segmentBytes → memory a = s.memory a) :
    t.Holds list where
  fits := hset.sizes.fits h.fits
  size_eq := by rw [hset.curSegSize_eq, h.size_eq]
  addr_pos := by rw [hset.curSeg_eq]; exact h.addr_pos
  stop_le := by rw [hset.curSeg_eq, hset.sizes.segmentBytes_eq]; exact h.stop_le
  chunks_eq := by
    rw [hset.chunks_eq, hset.curSeg_eq, hset.sizes.segmentBytes_eq]
    exact h.chunks_eq
  cache_eq := by rw [hset.cache_eq, h.cache_eq]
  cacheSize_eq := by rw [hset.cacheSize_eq, h.cacheSize_eq]
  link_eq := by
    rw [hset.curSeg_eq, ← h.link_eq]
    refine h.fits.getLink_congr _ hset.sizes h.stop_le fun a hl hr => ?_
    rw [hset.memory_eq]
    exact hmemory a (by omega) hr
  room := by rw [hset.sizes.elemSize_eq, hset.sizes.linkOffset_eq]; exact h.room
  items := by
    intro k x hk
    have hlt : k < list.length := by
      simpa using (List.getElem?_eq_some_iff.mp hk).1
    have hslot : (k + 1) * s.elemSize ≤ list.length * s.elemSize := Nat.mul_le_mul_right _ hlt
    rw [Nat.succ_mul] at hslot
    have hroom := h.room
    have hbytes := h.fits.segmentBytes_eq
    rw [hset.curSeg_eq, hset.sizes.elemSize_eq, hset.memory_eq, ← h.items k x hk]
    exact Memory.readLE_congr fun a hl hr => hmemory a (by omega) (by omega)

theorem Waits.congr {memory : Memory} (h : s.Waits) (hset : s.Rewritten t memory)
    (hmemory : ∀ a, s.cache ≤ a → a < s.cache + s.segmentBytes → memory a = s.memory a) :
    t.Waits where
  fits := hset.sizes.fits h.fits
  segment_eq := by rw [hset.curSeg_eq, h.segment_eq]
  size_eq := by rw [hset.curSegSize_eq, hset.sizes.segSize_eq, h.size_eq]
  addr_pos := by rw [hset.cache_eq]; exact h.addr_pos
  stop_le := by rw [hset.cache_eq, hset.sizes.segmentBytes_eq]; exact h.stop_le
  chunks_eq := by
    rw [hset.chunks_eq, hset.cache_eq, hset.sizes.segmentBytes_eq]
    exact h.chunks_eq
  cacheSize_eq := by rw [hset.cacheSize_eq, h.cacheSize_eq]
  link_eq := by
    rw [hset.cache_eq, ← h.link_eq]
    refine h.fits.getLink_congr _ hset.sizes h.stop_le fun a hl hr => ?_
    rw [hset.memory_eq]
    exact hmemory a (by omega) hr

theorem Shape.congr {memory : Memory} (h : s.Shape list) (hset : s.Rewritten t memory)
    (hmemory : ∀ c ∈ s.chunks, ∀ a, c.addr ≤ a → a < c.addr + c.size → memory a = s.memory a) :
    t.Shape list := by
  cases h with
  | idle h =>
      refine .idle ⟨?_, ?_, ?_, ?_, ?_⟩
      · rw [hset.curSeg_eq, h.segment_eq]
      · rw [hset.curSegSize_eq, hset.sizes.segSize_eq, h.size_eq]
      · rw [hset.chunks_eq, h.chunks_eq]
      · rw [hset.cache_eq, h.cache_eq]
      · rw [hset.cacheSize_eq, h.cacheSize_eq]
  | cached h =>
      rw [h.chunks_eq] at hmemory
      exact .cached (h.congr hset (hmemory _ List.mem_cons_self))
  | active h =>
      rw [h.chunks_eq] at hmemory
      exact .active (h.congr hset (hmemory _ List.mem_cons_self))

-- The next slot is free, and behind it comes the link.
theorem Holds.write {item : Nat} (h : s.Holds list) (hitem : item < 256 ^ s.elemSize)
    (hroom : (list.length + 1) * s.elemSize ≤ s.linkOffset) :
    ({ s with
      memory := s.memory.writeLE (s.curSeg + s.curSegSize * s.elemSize) s.elemSize item
      curSegSize := s.curSegSize + 1 } : Stack).Holds (item :: list) := by
  have hsize := h.size_eq
  have hbytes := h.fits.segmentBytes_eq
  have hend := hroom
  rw [Nat.succ_mul] at hend
  have hread := s.memory.readLE_writeLE (s.curSeg + s.curSegSize * s.elemSize) item
    (Nat.le_refl s.elemSize)
  have hother : ∀ a, a < s.curSeg + s.curSegSize * s.elemSize ∨
      s.curSeg + s.curSegSize * s.elemSize + s.elemSize ≤ a →
      s.memory.writeLE (s.curSeg + s.curSegSize * s.elemSize) s.elemSize item a = s.memory a :=
    fun a ha => Memory.writeLE_of_not _ _ ha
  generalize s.memory.writeLE (s.curSeg + s.curSegSize * s.elemSize) s.elemSize item = memory
    at hread hother ⊢
  rw [hsize] at hread hother
  have hset : s.SameSizes { s with memory := memory, curSegSize := s.curSegSize + 1 } :=
    ⟨rfl, rfl, rfl⟩
  refine ⟨hset.fits h.fits, ?_, h.addr_pos, ?_, ?_, h.cache_eq, h.cacheSize_eq, ?_, ?_, ?_⟩
  · rw [List.length_cons, ← hsize]
  · rw [hset.segmentBytes_eq]
    exact h.stop_le
  · rw [hset.segmentBytes_eq]
    exact h.chunks_eq
  · rw [← h.link_eq]
    exact h.fits.getLink_congr _ hset h.stop_le
      fun a (hl : s.curSeg + s.linkOffset ≤ a) _ => hother a (by omega)
  · rw [hset.linkOffset_eq]
    exact hroom
  · intro k x hk
    rw [List.reverse_cons] at hk
    rcases Nat.lt_trichotomy k list.length with hlt | rfl | hgt
    · rw [List.getElem?_append_left (by simpa using hlt)] at hk
      have hbefore : (k + 1) * s.elemSize ≤ list.length * s.elemSize :=
        Nat.mul_le_mul_right _ hlt
      rw [Nat.succ_mul] at hbefore
      rw [← h.items k x hk]
      exact Memory.readLE_congr fun a _ (hr : a < s.curSeg + k * s.elemSize + s.elemSize) =>
        hother a (by omega)
    · rw [List.getElem?_append_right (by simp)] at hk
      obtain rfl : item = x := by simpa using hk
      rw [Nat.mod_eq_of_lt hitem] at hread
      exact hread
    · rw [List.getElem?_eq_none (by simp; omega)] at hk
      cases hk

-- A segment that is linked in front of nothing.
theorem Fits.startSegment {seg : Nat} (h : s.Fits) (hempty : s.curSeg = 0) (hpos : 0 < seg)
    (hstop : seg + s.segmentBytes ≤ 2 ^ 64) (hchunks : s.chunks = [⟨seg, s.segmentBytes⟩])
    (hcache : s.cache = 0) (hcached : s.cacheSize = 0) :
    (s.startSegment seg).Holds [] ∧ s.SameSizes (s.startSegment seg) := by
  have hset := s.setLink_rewritten seg 0
  have hlink : (s.setLink seg 0).getLink seg = 0 := getLink_setLink (by decide)
  have hfull : s.fullSegSize + (if s.isEmpty then 0 else s.segSize) = s.fullSegSize := by
    simp [isEmpty, hempty]
  unfold Stack.startSegment
  simp only
  rw [hfull, hempty]
  generalize s.setLink seg 0 = t at hset hlink ⊢
  have hsame : s.SameSizes
      { t with curSeg := seg, curSegSize := 0, fullSegSize := s.fullSegSize } :=
    ⟨hset.sizes.elemSize_eq, hset.sizes.segSize_eq, rfl⟩
  refine ⟨⟨hsame.fits h, rfl, hpos, ?_, ?_, ?_, ?_, ?_, ?_, ?_⟩, hsame⟩
  · rw [hsame.segmentBytes_eq]
    exact hstop
  · rw [hsame.segmentBytes_eq, ← hchunks]
    exact hset.chunks_eq
  · exact hset.cache_eq.trans hcache
  · exact hset.cacheSize_eq.trans hcached
  · have hbytes := hset.sizes.segmentBytes_eq
    have hback : t.SameSizes
        { t with curSeg := seg, curSegSize := 0, fullSegSize := s.fullSegSize } :=
      ⟨rfl, rfl, hset.sizes.fullSegSize_eq.symm⟩
    have hkept := (hset.sizes.fits h).getLink_congr seg hback (by rw [hbytes]; exact hstop)
      fun a _ _ => rfl
    exact hkept.trans hlink
  · simp
  · simp

theorem Shape.pushSegment {addr : Nat} (h : s.Shape []) (hfits : s.Fits)
    (hfresh : s.chunks = [] → s.Fresh addr) :
    ∃ t, s.pushSegment addr = some t ∧ t.Holds [] ∧ s.SameSizes t := by
  unfold Stack.pushSegment takeSegment
  cases h with
  | idle h =>
      have hnew := hfresh h.chunks_eq
      have hsame : s.SameSizes { s with chunks := [⟨addr, s.segmentBytes⟩] } := ⟨rfl, rfl, rfl⟩
      have hbytes := hsame.segmentBytes_eq
      have halloc : s.alloc addr = some { s with chunks := [⟨addr, s.segmentBytes⟩] } := by
        rw [alloc, if_pos hnew, h.chunks_eq]
      rw [if_neg (by rw [h.cacheSize_eq]; omega), halloc]
      obtain ⟨hpos, hstop, _⟩ := hnew
      obtain ⟨holds, hstart⟩ := (hsame.fits hfits).startSegment h.segment_eq hpos
        (by rw [hbytes]; exact hstop) (by rw [hbytes]) h.cache_eq h.cacheSize_eq
      exact ⟨_, rfl, holds, hsame.trans hstart⟩
  | cached h =>
      have hsame : s.SameSizes { s with cache := 0, cacheSize := 0 } := ⟨rfl, rfl, rfl⟩
      have hbytes := hsame.segmentBytes_eq
      rw [if_pos (by rw [h.cacheSize_eq]; omega), h.link_eq, h.cacheSize_eq]
      obtain ⟨holds, hstart⟩ := (hsame.fits hfits).startSegment h.segment_eq h.addr_pos
        (by rw [hbytes]; exact h.stop_le) (by rw [hbytes]; exact h.chunks_eq) rfl rfl
      exact ⟨_, rfl, holds, hsame.trans hstart⟩

-- The first push takes a segment. No later one does, as the room ends before the
-- segment is full.
theorem Shape.push {item addr : Nat} (h : s.Shape list) (hseg : 0 < s.segSize)
    (hfull : s.fullSegSize = 0) (hroom : s.HasRoom) (hitem : item < 256 ^ s.elemSize)
    (hfresh : s.chunks = [] → s.Fresh addr) :
    ∃ t, s.push item addr = some t ∧ t.Shape (item :: list) ∧ s.SameSizes t := by
  have hslot := hroom.room
  rw [h.size_eq hfull] at hslot
  have hspace : ∃ t, (if s.curSegSize = s.segSize then s.pushSegment addr else some s) = some t ∧
      t.Holds list ∧ s.SameSizes t := by
    cases h with
    | idle h =>
        rw [if_pos h.size_eq]
        exact (Shape.idle h).pushSegment hroom.fits hfresh
    | cached h =>
        rw [if_pos h.size_eq]
        exact (Shape.cached h).pushSegment hroom.fits hfresh
    | active h =>
        refine ⟨s, if_neg fun heq => ?_, h, .refl s⟩
        have hlast := hroom.fits.linkOffset_lt hseg
        rw [← heq, h.size_eq] at hlast
        exact absurd h.room (by omega)
  obtain ⟨t, ht, holds, hsame⟩ := hspace
  rw [← hsame.elemSize_eq] at hitem hslot
  rw [← hsame.linkOffset_eq] at hslot
  unfold Stack.push
  rw [ht]
  exact ⟨_, rfl, .active (holds.write hitem hslot),
    hsame.elemSize_eq, hsame.segSize_eq, hsame.fullSegSize_eq⟩

-- Without a segment there is a push only where `malloc` has an address.
theorem Shape.fresh_of_push {item addr : Nat} (h : s.Shape list) (hpush : s.push item addr = some t)
    (hchunks : s.chunks = []) : s.Fresh addr := by
  cases h with
  | idle h =>
      obtain ⟨u, hu, -⟩ := Option.map_eq_some_iff.mp hpush
      rw [if_pos h.size_eq] at hu
      obtain ⟨r, hr, -⟩ := Option.map_eq_some_iff.mp hu
      unfold takeSegment at hr
      rw [if_neg (by rw [h.cacheSize_eq]; omega)] at hr
      obtain ⟨v, hv, -⟩ := Option.map_eq_some_iff.mp hr
      exact (guard_eq_some.mp hv).1
  | cached h => simp [h.chunks_eq] at hchunks
  | active h => simp [h.chunks_eq] at hchunks

theorem Holds.length_lt (h : s.Holds list) : list.length < 2 ^ 64 := by
  have hword := h.fits.word_le
  have hbytes := h.fits.bytes_lt
  have hroom := h.room
  have hle : list.length * 1 ≤ list.length * s.elemSize := Nat.mul_le_mul_left _ (by omega)
  omega

theorem Holds.tail {item : Nat} (h : s.Holds (item :: list)) :
    ({ s with curSegSize := list.length } : Stack).Holds list := by
  have hsame : s.SameSizes { s with curSegSize := list.length } := ⟨rfl, rfl, rfl⟩
  have hroom := h.room
  rw [List.length_cons, Nat.succ_mul] at hroom
  refine ⟨hsame.fits h.fits, rfl, h.addr_pos, h.stop_le, h.chunks_eq, h.cache_eq, h.cacheSize_eq,
    h.link_eq, ?_, fun k x hk => ?_⟩
  · rw [hsame.linkOffset_eq]
    exact Nat.le_of_add_right_le hroom
  · refine h.items k x ?_
    rw [List.reverse_cons, List.getElem?_append_left]
    · exact hk
    · exact (List.getElem?_eq_some_iff.mp hk).1

theorem Holds.free (h : s.Holds list) : s.free s.curSeg = some { s with chunks := [] } := by
  unfold Stack.free
  rw [h.chunks_eq, if_pos ⟨_, List.mem_singleton_self _, rfl⟩]
  simp

theorem Holds.dropSegment (h : s.Holds []) :
    ∃ t, s.dropSegment = some t ∧ s.SameSizes t ∧
      ({ t with curSeg := 0, curSegSize := t.segSize } : Stack).Shape [] := by
  unfold Stack.dropSegment
  split_ifs with hroom
  · have hset := s.setLink_rewritten s.curSeg s.cache
    have hlink : (s.setLink s.curSeg s.cache).getLink s.curSeg = 0 := by
      rw [h.cache_eq]
      exact getLink_setLink (by decide)
    generalize s.setLink s.curSeg s.cache = t at hset hlink ⊢
    refine ⟨_, rfl, ⟨hset.sizes.elemSize_eq, hset.sizes.segSize_eq, hset.sizes.fullSegSize_eq⟩,
      .cached ?_⟩
    have hsame : t.SameSizes { t with
        curSeg := 0, curSegSize := t.segSize, cache := s.curSeg, cacheSize := s.cacheSize + 1 } :=
      ⟨rfl, rfl, rfl⟩
    have hfits := hset.sizes.fits h.fits
    have hbytes := hset.sizes.segmentBytes_eq
    have hstop : s.curSeg + t.segmentBytes ≤ 2 ^ 64 := by
      rw [hbytes]
      exact h.stop_le
    refine ⟨hsame.fits hfits, rfl, rfl, h.addr_pos, ?_, ?_, ?_, ?_⟩
    · rw [hsame.segmentBytes_eq]
      exact hstop
    · rw [hsame.segmentBytes_eq, hbytes, ← h.chunks_eq]
      exact hset.chunks_eq
    · exact congrArg (· + 1) h.cacheSize_eq
    · exact (hfits.getLink_congr s.curSeg hsame hstop fun a _ _ => rfl).trans hlink
  · exact ⟨_, h.free, ⟨rfl, rfl, rfl⟩, .idle ⟨rfl, rfl, rfl, h.cache_eq, h.cacheSize_eq⟩⟩

-- The last element is gone, and its segment with it.
theorem Holds.popSegment (h : s.Holds []) (hfull : s.fullSegSize = 0) :
    ∃ t, s.popSegment = some t ∧ t.Shape [] ∧ s.SameSizes t := by
  obtain ⟨t, ht, hsame, hshape⟩ := h.dropSegment
  have hzero : t.fullSegSize < 2 ^ 64 := by
    rw [hsame.fullSegSize_eq, hfull]
    decide
  unfold Stack.popSegment
  rw [h.link_eq, ht]
  simp only [Option.map_some, if_true, usizeSub_zero hzero]
  exact ⟨_, rfl, hshape, hsame.elemSize_eq, hsame.segSize_eq, hsame.fullSegSize_eq⟩

theorem Shape.pop (h : s.Shape list) (hfull : s.fullSegSize = 0) :
    ∃ t, s.pop = some (list.head?, t) ∧ t.Shape list.tail ∧ s.SameSizes t := by
  have hempty := h.isEmpty_iff
  unfold Stack.pop
  cases h with
  | idle h =>
      rw [if_pos (hempty.mpr rfl)]
      exact ⟨s, rfl, .idle h, .refl s⟩
  | cached h =>
      rw [if_pos (hempty.mpr rfl)]
      exact ⟨s, rfl, .cached h, .refl s⟩
  | @active item list h =>
      have hsub : usizeSub s.curSegSize 1 = list.length := by
        have hlength := h.length_lt
        rw [h.size_eq]
        exact usizeSub_of_le (Nat.succ_pos _) hlength
      have hread : s.memory.readLE (s.curSeg + list.length * s.elemSize) s.elemSize = item := by
        refine h.items _ _ ?_
        rw [List.reverse_cons, List.getElem?_append_right (by simp)]
        simp
      rw [if_neg (by simp [hempty])]
      simp only [hsub, hread, List.head?_cons, List.tail_cons]
      cases list with
      | nil =>
          obtain ⟨t, ht, hshape, hsame⟩ := h.tail.popSegment hfull
          rw [List.length_nil] at ht
          rw [List.length_nil, if_pos rfl, ht]
          exact ⟨t, rfl, hshape, hsame.elemSize_eq, hsame.segSize_eq, hsame.fullSegSize_eq⟩
      | cons next list =>
          rw [if_neg (by simp)]
          exact ⟨_, rfl, .active h.tail, rfl, rfl, rfl⟩

theorem freeSegments_zero (s : Stack) (fuel : Nat) : s.freeSegments fuel 0 = some s := by
  cases fuel with
  | zero => rfl
  | succ fuel => rfl

theorem freeSegments_one {seg : Nat} (hpos : 0 < seg) (hlink : s.getLink seg = 0)
    (hfree : s.free seg = some t) : s.freeSegments 1 seg = some t := by
  unfold freeSegments
  rw [if_neg (by omega), hfree, hlink, Option.bind_some]
  exact t.freeSegments_zero 0

theorem Waits.free (h : s.Waits) : s.free s.cache = some { s with chunks := [] } := by
  unfold Stack.free
  rw [h.chunks_eq, if_pos ⟨_, List.mem_singleton_self _, rfl⟩]
  simp

theorem Shape.clear (h : s.Shape list) (hfull : s.fullSegSize = 0) (resetCache : Bool) :
    ∃ t, s.clear resetCache = some t ∧ t.Shape [] ∧ s.SameSizes t := by
  unfold Stack.clear
  cases h with
  | idle h =>
      rw [h.segment_eq, freeSegments_zero]
      simp only [Option.bind_some, h.cache_eq, freeSegments_zero, ite_self, Option.map_some]
      refine ⟨_, rfl, .idle ⟨rfl, rfl, h.chunks_eq, ?_, ?_⟩, rfl, rfl, hfull.symm⟩
      · simp [reset, h.cache_eq]
      · simp [reset, h.cacheSize_eq]
  | cached h =>
      rw [h.segment_eq, freeSegments_zero]
      simp only [Option.bind_some, h.chunks_eq, List.length_singleton]
      cases resetCache with
      | true =>
          rw [if_pos rfl, freeSegments_one h.addr_pos h.link_eq h.free]
          exact ⟨_, rfl, .idle ⟨rfl, rfl, rfl, rfl, rfl⟩, rfl, rfl, hfull.symm⟩
      | false =>
          have hsame : s.SameSizes (s.reset false) := ⟨rfl, rfl, hfull.symm⟩
          have hlink := h.fits.getLink_congr _ hsame h.stop_le fun a _ _ => rfl
          refine ⟨_, rfl, .cached ⟨hsame.fits h.fits, rfl, rfl, h.addr_pos, ?_, ?_, h.cacheSize_eq,
            hlink.trans h.link_eq⟩, hsame⟩
          · rw [hsame.segmentBytes_eq]
            exact h.stop_le
          · rw [hsame.segmentBytes_eq]
            exact h.chunks_eq
  | active h =>
      rw [h.chunks_eq, List.length_singleton, freeSegments_one h.addr_pos h.link_eq h.free]
      simp only [Option.bind_some, h.cache_eq, freeSegments_zero, ite_self, Option.map_some]
      refine ⟨_, rfl, .idle ⟨rfl, rfl, rfl, ?_, ?_⟩, rfl, rfl, hfull.symm⟩
      · simp [reset]
      · simp [reset, h.cacheSize_eq]

end Stack

end Rsgc.Utils
