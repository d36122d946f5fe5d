import Rsgc.Lib.Tiling
import Rsgc.Storage.Region

namespace Rsgc.Storage

inductive BlockKind
  | object
  | free
  | tail
deriving DecidableEq, Repr

-- A block of a region: an object, a free block of its list, or memory that was
-- handed out and holds no object yet.
abbrev Space := Block BlockKind

def Entry.space (e : Entry) : Space := ⟨e.addr, e.size, .free⟩

namespace HeapRegion

variable {r r' : HeapRegion} {held : List Space}

def freeBlocks (r : HeapRegion) : List Space := r.freeList.entries.map Entry.space

def whole (r : HeapRegion) : Space := ⟨r.bottom, r.limit - r.bottom, .free⟩

-- What the memory and the bitmap of a region say about one of its blocks.
def Described (r : HeapRegion) (b : Space) : Prop :=
  16 ∣ b.size ∧
    match b.kind with
    | .object => r.words b.addr = ⟨b.size, false⟩ ∧ r.objectStartBitmap b.addr = true
    | .free => r.words b.addr = ⟨b.size, true⟩
    | .tail => True

structure Filled (r : HeapRegion) (blocks : List Space) : Prop where
  covers : Covers r.bottom r.limit blocks
  described : ∀ b ∈ blocks, r.Described b

-- `held` are the blocks of the region that are not on its free list.
def Layout (r : HeapRegion) (held : List Space) : Prop :=
  match r.typ with
  | .regular => r.Filled (held ++ r.freeBlocks)
  | .humongousStart =>
      r.freeList.entries = [] ∧ (∀ a, r.objectStartBitmap a = false) ∧
        ∃ size, held = [⟨r.bottom, size, .object⟩] ∧ 0 < size ∧ r.words r.bottom = ⟨size, false⟩
  | .humongousCont => held = [] ∧ r.freeList.entries = [] ∧ ∀ a, r.objectStartBitmap a = false
  | .emptyUncommited | .emptyCommited =>
      held = [] ∧ r.freeList.entries = [] ∧ r.freeList.free = 0 ∧
        ∀ a, r.objectStartBitmap a = false
  | .trash =>
      held = [] ∧ (r.freeBlocks = [] ∨ r.freeBlocks = [r.whole]) ∧
        ∀ a, r.objectStartBitmap a = false

-- The fields that the allocator never changes.
structure SameFrame (r r' : HeapRegion) : Prop where
  bottom_eq : r'.bottom = r.bottom
  limit_eq : r'.limit = r.limit
  index_eq : r'.index = r.index
  toSweep_eq : r'.toSweep = r.toSweep

theorem SameFrame.refl (r : HeapRegion) : SameFrame r r := ⟨rfl, rfl, rfl, rfl⟩

theorem SameFrame.trans {r'' : HeapRegion} (h : SameFrame r r') (h' : SameFrame r' r'') :
    SameFrame r r'' where
  bottom_eq := h'.bottom_eq.trans h.bottom_eq
  limit_eq := h'.limit_eq.trans h.limit_eq
  index_eq := h'.index_eq.trans h.index_eq
  toSweep_eq := h'.toSweep_eq.trans h.toSweep_eq

-- Memory and bitmap may only differ inside `c`.
def AgreesOutside (r r' : HeapRegion) (c : Space) : Prop :=
  ∀ a, a < c.addr ∨ c.stop ≤ a →
    r'.words a = r.words a ∧ r'.objectStartBitmap a = r.objectStartBitmap a

theorem AgreesOutside.described {c b : Space} (h : r.AgreesOutside r' c) (hapart : c.Apart b)
    (hpos : 0 < b.size) (hb : r.Described b) : r'.Described b := by
  have haway : b.addr < c.addr ∨ c.stop ≤ b.addr := by
    unfold Block.Apart Block.stop at hapart
    unfold Block.stop
    omega
  obtain ⟨hwords, hbitmap⟩ := h b.addr haway
  unfold Described at hb ⊢
  rw [hwords, hbitmap]
  exact hb

-- The one way in which a regular region changes between two sweeps: the extent
-- of a block is divided anew, and only the headers in it are written.
theorem Filled.exchange {c : Space} {rest : List Space} (h : r.Filled (c :: rest))
    (inner : List Space) (hframe : r.SameFrame r') (hinner : Tiled c.addr c.stop inner)
    (hdescribed : ∀ b ∈ inner, r'.Described b) (hagree : r.AgreesOutside r' c) :
    r'.Filled (inner ++ rest) where
  covers := by
    rw [hframe.bottom_eq, hframe.limit_eq]
    exact h.covers.replace hinner
  described := by
    intro b hb
    rcases List.mem_append.mp hb with hb | hb
    · exact hdescribed b hb
    · have hapart := (List.pairwise_cons.mp h.covers.pairwise_apart).1 b hb
      have hpos := h.covers.size_pos (List.mem_cons_of_mem c hb)
      exact hagree.described hapart hpos (h.described b (List.mem_cons_of_mem c hb))

theorem Filled.perm {blocks blocks' : List Space} (h : r.Filled blocks)
    (hperm : blocks.Perm blocks') : r.Filled blocks' where
  covers := h.covers.perm hperm
  described := fun b hb => h.described b (hperm.mem_iff.mpr hb)

theorem Layout.perm {held' : List Space} (h : r.Layout held) (hperm : held.Perm held') :
    r.Layout held' := by
  unfold Layout at h ⊢
  cases htyp : r.typ with
  | regular =>
      rw [htyp] at h
      exact Filled.perm h (hperm.append_right _)
  | humongousStart =>
      rw [htyp] at h
      obtain ⟨hentries, hbitmap, size, rfl, hsize⟩ := h
      exact ⟨hentries, hbitmap, size, List.perm_singleton.mp hperm.symm, hsize⟩
  | humongousCont | emptyUncommited | emptyCommited | trash =>
      rw [htyp] at h
      obtain ⟨rfl, hrest⟩ := h
      exact ⟨hperm.symm.eq_nil, hrest⟩

theorem freeBlocks_add {l : FreeList} {addr size : Nat} (h : r.freeList.add addr size = .ok l)
    (hdvd : 16 ∣ size) :
    (l.entries.map Entry.space).Perm (⟨addr, size, .free⟩ :: r.freeBlocks) := by
  obtain ⟨hne, ⟨hsmall, _⟩ | ⟨_, _, hperm⟩⟩ := FreeList.add_cases h
  · unfold ENTRY_SIZE at hsmall
    omega
  · rw [storedSize_of_dvd hdvd] at hperm
    exact hperm.map Entry.space

theorem addFree_eq_ok {addr size : Nat} (h : r.addFree addr size = .ok r') :
    ∃ l, r.freeList.add addr size = .ok l ∧ r' = { r with
      freeList := l, words := Function.update r.words addr ⟨storedSize size, true⟩ } := by
  simp only [addFree, Except.bind_eq_ok, Except.pure_eq_ok] at h
  obtain ⟨l, hadd, rfl⟩ := h
  exact ⟨l, hadd, rfl⟩

theorem addFree_sameFrame {addr size : Nat} (h : r.addFree addr size = .ok r') :
    r.SameFrame r' ∧ r'.typ = r.typ := by
  obtain ⟨l, _, rfl⟩ := addFree_eq_ok h
  exact ⟨⟨rfl, rfl, rfl, rfl⟩, rfl⟩

-- A block that is handed out and empty goes to the free list.
theorem Filled.giveBack {addr size : Nat} {rest : List Space}
    (h : r.Filled (⟨addr, size, .tail⟩ :: rest ++ r.freeBlocks))
    (hadd : r.addFree addr size = .ok r') : r'.Filled (rest ++ r'.freeBlocks) := by
  obtain ⟨l, hl, rfl⟩ := addFree_eq_ok hadd
  have hdvd : 16 ∣ size := (h.described _ List.mem_cons_self).1
  have hpos : 0 < size := h.covers.size_pos (b := ⟨addr, size, .tail⟩) List.mem_cons_self
  have hfilled : { r with
      freeList := l, words := Function.update r.words addr ⟨storedSize size, true⟩ }.Filled
        (⟨addr, size, .free⟩ :: (rest ++ r.freeBlocks)) := by
    refine h.exchange [⟨addr, size, .free⟩] ⟨rfl, rfl, rfl, rfl⟩ ⟨rfl, hpos, rfl⟩ ?_ ?_
    · intro b hb
      obtain rfl := List.mem_singleton.mp hb
      exact ⟨hdvd, by simp [storedSize_of_dvd hdvd]⟩
    · intro a ha
      have hne : a ≠ addr := by
        unfold Block.stop at ha
        simp only at ha
        omega
      simp [Function.update_of_ne hne]
  have hfront : (rest ++ ⟨addr, size, .free⟩ :: r.freeBlocks).Perm
      (⟨addr, size, .free⟩ :: (rest ++ r.freeBlocks)) := List.perm_middle
  have hperm := (freeBlocks_add hl hdvd).append_left rest
  exact hfilled.perm (hfront.symm.trans hperm.symm)

-- The first `kept` bytes of a handed out block become an object.
theorem Filled.carve {addr size kept : Nat} {rest : List Space}
    (h : r.Filled (⟨addr, size, .tail⟩ :: rest)) (hdvd : 16 ∣ kept) (hpos : 0 < kept)
    (hle : kept ≤ size) :
    ((r.setStartBit addr).writeHeader addr kept).Filled (⟨addr, kept, .object⟩ ::
      (if kept = size then rest else ⟨addr + kept, size - kept, .tail⟩ :: rest)) := by
  have hsize : 16 ∣ size := (h.described _ List.mem_cons_self).1
  have hobject : ((r.setStartBit addr).writeHeader addr kept).Described ⟨addr, kept, .object⟩ :=
    ⟨hdvd, by simp [writeHeader, setStartBit, storedSize_of_dvd hdvd]⟩
  have hagree : r.AgreesOutside ((r.setStartBit addr).writeHeader addr kept)
      ⟨addr, size, .tail⟩ := by
    intro a ha
    have hne : a ≠ addr := by
      unfold Block.stop at ha
      simp only at ha
      omega
    simp [writeHeader, setStartBit, Function.update_of_ne hne]
  by_cases hkept : kept = size
  · rw [if_pos hkept]
    refine h.exchange [⟨addr, kept, .object⟩] ⟨rfl, rfl, rfl, rfl⟩ ?_ ?_ hagree
    · exact ⟨rfl, hpos, by simp [Tiled, Block.stop, hkept]⟩
    · intro b hb
      obtain rfl := List.mem_singleton.mp hb
      exact hobject
  · rw [if_neg hkept]
    refine h.exchange [⟨addr, kept, .object⟩, ⟨addr + kept, size - kept, .tail⟩]
      ⟨rfl, rfl, rfl, rfl⟩ ?_ ?_ hagree
    · exact ⟨rfl, hpos, rfl, by simp only; omega, by simp only [Tiled, Block.stop]; omega⟩
    · intro b hb
      rcases List.mem_pair.mp hb with rfl | rfl
      · exact hobject
      · exact ⟨Nat.dvd_sub hsize hdvd, trivial⟩

theorem makeRegularAllocation_cases (h : r.makeRegularAllocation = .ok r') :
    (r.isEmpty = false ∧ r' = { r with typ := .regular }) ∨
    (r.isEmpty = true ∧ ∃ filled, r.addFree r.bottom r.size = .ok filled ∧
      r' = { filled with typ := .regular }) := by
  unfold makeRegularAllocation at h
  cases hempty : r.isEmpty with
  | false =>
      simp only [hempty, Bool.false_eq_true, if_false, Except.pure_bind', Except.pure_eq_ok] at h
      exact Or.inl ⟨rfl, h.symm⟩
  | true =>
      simp only [hempty, if_true, Except.bind_eq_ok, Except.pure_eq_ok] at h
      obtain ⟨filled, hadd, rfl⟩ := h
      exact Or.inr ⟨rfl, filled, hadd, rfl⟩

-- Everything `allocate` can do once the region is regular.
theorem allocate_cases {size : Nat} {mem : Option Nat} (h : r.allocate size = .ok (mem, r')) :
    ∃ base, r.makeRegularAllocation = .ok base ∧
      (((base.freeList.allocate size).1 = none ∧ mem = none ∧
          r' = { base with freeList := (base.freeList.allocate size).2 }) ∨
        ∃ entry, (base.freeList.allocate size).1 = some entry ∧ mem = some entry.addr ∧
          size ≤ entry.size ∧
          ((size = entry.size ∧ r' = { base with
              freeList := (base.freeList.allocate size).2, used := base.used + entry.size }) ∨
            (size < entry.size ∧ ∃ filled,
              { base with freeList := (base.freeList.allocate size).2 }.addFree
                (entry.addr + size) (entry.size - size) = .ok filled ∧
              r' = { filled with used := base.used + (entry.size - (entry.size - size)) }))) := by
  simp only [allocate, Except.bind_eq_ok] at h
  obtain ⟨base, hbase, h⟩ := h
  refine ⟨base, hbase, ?_⟩
  cases hfound : (base.freeList.allocate size).1 with
  | none =>
      simp only [hfound, Except.pure_eq_ok, Prod.mk.injEq] at h
      exact Or.inl ⟨rfl, h.1.symm, h.2.symm⟩
  | some entry =>
      obtain ⟨hle, _, _⟩ := FreeList.allocate_some hfound
      refine Or.inr ⟨entry, rfl, ?_⟩
      simp only [hfound, splitEntry] at h
      by_cases hlt : size < entry.size
      · simp only [if_pos hlt, Except.bind_eq_ok, Except.pure_eq_ok, Prod.mk.injEq] at h
        obtain ⟨filled, hadd, hmem, rfl⟩ := h
        exact ⟨hmem.symm, hle, Or.inr ⟨hlt, filled, hadd, rfl⟩⟩
      · simp only [if_neg hlt, Except.pure_eq_ok, Prod.mk.injEq] at h
        exact ⟨h.1.symm, hle, Or.inl ⟨by omega, h.2.symm⟩⟩

theorem makeRegularAllocation_sameFrame (h : r.makeRegularAllocation = .ok r') :
    r.SameFrame r' ∧ r'.typ = .regular := by
  rcases makeRegularAllocation_cases h with ⟨_, rfl⟩ | ⟨_, filled, hadd, rfl⟩
  · exact ⟨⟨rfl, rfl, rfl, rfl⟩, rfl⟩
  · obtain ⟨hframe, _⟩ := addFree_sameFrame hadd
    exact ⟨⟨hframe.bottom_eq, hframe.limit_eq, hframe.index_eq, hframe.toSweep_eq⟩, rfl⟩

theorem allocate_sameFrame {size : Nat} {mem : Option Nat} (h : r.allocate size = .ok (mem, r')) :
    r.SameFrame r' ∧ r'.typ = .regular := by
  obtain ⟨base, hbase, ⟨_, _, rfl⟩ | ⟨entry, _, _, _, ⟨_, rfl⟩ | ⟨_, filled, hadd, rfl⟩⟩⟩ :=
    allocate_cases h
  · obtain ⟨hframe, htyp⟩ := makeRegularAllocation_sameFrame hbase
    exact ⟨⟨hframe.bottom_eq, hframe.limit_eq, hframe.index_eq, hframe.toSweep_eq⟩, htyp⟩
  · obtain ⟨hframe, htyp⟩ := makeRegularAllocation_sameFrame hbase
    exact ⟨⟨hframe.bottom_eq, hframe.limit_eq, hframe.index_eq, hframe.toSweep_eq⟩, htyp⟩
  · obtain ⟨hframe, htyp⟩ := makeRegularAllocation_sameFrame hbase
    obtain ⟨hframe', htyp'⟩ := addFree_sameFrame hadd
    exact ⟨⟨hframe'.bottom_eq.trans hframe.bottom_eq, hframe'.limit_eq.trans hframe.limit_eq,
      hframe'.index_eq.trans hframe.index_eq, hframe'.toSweep_eq.trans hframe.toSweep_eq⟩,
      htyp'.trans htyp⟩

theorem Layout.makeRegular (h : r.Layout held) (hallowed : r.isAllocAllowed = true)
    (hdvd : 16 ∣ r.size) (hlt : r.bottom < r.limit) (hok : r.makeRegularAllocation = .ok r') :
    r'.Filled (held ++ r'.freeBlocks) := by
  rcases makeRegularAllocation_cases hok with ⟨hempty, rfl⟩ | ⟨hempty, filled, hadd, rfl⟩
  · have htyp : r.typ = .regular := by
      simpa [isAllocAllowed, hempty] using hallowed
    unfold Layout at h
    rw [htyp] at h
    exact ⟨h.covers, h.described⟩
  · have hvacant : held = [] ∧ r.freeList.entries = [] := by
      unfold Layout at h
      unfold isEmpty at hempty
      rcases htyp : r.typ <;> simp [htyp] at h hempty
      · exact ⟨h.1, h.2.1⟩
      · exact ⟨h.1, h.2.1⟩
    obtain ⟨rfl, hentries⟩ := hvacant
    have htail : r.Filled (⟨r.bottom, r.size, .tail⟩ :: [] ++ r.freeBlocks) := by
      have hstop : r.bottom + r.size = r.limit := by
        unfold size
        omega
      have hpos : 0 < r.size := by
        unfold size
        omega
      refine ⟨?_, ?_⟩
      · unfold freeBlocks
        rw [hentries]
        exact Covers.of_tiled ⟨rfl, hpos, hstop⟩
      · intro b hb
        simp [freeBlocks, hentries] at hb
        subst hb
        exact ⟨hdvd, trivial⟩
    have hfilled := htail.giveBack hadd
    exact ⟨hfilled.covers, hfilled.described⟩

-- The block that the free list finds is handed out as a whole first.
theorem Filled.take {size : Nat} {entry : Entry} (h : r.Filled (held ++ r.freeBlocks))
    (hfound : (r.freeList.allocate size).1 = some entry) :
    { r with freeList := (r.freeList.allocate size).2 }.Filled
      (⟨entry.addr, entry.size, .tail⟩ ::
        (held ++ (r.freeList.allocate size).2.entries.map Entry.space)) := by
  obtain ⟨_, _, hperm⟩ := FreeList.allocate_some hfound
  have hfront : (held ++ r.freeBlocks).Perm
      (entry.space :: (held ++ (r.freeList.allocate size).2.entries.map Entry.space)) :=
    ((hperm.map Entry.space).append_left held).trans List.perm_middle
  have hblocks := h.perm hfront
  have hpos : 0 < entry.size := hblocks.covers.size_pos (b := entry.space) List.mem_cons_self
  have hdvd : 16 ∣ entry.size := (hblocks.described _ List.mem_cons_self).1
  refine hblocks.exchange [⟨entry.addr, entry.size, .tail⟩] ⟨rfl, rfl, rfl, rfl⟩
    ⟨rfl, hpos, rfl⟩ ?_ ?_
  · intro b hb
    obtain rfl := List.mem_singleton.mp hb
    exact ⟨hdvd, trivial⟩
  · intro a _
    exact ⟨rfl, rfl⟩

theorem Filled.cut {addr size kept : Nat} {rest : List Space}
    (h : r.Filled (⟨addr, size, .tail⟩ :: rest)) (hdvd : 16 ∣ kept) (hpos : 0 < kept)
    (hlt : kept < size) :
    r.Filled (⟨addr, kept, .tail⟩ :: ⟨addr + kept, size - kept, .tail⟩ :: rest) where
  covers := h.covers.split hpos hlt
  described := by
    have hsize : 16 ∣ size := (h.described _ List.mem_cons_self).1
    intro b hb
    rcases List.mem_cons.mp hb with rfl | hb
    · exact ⟨hdvd, trivial⟩
    rcases List.mem_cons.mp hb with rfl | hb
    · exact ⟨Nat.dvd_sub hsize hdvd, trivial⟩
    · exact h.described b (List.mem_cons_of_mem _ hb)

-- `allocate` hands out exactly the bytes it was asked for, from inside a free
-- block; what is left of that block stays on the free list.
theorem Layout.allocate {size : Nat} {mem : Option Nat} (h : r.Layout held)
    (hallowed : r.isAllocAllowed = true) (hregion : 16 ∣ r.size) (hlt : r.bottom < r.limit)
    (hdvd : 16 ∣ size) (hpos : 0 < size) (hok : r.allocate size = .ok (mem, r')) :
    r'.Filled ((mem.toList.map fun addr => ⟨addr, size, .tail⟩) ++ held ++ r'.freeBlocks) := by
  obtain ⟨base, hbase, hcases⟩ := allocate_cases hok
  have hfilled := h.makeRegular hallowed hregion hlt hbase
  rcases hcases with ⟨hnone, rfl, rfl⟩ | ⟨entry, hfound, rfl, _, hrest⟩
  · obtain ⟨_, hentries⟩ := FreeList.allocate_none hnone
    refine ⟨?_, ?_⟩
    · simpa [freeBlocks, hentries] using hfilled.covers
    · intro b hb
      apply hfilled.described b
      simpa [freeBlocks, hentries] using hb
  · have htaken := hfilled.take hfound
    rcases hrest with ⟨heq, rfl⟩ | ⟨hsmall, filled, hadd, rfl⟩
    · rw [← heq] at htaken
      exact ⟨htaken.covers, htaken.described⟩
    · have hcut := htaken.cut hdvd hpos hsmall
      have hgiven : filled.Filled (⟨entry.addr, size, .tail⟩ :: held ++ filled.freeBlocks) :=
        (hcut.perm (List.Perm.swap _ _ _)).giveBack hadd
      exact ⟨hgiven.covers, hgiven.described⟩

theorem Layout.recycle (h : r.Layout held) (htrash : r.isTrash = true) :
    held = [] ∧ r.recycle.Layout [] := by
  have htyp : r.typ = .trash := by simpa [isTrash] using htrash
  unfold Layout at h
  rw [htyp] at h
  refine ⟨h.1, ?_⟩
  simp [Layout, HeapRegion.recycle, htrash]

theorem layout_of_filled (htyp : r.typ = .regular) (h : r.Filled (held ++ r.freeBlocks)) :
    r.Layout held := by
  unfold Layout
  rw [htyp]
  exact h

theorem Layout.filled (h : r.Layout held) (htyp : r.typ = .regular) :
    r.Filled (held ++ r.freeBlocks) := by
  unfold Layout at h
  rwa [htyp] at h

-- Memory that is handed out can only be found in a regular region.
theorem Layout.filled_of_tail {b : Space} (h : r.Layout held) (hb : b ∈ held)
    (hkind : b.kind = .tail) : r.typ = .regular ∧ r.Filled (held ++ r.freeBlocks) := by
  unfold Layout at h
  cases htyp : r.typ with
  | regular =>
      rw [htyp] at h
      exact ⟨rfl, h⟩
  | humongousStart =>
      rw [htyp] at h
      obtain ⟨_, _, size, rfl, _⟩ := h
      obtain rfl := List.mem_singleton.mp hb
      cases hkind
  | humongousCont | emptyUncommited | emptyCommited | trash =>
      rw [htyp] at h
      rw [h.1] at hb
      cases hb

end HeapRegion

end Rsgc.Storage
