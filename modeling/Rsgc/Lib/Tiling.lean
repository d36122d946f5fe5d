import Mathlib.Data.List.Basic
import Mathlib.Data.List.Pairwise

namespace Rsgc

-- A labelled block of addresses, `addr` up to and not including `addr + size`.
structure Block (κ : Type*) where
  addr : Nat
  size : Nat
  kind : κ
deriving DecidableEq, Repr

namespace Block

variable {κ ι : Type*}

def stop (b : Block κ) : Nat := b.addr + b.size

def Apart (b : Block κ) (c : Block ι) : Prop := b.stop ≤ c.addr ∨ c.stop ≤ b.addr

def Within (b : Block κ) (lower upper : Nat) : Prop := lower ≤ b.addr ∧ b.stop ≤ upper

theorem Apart.symm {b : Block κ} {c : Block ι} (h : b.Apart c) : c.Apart b := Or.symm h

theorem apart_of_within {b : Block κ} {c : Block ι} {lower middle middle' upper : Nat}
    (hb : b.Within lower middle) (hc : c.Within middle' upper) (hm : middle ≤ middle') :
    b.Apart c := by
  unfold Within at hb hc
  exact Or.inl (by omega)

end Block

variable {κ : Type*}

-- The blocks of the list follow each other without a gap from `start` to `stop`.
def Tiled : Nat → Nat → List (Block κ) → Prop
  | start, stop, [] => start = stop
  | start, stop, b :: rest => b.addr = start ∧ 0 < b.size ∧ Tiled b.stop stop rest

namespace Tiled

variable {start stop : Nat} {tiles : List (Block κ)}

theorem le (h : Tiled start stop tiles) : start ≤ stop := by
  induction tiles generalizing start with
  | nil => exact Nat.le_of_eq h
  | cons b rest ih =>
      obtain ⟨rfl, hpos, hrest⟩ := h
      have hle := ih hrest
      unfold Block.stop at hle
      omega

theorem length_le (h : Tiled start stop tiles) : tiles.length ≤ stop - start := by
  induction tiles generalizing start with
  | nil => simp
  | cons b rest ih =>
      obtain ⟨rfl, hpos, hrest⟩ := h
      have hlen := ih hrest
      have hle := hrest.le
      simp only [Block.stop, List.length_cons] at *
      omega

theorem append_iff (xs ys : List (Block κ)) :
    Tiled start stop (xs ++ ys) ↔ ∃ middle, Tiled start middle xs ∧ Tiled middle stop ys := by
  induction xs generalizing start with
  | nil => simp [Tiled]
  | cons b rest ih => simp [Tiled, ih, and_assoc]

theorem within (h : Tiled start stop tiles) {b : Block κ} (hb : b ∈ tiles) :
    b.Within start stop := by
  induction tiles generalizing start with
  | nil => simp at hb
  | cons c rest ih =>
      obtain ⟨rfl, hpos, hrest⟩ := h
      rcases List.mem_cons.mp hb with rfl | hb
      · exact ⟨Nat.le_refl _, hrest.le⟩
      · obtain ⟨hl, hu⟩ := ih hrest hb
        exact ⟨by unfold Block.stop at hl; omega, hu⟩

theorem size_pos (h : Tiled start stop tiles) {b : Block κ} (hb : b ∈ tiles) : 0 < b.size := by
  induction tiles generalizing start with
  | nil => simp at hb
  | cons c rest ih =>
      obtain ⟨rfl, hpos, hrest⟩ := h
      rcases List.mem_cons.mp hb with rfl | hb
      · exact hpos
      · exact ih hrest hb

-- A block cut in two.
theorem pair (addr first second : Nat) (kind : κ) (hfirst : 0 < first) (hsecond : 0 < second) :
    Tiled addr (addr + first + second) [⟨addr, first, kind⟩, ⟨addr + first, second, kind⟩] :=
  ⟨rfl, hfirst, rfl, hsecond, rfl⟩

theorem pairwise_apart (h : Tiled start stop tiles) : tiles.Pairwise Block.Apart := by
  induction tiles generalizing start with
  | nil => exact List.Pairwise.nil
  | cons b rest ih =>
      obtain ⟨rfl, hpos, hrest⟩ := h
      refine List.pairwise_cons.mpr ⟨fun c hc => ?_, ih hrest⟩
      exact Or.inl (hrest.within hc).1

theorem pairwise_addr_lt (h : Tiled start stop tiles) :
    tiles.Pairwise fun b c => b.addr < c.addr := by
  induction tiles generalizing start with
  | nil => exact List.Pairwise.nil
  | cons b rest ih =>
      obtain ⟨rfl, hpos, hrest⟩ := h
      refine List.pairwise_cons.mpr ⟨fun c hc => ?_, ih hrest⟩
      have hlow := (hrest.within hc).1
      unfold Block.stop at hlow
      omega

-- Where every size is a multiple of `align`, every block starts at one.
theorem dvd_addr {align : Nat} (h : Tiled start stop tiles) (hsize : ∀ b ∈ tiles, align ∣ b.size)
    {b : Block κ} (hb : b ∈ tiles) : align ∣ b.addr - start := by
  induction tiles generalizing start with
  | nil => simp at hb
  | cons c rest ih =>
      obtain ⟨rfl, hpos, hrest⟩ := h
      rcases List.mem_cons.mp hb with rfl | hb
      · simp
      · have hlow := (hrest.within hb).1
        have htail := ih hrest (fun d hd => hsize d (List.mem_cons_of_mem _ hd)) hb
        have hsum : b.addr - c.addr = (b.addr - c.stop) + c.size := by
          unfold Block.stop at hlow ⊢
          omega
        rw [hsum]
        exact Nat.dvd_add htail (hsize c List.mem_cons_self)

end Tiled

-- The blocks of the list fill the range without overlap, in any order.
def Covers (start stop : Nat) (blocks : List (Block κ)) : Prop :=
  ∃ tiles, Tiled start stop tiles ∧ tiles.Perm blocks

namespace Covers

variable {start middle stop : Nat} {blocks : List (Block κ)}

theorem perm {blocks' : List (Block κ)} (h : Covers start stop blocks)
    (hperm : blocks.Perm blocks') : Covers start stop blocks' := by
  obtain ⟨tiles, htiled, htiles⟩ := h
  exact ⟨tiles, htiled, htiles.trans hperm⟩

theorem of_tiled {tiles : List (Block κ)} (h : Tiled start stop tiles) : Covers start stop tiles :=
  ⟨tiles, h, List.Perm.refl _⟩

theorem append {xs ys : List (Block κ)} (hx : Covers start middle xs)
    (hy : Covers middle stop ys) : Covers start stop (xs ++ ys) := by
  obtain ⟨left, hleft, hpx⟩ := hx
  obtain ⟨right, hright, hpy⟩ := hy
  exact ⟨left ++ right, (Tiled.append_iff _ _).mpr ⟨middle, hleft, hright⟩, hpx.append hpy⟩

theorem within (h : Covers start stop blocks) {b : Block κ} (hb : b ∈ blocks) :
    b.Within start stop := by
  obtain ⟨tiles, htiled, hperm⟩ := h
  exact htiled.within (hperm.mem_iff.mpr hb)

theorem size_pos (h : Covers start stop blocks) {b : Block κ} (hb : b ∈ blocks) : 0 < b.size := by
  obtain ⟨tiles, htiled, hperm⟩ := h
  exact htiled.size_pos (hperm.mem_iff.mpr hb)

theorem pairwise_apart (h : Covers start stop blocks) : blocks.Pairwise Block.Apart := by
  obtain ⟨tiles, htiled, hperm⟩ := h
  exact hperm.pairwise htiled.pairwise_apart fun hapart => hapart.symm

theorem apart (h : Covers start stop blocks) {b b' : Block κ} (hb : b ∈ blocks)
    (hb' : b' ∈ blocks) (hne : b ≠ b') : b.Apart b' := by
  have : Std.Symm (Block.Apart (κ := κ) (ι := κ)) := ⟨fun _ _ hapart => hapart.symm⟩
  exact h.pairwise_apart.forall hb hb' hne

theorem dvd_addr {align : Nat} (h : Covers start stop blocks) (hsize : ∀ b ∈ blocks, align ∣ b.size)
    {b : Block κ} (hb : b ∈ blocks) : align ∣ b.addr - start := by
  obtain ⟨tiles, htiled, hperm⟩ := h
  exact htiled.dvd_addr (fun c hc => hsize c (hperm.mem_iff.mp hc)) (hperm.mem_iff.mpr hb)

theorem eq_nil (h : Covers start start blocks) : blocks = [] := by
  obtain ⟨tiles, htiled, hperm⟩ := h
  have hlen := htiled.length_le
  have hnil : tiles = [] := List.length_eq_zero_iff.mp (by omega)
  subst hnil
  exact hperm.symm.eq_nil

-- One block may be exchanged for blocks that tile its extent. This is the only
-- way in which splitting and merging changes a cover.
theorem replace {b : Block κ} {rest inner : List (Block κ)} (h : Covers start stop (b :: rest))
    (hinner : Tiled b.addr b.stop inner) : Covers start stop (inner ++ rest) := by
  obtain ⟨tiles, htiled, hperm⟩ := h
  obtain ⟨before, after, rfl⟩ := List.append_of_mem (hperm.mem_iff.mpr List.mem_cons_self)
  obtain ⟨cut, hbefore, hcons⟩ := (Tiled.append_iff before (b :: after)).mp htiled
  obtain ⟨rfl, hpos, hafter⟩ := hcons
  refine ⟨before ++ (inner ++ after), ?_, ?_⟩
  · exact (Tiled.append_iff _ _).mpr
      ⟨b.addr, hbefore, (Tiled.append_iff _ _).mpr ⟨b.stop, hinner, hafter⟩⟩
  · have hrest : (before ++ after).Perm rest :=
      (List.perm_cons b).mp (List.perm_middle.symm.trans hperm)
    have hswap : (before ++ (inner ++ after)).Perm (inner ++ (before ++ after)) := by
      rw [← List.append_assoc, ← List.append_assoc]
      exact List.perm_append_comm.append_right after
    exact hswap.trans (hrest.append_left inner)

theorem split {addr size kept : Nat} {kind : κ} {rest : List (Block κ)}
    (h : Covers start stop (⟨addr, size, kind⟩ :: rest)) (hpos : 0 < kept) (hlt : kept < size) :
    Covers start stop (⟨addr, kept, kind⟩ :: ⟨addr + kept, size - kept, kind⟩ :: rest) := by
  have htiled := Tiled.pair addr kept (size - kept) kind hpos (by omega)
  have hstop : addr + kept + (size - kept) = addr + size := by omega
  rw [hstop] at htiled
  exact h.replace htiled

end Covers

-- A list is pairwise related if the elements with one key are, and elements
-- with different keys always are.
theorem pairwise_of_key {α ι : Type*} [DecidableEq ι] {r : α → α → Prop} {list : List α}
    (key : α → ι) (hsame : ∀ k, (list.filter fun a => key a = k).Pairwise r)
    (hother : ∀ a ∈ list, ∀ b ∈ list, key a ≠ key b → r a b) : list.Pairwise r := by
  induction list with
  | nil => exact List.Pairwise.nil
  | cons a rest ih =>
      refine List.pairwise_cons.mpr ⟨fun b hb => ?_, ih (fun k => ?_) fun b hb d hd => ?_⟩
      · by_cases hkey : key b = key a
        · have hfilter := hsame (key a)
          rw [List.filter_cons_of_pos (by simp)] at hfilter
          exact (List.pairwise_cons.mp hfilter).1 b (List.mem_filter.mpr ⟨hb, by simp [hkey]⟩)
        · exact hother a List.mem_cons_self b (List.mem_cons_of_mem a hb) (Ne.symm hkey)
      · exact (hsame k).sublist ((List.sublist_cons_self a rest).filter _)
      · exact hother b (List.mem_cons_of_mem a hb) d (List.mem_cons_of_mem a hd)

theorem flatMap_range_ite {α : Type*} (f : Nat → List α) (k n : Nat) :
    ((List.range n).flatMap fun i => if i = k then f i else []) = if k < n then f k else [] := by
  induction n with
  | zero => rfl
  | succ n ih =>
      rw [List.range_succ, List.flatMap_append, ih, List.flatMap_singleton]
      by_cases hk : n = k
      · subst hk
        simp
      · rw [if_neg hk, List.append_nil]
        congr 1
        simp only [eq_iff_iff]
        omega

-- Following the sizes that are found in memory from one block start to the next.
def walk (sizeAt : Nat → Nat) : Nat → Nat → Nat → Option (List Nat)
  | fuel, start, stop =>
      if start = stop then some []
      else match fuel with
        | 0 => none
        | fuel + 1 => (walk sizeAt fuel (start + sizeAt start) stop).map (start :: ·)

theorem walk_tiled (sizeAt : Nat → Nat) {start stop fuel : Nat} {tiles : List (Block κ)}
    (h : Tiled start stop tiles) (hsize : ∀ b ∈ tiles, sizeAt b.addr = b.size)
    (hfuel : tiles.length ≤ fuel) :
    walk sizeAt fuel start stop = some (tiles.map Block.addr) := by
  induction tiles generalizing start fuel with
  | nil =>
      unfold walk
      rw [if_pos (show start = stop from h)]
      rfl
  | cons b rest ih =>
      obtain ⟨rfl, hpos, hrest⟩ := h
      have hle := hrest.le
      unfold walk
      rw [if_neg (by unfold Block.stop at hle; omega)]
      cases fuel with
      | zero => simp at hfuel
      | succ fuel =>
          have hnext := ih hrest (fun c hc => hsize c (List.mem_cons_of_mem _ hc))
            (by simpa using hfuel)
          simp only [hsize b (by simp)]
          simp [Block.stop] at hnext
          simp [hnext]

end Rsgc
