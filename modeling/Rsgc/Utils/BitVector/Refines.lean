import Rsgc.Utils.BitVector.Sets

namespace Rsgc.Utils

namespace BitVector

variable {v v' : BitVector} {f : Nat → Bool} {set : Finset Nat}

-- The vector stands for the set.
def Denotes (v : BitVector) (set : Finset Nat) : Prop := v.WellFormed ∧ v.members = set

theorem Denotes.bit (h : v.Denotes set) (i : Nat) : v.bit i = decide (i ∈ set) := by
  rw [Bool.eq_iff_iff, decide_eq_true_iff, ← h.2, mem_members]

theorem Becomes.denotes (h : v.Becomes f) (hf : ∀ i, f i = decide (i ∈ set)) :
    v.Denotes set := by
  refine ⟨h.wellFormed, ?_⟩
  ext i
  rw [mem_members, h.bit_eq, hf, decide_eq_true_iff]

-- The first word apart, a chunk is not looked at by `filter` with an inline vector.
theorem filter_members_iff {other : BitVector} (h : v.WellFormed) (hother : other.WellFormed) :
    (v.filter other).members = v.members ∩ other.members ↔
      v.isInline = true ∨ other.isInline = false ∨ ∀ i ∈ v.members, i < 64 := by
  have hbelow : (∀ i ∈ v.members, i < 64) ↔ ∀ i, 64 ≤ i → v.bit i = false := by
    simp only [mem_members]
    refine forall_congr' fun i => ⟨fun hlt hi => ?_, fun hclear hset => ?_⟩
    · by_contra hset
      have hsmall := hlt (by simpa using hset)
      omega
    · by_contra hlarge
      rw [hclear (Nat.le_of_not_lt hlarge)] at hset
      cases hset
  rw [hbelow]
  constructor
  · intro hmembers
    by_contra hnot
    simp only [not_or, Bool.not_eq_true, Bool.not_eq_false, not_forall] at hnot
    obtain ⟨hv, ho, i, hi, hset⟩ := hnot
    have hfilter : v.filter other =
        v.setWord 0 (v.word 0 &&& cleanseInlineBits other.bitsOrPointer) := by
      simp [filter, filterSlow, hv, ho]
    obtain ⟨_, hge, _⟩ := h hv
    have hsize : v.size = v.outOfLine.numBits := if_neg (by simp [hv])
    obtain ⟨_, _, hbits⟩ := setWord_bit (v := v) 0
      (v.word 0 &&& cleanseInlineBits other.bitsOrPointer) (by omega) (by simp [hv])
    -- the bit is still there although the other vector does not have it
    have hkept : i ∈ (v.filter other).members := by
      rw [mem_members, hfilter, hbits, if_neg (by omega)]
      exact hset
    rw [hmembers, Finset.mem_inter, mem_members, mem_members,
      bit_of_inline ho (show 63 ≤ i by omega)] at hkept
    exact Bool.false_ne_true hkept.2
  · intro hreached
    have hbecomes := filter_spec h hother hreached
    ext i
    rw [mem_members, hbecomes.bit_eq, Finset.mem_inter, mem_members, mem_members,
      Bool.and_eq_true]

theorem ensureSize_ok {numBits : Nat} {chunk : Malloc} (h : v.GrowsWithin chunk numBits) :
    ∃ v', v.ensureSize chunk numBits = some v' := by
  unfold ensureSize
  rcases h with hle | ⟨hfits, _⟩
  · exact ⟨v, if_pos hle⟩
  · by_cases hle : numBits ≤ v.size
    · exact ⟨v, if_pos hle⟩
    · have hnew : numBits + BITS_IN_POINTER - 1 < 2 ^ 64 := by
        unfold BITS_IN_POINTER
        omega
      simp only [hle, if_false, resizeOutOfLine, OutOfLineBits.new, hnew, if_true,
        Option.bind_eq_bind, Option.bind_some, Option.pure_def]
      exact ⟨_, rfl⟩

theorem GrowsWithin.lt {numBits : Nat} {chunk : Malloc} (h : v.GrowsWithin chunk numBits)
    (hwf : v.WellFormed) : numBits < 2 ^ 64 := by
  have hsize := size_lt hwf
  rcases h with hle | ⟨hfits, _⟩
  · omega
  · omega

theorem new_denotes : new.Denotes ∅ := by
  refine ⟨fun h => ?_, ?_⟩
  · rw [new_isInline] at h
    cases h
  · rw [Finset.eq_empty_iff_forall_notMem]
    intro i
    rw [mem_members, new_bit]
    simp

end BitVector

namespace BitVectors

variable {vectors vectors' : Nat → BitVector} {sets : Nat → Finset Nat} {c : BitVectorCall}
  {answered : BitVectorAnswer}

def Denote (vectors : Nat → BitVector) (sets : Nat → Finset Nat) : Prop :=
  ∀ i, (vectors i).Denotes (sets i)

-- Every call reaches the words that it should, and nothing behind their chunk. `filter`
-- with an inline vector only reaches the first word.
def Reaches (s : BitVectors) : BitVectorCall → Prop
  | .set i bit chunk | .add i bit chunk => (s.vectors i).GrowsWithin chunk (bit + 1)
  | .ensureSize i numBits chunk => (s.vectors i).GrowsWithin chunk numBits
  | .clearAll i => (s.vectors i).ClearsWithin
  | .merge i j chunk =>
      (s.vectors j).isInline = false → (s.vectors i).GrowsWithin chunk (s.vectors j).size
  | .filter i j => (s.vectors i).isInline = true ∨ (s.vectors j).isInline = false ∨
      ∀ bit ∈ (s.vectors i).members, bit < 64
  | _ => True

theorem Denote.update (h : Denote vectors sets) {v : BitVector} {set : Finset Nat}
    (hv : v.Denotes set) (i : Nat) :
    Denote (Function.update vectors i v) (Function.update sets i set) := by
  intro j
  by_cases hj : j = i
  · subst hj
    rw [Function.update_self, Function.update_self]
    exact hv
  · rw [Function.update_of_ne hj, Function.update_of_ne hj]
    exact h j

-- A call that leaves the set of its vector as it is.
theorem Denote.refresh (h : Denote vectors sets) {v : BitVector} {i : Nat}
    (hv : v.Denotes (sets i)) : Denote (Function.update vectors i v) sets := by
  have hupdate := h.update hv i
  rwa [Function.update_eq_self] at hupdate

theorem perform_denote (h : Denote vectors sets)
    (hreaches : ∀ i j, c = .filter i j → (vectors i).isInline = true ∨
      (vectors j).isInline = false ∨ ∀ bit ∈ (vectors i).members, bit < 64)
    (hok : perform vectors c = some (answered, vectors')) :
    answered = (answer sets c).1 ∧ Denote vectors' (answer sets c).2 := by
  cases c with
  | set i bit chunk =>
      obtain ⟨⟨previous, v⟩, hset, heq⟩ := Option.map_eq_some_iff.mp hok
      obtain ⟨rfl, rfl⟩ := Prod.mk.inj heq
      obtain ⟨rfl, hbecomes⟩ := BitVector.set_spec (h i).1 hset
      refine ⟨by rw [(h i).bit]; rfl, h.update (hbecomes.denotes fun j => ?_) i⟩
      simp [(h i).bit]
  | add i bit chunk =>
      obtain ⟨⟨fresh, v⟩, hadd, heq⟩ := Option.map_eq_some_iff.mp hok
      obtain ⟨⟨previous, w⟩, hset, heq'⟩ := Option.map_eq_some_iff.mp hadd
      obtain ⟨rfl, rfl⟩ := Prod.mk.inj heq
      obtain ⟨rfl, rfl⟩ := Prod.mk.inj heq'
      obtain ⟨rfl, hbecomes⟩ := BitVector.set_spec (h i).1 hset
      refine ⟨by simp [(h i).bit, answer], h.update (hbecomes.denotes fun j => ?_) i⟩
      simp [(h i).bit]
  | clear i bit =>
      obtain ⟨⟨previous, v⟩, hclear, heq⟩ := Option.map_eq_some_iff.mp hok
      obtain ⟨rfl, rfl⟩ := Prod.mk.inj heq
      obtain ⟨rfl, hbecomes⟩ := BitVector.clear_spec (h i).1 hclear
      refine ⟨by rw [(h i).bit]; rfl, h.update (hbecomes.denotes fun j => ?_) i⟩
      simp [(h i).bit]
  | get i bit =>
      obtain ⟨b, hget, heq⟩ := Option.map_eq_some_iff.mp hok
      rw [BitVector.get_eq, (h i).bit] at hget
      obtain rfl := Option.some.inj hget
      obtain ⟨rfl, rfl⟩ := Prod.mk.inj heq
      exact ⟨rfl, h⟩
  | ensureSize i numBits chunk =>
      obtain ⟨v, hensure, heq⟩ := Option.map_eq_some_iff.mp hok
      obtain ⟨rfl, rfl⟩ := Prod.mk.inj heq
      obtain ⟨hbecomes, _⟩ := BitVector.ensureSize_spec (h i).1 hensure
      exact ⟨rfl, h.refresh (hbecomes.denotes (h i).bit)⟩
  | clearAll i =>
      obtain ⟨rfl, rfl⟩ := Prod.mk.inj (Option.some.inj hok)
      exact ⟨rfl, h.update ((BitVector.clearAll_spec (h i).1).denotes (by simp)) i⟩
  | merge i j chunk =>
      obtain ⟨v, hmerge, heq⟩ := Option.map_eq_some_iff.mp hok
      obtain ⟨rfl, rfl⟩ := Prod.mk.inj heq
      have hbecomes := BitVector.merge_spec (h i).1 (h j).1 hmerge
      refine ⟨rfl, h.update (hbecomes.denotes fun k => ?_) i⟩
      simp [(h i).bit, (h j).bit]
  | filter i j =>
      obtain ⟨rfl, rfl⟩ := Prod.mk.inj (Option.some.inj hok)
      have hbelow : (vectors i).isInline = true ∨ (vectors j).isInline = false ∨
          ∀ k, 64 ≤ k → (vectors i).bit k = false := by
        refine (hreaches i j rfl).imp_right (Or.imp_right fun hlt k hk => ?_)
        by_contra hbit
        have hmem := hlt k ((BitVector.mem_members _ k).mpr (by simpa using hbit))
        omega
      have hbecomes := BitVector.filter_spec (h i).1 (h j).1 hbelow
      refine ⟨rfl, h.update (hbecomes.denotes fun k => ?_) i⟩
      simp [(h i).bit, (h j).bit]
  | exclude i j =>
      obtain ⟨rfl, rfl⟩ := Prod.mk.inj (Option.some.inj hok)
      have hbecomes := BitVector.exclude_spec (h i).1 (h j).1
      refine ⟨rfl, h.update (hbecomes.denotes fun k => ?_) i⟩
      simp [(h i).bit, (h j).bit]
  | bitCount i =>
      obtain ⟨rfl, rfl⟩ := Prod.mk.inj (Option.some.inj hok)
      exact ⟨by rw [BitVector.bitCount_spec (h i).1, (h i).2]; rfl, h⟩
  | isEmpty i =>
      obtain ⟨rfl, rfl⟩ := Prod.mk.inj (Option.some.inj hok)
      exact ⟨by rw [BitVector.isEmpty_spec (h i).1, (h i).2]; rfl, h⟩

-- Every vector has the members of its set, and every call was answered as on sets.
def Faithful (s : BitVectors) : Prop :=
  (∀ i, (s.vectors i).members = s.sets i) ∧ ∀ p ∈ s.answers, p.1 = p.2

variable {s : BitVectors}

-- No call that meets the condition panics.
theorem perform_ok (h : Denote s.vectors s.sets) (hreaches : s.Reaches c) :
    ∃ r, perform s.vectors c = some r := by
  have hset : ∀ i bit chunk, (s.vectors i).GrowsWithin chunk (bit + 1) →
      ∃ r, (s.vectors i).set chunk bit = some r := by
    intro i bit chunk hgrows
    obtain ⟨v, hv⟩ := BitVector.ensureSize_ok hgrows
    obtain ⟨⟨hwf, _⟩, hle⟩ := BitVector.ensureSize_spec (h i).1 hv
    obtain ⟨w, hw, _⟩ := BitVector.quickSet_spec hwf (Nat.lt_of_succ_le hle)
    refine ⟨(v.bit bit, w), ?_⟩
    unfold BitVector.set
    rw [if_pos (hgrows.lt (h i).1), hv]
    exact hw
  cases c with
  | set i bit chunk =>
      obtain ⟨r, hr⟩ := hset i bit chunk hreaches
      exact ⟨_, Option.map_eq_some_iff.mpr ⟨r, hr, rfl⟩⟩
  | add i bit chunk =>
      obtain ⟨r, hr⟩ := hset i bit chunk hreaches
      have hadd : (s.vectors i).add chunk bit = some (!r.1, r.2) :=
        Option.map_eq_some_iff.mpr ⟨r, hr, rfl⟩
      exact ⟨_, Option.map_eq_some_iff.mpr ⟨_, hadd, rfl⟩⟩
  | clear i bit =>
      have hclear : ∃ r, (s.vectors i).clear bit = some r := by
        unfold BitVector.clear
        split
        · exact ⟨_, rfl⟩
        · rename_i hlt
          obtain ⟨w, hw, _⟩ := BitVector.quickClear_spec (h i).1 (Nat.lt_of_not_le hlt)
          exact ⟨_, hw⟩
      obtain ⟨r, hr⟩ := hclear
      exact ⟨_, Option.map_eq_some_iff.mpr ⟨r, hr, rfl⟩⟩
  | get i bit => exact ⟨_, Option.map_eq_some_iff.mpr ⟨_, BitVector.get_eq _ _, rfl⟩⟩
  | ensureSize i numBits chunk =>
      obtain ⟨v, hv⟩ := BitVector.ensureSize_ok hreaches
      exact ⟨_, Option.map_eq_some_iff.mpr ⟨v, hv, rfl⟩⟩
  | merge i j chunk =>
      have hmerge : ∃ v, (s.vectors i).merge (s.vectors j) chunk = some v := by
        unfold BitVector.merge BitVector.mergeSlow
        split
        · split
          · exact ⟨_, rfl⟩
          · rename_i hj
            obtain ⟨v, hv⟩ := BitVector.ensureSize_ok (hreaches (by simpa using hj))
            rw [hv]
            exact ⟨_, rfl⟩
        · exact ⟨_, rfl⟩
      obtain ⟨v, hv⟩ := hmerge
      exact ⟨_, Option.map_eq_some_iff.mpr ⟨v, hv, rfl⟩⟩
  | clearAll i => exact ⟨_, rfl⟩
  | filter i j => exact ⟨_, rfl⟩
  | exclude i j => exact ⟨_, rfl⟩
  | bitCount i => exact ⟨_, rfl⟩
  | isEmpty i => exact ⟨_, rfl⟩

-- What the steps keep.
def Kept (s : BitVectors) : Prop :=
  Denote s.vectors s.sets ∧ ∀ p ∈ s.answers, p.1 = p.2

theorem Kept.step {t : BitVectors} (h : s.Kept) (hreaches : s.Reaches c)
    (hstep : bitVectorMachine.step s c = some t) : t.Kept := by
  obtain ⟨hdenote, hanswers⟩ := h
  obtain ⟨⟨answered, vectors'⟩, hok, rfl⟩ := Option.map_eq_some_iff.mp hstep
  have hfilter : ∀ i j, c = .filter i j → (s.vectors i).isInline = true ∨
      (s.vectors j).isInline = false ∨ ∀ bit ∈ (s.vectors i).members, bit < 64 := by
    rintro i j rfl
    exact hreaches
  obtain ⟨hanswer, hdenote'⟩ := perform_denote hdenote hfilter hok
  refine ⟨hdenote', fun p hp => ?_⟩
  rcases List.mem_cons.mp hp with rfl | hp
  · exact hanswer
  · exact hanswers p hp

theorem kept_of_via (hs : bitVectorMachine.Via Reaches s) : s.Kept := by
  refine Machine.Via.invariant (P := Kept) (fun s hinit => ?_) (fun s c t h hgood hstep => ?_) hs
  · obtain rfl : s = initial := hinit
    exact ⟨fun _ => BitVector.new_denotes, by simp [initial]⟩
  · exact h.step hgood hstep

-- As long as no call reaches too far, or not far enough, the vectors are sets: their
-- members, all answers, and that every such call is answered.
theorem bitVectors_faithful (hs : bitVectorMachine.Via Reaches s) :
    s.Faithful ∧ ∀ c, s.Reaches c → ∃ t, bitVectorMachine.step s c = some t := by
  obtain ⟨hdenote, hanswers⟩ := kept_of_via hs
  refine ⟨⟨fun i => (hdenote i).2, hanswers⟩, fun c hreaches => ?_⟩
  obtain ⟨r, hr⟩ := perform_ok hdenote hreaches
  exact ⟨_, Option.map_eq_some_iff.mpr ⟨r, hr, rfl⟩⟩

instance (s : BitVectors) : (c : BitVectorCall) → Decidable (s.Reaches c)
  | .set _ _ _ | .add _ _ _ | .ensureSize _ _ _ =>
      inferInstanceAs (Decidable (BitVector.GrowsWithin _ _ _))
  | .clearAll _ => inferInstanceAs (Decidable (BitVector.ClearsWithin _))
  | .merge _ _ _ => inferInstanceAs (Decidable (_ = false → BitVector.GrowsWithin _ _ _))
  | .filter i _ => inferInstanceAs (Decidable (_ ∨ _ ∨ ∀ bit ∈ (s.vectors i).members, bit < 64))
  | .clear _ _ | .get _ _ | .exclude _ _ | .bitCount _ | .isEmpty _ =>
      inferInstanceAs (Decidable True)

def dirtyChunk : Malloc := ⟨4096, fun _ => BitVec.allOnes 64⟩

-- A vector that has moved to a chunk is merged, filtered and cut back, and another one is
-- cleared and moved again.
theorem bitVectors_faithful_moved : ∃ s, bitVectorMachine.Via Reaches s ∧
    s.sets 0 = {3} ∧ s.sets 1 = {447} ∧ s.Faithful ∧
      ∀ c, s.Reaches c → ∃ t, bitVectorMachine.step s c = some t := by
  have hrun : (bitVectorMachine.runVia Reaches initial
      [.set 0 3 dirtyChunk, .set 1 130 dirtyChunk, .add 1 3 dirtyChunk, .merge 0 1 dirtyChunk,
        .bitCount 0, .filter 0 1, .set 2 130 dirtyChunk, .exclude 0 2, .isEmpty 0, .clearAll 1,
        .set 1 447 dirtyChunk]).map (fun s => (s.sets 0, s.sets 1)) = some ({3}, {447}) := by
    decide +kernel
  obtain ⟨s, hs, heq⟩ := Option.map_eq_some_iff.mp hrun
  obtain ⟨hfirst, hsecond⟩ := Prod.mk.inj heq
  have hinit : bitVectorMachine.init initial := rfl
  have hvia := Machine.via_of_runVia (Machine.Via.init hinit) hs
  exact ⟨s, hvia, hfirst, hsecond, bitVectors_faithful hvia⟩

-- The set {130} is filtered with the empty set, and keeps its member.
theorem filter_keeps_large_member :
    ∃ s, bitVectorMachine.Reachable s ∧ s.sets 0 = ∅ ∧ (s.vectors 0).members = {130} := by
  have hrun : (bitVectorMachine.run initial [.set 0 130 dirtyChunk, .filter 0 1]).map
      (fun s => (s.sets 0, (s.vectors 0).members)) = some (∅, {130}) := by decide +kernel
  obtain ⟨s, hs, heq⟩ := Option.map_eq_some_iff.mp hrun
  have hinit : bitVectorMachine.init initial := rfl
  obtain ⟨hsets, hmembers⟩ := Prod.mk.inj heq
  exact ⟨s, Machine.run_reachable (Machine.Via.init hinit) hs, hsets, hmembers⟩

end BitVectors

end Rsgc.Utils
