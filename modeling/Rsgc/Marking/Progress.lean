import Rsgc.Lib.Worklist
import Rsgc.Marking.Work

namespace Rsgc.Marking

-- The chunks that are pushed are halves of larger ones.
theorem splitChunk_pow (obj pow chunk : Nat) :
    ∀ t ∈ (splitChunk obj pow chunk).1, t.isNotChunked = false ∧ t.pow < pow := by
  induction pow generalizing chunk with
  | zero => simp [splitChunk]
  | succ pow ih =>
      intro t ht
      unfold splitChunk at ht
      split at ht
      · rename_i hsplit
        rcases List.mem_cons.mp ht with rfl | ht
        · refine ⟨?_, Nat.lt_succ_self pow⟩
          have hpow : pow ≠ 0 := fun hzero => by simp [hzero] at hsplit
          simp [MarkTask.isNotChunked, MarkTask.new2, hpow]
        · exact ⟨(ih _ t ht).1, (ih _ t ht).2.trans (Nat.lt_succ_self pow)⟩
      · cases ht

theorem splitPrefix_pow (obj len pow chunk lastIdx : Nat) :
    ∀ t ∈ (splitPrefix obj len pow chunk lastIdx).1, t.isNotChunked = false ∧ t.pow < pow := by
  induction pow generalizing chunk lastIdx with
  | zero => simp [splitPrefix]
  | succ pow ih =>
      have hmore {chunk lastIdx : Nat} (t : MarkTask)
          (ht : t ∈ (splitPrefix obj len pow chunk lastIdx).1) :
          t.isNotChunked = false ∧ t.pow < pow + 1 :=
        ⟨(ih _ _ t ht).1, (ih _ _ t ht).2.trans (Nat.lt_succ_self pow)⟩
      intro t ht
      unfold splitPrefix at ht
      split at ht
      · rename_i hsplit
        simp only at ht
        split at ht
        · rcases List.mem_cons.mp ht with rfl | ht
          · refine ⟨?_, Nat.lt_succ_self pow⟩
            have hpow : pow ≠ 0 := fun hzero => by simp [hzero] at hsplit
            simp [MarkTask.isNotChunked, MarkTask.new2, hpow]
          · exact hmore t ht
        · exact hmore t ht
      · cases ht

theorem chunkedArrayStart_pow {obj len : Nat} {w : ChunkWork}
    (h : chunkedArrayStart obj len = some w) :
    ∀ t ∈ w.pushes, t.isNotChunked = false ∧ t.pow < 31 := by
  intro t ht
  unfold chunkedArrayStart at h
  split at h
  · obtain rfl := Option.some.inj h
    cases ht
  · simp only at h
    generalize (if len ≠ 2 ^ log2iGraceful len then log2iGraceful len + 1
      else log2iGraceful len) = bits at h
    split at h
    · rename_i hbits
      obtain rfl := Option.some.inj h
      simp only at ht
      split at ht
      · rcases List.mem_cons.mp ht with rfl | ht
        · refine ⟨rfl, ?_⟩
          simp only [MarkTask.new2]
          omega
        · obtain ⟨hchunked, hlt⟩ := splitPrefix_pow _ _ _ _ _ t ht
          exact ⟨hchunked, by omega⟩
      · obtain ⟨hchunked, hlt⟩ := splitPrefix_pow _ _ _ _ _ t ht
        exact ⟨hchunked, by omega⟩
    · cases h

namespace Op

-- Tasks come before scans, the start of an array before its chunks and these by their
-- size; a visit of a marked object leaves nothing.
def rank : Op → Nat ×ₗ Nat
  | .visit _ | .spill _ => toLex (0, 0)
  | .scan _ _ next stop => toLex (1, stop - next)
  | .push t => toLex (if t.isNotChunked then 33 else t.pow + 2, 0)

theorem two_le_rank (t : MarkTask) : 2 ≤ (if t.isNotChunked then 33 else t.pow + 2) := by
  split <;> omega

theorem visit_rank (ref : Nat) {op : Op} (h : 1 ≤ (ofLex op.rank).1) :
    (visit ref).rank < op.rank := by
  refine Prod.Lex.lt_iff.mpr (Or.inl ?_)
  exact Nat.lt_of_lt_of_le Nat.zero_lt_one h

theorem scan_rank {obj next stop : Nat} {part : Part} (t : MarkTask) :
    (scan obj part next stop).rank < (push t).rank := by
  refine Prod.Lex.lt_iff.mpr (Or.inl ?_)
  exact two_le_rank t

theorem push_rank {t u : MarkTask} (hu : u.isNotChunked = false)
    (hpow : u.pow < if t.isNotChunked then 31 else t.pow) : (push u).rank < (push t).rank := by
  refine Prod.Lex.lt_iff.mpr (Or.inl ?_)
  have hlt : u.pow + 2 < if t.isNotChunked then 33 else t.pow + 2 := by
    split at hpow <;> rename_i hchunked
    · rw [if_pos hchunked]
      omega
    · rw [if_neg hchunked]
      omega
  simpa [rank, hu] using hlt

theorem ops_rank {w : ChunkWork} {t : MarkTask} {obj : Nat} {o : Object}
    (h : ∀ u ∈ w.pushes, u.isNotChunked = false ∧ u.pow < if t.isNotChunked then 31 else t.pow) :
    ∀ op ∈ w.ops obj o, op.rank < (push t).rank := by
  intro op hop
  rcases List.mem_append.mp hop with hop | hop
  · obtain ⟨u, hu, rfl⟩ := List.mem_map.mp hop
    exact push_rank (h u hu).1 (h u hu).2
  · obtain ⟨r, -, rfl⟩ := List.mem_map.mp hop
    exact scan_rank t

theorem doTask_rank {graph : Graph} {t : MarkTask} {ops : List Op}
    (h : doTask graph t = some ops) : ∀ op ∈ ops, op.rank < (push t).rank := by
  intro op hop
  unfold doTask at h
  simp only at h
  split at h <;> rename_i hchunked
  · split at h
    · obtain rfl := Option.some.inj h
      split at hop
      · cases hop
      · obtain rfl := List.mem_singleton.mp hop
        exact scan_rank t
    · unfold doChunkedArrayStart at h
      simp only at h
      split at h
      · obtain ⟨w, hw, rfl⟩ := Option.map_eq_some_iff.mp h
        rcases List.mem_cons.mp hop with rfl | hop
        · exact scan_rank t
        · refine ops_rank (fun u hu => ?_) op hop
          rw [if_pos hchunked]
          exact chunkedArrayStart_pow hw u hu
      · obtain rfl := Option.some.inj h
        obtain rfl := List.mem_singleton.mp hop
        exact scan_rank t
  · obtain rfl := Option.some.inj h
    refine ops_rank (fun u hu => ?_) op hop
    rw [if_neg hchunked]
    exact splitChunk_pow _ _ _ u hu

variable {graph : Graph} {marks marks' : Nat → Bool} {op : Op} {ops : List Op}

-- A step marks an object or leaves operations that are smaller.
theorem step_rank (h : op.step graph marks = some (marks', ops)) :
    (∃ ref, op = .visit ref ∧ marks ref = false) ∨
      marks' = marks ∧ ∀ o ∈ ops, o.rank < op.rank := by
  cases op with
  | scan obj part next stop =>
      simp only [step] at h
      split at h <;> rename_i hlt <;> obtain ⟨rfl, rfl⟩ := Prod.mk.inj (Option.some.inj h)
      · refine Or.inr ⟨rfl, fun o ho => ?_⟩
        rcases List.mem_append.mp ho with ho | ho
        · obtain ⟨ref, -, rfl⟩ := List.mem_map.mp ho
          exact visit_rank ref le_rfl
        · obtain rfl := List.mem_singleton.mp ho
          refine Prod.Lex.lt_iff.mpr (Or.inr ⟨rfl, ?_⟩)
          simp only [rank, ofLex_toLex]
          omega
      · exact Or.inr ⟨rfl, by simp⟩
  | visit ref =>
      simp only [step] at h
      split at h <;> rename_i hmark
      · obtain ⟨rfl, rfl⟩ := Prod.mk.inj (Option.some.inj h)
        exact Or.inr ⟨rfl, by simp⟩
      · exact Or.inl ⟨ref, rfl, Bool.eq_false_iff.mpr hmark⟩
  | push task =>
      obtain ⟨_, hops, heq⟩ := Option.map_eq_some_iff.mp h
      obtain ⟨rfl, rfl⟩ := Prod.mk.inj heq
      exact Or.inr ⟨rfl, doTask_rank hops⟩
  | spill target =>
      obtain ⟨rfl, rfl⟩ := Prod.mk.inj (Option.some.inj h)
      exact Or.inr ⟨rfl, by simp⟩

-- Nothing fails in a marking that begins only arrays that it cuts up rightly.
theorem step_isSome (graph : Graph) (marks : Nat → Bool) (h : op.Short graph) :
    (op.step graph marks).isSome = true := by
  cases op with
  | scan | visit =>
      rw [step]
      split <;> rfl
  | spill => rfl
  | push t =>
      have htask : (doTask graph t).isSome = true := by
        unfold doTask
        simp only
        split <;> rename_i hchunked
        · split
          · rfl
          · unfold doChunkedArrayStart
            simp only
            split <;> rename_i hiter
            · obtain ⟨w, hw, -⟩ := chunkedArrayStart_short t.obj (h hchunked hiter)
              rw [hw]
              rfl
            · rfl
        · rfl
      rw [step, Option.isSome_map]
      exact htask

-- What a step leaves to visit are referents.
theorem visit_of_step (h : op.step graph marks = some (marks', ops)) (hok : op.Ok)
    (hshort : op.Short graph) {ref : Nat} (href : .visit ref ∈ ops) :
    ∃ obj, graph.Edge obj ref := by
  cases op with
  | scan obj part next stop =>
      simp only [step] at h
      split at h <;> obtain ⟨-, rfl⟩ := Prod.mk.inj (Option.some.inj h)
      · rcases List.mem_append.mp href with href | href
        · obtain ⟨r, hr, heq⟩ := List.mem_map.mp href
          obtain rfl := visit.inj heq
          exact ⟨obj, ⟨part, next⟩, by simpa using hr⟩
        · cases List.mem_singleton.mp href
      · cases href
  | visit r =>
      simp only [step] at h
      split at h <;> obtain ⟨-, rfl⟩ := Prod.mk.inj (Option.some.inj h)
      · cases href
      · cases List.mem_singleton.mp href
  | push task =>
      obtain ⟨_, hops, heq⟩ := Option.map_eq_some_iff.mp h
      obtain ⟨-, rfl⟩ := Prod.mk.inj heq
      exact absurd (doTask_ops hops hok hshort _ href).2 id
  | spill target =>
      obtain ⟨-, rfl⟩ := Prod.mk.inj (Option.some.inj h)
      cases href

end Op

end Rsgc.Marking
