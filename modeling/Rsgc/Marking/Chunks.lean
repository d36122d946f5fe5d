import Rsgc.Marking.Task
import Mathlib.Tactic.Ring

namespace Rsgc.Marking

namespace MarkTask

-- The elements of the array that a chunk task stands for.
def Elements (t : MarkTask) (i : Nat) : Prop :=
  (t.chunk - 1) * 2 ^ t.pow ≤ i ∧ i < t.chunk * 2 ^ t.pow

instance (t : MarkTask) (i : Nat) : Decidable (t.Elements i) :=
  inferInstanceAs (Decidable (_ ∧ _))

-- A chunk task whose bounds `do_chunked_array` computes without wrapping around.
structure Fits (t : MarkTask) : Prop where
  chunk_pos : 0 < t.chunk
  chunk_lt : t.chunk < chunkSize
  bound : t.chunk * 2 ^ t.pow < 2 ^ 31

theorem Fits.isNotChunked {t : MarkTask} (h : t.Fits) : t.isNotChunked = false := by
  have := h.chunk_pos
  simp only [MarkTask.isNotChunked, Bool.and_eq_false_iff, beq_eq_false_iff_ne]
  omega

end MarkTask

-- How many of the tasks stand for element `i`.
def covering (tasks : List MarkTask) (i : Nat) : Nat := tasks.countP fun t => t.Elements i

-- How many elements the tasks stand for.
def extent (tasks : List MarkTask) : Nat := (tasks.map fun t => 2 ^ t.pow).sum

theorem covering_pos {tasks : List MarkTask} {i : Nat} :
    0 < covering tasks i ↔ ∃ t ∈ tasks, t.Elements i := by
  simp [covering, List.countP_pos_iff]

theorem covering_cons (t : MarkTask) (tasks : List MarkTask) (i : Nat) :
    covering (t :: tasks) i = covering tasks i + if t.Elements i then 1 else 0 := by
  simp [covering, List.countP_cons]

theorem i32AsUsize_eq {x : Nat} (h : x < 2 ^ 31) : i32AsUsize x = x := by
  have hmod : x % 2 ^ 32 = x := Nat.mod_eq_of_lt (by omega)
  rw [i32AsUsize, hmod, if_pos h]

-- Chunk `c` of size `2 ^ (p + 1)` is split into the chunks `2 c - 1` and `2 c`
-- of size `2 ^ p`.
theorem leftChunk_start {chunk : Nat} (h : 0 < chunk) (pow : Nat) :
    (chunk * 2 - 1 - 1) * 2 ^ pow = (chunk - 1) * 2 ^ (pow + 1) := by
  rw [Nat.pow_succ, show chunk * 2 - 1 - 1 = (chunk - 1) * 2 by omega]
  ring

theorem rightChunk_stop (chunk pow : Nat) : chunk * 2 * 2 ^ pow = chunk * 2 ^ (pow + 1) := by
  rw [Nat.pow_succ]
  ring

theorem chunk_start_le (chunk pow : Nat) : (chunk - 1) * 2 ^ pow ≤ chunk * 2 ^ pow :=
  Nat.mul_le_mul_right _ (Nat.sub_le chunk 1)

theorem leftChunk_stop_le (chunk pow : Nat) : (chunk * 2 - 1) * 2 ^ pow ≤ chunk * 2 ^ (pow + 1) := by
  rw [← rightChunk_stop]
  exact chunk_start_le (chunk * 2) pow

-- The chunks that cut the prefix of the array end below its length.
theorem splitPrefix_tasks (obj len pow : Nat) {chunk lastIdx : Nat} (h : 0 < chunk) :
    ∀ t ∈ (splitPrefix obj len pow chunk lastIdx).1,
      t.obj = obj ∧ 0 < t.chunk ∧ t.chunk < MarkTask.chunkSize ∧ t.chunk * 2 ^ t.pow < len := by
  induction pow generalizing chunk lastIdx with
  | zero => intro t ht; simp [splitPrefix] at ht
  | succ pow ih =>
      intro t ht
      simp only [splitPrefix] at ht
      split at ht
      · rename_i hsplit
        split at ht
        · rename_i hend
          rcases List.mem_cons.mp ht with rfl | hrest
          · simp only [MarkTask.new2]
            exact ⟨trivial, by omega, by omega, hend⟩
          · exact ih (by omega) t hrest
        · exact ih (by omega) t ht
      · simp at ht

-- Where the irregular tail starts: at the left end of the first chunk, or
-- after a chunk that was pushed.
theorem splitPrefix_snd (obj len pow : Nat) {chunk lastIdx : Nat} (h : 0 < chunk)
    (hlast : lastIdx = (chunk - 1) * 2 ^ pow) :
    lastIdx ≤ (splitPrefix obj len pow chunk lastIdx).2 ∧
      ((splitPrefix obj len pow chunk lastIdx).2 = lastIdx ∨
        (splitPrefix obj len pow chunk lastIdx).2 < len) := by
  induction pow generalizing chunk lastIdx with
  | zero => exact ⟨le_rfl, Or.inl rfl⟩
  | succ pow ih =>
      simp only [splitPrefix]
      split
      · split
        · rename_i hend
          have hle : lastIdx ≤ (chunk * 2 - 1) * 2 ^ pow := by
            rw [hlast, ← leftChunk_start h]
            exact chunk_start_le _ _
          have hpos : 0 < chunk * 2 := by omega
          obtain ⟨hlo, hhi⟩ := ih hpos rfl
          exact ⟨hle.trans hlo, Or.inr (hhi.elim (fun h => h.trans_lt hend) id)⟩
        · exact ih (by omega) (hlast.trans (leftChunk_start h pow).symm)
      · exact ⟨le_rfl, Or.inl rfl⟩

-- The loop runs with `lastIdx` at the left end of its current chunk. Of what
-- lies between there and its result every element is in one chunk pushed.
theorem splitPrefix_covering (obj len pow : Nat) {chunk lastIdx : Nat} (h : 0 < chunk)
    (hlast : lastIdx = (chunk - 1) * 2 ^ pow) (i : Nat) :
    covering (splitPrefix obj len pow chunk lastIdx).1 i =
      if lastIdx ≤ i ∧ i < (splitPrefix obj len pow chunk lastIdx).2 then 1 else 0 := by
  induction pow generalizing chunk lastIdx with
  | zero => exact (if_neg fun hi => Nat.lt_irrefl _ (hi.1.trans_lt hi.2)).symm
  | succ pow ih =>
      simp only [splitPrefix]
      split
      · have hstart := hlast.trans (leftChunk_start h pow).symm
        split
        · rename_i hend
          have hpos : 0 < chunk * 2 := by omega
          have hrest := ih hpos rfl
          have hsnd := (splitPrefix_snd obj len pow hpos rfl).1
          have hle := chunk_start_le (chunk * 2 - 1) pow
          have hhead : (MarkTask.new2 obj true false (chunk * 2 - 1) pow).Elements i ↔
              lastIdx ≤ i ∧ i < (chunk * 2 - 1) * 2 ^ pow := by
            rw [hstart]
            exact Iff.rfl
          rw [covering_cons, hrest]
          simp only [hhead]
          split <;> split <;> split <;> omega
        · exact ih (by omega) hstart
      · simp only [covering, List.countP_nil]
        rw [if_neg (by omega)]

theorem splitChunk_tasks (obj pow : Nat) {chunk : Nat} (h : 0 < chunk) :
    ∀ t ∈ (splitChunk obj pow chunk).1, t.obj = obj ∧ 0 < t.chunk ∧
      t.chunk < MarkTask.chunkSize ∧ t.chunk * 2 ^ t.pow ≤ chunk * 2 ^ pow := by
  induction pow generalizing chunk with
  | zero => intro t ht; simp [splitChunk] at ht
  | succ pow ih =>
      intro t ht
      simp only [splitChunk] at ht
      split at ht
      · rename_i hsplit
        rcases List.mem_cons.mp ht with rfl | hrest
        · simp only [MarkTask.new2]
          exact ⟨trivial, by omega, by omega, leftChunk_stop_le chunk pow⟩
        · rw [← rightChunk_stop]
          exact ih (by omega) t hrest
      · simp at ht

-- The chunk that is kept is the right end of the one that was split.
theorem splitChunk_stop (obj pow chunk : Nat) :
    (splitChunk obj pow chunk).2.1 * 2 ^ (splitChunk obj pow chunk).2.2 = chunk * 2 ^ pow := by
  induction pow generalizing chunk with
  | zero => rfl
  | succ pow ih =>
      simp only [splitChunk]
      split
      · rw [← rightChunk_stop]
        exact ih (chunk * 2)
      · rfl

theorem splitChunk_start (obj pow : Nat) {chunk : Nat} (h : 0 < chunk) :
    (chunk - 1) * 2 ^ pow ≤
      ((splitChunk obj pow chunk).2.1 - 1) * 2 ^ (splitChunk obj pow chunk).2.2 := by
  induction pow generalizing chunk with
  | zero => exact le_rfl
  | succ pow ih =>
      simp only [splitChunk]
      split
      · rw [← leftChunk_start h]
        exact (chunk_start_le _ _).trans (ih (by omega))
      · exact le_rfl

theorem splitChunk_extent (obj pow chunk : Nat) :
    extent (splitChunk obj pow chunk).1 + 2 ^ (splitChunk obj pow chunk).2.2 = 2 ^ pow := by
  induction pow generalizing chunk with
  | zero => rfl
  | succ pow ih =>
      simp only [splitChunk]
      split
      · have := ih (chunk * 2)
        simp only [extent, List.map_cons, List.sum_cons, MarkTask.new2, Nat.pow_succ] at this ⊢
        omega
      · simp [extent]

-- The chunks pushed cover what the kept one leaves of the chunk, once.
theorem splitChunk_covering (obj pow : Nat) {chunk : Nat} (h : 0 < chunk) (i : Nat) :
    covering (splitChunk obj pow chunk).1 i =
      if (chunk - 1) * 2 ^ pow ≤ i ∧
        i < ((splitChunk obj pow chunk).2.1 - 1) * 2 ^ (splitChunk obj pow chunk).2.2
      then 1 else 0 := by
  induction pow generalizing chunk with
  | zero => exact (if_neg fun hi => Nat.lt_irrefl _ (hi.1.trans_lt hi.2)).symm
  | succ pow ih =>
      simp only [splitChunk]
      split
      · have hstart := leftChunk_start h pow
        have hle := chunk_start_le (chunk * 2 - 1) pow
        have hpos : 0 < chunk * 2 := by omega
        have hkept := splitChunk_start obj pow hpos
        have hhead : (MarkTask.new2 obj true false (chunk * 2 - 1) pow).Elements i ↔
            (chunk - 1) * 2 ^ (pow + 1) ≤ i ∧ i < (chunk * 2 - 1) * 2 ^ pow := by
          rw [← hstart]
          exact Iff.rfl
        rw [covering_cons, ih (by omega)]
        simp only [hhead]
        split <;> split <;> split <;> omega
      · simp only [covering, List.countP_nil]
        rw [if_neg (by omega)]

end Rsgc.Marking
