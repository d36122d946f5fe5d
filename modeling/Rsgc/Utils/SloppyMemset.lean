import Rsgc.Lib.Bytes

namespace Rsgc.Utils

-- The body of the fill goes on in vectors of 16 bytes until it has passed `stop`.
def bodyVectors (stop : Nat) : Nat → Nat → List Nat
  | 0, _ => []
  | fuel + 1, p => p :: if stop ≤ p + 16 then [] else bodyVectors stop fuel (p + 16)

-- Where `simd_sloppy_memset` on bytes writes a vector: at `ptr`, whatever the
-- length, and behind it at multiples of 16.
def sloppyVectors (ptr count : Nat) : List Nat :=
  ptr :: if count ≤ 16 then [] else bodyVectors (ptr + count) count (ptr + 16 - (ptr + 16) % 16)

def sloppyMemset (m : Memory) (ptr : Nat) (value : UInt8) (len : Nat) : Memory :=
  (sloppyVectors ptr len).foldl (fun m p => m.writeBytes p 16 fun _ => value) m

-- The end of what is written.
def sloppyStop (ptr count : Nat) : Nat :=
  if count ≤ 16 then ptr + 16 else (ptr + count + 15) / 16 * 16

theorem le_sloppyStop (ptr count : Nat) : ptr + count ≤ sloppyStop ptr count := by
  unfold sloppyStop
  split <;> omega

-- It is less than 16 bytes behind the range, or where a single vector ends.
theorem sloppyStop_le (ptr count : Nat) : sloppyStop ptr count ≤ ptr + count + 16 := by
  unfold sloppyStop
  split <;> omega

theorem bodyVectors_covers (stop fuel : Nat) {p : Nat} (hlt : p < stop) (hfuel : stop ≤ p + 16 * fuel)
    (halign : p % 16 = 0) (a : Nat) :
    (∃ v ∈ bodyVectors stop fuel p, v ≤ a ∧ a < v + 16) ↔ p ≤ a ∧ a < (stop + 15) / 16 * 16 := by
  induction fuel generalizing p with
  | zero => omega
  | succ fuel ih =>
      unfold bodyVectors
      by_cases hend : stop ≤ p + 16
      · rw [if_pos hend]
        simp only [List.mem_singleton, exists_eq_left]
        omega
      · rw [if_neg hend]
        have hrest := ih (p := p + 16) (by omega) (by omega) (by omega)
        simp only [List.mem_cons, exists_eq_or_imp, hrest]
        omega

theorem sloppyVectors_covers (ptr count a : Nat) :
    (∃ v ∈ sloppyVectors ptr count, v ≤ a ∧ a < v + 16) ↔ ptr ≤ a ∧ a < sloppyStop ptr count := by
  unfold sloppyVectors sloppyStop
  by_cases hshort : count ≤ 16
  · simp [hshort]
  · have hbody := bodyVectors_covers (ptr + count) count
      (p := ptr + 16 - (ptr + 16) % 16) (by omega) (by omega) (by omega) a
    simp only [hshort, if_false, List.mem_cons, exists_eq_or_imp, hbody]
    omega

-- Vectors that agree on the byte at each address write it wherever one of them is.
theorem writeVectors_apply (m : Memory) {bytes byte : Nat → UInt8} {vectors : List Nat}
    (hbyte : ∀ v ∈ vectors, ∀ a, v ≤ a → a < v + 16 → bytes (a - v) = byte a) (a : Nat) :
    (vectors.foldl (fun m p => m.writeBytes p 16 bytes) m) a =
      if ∃ v ∈ vectors, v ≤ a ∧ a < v + 16 then byte a else m a := by
  induction vectors generalizing m with
  | nil => simp
  | cons v rest ih =>
      rw [List.foldl_cons, ih _ fun u hu => hbyte u (List.mem_cons_of_mem v hu)]
      by_cases hrest : ∃ u ∈ rest, u ≤ a ∧ a < u + 16
      · rw [if_pos hrest, if_pos]
        obtain ⟨u, hu, hcovers⟩ := hrest
        exact ⟨u, List.mem_cons_of_mem v hu, hcovers⟩
      · rw [if_neg hrest]
        unfold Memory.writeBytes
        simp only [List.mem_cons, exists_eq_or_imp, hrest, or_false]
        by_cases hhead : v ≤ a ∧ a < v + 16
        · rw [if_pos hhead, if_pos hhead, hbyte v List.mem_cons_self a hhead.1 hhead.2]
        · rw [if_neg hhead, if_neg hhead]

-- The fill reaches from `ptr` to `sloppyStop`, 16 bytes at least.
theorem sloppyMemset_apply (m : Memory) (ptr : Nat) (value : UInt8) (len a : Nat) :
    sloppyMemset m ptr value len a =
      if ptr ≤ a ∧ a < sloppyStop ptr len then value else m a := by
  unfold sloppyMemset
  have hbyte : ∀ v ∈ sloppyVectors ptr len, ∀ a, v ≤ a → a < v + 16 → value = value :=
    fun _ _ _ _ _ => rfl
  rw [writeVectors_apply m hbyte]
  simp only [sloppyVectors_covers]

-- The vectors stay below `limit` if the last of them does.
theorem sloppyVectors_below (ptr count limit : Nat) :
    (∀ v ∈ sloppyVectors ptr count, ptr ≤ v ∧ v + 16 ≤ limit) ↔ sloppyStop ptr count ≤ limit := by
  constructor
  · intro hall
    have hge : ptr < sloppyStop ptr count := by
      unfold sloppyStop
      split <;> omega
    obtain ⟨v, hv, hlow, hhigh⟩ :=
      (sloppyVectors_covers ptr count (sloppyStop ptr count - 1)).mpr ⟨by omega, by omega⟩
    have hin := hall v hv
    omega
  · intro hle v hv
    have hfirst := (sloppyVectors_covers ptr count v).mp ⟨v, hv, by omega, by omega⟩
    have hlast := (sloppyVectors_covers ptr count (v + 15)).mp ⟨v, hv, by omega, by omega⟩
    omega

end Rsgc.Utils
