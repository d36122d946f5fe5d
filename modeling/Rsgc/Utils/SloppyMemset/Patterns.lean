import Rsgc.Utils.Rounding
import Rsgc.Utils.SloppyMemset

namespace Rsgc.Utils

def isAlignedUsize (p : Profile) (x alignment offset : Nat) : Option Bool := do
  assert (isPowerOfTwoUsize p alignment)
  assert (some (decide (offset < alignment)))
  let mask ← p.unsigned 64 ((alignment : Int) - 1)
  pure (x &&& mask == offset)

-- A release build does not look at the condition.
def debugAssert (p : Profile) (condition : Option Bool) : Option Unit :=
  match p with
  | .debug => assert condition
  | .release => some ()

namespace SloppyMemset

-- The bytes of a vector whose lanes of `width` bytes all hold `value`
def splat (width value : Nat) : Nat → UInt8 := fun j => UInt8.ofNat (value / 256 ^ (j % width))

-- The loop writes a vector at least. With the memory it returns where it has written.
def writeBody (splat : Nat → UInt8) (stop : Nat) : Nat → Nat → Memory → Option (Memory × List Nat)
  | 0, _, _ => none
  | fuel + 1, p, m => do
      let m := m.writeBytes p 16 splat
      if stop ≤ p + 16 then pure (m, [p])
      else
        let (m, rest) ← writeBody splat stop fuel (p + 16) m
        pure (m, p :: rest)

-- `T` is given by its size and its alignment. The range and the 16 bytes behind it lie in
-- the address space.
def simdSloppyMemset (p : Profile) (m : Memory) (size align ptr : Nat) (splat : Nat → UInt8)
    (count : Nat) : Option (Memory × List Nat) := do
  assert (some (decide (size = align ∧ size ≤ 16 ∧ size.isPowerOfTwo)))
  debugAssert p (isAlignedUsize p ptr align 0)
  let m := m.writeBytes ptr 16 splat
  if count ≤ 16 / size then pure (m, [ptr])
  else
    let stop := ptr + count * size
    let body := ptr + 16 - ((ptr + 16) &&& 0xf)
    debugAssert p ((isAlignedUsize p body 16 0).map fun aligned => aligned && decide (ptr < body))
    let (m, written) ← writeBody splat stop (count * size) body m
    pure (m, ptr :: written)

def sloppyMemset (p : Profile) (m : Memory) (ptr : Nat) (value : UInt8) (len : Nat) :
    Option (Memory × List Nat) :=
  simdSloppyMemset p m 1 1 ptr (splat 1 value.toNat) len

def sloppyMemsetPat16 (p : Profile) (m : Memory) (ptr : Nat) (value : UInt16) (count : Nat) :
    Option (Memory × List Nat) :=
  simdSloppyMemset p m 2 2 ptr (splat 2 value.toNat) count

def sloppyMemsetPat32 (p : Profile) (m : Memory) (ptr : Nat) (value : UInt32) (count : Nat) :
    Option (Memory × List Nat) :=
  simdSloppyMemset p m 4 4 ptr (splat 4 value.toNat) count

def sloppyMemsetPat64 (p : Profile) (m : Memory) (ptr : Nat) (value : UInt64) (count : Nat) :
    Option (Memory × List Nat) :=
  simdSloppyMemset p m 8 8 ptr (splat 8 value.toNat) count

-- A call that returns has written the value to every element, and nothing before the
-- range or 16 bytes behind it.
def Fills (m : Memory) (width ptr count value : Nat) (result : Option (Memory × List Nat)) :
    Prop :=
  ∃ m' written, result = some (m', written) ∧
    (∀ i < count, m'.readLE (ptr + i * width) width = value) ∧
    (∀ v ∈ written, ptr ≤ v ∧ v + 16 ≤ ptr + count * width + 16) ∧
    ∀ a, a < ptr ∨ ptr + count * width + 16 ≤ a → m' a = m a

variable {p : Profile} {m : Memory} {ptr count value k : Nat} {bytes : Nat → UInt8}

theorem isAlignedUsize_eq {x : Nat} (hk : k < 64) :
    isAlignedUsize p x (2 ^ k) 0 = some (x % 2 ^ k == 0) := by
  have hpos := Nat.two_pow_pos k
  have hle : 2 ^ k < 2 ^ 64 := Nat.pow_lt_pow_right (by decide) hk
  have hmask : p.unsigned 64 (((2 ^ k : Nat) : Int) - 1) = some (2 ^ k - 1) :=
    Profile.unsigned_eq (by omega) (by omega)
  have hlow : 2 ^ k &&& (2 ^ k - 1) = 0 :=
    (Nat.and_two_pow_sub_one_eq_mod _ k).trans (Nat.mod_self _)
  have hpower : assert (isPowerOfTwoUsize p (2 ^ k)) = some () := by
    unfold isPowerOfTwoUsize isPowerOfTwo
    rw [hmask, Option.map_some]
    exact assert_of ⟨hlow, by omega⟩
  unfold isAlignedUsize
  rw [hpower, assert_of hpos, hmask]
  exact congrArg some (congrArg (· == 0) (Nat.and_two_pow_sub_one_eq_mod x k))

theorem debugAssert_of {condition : Option Bool} (h : condition = some true) :
    debugAssert p condition = some () := by
  rw [h]
  cases p <;> rfl

-- The loop writes the vectors one after another.
theorem writeBody_eq {fuel q stop : Nat} (hlt : q < stop) (hfuel : stop ≤ q + 16 * fuel) :
    writeBody bytes stop fuel q m =
      some ((bodyVectors stop fuel q).foldl (fun m v => m.writeBytes v 16 bytes) m,
        bodyVectors stop fuel q) := by
  induction fuel generalizing q m with
  | zero => omega
  | succ fuel ih =>
      unfold writeBody bodyVectors
      by_cases hend : stop ≤ q + 16
      · simp only [hend, if_true]
        rfl
      · simp only [hend, if_false]
        rw [ih (by omega) (by omega)]
        rfl

-- What a call writes depends on the length in bytes only.
theorem simdSloppyMemset_eq (hk : k ≤ 4) (haligned : ptr % 2 ^ k = 0) :
    simdSloppyMemset p m (2 ^ k) (2 ^ k) ptr bytes count =
      some ((sloppyVectors ptr (count * 2 ^ k)).foldl (fun m v => m.writeBytes v 16 bytes) m,
        sloppyVectors ptr (count * 2 ^ k)) := by
  have hpos := Nat.two_pow_pos k
  have hsize : 2 ^ k ≤ 16 := Nat.pow_le_pow_right (by decide) hk
  have helement : 2 ^ k = 2 ^ k ∧ 2 ^ k ≤ 16 ∧ (2 ^ k).isPowerOfTwo := ⟨rfl, hsize, k, rfl⟩
  have hptr : debugAssert p (isAlignedUsize p ptr (2 ^ k) 0) = some () :=
    debugAssert_of (by rw [isAlignedUsize_eq (by omega), haligned]; rfl)
  have hshort : count ≤ 16 / 2 ^ k ↔ count * 2 ^ k ≤ 16 := Nat.le_div_iff_mul_le hpos
  unfold simdSloppyMemset sloppyVectors
  rw [assert_of helement, hptr]
  by_cases hcount : count * 2 ^ k ≤ 16
  · rw [if_pos hcount]
    exact if_pos (hshort.mpr hcount)
  · have hlow : (ptr + 16) &&& 0xf = (ptr + 16) % 16 := Nat.and_two_pow_sub_one_eq_mod _ 4
    have hbody : debugAssert p ((isAlignedUsize p (ptr + 16 - (ptr + 16) % 16) 16 0).map
        fun aligned => aligned && decide (ptr < ptr + 16 - (ptr + 16) % 16)) = some () := by
      have hmod : (ptr + 16 - (ptr + 16) % 16) % 2 ^ 4 = 0 := by omega
      have hlt : ptr < ptr + 16 - (ptr + 16) % 16 := by omega
      have hcheck : isAlignedUsize p (ptr + 16 - (ptr + 16) % 16) 16 0 = some true :=
        (isAlignedUsize_eq (k := 4) (by decide)).trans (congrArg some (beq_iff_eq.mpr hmod))
      refine debugAssert_of ?_
      rw [hcheck, Option.map_some, decide_eq_true hlt]
      rfl
    rw [if_neg hcount]
    refine (if_neg (mt hshort.mp hcount)).trans ?_
    rw [hlow, hbody, writeBody_eq (by omega) (by omega)]
    rfl

-- On bytes it is the fill that the heap uses.
theorem sloppyMemset_eq (byte : UInt8) (len : Nat) : sloppyMemset p m ptr byte len =
    some (Utils.sloppyMemset m ptr byte len, sloppyVectors ptr len) := by
  have hsplat : splat 1 byte.toNat = fun _ => byte := by
    funext j
    unfold splat
    rw [Nat.mod_one, Nat.pow_zero, Nat.div_one, UInt8.ofNat_toNat]
  have hfill : simdSloppyMemset p m (2 ^ 0) (2 ^ 0) ptr (fun _ => byte) len = _ :=
    simdSloppyMemset_eq (by decide) (Nat.mod_one _)
  unfold sloppyMemset
  rw [hsplat]
  rwa [Nat.pow_zero, Nat.mul_one] at hfill

-- The vectors start at the pointer and at multiples of 16.
theorem sloppyVectors_aligned {width len : Nat} (hdvd : width ∣ 16) (haligned : width ∣ ptr) :
    ∀ v ∈ sloppyVectors ptr len, width ∣ v := by
  have hbody (fuel q stop : Nat) (hq : width ∣ q) : ∀ v ∈ bodyVectors stop fuel q, width ∣ v := by
    induction fuel generalizing q with
    | zero => exact fun v hv => by cases hv
    | succ fuel ih =>
        intro v hv
        unfold bodyVectors at hv
        rcases List.mem_cons.mp hv with rfl | hv
        · exact hq
        · split at hv
          · cases hv
          · exact ih (q + 16) (Nat.dvd_add hq hdvd) v hv
  intro v hv
  unfold sloppyVectors at hv
  rcases List.mem_cons.mp hv with rfl | hv
  · exact haligned
  · split at hv
    · cases hv
    · refine hbody _ _ _ (hdvd.trans ?_) v hv
      exact Nat.dvd_sub_mod (ptr + 16)

-- An address gets the byte that its distance from the last element boundary says,
-- whichever vector it is in.
theorem splat_phase {width v a : Nat} (haligned : width ∣ v) (hle : v ≤ a) :
    splat width value (a - v) = UInt8.ofNat (value / 256 ^ (a % width)) := by
  obtain ⟨n, rfl⟩ := haligned
  have hmod : (a - width * n) % width = a % width := Nat.sub_mul_mod hle
  unfold splat
  rw [hmod]

theorem simdSloppyMemset_apply (hk : k ≤ 4) (haligned : ptr % 2 ^ k = 0) (value : Nat) : ∃ m',
    simdSloppyMemset p m (2 ^ k) (2 ^ k) ptr (splat (2 ^ k) value) count =
      some (m', sloppyVectors ptr (count * 2 ^ k)) ∧
    ∀ a, m' a = if ptr ≤ a ∧ a < sloppyStop ptr (count * 2 ^ k) then
      UInt8.ofNat (value / 256 ^ (a % 2 ^ k)) else m a := by
  have hvectors : ∀ v ∈ sloppyVectors ptr (count * 2 ^ k), 2 ^ k ∣ v :=
    sloppyVectors_aligned (Nat.pow_dvd_pow 2 hk) (Nat.dvd_of_mod_eq_zero haligned)
  refine ⟨_, simdSloppyMemset_eq hk haligned, fun a => ?_⟩
  rw [writeVectors_apply m (fun v hv a hle _ => splat_phase (hvectors v hv) hle)]
  simp only [sloppyVectors_covers]

theorem simdSloppyMemset_fills (hk : k ≤ 4) (haligned : ptr % 2 ^ k = 0)
    (hvalue : value < 256 ^ 2 ^ k) : Fills m (2 ^ k) ptr count value
      (simdSloppyMemset p m (2 ^ k) (2 ^ k) ptr (splat (2 ^ k) value) count) := by
  obtain ⟨m', hresult, hbytes⟩ := simdSloppyMemset_apply hk haligned value
  have hcovered := le_sloppyStop ptr (count * 2 ^ k)
  have hstop := sloppyStop_le ptr (count * 2 ^ k)
  refine ⟨m', _, hresult, fun i hi => ?_, ?_, fun a ha => ?_⟩
  · -- the element is as after a write of it alone
    have hfits : i * 2 ^ k + 2 ^ k ≤ count * 2 ^ k := by
      rw [← Nat.succ_mul]
      exact Nat.mul_le_mul_right _ hi
    obtain ⟨n, hn⟩ := Nat.dvd_add (Nat.dvd_of_mod_eq_zero haligned) (Nat.dvd_mul_left (2 ^ k) i)
    have hsame : ∀ a, ptr + i * 2 ^ k ≤ a → a < ptr + i * 2 ^ k + 2 ^ k →
        m' a = m.writeLE (ptr + i * 2 ^ k) (2 ^ k) value a := fun a hl hr => by
      have hphase : a % 2 ^ k = a - (ptr + i * 2 ^ k) := by
        rw [← Nat.sub_mul_mod (show 2 ^ k * n ≤ a by omega), ← hn]
        exact Nat.mod_eq_of_lt (by omega)
      rw [hbytes a, if_pos ⟨by omega, by omega⟩, hphase]
      exact (if_pos ⟨hl, hr⟩).symm
    rw [Memory.readLE_congr hsame, Memory.readLE_writeLE m _ _ (Nat.le_refl _),
      Nat.mod_eq_of_lt hvalue]
  · exact (sloppyVectors_below ptr (count * 2 ^ k) _).mpr hstop
  · rw [hbytes a, if_neg (by omega)]

theorem sloppyMemset_fills (p : Profile) (m : Memory) (ptr count : Nat) :
    (∀ value, Fills m 1 ptr count value.toNat (sloppyMemset p m ptr value count)) ∧
    (ptr % 2 = 0 →
      ∀ value, Fills m 2 ptr count value.toNat (sloppyMemsetPat16 p m ptr value count)) ∧
    (ptr % 4 = 0 →
      ∀ value, Fills m 4 ptr count value.toNat (sloppyMemsetPat32 p m ptr value count)) ∧
    (ptr % 8 = 0 →
      ∀ value, Fills m 8 ptr count value.toNat (sloppyMemsetPat64 p m ptr value count)) :=
  ⟨fun value => simdSloppyMemset_fills (k := 0) (by decide) (Nat.mod_one _) value.toNat_lt,
    fun haligned value => simdSloppyMemset_fills (k := 1) (by decide) haligned value.toNat_lt,
    fun haligned value => simdSloppyMemset_fills (k := 2) (by decide) haligned value.toNat_lt,
    fun haligned value => simdSloppyMemset_fills (k := 3) (by decide) haligned value.toNat_lt⟩

-- Five words from an address between two multiples of 16 on.
theorem sloppyMemset_fills_unaligned :
    Fills (fun _ => 0) 8 4104 5 0x0123456789abcdef
      (sloppyMemsetPat64 .debug (fun _ => 0) 4104 0x0123456789abcdef 5) ∧
    Fills (fun _ => 0) 4 4100 7 0x01234567
      (sloppyMemsetPat32 .release (fun _ => 0) 4100 0x01234567 7) :=
  ⟨(sloppyMemset_fills .debug (fun _ => 0) 4104 5).2.2.2 (by decide) 0x0123456789abcdef,
    (sloppyMemset_fills .release (fun _ => 0) 4100 7).2.2.1 (by decide) 0x01234567⟩

end SloppyMemset

end Rsgc.Utils
