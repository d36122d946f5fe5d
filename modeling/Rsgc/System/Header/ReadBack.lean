import Rsgc.System.Header.Sizes

namespace Rsgc.System

namespace Headers

variable {types : Nat → Allocation} {s t : Headers}

structure Inv (types : Nat → Allocation) (s : Headers) : Prop where
  described : ∀ b ∈ s.blocks, b.Described types s.memory
  apart : ∀ b ∈ s.blocks, ∀ b' ∈ s.blocks, b.addr ≠ b'.addr → b.stop ≤ b'.addr ∨ b'.stop ≤ b.addr

theorem Inv.readsBack (h : s.Inv types) : s.ReadsBack types :=
  fun b hb => (h.described b hb).heapSize

-- A new block in unused memory, whose writes stay inside it.
theorem Inv.add (h : s.Inv types) {m : Memory} {b : HeapBlock} (hnew : b.Described types m)
    (hunused : s.Unused b.addr b.size)
    (hframe : ∀ a, a < b.addr ∨ b.addr + b.size ≤ a → m a = s.memory a) :
    Inv types ⟨m, b :: s.blocks⟩ := by
  refine ⟨fun b' hb' => ?_, fun b₁ hb₁ b₂ hb₂ hne => ?_⟩
  · rcases List.mem_cons.mp hb' with rfl | hb'
    · exact hnew
    · have haway := hunused b' hb'
      refine (h.described b' hb').frame fun a hl hr => hframe a ?_
      omega
  · rcases List.mem_cons.mp hb₁ with rfl | hold₁ <;> rcases List.mem_cons.mp hb₂ with rfl | hold₂
    · exact absurd rfl hne
    · exact hunused b₂ hold₂
    · exact (hunused b₁ hold₁).symm
    · exact h.apart b₁ hold₁ b₂ hold₂ hne

theorem Inv.step {e : HeaderEvent} (h : s.Inv types) (hcontained : s.Contained types e)
    (hstep : s.step types e = some t) : t.Inv types := by
  obtain ⟨henabled, rfl⟩ := guard_eq_some.mp hstep
  cases e with
  | entry addr size =>
      obtain ⟨hpos, hdvd, hlt, hunused⟩ := henabled
      exact h.add (asEntry_described s.memory hpos hdvd hlt) hunused
        fun a ha => asEntry_of_not s.memory (by omega) ha
  | allocate vt addr value =>
      obtain ⟨htyped, hfits, hunused⟩ := henabled
      obtain ⟨hnew, hframe⟩ :=
        allocate_described s.memory addr value htyped hfits
      exact h.add hnew hunused hframe
  | allocateVarsize vt addr length =>
      obtain ⟨hrequest, hunused⟩ := henabled
      exact h.add (allocateVarsize_described s.memory hrequest) hunused
        fun a ha => allocateVarsize_of_not s.memory hcontained ha
  | release addr =>
      exact ⟨fun b hb => h.described b (List.mem_filter.mp hb).1, fun b hb b' hb' =>
        h.apart b (List.mem_filter.mp hb).1 b' (List.mem_filter.mp hb').1⟩
  | update addr u =>
      obtain ⟨b, hb, rfl⟩ := henabled
      refine ⟨fun b' hb' => ?_, h.apart⟩
      by_cases heq : b'.addr = b.addr
      · have hupdated := (h.described b' hb').update u
        rwa [heq] at hupdated
      · have haway := h.apart b' hb' b hb heq
        have hheader := (h.described b hb).inside (b.addr, 8) List.mem_cons_self
        refine (h.described b' hb').frame fun a hl hr => setHeaderWord_of_not _ _ ?_
        simp only at hheader
        omega
  | store addr byte =>
      rcases henabled with rfl | houtside
      · have hsame : s.perform types (.store addr (s.memory addr)) = s := by
          simp [perform]
        rw [hsame]
        exact h
      · refine ⟨fun b hb => (h.described b hb).congr fun p hp a hl hr => ?_, h.apart⟩
        have haway := houtside b hb p hp
        exact Function.update_of_ne (by omega) _ _

theorem inv_of_via (hs : (headerMachine types).Via (Contained types) s) : s.Inv types := by
  refine Machine.Via.invariant (P := fun s => s.Inv types) (fun s hinit => ?_)
    (fun s e t h hcontained hstep => h.step hcontained hstep) hs
  have hnil : s.blocks = [] := hinit
  exact ⟨by simp [hnil], by simp [hnil]⟩

section Overrun

variable {vt length : Nat}

def zeroed : Headers := ⟨fun _ => 0, []⟩

-- An entry of 16 bytes at `addr`; all other memory is zero.
def neighbour (addr : Nat) : Headers := ⟨Entry.asEntry (fun _ => 0) addr 16, [⟨addr, 16, none⟩]⟩

theorem neighbour_via (types : Nat → Allocation) (addr : Nat) :
    (headerMachine types).Via (Contained types) (neighbour addr) := by
  have hinit : (headerMachine types).init zeroed := rfl
  have hstep : zeroed.step types (.entry addr 16) = some (neighbour addr) :=
    guard_eq_some.mpr ⟨⟨by decide, by decide, by decide, by simp [Unused, zeroed]⟩, rfl⟩
  exact Machine.Via.step (e := .entry addr 16) (Machine.Via.init hinit) trivial hstep

theorem neighbour_memory {addr a : Nat} (ha : a ≠ addr) : (neighbour addr).memory a = 0 := by
  have htags : (VtableTag.update 0 (SizeTag.update 0 16)).toNat = 8 := by decide
  have hword : setHeaderWord (fun _ => 0) addr
      (VtableTag.update 0 (SizeTag.update 0 16)) a = 0 := by
    unfold setHeaderWord Memory.writeLE
    rw [htags]
    split
    · have hlt : 8 < 256 ^ (a - addr) :=
        Nat.lt_of_lt_of_le (by decide : 8 < 256 ^ 1) (Nat.pow_le_pow_right (by decide) (by omega))
      rw [Nat.div_eq_of_lt hlt]
      rfl
    · rfl
  have hlink : (setHeaderWord (fun _ => 0) addr (VtableTag.update 0 (SizeTag.update 0 16))).writeLE
      (addr + 8) 8 0 a = 0 := by
    unfold Memory.writeLE
    split
    · rw [Nat.zero_div]
      rfl
    · exact hword
  unfold neighbour Entry.asEntry
  rw [if_neg (by decide)]
  exact hlink

theorem readLE_zero {m : Memory} {addr n : Nat} (h : ∀ a, addr ≤ a → a < addr + n → m a = 0) :
    m.readLE addr n = 0 := by
  induction n generalizing addr with
  | zero => rfl
  | succ n ih =>
      unfold Memory.readLE
      rw [h addr (Nat.le_refl _) (by omega), ih fun a hl hr => h a (by omega) (by omega)]
      rfl

-- The upper half of the length is zero; it wipes out the tag of the entry.
theorem overrun_reads (hrequest : Requestable types vt length)
    (hoverrun : (types vt).varSize length < HEADER_SIZE + (types vt).varsizeOffsetofCapacity + 8) :
    HeapObjectHeader.heapSize types
      (allocateVarsize types (neighbour ((types vt).varSize length)).memory 0 vt length)
      ((types vt).varSize length) = 0 := by
  have hfield := hrequest.typed.field rfl
  have hsize := varSize_eq hrequest.fits
  have hlength := hrequest.length_lt
  unfold HEADER_SIZE at hsize hoverrun
  have hzero : ∀ a, (types vt).varSize length ≤ a → allocateVarsize types
      (neighbour ((types vt).varSize length)).memory 0 vt length a = 0 := by
    intro a ha
    unfold allocateVarsize
    simp only [HEADER_SIZE]
    unfold Memory.writeLE
    split
    · have hlt : length < 256 ^ (a - (0 + 8 + (types vt).varsizeOffsetofCapacity)) :=
        Nat.lt_of_lt_of_le (by omega : length < 256 ^ 4)
          (Nat.pow_le_pow_right (by decide) (by omega))
      rw [Nat.div_eq_of_lt hlt]
      rfl
    · rw [initHeader_of_not _ _ _ _ (by omega)]
      exact neighbour_memory (by omega)
  have hword : headerWord (allocateVarsize types (neighbour ((types vt).varSize length)).memory 0
      vt length) ((types vt).varSize length) = 0#64 := by
    unfold headerWord
    rw [readLE_zero fun a hl _ => hzero a hl]
  have htag : SizeTag.decode 0#64 = 0 := by decide
  have hvtable : (VtableTag.decode 0#64).toNat = 0 := by decide
  unfold HeapObjectHeader.heapSize HeapObjectHeader.heapSizeFromVtable Entry.heapSize
  simp only [hword, htag, hvtable, ne_eq, not_true_eq_false, if_false, if_true]
  exact readLE_zero fun a hl _ => hzero a (by unfold Entry.sizeAddress at hl; omega)

end Overrun

-- In every run in which no length reaches beyond its object all sizes are read
-- back, and an allocation that is not contained can destroy the header behind it.
theorem sizes_read_back (types : Nat → Allocation) :
    (∀ s, (headerMachine types).Via (Contained types) s → s.ReadsBack types) ∧
      ∀ vt length, Requestable types vt length →
        ((∀ s t addr, (headerMachine types).Via (Contained types) s →
            s.step types (.allocateVarsize vt addr length) = some t → t.ReadsBack types) ↔
          HEADER_SIZE + (types vt).varsizeOffsetofCapacity + 8 ≤ (types vt).varSize length) := by
  refine ⟨fun s hs => (inv_of_via hs).readsBack, fun vt length hrequest => ⟨fun hall => ?_, ?_⟩⟩
  · by_contra hover
    have hstep : (neighbour ((types vt).varSize length)).step types
        (.allocateVarsize vt 0 length) = some ((neighbour ((types vt).varSize length)).perform types
          (.allocateVarsize vt 0 length)) :=
      guard_eq_some.mpr ⟨⟨hrequest, by simp [Unused, neighbour]⟩, rfl⟩
    have hreads := hall _ _ 0 (neighbour_via types _) hstep
      ⟨(types vt).varSize length, 16, none⟩ (by simp [perform, neighbour])
    have hzero := overrun_reads hrequest (by omega)
    change HeapObjectHeader.heapSize types _ _ = 16 at hreads
    simp only [perform] at hreads
    omega
  · intro hcontained s t addr hs hstep
    have hgood : s.Contained types (.allocateVarsize vt addr length) := hcontained
    exact (inv_of_via (Machine.Via.step hs hgood hstep)).readsBack

instance (types : Nat → Allocation) (s : Headers) : (e : HeaderEvent) →
    Decidable (s.Contained types e)
  | .allocateVarsize _ _ _ => inferInstanceAs (Decidable (_ ≤ _))
  | .entry _ _ | .allocate _ _ _ | .release _ | .update _ _ | .store _ _ =>
      inferInstanceAs (Decidable True)

-- An array of words with its length in front.
def arrayType : Allocation := ⟨8, true, 8, 0, true⟩

-- A large entry and an array that is too large for its tag.
theorem sizes_read_back_large : ∃ s, (headerMachine fun _ => arrayType).Via
    (Contained fun _ => arrayType) s ∧ s.blocks.map (·.size) = [160016, 131072] ∧
      s.ReadsBack fun _ => arrayType := by
  have hrun : ((headerMachine fun _ => arrayType).runVia (Contained fun _ => arrayType) zeroed
      [.entry 0 131072, .allocateVarsize 1 131072 20000, .update 131072 .setMarked,
        .update 0 (.setFinalizationOrdering true)]).map (fun s => s.blocks.map (·.size)) =
          some [160016, 131072] := by decide +kernel
  obtain ⟨s, hs, hsizes⟩ := Option.map_eq_some_iff.mp hrun
  have hinit : (headerMachine fun _ => arrayType).init zeroed := rfl
  have hvia := Machine.via_of_runVia (Machine.Via.init hinit) hs
  exact ⟨s, hvia, hsizes, (sizes_read_back fun _ => arrayType).1 s hvia⟩

-- The same with the length and then the capacity in front.
def listType : Allocation := ⟨8, true, 8, 4, true⟩

-- An empty list has 16 bytes, and the write of its capacity ends at the 20th.
theorem empty_list_overruns : ∃ s, (headerMachine fun _ => listType).Reachable s ∧
    ¬s.ReadsBack fun _ => listType := by
  have hrequest : Requestable (fun _ => listType) 1 0 := by decide
  have hsize : listType.varSize 0 = 16 := by decide
  have hstep : (neighbour 16).step (fun _ => listType) (.allocateVarsize 1 0 0) =
      some ((neighbour 16).perform (fun _ => listType) (.allocateVarsize 1 0 0)) :=
    guard_eq_some.mpr ⟨⟨hrequest, by simp [Unused, neighbour, hsize]⟩, rfl⟩
  refine ⟨_, (neighbour_via _ 16).reachable.next (e := .allocateVarsize 1 0 0) hstep,
    fun hreads => ?_⟩
  have hback := hreads ⟨16, 16, none⟩ (by simp [perform, neighbour])
  have hzero := overrun_reads hrequest (by decide)
  change HeapObjectHeader.heapSize _ _ _ = 16 at hback
  rw [hsize] at hzero
  simp only [perform] at hback
  omega

end Headers

end Rsgc.System
