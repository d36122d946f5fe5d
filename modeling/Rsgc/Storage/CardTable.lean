import Rsgc.Lib.Bytes
import Rsgc.Storage.Options.Sizes

namespace Rsgc.Storage

-- Where the card table stops; the arithmetic is checked.
inductive CardPanic
  | setup (p : SetupPanic)
  | arithmeticOverflow
  | invalidCard
deriving DecidableEq, Repr

-- `mem_map` by its start and size.
structure CardTable where
  memMapBegin : Nat
  memMapSize : Nat
  biasedBegin : Nat
  offset : Int
deriving DecidableEq, Repr

namespace CardTable

def CARD_SHIFT : Nat := 10
def CARD_SIZE : Nat := 1 <<< CARD_SHIFT
def CARD_CLEAN : UInt8 := 0
def CARD_DIRTY : UInt8 := 0x70
def CARD_AGED : UInt8 := CARD_DIRTY - 1

-- What is added to the biased begin so that its low byte is `CARD_DIRTY`.
def biasOffset (biasedByte : Nat) : Int :=
  if biasedByte ≠ CARD_DIRTY.toNat then
    let delta : Int := CARD_DIRTY.toNat - biasedByte
    delta + if delta < 0 then 0x100 else 0
  else 0

-- `cardtable_begin` is the address at which the card memory was mapped.
def new (pageSize heapBegin heapCapacity cardtableBegin : Nat) : Except CardPanic CardTable := do
  let capacity := heapCapacity / CARD_SIZE
  let size ← (alignUsize (capacity + 256) pageSize).mapError CardPanic.setup
  ensure (heapBegin >>> CARD_SHIFT ≤ cardtableBegin) CardPanic.arithmeticOverflow
  let biasedBegin := cardtableBegin - heapBegin >>> CARD_SHIFT
  let offset := biasOffset (biasedBegin &&& 0xff)
  pure ⟨cardtableBegin, size, (biasedBegin + offset).toNat, offset⟩

def memMapEnd (t : CardTable) : Nat := t.memMapBegin + t.memMapSize

def cardFromAddr (t : CardTable) (addr : Nat) : Nat := t.biasedBegin + addr >>> CARD_SHIFT

def isValidCard (t : CardTable) (card : Nat) : Prop := t.memMapBegin ≤ card ∧ card < t.memMapEnd

instance (t : CardTable) (card : Nat) : Decidable (t.isValidCard card) :=
  inferInstanceAs (Decidable (_ ∧ _))

def addrFromCard (t : CardTable) (card : Nat) : Except CardPanic Nat := do
  ensure (t.isValidCard card) CardPanic.invalidCard
  ensure (t.biasedBegin ≤ card) CardPanic.arithmeticOverflow
  pure ((card - t.biasedBegin) <<< CARD_SHIFT)

-- The arguments of `new`: a page is a power of two and holds whole cards, and the
-- heap and the card memory begin at pages.
structure Pages (pageSize heapBegin heapCapacity cardtableBegin : Nat) : Prop where
  page : ∃ log, CARD_SHIFT ≤ log ∧ log < 64 ∧ pageSize = 2 ^ log
  heap_dvd : pageSize ∣ heapBegin
  capacity_dvd : pageSize ∣ heapCapacity
  capacity_lt : heapCapacity < usizeRange
  card_dvd : pageSize ∣ cardtableBegin
  le : heapBegin >>> CARD_SHIFT ≤ cardtableBegin

theorem card_shift_eq (addr : Nat) : addr >>> CARD_SHIFT = addr / 1024 := by
  rw [Nat.shiftRight_eq_div_pow]
  rfl

-- The offset moves the low byte to `CARD_DIRTY`, and by less than 256.
theorem biasOffset_spec (biased : Nat) : ∃ offset : Nat, biasOffset (biased &&& 0xff) = offset ∧
    offset < 256 ∧ (biased + offset) % 256 = CARD_DIRTY.toNat := by
  have hbyte : biased &&& 0xff = biased % 256 := Nat.and_two_pow_sub_one_eq_mod biased 8
  have hdirty : CARD_DIRTY.toNat = 112 := rfl
  rw [hbyte]
  unfold biasOffset
  simp only [hdirty]
  by_cases heq : biased % 256 = 112
  · exact ⟨0, by simp [heq], by omega, by omega⟩
  · rw [if_pos heq]
    by_cases hneg : ((112 : Nat) : Int) - ((biased % 256 : Nat) : Int) < 0
    · rw [if_pos hneg]
      exact ⟨112 + 256 - biased % 256, by omega, by omega, by omega⟩
    · rw [if_neg hneg]
      exact ⟨112 - biased % 256, by omega, by omega, by omega⟩

-- What `new` makes of arguments of that kind.
structure Covers (t : CardTable) (heapBegin heapCapacity cardtableBegin offset : Nat) : Prop where
  begin_eq : t.memMapBegin = cardtableBegin
  size_ge : heapCapacity / CARD_SIZE + 256 ≤ t.memMapSize
  biased_eq : t.biasedBegin + heapBegin >>> CARD_SHIFT = cardtableBegin + offset
  offset_lt : offset < 256
  low_byte : t.biasedBegin % 256 = CARD_DIRTY.toNat

theorem new_covers {pageSize heapBegin heapCapacity cardtableBegin : Nat}
    (hp : Pages pageSize heapBegin heapCapacity cardtableBegin) :
    ∃ t offset, new pageSize heapBegin heapCapacity cardtableBegin = .ok t ∧
      t.Covers heapBegin heapCapacity cardtableBegin offset := by
  obtain ⟨log, hlog, hlt, rfl⟩ := hp.page
  have hsmall : 2 ^ log ≤ 2 ^ 63 := Nat.pow_le_pow_right Nat.two_pos (by omega)
  have hcapacity := hp.capacity_lt
  have hle := hp.le
  have hdiv : heapCapacity / CARD_SIZE = heapCapacity / 1024 := rfl
  obtain ⟨offset, hoffset, hshort, hlow⟩ :=
    biasOffset_spec (cardtableBegin - heapBegin >>> CARD_SHIFT)
  have hrange : usizeRange = 2 * 2 ^ 63 := rfl
  have hfits : heapCapacity / CARD_SIZE + 256 + 2 ^ log ≤ usizeRange := by omega
  have hsize : alignUsize (heapCapacity / CARD_SIZE + 256) (2 ^ log) =
      .ok (roundUp (heapCapacity / CARD_SIZE + 256) (2 ^ log)) := by
    rw [alignUsize_eq (by omega) (by omega), if_neg (Nat.two_pow_pos log).ne', if_pos hfits]
  refine ⟨⟨cardtableBegin, roundUp (heapCapacity / CARD_SIZE + 256) (2 ^ log),
    cardtableBegin - heapBegin >>> CARD_SHIFT + offset, offset⟩, offset, ?_, rfl, ?_, ?_,
    hshort, hlow⟩
  · simp only [new, hsize, hoffset, hle, ensure, if_true, Except.mapError, Except.ok_bind]
    rfl
  · exact le_roundUp _ (Nat.two_pow_pos log)
  · simp only
    omega

-- The card of a heap address counts from the begin of the card memory.
theorem Covers.cardFromAddr_eq {t : CardTable} {heapBegin heapCapacity cardtableBegin offset : Nat}
    (hc : t.Covers heapBegin heapCapacity cardtableBegin offset) {a : Nat} (hle : heapBegin ≤ a) :
    t.cardFromAddr a = t.memMapBegin + offset + (a / CARD_SIZE - heapBegin / CARD_SIZE) := by
  have hbiased := hc.biased_eq
  have hbegin := hc.begin_eq
  have hmono : heapBegin / 1024 ≤ a / 1024 := Nat.div_le_div_right hle
  unfold cardFromAddr
  rw [card_shift_eq] at *
  change _ = _ + (a / 1024 - heapBegin / 1024)
  omega

-- What the rest of the collector expects of the cards of its heap.
structure Mapped (t : CardTable) (heapBegin heapCapacity : Nat) : Prop where
  low_byte : t.biasedBegin % 256 = CARD_DIRTY.toNat
  valid : ∀ a, heapBegin ≤ a → a < heapBegin + heapCapacity → t.isValidCard (t.cardFromAddr a)
  round_trip : ∀ a, heapBegin ≤ a → a < heapBegin + heapCapacity →
    t.addrFromCard (t.cardFromAddr a) = .ok (a / CARD_SIZE * CARD_SIZE)
  apart : ∀ a b, heapBegin ≤ a → a < heapBegin + heapCapacity → heapBegin ≤ b →
    b < heapBegin + heapCapacity → a / CARD_SIZE ≠ b / CARD_SIZE →
      t.cardFromAddr a ≠ t.cardFromAddr b

theorem Covers.mapped {t : CardTable} {heapBegin heapCapacity cardtableBegin offset : Nat}
    (hc : t.Covers heapBegin heapCapacity cardtableBegin offset) (hbegin : CARD_SIZE ∣ heapBegin)
    (hcapacity : CARD_SIZE ∣ heapCapacity) : t.Mapped heapBegin heapCapacity := by
  have hvalid : ∀ a, heapBegin ≤ a → a < heapBegin + heapCapacity →
      t.isValidCard (t.cardFromAddr a) := by
    intro a hl hr
    have hoffset := hc.offset_lt
    have hsize := hc.size_ge
    obtain ⟨first, rfl⟩ := hbegin
    obtain ⟨cards, rfl⟩ := hcapacity
    have hlast : a / CARD_SIZE < first + cards := by
      apply Nat.div_lt_of_lt_mul
      rwa [Nat.mul_add]
    rw [Nat.mul_div_cancel_left _ (by decide)] at hsize
    rw [isValidCard, hc.cardFromAddr_eq hl, Nat.mul_div_cancel_left _ (by decide), memMapEnd]
    omega
  refine ⟨hc.low_byte, hvalid, fun a hl hr => ?_, fun a b _ _ _ _ hne heq => hne ?_⟩
  · have hcard : t.cardFromAddr a - t.biasedBegin = a / CARD_SIZE := by
      unfold cardFromAddr
      rw [Nat.add_sub_cancel_left, card_shift_eq]
      rfl
    have hle : t.biasedBegin ≤ t.cardFromAddr a := Nat.le_add_right _ _
    simp only [addrFromCard, ensure, hvalid a hl hr, hle, if_true, Except.ok_bind]
    rw [hcard, Nat.shiftLeft_eq]
    rfl
  · have hshift := Nat.add_left_cancel heq
    rwa [card_shift_eq, card_shift_eq] at hshift

-- The table lies in the block behind the bias, wherever heap and card memory are.
theorem biased_cards {pageSize heapBegin heapCapacity cardtableBegin : Nat}
    (hp : Pages pageSize heapBegin heapCapacity cardtableBegin) :
    ∃ t, new pageSize heapBegin heapCapacity cardtableBegin = .ok t ∧
      t.Mapped heapBegin heapCapacity := by
  obtain ⟨t, offset, hnew, hc⟩ := new_covers hp
  obtain ⟨log, hlog, _, rfl⟩ := hp.page
  have hcard : CARD_SIZE ∣ 2 ^ log := Nat.pow_dvd_pow 2 hlog
  exact ⟨t, hnew, hc.mapped (hcard.trans hp.heap_dvd) (hcard.trans hp.capacity_dvd)⟩

theorem biased_cards_small :
    ∃ t, new 4096 (2 ^ 32) (10 * 4096) (2 ^ 33 + 4096) = .ok t ∧ t.Mapped (2 ^ 32) (10 * 4096) :=
  biased_cards ⟨⟨12, by decide, by decide, rfl⟩, by decide, by decide, by decide, by decide,
    by decide⟩

end CardTable

end Rsgc.Storage
