import Rsgc.Storage.CardTable.ModifyCards
import Rsgc.Storage.HeapBitmap
import Rsgc.Utils.SloppyMemset

namespace Rsgc.Storage.CardTable

open HeapBitmap (ALIGN)

-- The addresses that the visitor was called with, and `cards_scanned`.
structure Scan where
  visited : List Nat
  cardsScanned : Nat
deriving DecidableEq, Repr

def Scan.empty : Scan := ⟨[], 0⟩

def Scan.append (s s' : Scan) : Scan := ⟨s.visited ++ s'.visited, s.cardsScanned + s'.cardsScanned⟩

@[simp] theorem Scan.empty_append (s : Scan) : Scan.empty.append s = s := by
  simp [Scan.empty, Scan.append]

variable {t : CardTable} {b : HeapBitmap} {m : Memory} {minimumAge : UInt8} {p q : Nat → Bool}
  {lo mid hi : Nat} {r r' : Scan}

-- The visit of one card.
def visitCard (b : HeapBitmap) (m : Memory) (start : Nat) : Scan :=
  ⟨b.visitMarkedRange m start (start + CARD_SIZE), 1⟩

-- The body of the first and of the last loop.
def scanCard (t : CardTable) (b : HeapBitmap) (m : Memory) (minimumAge : UInt8) (card : Nat) :
    Except CardPanic Scan :=
  if minimumAge ≤ m card then do
    let start ← t.addrFromCard card
    pure (visitCard b m start)
  else pure Scan.empty

-- The first loop, up to a word boundary; `fuel` bounds the rounds of each loop.
def scanHead (t : CardTable) (b : HeapBitmap) (m : Memory) (minimumAge : UInt8) (cardEnd : Nat) :
    Nat → Nat → Except CardPanic (Scan × Nat)
  | 0, cardCur => pure (Scan.empty, cardCur)
  | fuel + 1, cardCur =>
      if cardCur % 8 ≠ 0 ∧ cardCur < cardEnd then do
        let card ← scanCard t b m minimumAge cardCur
        let rest ← scanHead t b m minimumAge cardEnd fuel (cardCur + 1)
        pure (card.append rest.1, rest.2)
      else pure (Scan.empty, cardCur)

-- The loop over the bytes of a word, which are shifted out one by one.
def scanWord (b : HeapBitmap) (m : Memory) (minimumAge : UInt8) : Nat → Nat → Nat → Scan
  | 0, _, _ => Scan.empty
  | rounds + 1, startWord, start =>
      (if minimumAge.toNat ≤ startWord then visitCard b m start else Scan.empty).append
        (scanWord b m minimumAge rounds (startWord >>> 8) (start + CARD_SIZE))

-- The clean words from `wordCur` on are skipped; `none` leaves the outer loop.
def skipClean (m : Memory) (wordEnd : Nat) : Nat → Nat → Option Nat
  | 0, _ => none
  | fuel + 1, wordCur =>
      if m.readLE wordCur 8 = 0 then
        if wordEnd ≤ wordCur + 8 then none else skipClean m wordEnd fuel (wordCur + 8)
      else some wordCur

def scanWords (t : CardTable) (b : HeapBitmap) (m : Memory) (minimumAge : UInt8) (wordEnd : Nat) :
    Nat → Nat → Except CardPanic Scan
  | 0, _ => pure Scan.empty
  | fuel + 1, wordCur =>
      if wordCur < wordEnd then
        match skipClean m wordEnd (fuel + 1) wordCur with
        | none => pure Scan.empty
        | some wordCur => do
            let start ← t.addrFromCard wordCur
            let rest ← scanWords t b m minimumAge wordEnd fuel (wordCur + 8)
            pure ((scanWord b m minimumAge 8 (m.readLE wordCur 8) start).append rest)
      else pure Scan.empty

def scanTail (t : CardTable) (b : HeapBitmap) (m : Memory) (minimumAge : UInt8) (cardEnd : Nat) :
    Nat → Nat → Except CardPanic Scan
  | 0, _ => pure Scan.empty
  | fuel + 1, cardCur =>
      if cardCur < cardEnd then do
        let card ← scanCard t b m minimumAge cardCur
        let rest ← scanTail t b m minimumAge cardEnd fuel (cardCur + 1)
        pure (card.append rest)
      else pure Scan.empty

-- The words and the cards behind them.
def scanRest (t : CardTable) (b : HeapBitmap) (m : Memory) (minimumAge : UInt8)
    (cardEnd cardCur : Nat) : Except CardPanic Scan :=
  if cardCur < cardEnd then do
    let alignedEnd := cardEnd - (cardEnd &&& 7)
    let words ← scanWords t b m minimumAge alignedEnd (alignedEnd - cardCur) cardCur
    let tail ← scanTail t b m minimumAge cardEnd (cardEnd - alignedEnd) alignedEnd
    pure (words.append tail)
  else pure Scan.empty

def clearCardRange (t : CardTable) (m : Memory) (start stop : Nat) : Memory :=
  let cardStart := t.cardFromAddr start
  Utils.sloppyMemset m cardStart CARD_CLEAN (t.cardFromAddr stop - cardStart)

def scan (t : CardTable) (clearCard : Bool) (b : HeapBitmap) (m : Memory)
    (scanBegin scanEnd : Nat) (minimumAge : UInt8) : Except CardPanic (Memory × Scan) := do
  let cardBegin := t.cardFromAddr scanBegin
  let cardEnd := t.cardFromAddr scanEnd
  let head ← scanHead t b m minimumAge cardEnd (cardEnd - cardBegin) cardBegin
  let rest ← scanRest t b m minimumAge cardEnd head.2
  pure (if clearCard then t.clearCardRange m scanBegin scanEnd else m, head.1.append rest)

section Lists

-- The marked objects of the cards with `p` from `lo` to before `hi`, and how many
-- such cards there are.
structure Lists (t : CardTable) (b : HeapBitmap) (m : Memory) (p : Nat → Bool) (lo hi : Nat)
    (r : Scan) : Prop where
  visited : Enumerates r.visited fun a => (lo ≤ t.cardFromAddr a ∧ t.cardFromAddr a < hi) ∧
    p (t.cardFromAddr a) = true ∧ ALIGN ∣ a ∧ b.checkBit m a = true
  cards : r.cardsScanned = ((List.range' lo (hi - lo)).filter p).length

theorem Lists.none (hnone : ∀ c, lo ≤ c → c < hi → p c = false) :
    t.Lists b m p lo hi Scan.empty := by
  constructor
  · refine Enumerates.nil fun a h => ?_
    rw [hnone _ h.1.1 h.1.2] at h
    cases h.2.1
  · rw [List.filter_eq_nil_iff.mpr]
    · rfl
    · intro c hc
      rw [List.mem_range'_1] at hc
      rw [hnone c hc.1 (by omega)]
      exact Bool.false_ne_true

theorem Lists.congr (h : t.Lists b m p lo hi r) (hpq : ∀ c, lo ≤ c → c < hi → p c = q c) :
    t.Lists b m q lo hi r := by
  constructor
  · refine h.visited.congr fun a => and_congr_right fun hin => ?_
    rw [hpq _ hin.1 hin.2]
  · rw [h.cards, List.filter_congr]
    intro c hc
    rw [List.mem_range'_1] at hc
    exact hpq c hc.1 (by omega)

theorem Lists.append (h : t.Lists b m p lo mid r) (h' : t.Lists b m p mid hi r') (hle : lo ≤ mid)
    (hle' : mid ≤ hi) : t.Lists b m p lo hi (r.append r') := by
  constructor
  · refine (h.visited.append h'.visited fun a c ha hc => ?_).congr fun a => ?_
    · by_contra hge
      have hmono := t.cardFromAddr_le (Nat.le_of_not_lt hge)
      omega
    · rw [← or_and_right]
      refine and_congr_left fun _ => ?_
      omega
  · have hrange : List.range' lo (hi - lo) =
        List.range' lo (mid - lo) ++ List.range' mid (hi - mid) := by
      have hcount : hi - lo = mid - lo + (hi - mid) := by omega
      rw [hcount, ← List.range'_append_1, Nat.add_sub_cancel' hle]
    rw [hrange, List.filter_append, List.length_append, ← h.cards, ← h'.cards]
    rfl

end Lists

section Loops

-- The cards from `lo` to before `hi` belong to addresses from the bitmap's offset on.
structure InHeap (t : CardTable) (b : HeapBitmap) (lo hi : Nat) : Prop where
  align : ALIGN ∣ b.offset
  valid : ∀ c, lo ≤ c → c < hi → t.isValidCard c
  biased : ∀ c, lo ≤ c → c < hi → t.biasedBegin ≤ c ∧ b.offset ≤ (c - t.biasedBegin) * CARD_SIZE

theorem InHeap.mono (h : t.InHeap b lo hi) {lo' hi' : Nat} (hl : lo ≤ lo') (hr : hi' ≤ hi) :
    t.InHeap b lo' hi' :=
  ⟨h.align, fun c hc hc' => h.valid c (by omega) (by omega),
    fun c hc hc' => h.biased c (by omega) (by omega)⟩

theorem InHeap.addrFromCard_eq (h : t.InHeap b lo hi) {c : Nat} (hl : lo ≤ c) (hr : c < hi) :
    t.addrFromCard c = .ok ((c - t.biasedBegin) * CARD_SIZE) := by
  unfold addrFromCard
  rw [Except.bind_eq_ok]
  refine ⟨(), Except.ensure_eq_ok.mpr (h.valid c hl hr), ?_⟩
  rw [Except.bind_eq_ok]
  refine ⟨(), Except.ensure_eq_ok.mpr (h.biased c hl hr).1, ?_⟩
  rw [Nat.shiftLeft_eq]
  rfl

theorem cardFromAddr_eq_iff {c a : Nat} (hle : t.biasedBegin ≤ c) :
    (c ≤ t.cardFromAddr a ∧ t.cardFromAddr a < c + 1) ↔
      (c - t.biasedBegin) * CARD_SIZE ≤ a ∧ a < (c - t.biasedBegin) * CARD_SIZE + CARD_SIZE := by
  have hsize : CARD_SIZE = 1024 := by decide
  unfold cardFromAddr
  rw [card_shift_eq, hsize]
  omega

-- One card, visited if `p` says so.
theorem InHeap.visitCard_lists (h : t.InHeap b lo hi) {c : Nat} (hl : lo ≤ c) (hr : c < hi) :
    t.Lists b m p c (c + 1) (if p c = true then
      visitCard b m ((c - t.biasedBegin) * CARD_SIZE) else Scan.empty) := by
  have honly : ∀ a, c ≤ t.cardFromAddr a ∧ t.cardFromAddr a < c + 1 → t.cardFromAddr a = c := by
    omega
  by_cases hp : p c = true
  · have hcard : ALIGN ∣ CARD_SIZE := by decide
    have hstart := hcard.mul_left (c - t.biasedBegin)
    have hvisit := HeapBitmap.visitMarkedRange_enumerates (m := m) (h.biased c hl hr).2 h.align
      hstart (Nat.dvd_add hstart hcard) (Nat.le_add_right _ _)
    rw [if_pos hp]
    constructor
    · refine hvisit.congr fun a => ?_
      rw [← and_assoc, ← cardFromAddr_eq_iff (h.biased c hl hr).1]
      refine and_congr_right fun hin => ?_
      rw [honly a hin, hp]
      simp
    · have hcount : c + 1 - c = 1 := by omega
      rw [hcount]
      simp [visitCard, hp]
  · rw [if_neg hp]
    apply Lists.none
    intro c' hl' hr'
    have hsame : c' = c := by omega
    rw [hsame]
    simpa using hp

-- The cards that are old enough, and those whose rest of a word is.
def aged (m : Memory) (minimumAge : UInt8) (c : Nat) : Bool := decide (minimumAge ≤ m c)

def restAged (m : Memory) (minimumAge : UInt8) (c : Nat) : Bool :=
  decide (minimumAge.toNat ≤ m.readLE c (8 - c % 8))

theorem InHeap.scanCard_lists (h : t.InHeap b lo hi) {c : Nat} (hl : lo ≤ c) (hr : c < hi) :
    ∃ r, scanCard t b m minimumAge c = .ok r ∧ t.Lists b m (aged m minimumAge) c (c + 1) r := by
  have hlists := h.visitCard_lists (m := m) (p := aged m minimumAge) hl hr
  refine ⟨_, ?_, hlists⟩
  unfold scanCard aged
  rw [h.addrFromCard_eq hl hr]
  by_cases hage : minimumAge ≤ m c
  · simp only [hage, if_true, decide_true]
    rfl
  · simp only [hage, if_false, decide_false, Bool.false_eq_true]
    rfl

theorem scanHead_lists (fuel : Nat) {cardEnd cur : Nat} (h : t.InHeap b cur cardEnd)
    (hle : cur ≤ cardEnd) (hfuel : cardEnd ≤ cur + fuel) :
    ∃ r, scanHead t b m minimumAge cardEnd fuel cur = .ok (r, wordBoundary cur cardEnd) ∧
      t.Lists b m (aged m minimumAge) cur (wordBoundary cur cardEnd) r := by
  induction fuel generalizing cur with
  | zero =>
      have hend : wordBoundary cur cardEnd = cur := by
        unfold wordBoundary
        omega
      rw [hend]
      exact ⟨_, rfl, Lists.none fun c hl hr => by omega⟩
  | succ fuel ih =>
      unfold scanHead
      by_cases hgo : cur % 8 ≠ 0 ∧ cur < cardEnd
      · have hsame : wordBoundary (cur + 1) cardEnd = wordBoundary cur cardEnd := by
          unfold wordBoundary
          omega
        have hbeyond : cur + 1 ≤ wordBoundary cur cardEnd := by
          unfold wordBoundary
          omega
        obtain ⟨card, hcard, hone⟩ := h.scanCard_lists (m := m)
          (Nat.le_refl _) hgo.2
        obtain ⟨rest, hrest, hlists⟩ := @ih (cur + 1) (h.mono (by omega) (Nat.le_refl _))
          (by omega) (by omega)
        rw [hsame] at hrest hlists
        refine ⟨card.append rest, ?_, hone.append hlists (by omega) hbeyond⟩
        rw [if_pos hgo, hcard, Except.ok_bind, hrest, Except.ok_bind]
        rfl
      · have hend : wordBoundary cur cardEnd = cur := by
          unfold wordBoundary
          omega
        rw [if_neg hgo, hend]
        exact ⟨_, rfl, Lists.none fun c hl hr => by omega⟩

theorem scanTail_lists (fuel : Nat) {cardEnd cur : Nat} (h : t.InHeap b cur cardEnd)
    (hfuel : cardEnd ≤ cur + fuel) :
    ∃ r, scanTail t b m minimumAge cardEnd fuel cur = .ok r ∧
      t.Lists b m (aged m minimumAge) cur cardEnd r := by
  induction fuel generalizing cur with
  | zero => exact ⟨_, rfl, Lists.none fun c hl hr => by omega⟩
  | succ fuel ih =>
      unfold scanTail
      by_cases hgo : cur < cardEnd
      · obtain ⟨card, hcard, hone⟩ := h.scanCard_lists (m := m)
          (Nat.le_refl _) hgo
        obtain ⟨rest, hrest, hlists⟩ := @ih (cur + 1) (h.mono (by omega) (Nat.le_refl _))
          (by omega)
        refine ⟨card.append rest, ?_, hone.append hlists (by omega) hgo⟩
        rw [if_pos hgo, hcard, Except.ok_bind, hrest, Except.ok_bind]
        rfl
      · rw [if_neg hgo]
        exact ⟨_, rfl, Lists.none fun c hl hr => by omega⟩

end Loops

section Words

-- The rounds over the `n` last cards of a word.
theorem scanWord_lists (minimumAge : UInt8) {n c : Nat} (h : t.InHeap b c (c + n)) (hend : (c + n) % 8 = 0)
    (hn : n ≤ 8) :
    t.Lists b m (restAged m minimumAge) c (c + n)
      (scanWord b m minimumAge n (m.readLE c n) ((c - t.biasedBegin) * CARD_SIZE)) := by
  induction n generalizing c with
  | zero => exact Lists.none fun c' hl hr => by omega
  | succ n ih =>
      have hbiased := (h.biased c (Nat.le_refl _) (by omega)).1
      have hsum : c + 1 + n = c + (n + 1) := by omega
      have hlater := ih (c := c + 1) (by rw [hsum]; exact h.mono (by omega) (Nat.le_refl _))
        (by rwa [hsum]) (by omega)
      have hshift : m.readLE c (n + 1) >>> 8 = m.readLE (c + 1) n := by
        have hdiv := m.readLE_div c (n := n + 1) (i := 1) (by omega)
        rw [Nat.pow_one, Nat.add_sub_cancel] at hdiv
        rw [Nat.shiftRight_eq_div_pow, ← hdiv]
      have hnext : (c - t.biasedBegin) * CARD_SIZE + CARD_SIZE =
          (c + 1 - t.biasedBegin) * CARD_SIZE := by
        rw [Nat.sub_add_comm hbiased, Nat.add_mul, Nat.one_mul]
      have hlast : 8 - c % 8 = n + 1 := by omega
      have hone := h.visitCard_lists (m := m) (p := restAged m minimumAge) (c := c)
        (Nat.le_refl _) (by omega)
      unfold restAged at hone
      simp only [hlast, decide_eq_true_eq] at hone
      rw [hsum] at hlater
      unfold scanWord
      rw [hshift, hnext]
      exact Lists.append hone hlater (by omega) (by omega)

theorem skipClean_none {wordEnd fuel cur : Nat} (hcur : cur % 8 = 0) (hend : wordEnd % 8 = 0)
    (hfuel : wordEnd ≤ cur + 8 * fuel) (h : skipClean m wordEnd fuel cur = none) :
    ∀ c, cur ≤ c → c < wordEnd → m c = 0 := by
  induction fuel generalizing cur with
  | zero => omega
  | succ fuel ih =>
      intro c hl hr
      unfold skipClean at h
      by_cases hzero : m.readLE cur 8 = 0
      · rw [if_pos hzero] at h
        by_cases hword : c < cur + 8
        · have hcard := Memory.readLE_eq_zero.mp hzero (c - cur) (by omega)
          rwa [Nat.add_sub_cancel' hl] at hcard
        · rw [if_neg (by omega)] at h
          exact ih (by omega) (by omega) h c (by omega) hr
      · rw [if_neg hzero] at h
        cases h

theorem skipClean_some {wordEnd fuel cur next : Nat} (hcur : cur % 8 = 0) (hlt : cur < wordEnd)
    (h : skipClean m wordEnd fuel cur = some next) :
    cur ≤ next ∧ next % 8 = 0 ∧ next < wordEnd ∧ ∀ c, cur ≤ c → c < next → m c = 0 := by
  induction fuel generalizing cur with
  | zero => cases h
  | succ fuel ih =>
      unfold skipClean at h
      by_cases hzero : m.readLE cur 8 = 0
      · rw [if_pos hzero] at h
        by_cases hlast : wordEnd ≤ cur + 8
        · rw [if_pos hlast] at h
          cases h
        · rw [if_neg hlast] at h
          obtain ⟨hle, halign, hin, hclean⟩ := ih (by omega) (by omega) h
          refine ⟨by omega, halign, hin, fun c hl hr => ?_⟩
          by_cases hword : c < cur + 8
          · have hcard := Memory.readLE_eq_zero.mp hzero (c - cur) (by omega)
            rwa [Nat.add_sub_cancel' hl] at hcard
          · exact hclean c (by omega) hr
      · rw [if_neg hzero] at h
        obtain rfl := Option.some.inj h
        exact ⟨Nat.le_refl _, hcur, hlt, fun c hl hr => by omega⟩

-- Of clean words no card is old enough.
theorem lists_clean (hage : 1 ≤ minimumAge) (hend : hi % 8 = 0)
    (hclean : ∀ c, lo ≤ c → c < hi → m c = 0) :
    t.Lists b m (restAged m minimumAge) lo hi Scan.empty := by
  refine Lists.none fun c hl hr => ?_
  have hrest : m.readLE c (8 - c % 8) = 0 :=
    Memory.readLE_eq_zero.mpr fun i hi => hclean (c + i) (by omega) (by omega)
  have hpos : 1 ≤ minimumAge.toNat := hage
  unfold restAged
  rw [hrest]
  exact decide_eq_false (by omega)

theorem scanWords_lists (wordEnd fuel : Nat) {cur : Nat} (h : t.InHeap b cur wordEnd)
    (hage : 1 ≤ minimumAge) (hcur : cur % 8 = 0) (hend : wordEnd % 8 = 0)
    (hfuel : wordEnd ≤ cur + 8 * fuel) :
    ∃ r, scanWords t b m minimumAge wordEnd fuel cur = .ok r ∧
      t.Lists b m (restAged m minimumAge) cur wordEnd r := by
  induction fuel generalizing cur with
  | zero => exact ⟨_, rfl, Lists.none fun c hl hr => by omega⟩
  | succ fuel ih =>
      unfold scanWords
      by_cases hgo : cur < wordEnd
      · rw [if_pos hgo]
        cases hskip : skipClean m wordEnd (fuel + 1) cur with
        | none =>
            exact ⟨_, rfl, lists_clean hage hend (skipClean_none hcur hend (by omega) hskip)⟩
        | some next =>
            obtain ⟨hle, halign, hlt, hclean⟩ := skipClean_some hcur hgo hskip
            have hskipped := lists_clean (t := t) (b := b) hage halign hclean
            have hword := scanWord_lists (m := m) minimumAge (n := 8) (c := next)
              (h.mono hle (by omega)) (by omega) (Nat.le_refl _)
            obtain ⟨rest, hrest, hlists⟩ := @ih (next + 8)
              (h.mono (by omega) (Nat.le_refl _)) (by omega) (by omega)
            have hfirst := hskipped.append hword hle (by omega)
            rw [Scan.empty_append] at hfirst
            refine ⟨_, ?_, hfirst.append hlists (by omega) (by omega)⟩
            simp only [h.addrFromCard_eq hle hlt, hrest, Except.ok_bind, Except.pure_eq_ok]
      · rw [if_neg hgo]
        exact ⟨_, rfl, Lists.none fun c hl hr => by omega⟩

end Words

section Range

variable {scanBegin scanEnd heapBegin heapCapacity : Nat}

-- What the scan takes for old enough: in the whole words between the ends of the
-- range it looks at the rest of the word, elsewhere at the card.
def takenAged (m : Memory) (minimumAge : UInt8) (cardBegin cardEnd c : Nat) : Bool :=
  if cardBegin ≤ c / 8 * 8 ∧ c / 8 * 8 + 8 ≤ cardEnd then restAged m minimumAge c
  else aged m minimumAge c

theorem scanRest_lists {cardBegin cardEnd cur : Nat} (h : t.InHeap b cur cardEnd)
    (hage : 1 ≤ minimumAge) (hcur : cur < cardEnd → cur % 8 = 0) (hle : cardBegin ≤ cur) :
    ∃ r, scanRest t b m minimumAge cardEnd cur = .ok r ∧
      t.Lists b m (takenAged m minimumAge cardBegin cardEnd) cur cardEnd r := by
  have hmask : cardEnd &&& 7 = cardEnd % 8 := Nat.and_two_pow_sub_one_eq_mod cardEnd 3
  unfold scanRest
  rw [hmask]
  by_cases hgo : cur < cardEnd
  · have halign := hcur hgo
    have hmiddle := h.mono (Nat.le_refl cur) (Nat.sub_le cardEnd (cardEnd % 8))
    have hbehind : t.InHeap b (cardEnd - cardEnd % 8) cardEnd := h.mono (by omega) (Nat.le_refl _)
    obtain ⟨words, hwords, hmiddle⟩ := scanWords_lists (m := m)
      (cardEnd - cardEnd % 8) (cardEnd - cardEnd % 8 - cur) hmiddle hage halign (by omega) (by omega)
    obtain ⟨tail, htail, hlast⟩ := scanTail_lists (m := m)
      (cardEnd - (cardEnd - cardEnd % 8)) hbehind (by omega)
    have hwhole := hmiddle.congr (q := takenAged m minimumAge cardBegin cardEnd) fun c hl hr => by
      unfold takenAged
      rw [if_pos (by omega)]
    have hbehind := hlast.congr (q := takenAged m minimumAge cardBegin cardEnd) fun c hl hr => by
      unfold takenAged
      rw [if_neg (by omega)]
    refine ⟨words.append tail, ?_, hwhole.append hbehind (by omega) (by omega)⟩
    rw [if_pos hgo]
    simp only [hwords, htail, Except.ok_bind, Except.pure_eq_ok]
  · rw [if_neg hgo]
    exact ⟨_, rfl, Lists.none fun c hl hr => by omega⟩

theorem scan_lists (clearCard : Bool)
    (h : t.InHeap b (t.cardFromAddr scanBegin) (t.cardFromAddr scanEnd)) (hage : 1 ≤ minimumAge)
    (hle : scanBegin ≤ scanEnd) :
    ∃ m' r, t.scan clearCard b m scanBegin scanEnd minimumAge = .ok (m', r) ∧
      t.Lists b m (takenAged m minimumAge (t.cardFromAddr scanBegin) (t.cardFromAddr scanEnd))
        (t.cardFromAddr scanBegin) (t.cardFromAddr scanEnd) r := by
  have hcards := t.cardFromAddr_le hle
  have hlow : t.cardFromAddr scanBegin ≤
      wordBoundary (t.cardFromAddr scanBegin) (t.cardFromAddr scanEnd) := by
    unfold wordBoundary
    omega
  have hhigh : wordBoundary (t.cardFromAddr scanBegin) (t.cardFromAddr scanEnd) ≤
      t.cardFromAddr scanEnd := by
    unfold wordBoundary
    omega
  obtain ⟨head, hhead, hfirst⟩ := scanHead_lists (m := m)
    (t.cardFromAddr scanEnd - t.cardFromAddr scanBegin) h hcards (by omega)
  obtain ⟨rest, hrest, hlists⟩ := scanRest_lists (m := m)
    (h.mono hlow (Nat.le_refl _)) hage (by unfold wordBoundary; omega) hlow
  have hbefore := hfirst.congr (q := takenAged m minimumAge (t.cardFromAddr scanBegin)
    (t.cardFromAddr scanEnd)) fun c hl hr => by
      unfold wordBoundary at hr
      unfold takenAged
      rw [if_neg (by omega)]
  refine ⟨if clearCard then t.clearCardRange m scanBegin scanEnd else m, head.append rest, ?_,
    hbefore.append hlists hlow hhigh⟩
  unfold scan
  simp only [hhead, hrest, Except.ok_bind, Except.pure_eq_ok]

-- The objects of the old cards of the range, each once, and the number of these cards.
structure ScansExactly (t : CardTable) (b : HeapBitmap) (m : Memory) (scanBegin scanEnd : Nat)
    (minimumAge : UInt8) (r : Scan) : Prop where
  nodup : r.visited.Nodup
  mem_iff : ∀ a, a ∈ r.visited ↔ (scanBegin ≤ a ∧ a < scanEnd) ∧
    minimumAge ≤ m (t.cardFromAddr a) ∧ ALIGN ∣ a ∧ b.checkBit m a = true
  cards : r.cardsScanned = ((List.range' (t.cardFromAddr scanBegin)
    (t.cardFromAddr scanEnd - t.cardFromAddr scanBegin)).filter (aged m minimumAge)).length

-- In the whole words of the range a card that is too young has only clean ones behind it.
def YoungLast (t : CardTable) (m : Memory) (scanBegin scanEnd : Nat) (minimumAge : UInt8) : Prop :=
  ∀ c, t.cardFromAddr scanBegin ≤ c / 8 * 8 → c / 8 * 8 + 8 ≤ t.cardFromAddr scanEnd →
    m c < minimumAge → ∀ c', c < c' → c' < c / 8 * 8 + 8 → m c' = CARD_CLEAN

-- A later card of the word makes the rest of it larger than any age.
theorem restAged_iff (c : Nat) : restAged m minimumAge c = true ↔
    minimumAge ≤ m c ∨ ∃ c', c < c' ∧ c' < c / 8 * 8 + 8 ∧ m c' ≠ 0 := by
  have hage := minimumAge.toNat_lt
  have hcard := (m c).toNat_lt
  have hlater : m.readLE (c + 1) (7 - c % 8) ≠ 0 ↔
      ∃ c', c < c' ∧ c' < c / 8 * 8 + 8 ∧ m c' ≠ 0 := by
    rw [ne_eq, Memory.readLE_eq_zero]
    constructor
    · intro hsome
      simp only [not_forall] at hsome
      obtain ⟨i, hi, hne⟩ := hsome
      exact ⟨c + 1 + i, by omega, by omega, hne⟩
    · rintro ⟨c', hl, hr, hne⟩ hall
      have hzero := hall (c' - (c + 1)) (by omega)
      rw [Nat.add_sub_cancel' hl] at hzero
      exact hne hzero
  have hlast : 8 - c % 8 = 7 - c % 8 + 1 := by omega
  unfold restAged
  rw [hlast, ← hlater, decide_eq_true_eq, Memory.readLE, UInt8.le_iff_toNat_le]
  omega

theorem takenAged_eq_iff :
    (∀ c, t.cardFromAddr scanBegin ≤ c → c < t.cardFromAddr scanEnd →
      takenAged m minimumAge (t.cardFromAddr scanBegin) (t.cardFromAddr scanEnd) c = true →
        aged m minimumAge c = true) ↔ t.YoungLast m scanBegin scanEnd minimumAge := by
  unfold takenAged aged
  constructor
  · intro hall c hl hr hyoung c' hlt hlt'
    by_contra hne
    have hin : t.cardFromAddr scanBegin ≤ c / 8 * 8 ∧ c / 8 * 8 + 8 ≤ t.cardFromAddr scanEnd :=
      ⟨hl, hr⟩
    have hold := hall c (by omega) (by omega)
    rw [if_pos hin, restAged_iff, decide_eq_true_eq] at hold
    exact absurd (hold (Or.inr ⟨c', hlt, hlt', hne⟩)) (UInt8.not_le.mpr hyoung)
  · intro hyoung c hl hr htaken
    by_cases hin : t.cardFromAddr scanBegin ≤ c / 8 * 8 ∧ c / 8 * 8 + 8 ≤ t.cardFromAddr scanEnd
    · rw [if_pos hin, restAged_iff] at htaken
      rcases htaken with hold | ⟨c', hlt, hlt', hne⟩
      · exact decide_eq_true hold
      · by_contra hnot
        rw [decide_eq_true_eq, UInt8.not_le] at hnot
        exact hne (hyoung c hin.1 hin.2 hnot c' hlt hlt')
    · rwa [if_neg hin] at htaken

theorem Mapped.inHeap (h : t.Mapped heapBegin heapCapacity) (hb : heapBegin ≤ scanBegin)
    (he : scanEnd ≤ heapBegin + heapCapacity) (hbegin : CARD_SIZE ∣ scanBegin)
    (hend : CARD_SIZE ∣ scanEnd) (hoffset : b.offset ≤ scanBegin) (halign : ALIGN ∣ b.offset) :
    t.InHeap b (t.cardFromAddr scanBegin) (t.cardFromAddr scanEnd) := by
  have hcard : ∀ c, t.cardFromAddr scanBegin ≤ c → c < t.cardFromAddr scanEnd →
      t.biasedBegin ≤ c ∧ scanBegin ≤ (c - t.biasedBegin) * CARD_SIZE ∧
        (c - t.biasedBegin) * CARD_SIZE < scanEnd ∧
        t.cardFromAddr ((c - t.biasedBegin) * CARD_SIZE) = c := by
    have hsize : CARD_SIZE = 1024 := by decide
    rw [hsize] at hbegin hend ⊢
    unfold cardFromAddr
    simp only [card_shift_eq]
    omega
  refine ⟨halign, fun c hl hr => ?_, fun c hl hr => ?_⟩
  · obtain ⟨_, hlow, hhigh, hsame⟩ := hcard c hl hr
    rw [← hsame]
    exact h.valid _ (by omega) (by omega)
  · obtain ⟨hbiased, hlow, _⟩ := hcard c hl hr
    exact ⟨hbiased, by omega⟩

-- A weaker test that keeps no more of a list says the same of it.
theorem of_length_filter {l : List Nat} (hpq : ∀ a ∈ l, p a = true → q a = true)
    (hlength : (l.filter q).length = (l.filter p).length) :
    ∀ a ∈ l, q a = true → p a = true := by
  have hfilter : (l.filter q).filter p = l.filter p := by
    rw [List.filter_filter]
    apply List.filter_congr
    intro a ha
    rw [Bool.eq_iff_iff, Bool.and_eq_true]
    exact and_iff_left_of_imp (hpq a ha)
  have hall : ∀ a ∈ l.filter q, p a = true :=
    List.length_filter_eq_length_iff.mp (by rw [hfilter, hlength])
  intro a ha hq
  exact hall a (List.mem_filter.mpr ⟨ha, hq⟩)

-- The scan meets its purpose exactly when no young card hides behind an older one of
-- its word.
theorem scan_exact_iff {clearCard : Bool} (hmapped : t.Mapped heapBegin heapCapacity)
    (hb : heapBegin ≤ scanBegin) (he : scanEnd ≤ heapBegin + heapCapacity)
    (hbegin : CARD_SIZE ∣ scanBegin) (hend : CARD_SIZE ∣ scanEnd) (hle : scanBegin ≤ scanEnd)
    (hoffset : b.offset ≤ scanBegin) (halign : ALIGN ∣ b.offset) (hage : 1 ≤ minimumAge) :
    (∃ m' r, t.scan clearCard b m scanBegin scanEnd minimumAge = .ok (m', r) ∧
        t.ScansExactly b m scanBegin scanEnd minimumAge r) ↔
      t.YoungLast m scanBegin scanEnd minimumAge := by
  obtain ⟨m', r, hscan, hlists⟩ :=
    scan_lists (m := m) clearCard (hmapped.inHeap hb he hbegin hend hoffset halign) hage hle
  have hrange : ∀ a, (t.cardFromAddr scanBegin ≤ t.cardFromAddr a ∧
      t.cardFromAddr a < t.cardFromAddr scanEnd) ↔ scanBegin ≤ a ∧ a < scanEnd := by
    have hsize : CARD_SIZE = 1024 := by decide
    rw [hsize] at hbegin hend
    unfold cardFromAddr
    simp only [card_shift_eq]
    omega
  have hsub : ∀ c, aged m minimumAge c = true →
      takenAged m minimumAge (t.cardFromAddr scanBegin) (t.cardFromAddr scanEnd) c = true := by
    intro c hold
    unfold takenAged
    split
    next => exact (restAged_iff c).mpr (Or.inl (of_decide_eq_true hold))
    next => exact hold
  rw [← takenAged_eq_iff]
  constructor
  · rintro ⟨m'', r', hscan', hexact⟩ c hl hr htaken
    obtain ⟨rfl, rfl⟩ : m' = m'' ∧ r = r' := by
      rw [hscan] at hscan'
      exact Prod.mk.inj (Except.ok.inj hscan')
    -- the two counts agree, so of the cards that are taken none is young
    have hcount := hlists.cards.symm.trans hexact.cards
    exact of_length_filter (fun c _ => hsub c) hcount c
      (List.mem_range'_1.mpr ⟨hl, by omega⟩) htaken
  · intro hall
    have hsame := hlists.congr (q := aged m minimumAge) fun c hl hr =>
      Bool.eq_iff_iff.mpr ⟨hall c hl hr, hsub c⟩
    refine ⟨m', r, hscan, ?_, fun a => ?_, hsame.cards⟩
    · exact hsame.visited.sorted.imp fun hlt => hlt.ne
    · rw [hsame.visited.mem_iff, hrange, aged, decide_eq_true_eq]

-- The bitmap of that heap, with an object at its start, and its second card dirty.
def fortyCardsBitmap : HeapBitmap := ⟨1048576, 16384, 320⟩

def secondDirty : Memory := fun a => if a = 8305 then CARD_DIRTY else if a = 16384 then 1 else 0

theorem fortyCards_mapped : fortyCards.Mapped 1048576 40960 := by
  have hcovers : fortyCards.Covers 1048576 40960 8192 112 :=
    ⟨rfl, by decide, by decide, by decide, by decide⟩
  exact hcovers.mapped (by decide) (by decide)

theorem scan_exact_iff_second :
    (∃ m' r, fortyCards.scan true fortyCardsBitmap secondDirty 1048576 1056768 CARD_AGED =
          .ok (m', r) ∧
        fortyCards.ScansExactly fortyCardsBitmap secondDirty 1048576 1056768 CARD_AGED r) ↔
      fortyCards.YoungLast secondDirty 1048576 1056768 CARD_AGED :=
  scan_exact_iff fortyCards_mapped (by decide) (by decide) (by decide) (by decide) (by decide)
    (by decide) (by decide) (by decide)

-- The clean card before the dirty one is visited with it.
theorem scan_visits_clean_card :
    ¬∃ m' r, fortyCards.scan false fortyCardsBitmap secondDirty 1048576 1056768 CARD_AGED =
        .ok (m', r) ∧
      fortyCards.ScansExactly fortyCardsBitmap secondDirty 1048576 1056768 CARD_AGED r := by
  rintro ⟨m', r, hscan, hexact⟩
  have hvisited : (fortyCards.scan false fortyCardsBitmap secondDirty 1048576 1056768
      CARD_AGED).map (fun s => s.2.visited) = .ok [1048576] := by decide +kernel
  rw [hscan] at hvisited
  have hlist : r.visited = [1048576] := Except.ok.inj hvisited
  have hage := ((hexact.mem_iff 1048576).mp (by rw [hlist]; decide)).2.1
  exact absurd hage (by decide)

end Range

end Rsgc.Storage.CardTable
