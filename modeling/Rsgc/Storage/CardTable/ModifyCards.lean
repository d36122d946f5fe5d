import Rsgc.Lib.Enumerates
import Rsgc.Lib.Retry
import Rsgc.Lib.Words
import Rsgc.Storage.CardTable

namespace Rsgc.Storage.CardTable

variable {visitor : UInt8 → UInt8} {strong : Nat → Nat → Bool} {m m' : Memory}

-- A call of `modified`: the card, its old and its new value.
abbrev Modified := Nat × UInt8 × UInt8

def modified (card : Nat) (expected newValue : UInt8) : List Modified :=
  if expected ≠ newValue then [(card, expected, newValue)] else []

-- The weak exchange may also fail on the expected word, which it does unless `strong`.
def compareExchangeWeak (strong : Bool) (m : Memory) (addr current new : Nat) : Option Memory :=
  if m.readLE addr 8 = current ∧ strong = true then some (m.writeLE addr 8 new) else none

def byteCas (strong : Bool) (m : Memory) (oldValue newValue : UInt8) (addr : Nat) :
    Option Memory :=
  let shiftInBytes := addr % 8
  let shiftInBits := shiftInBytes * 8
  let curWord := BitVec.ofNat 64 (m.readLE (addr - shiftInBytes) 8) &&& ~~~(0xff#64 <<< shiftInBits)
  let oldWord := curWord ||| oldValue.toBitVec.setWidth 64 <<< shiftInBits
  let newWord := curWord ||| newValue.toBitVec.setWidth 64 <<< shiftInBits
  compareExchangeWeak strong m (addr - shiftInBytes) oldWord.toNat newWord.toNat

-- The loop on a card: the value is read at `cur` and exchanged at `card`, and
-- `strong card k` is how the `k`-th exchange at `card` goes.
def modifyCard (visitor : UInt8 → UInt8) (strong : Nat → Nat → Bool) (fuel : Nat) (m : Memory)
    (cur card : Nat) : Option (Memory × UInt8 × UInt8) :=
  retry (fun attempt =>
    let expected := m cur
    let newValue := visitor expected
    -- `&&`: the exchange is tried only if the visitor keeps the value
    let exchanged :=
      if expected = newValue then byteCas (strong card attempt) m expected newValue card else none
    exchanged.map fun m => (m, expected, newValue)) fuel 0

-- The first loop, up to a word boundary; `limit` is the fuel of the loop inside.
def headCards (visitor : UInt8 → UInt8) (strong : Nat → Nat → Bool) (limit cardEnd : Nat) :
    Nat → Memory → Nat → Option (Memory × List Modified × Nat)
  | 0, _, _ => none
  | fuel + 1, m, cardCur =>
      if cardCur % 8 ≠ 0 ∧ cardCur < cardEnd then do
        let card ← modifyCard visitor strong limit m cardCur cardCur
        let rest ← headCards visitor strong limit cardEnd fuel card.1 (cardCur + 1)
        pure (rest.1, modified cardCur card.2.1 card.2.2 ++ rest.2.1, rest.2.2)
      else pure (m, [], cardCur)

-- The second loop looks at the alignment of the first card, as the first one does.
def tailCards (visitor : UInt8 → UInt8) (strong : Nat → Nat → Bool) (limit cardCur : Nat) :
    Nat → Memory → Nat → Option (Memory × List Modified × Nat)
  | 0, _, _ => none
  | fuel + 1, m, cardEnd =>
      if cardCur % 8 ≠ 0 ∧ cardCur < cardEnd then do
        let card ← modifyCard visitor strong limit m cardCur (cardEnd - 1)
        let rest ← tailCards visitor strong limit cardCur fuel card.1 (cardEnd - 1)
        pure (rest.1, modified (cardEnd - 1) card.2.1 card.2.2 ++ rest.2.1, rest.2.2)
      else pure (m, [], cardEnd)

-- The loop on a word of eight cards.
def modifyWord (visitor : UInt8 → UInt8) (strong : Nat → Nat → Bool) (fuel : Nat) (m : Memory)
    (word : Nat) : Option (Memory × List Modified) :=
  retry (fun attempt =>
    let expectedWord := m.readLE word 8
    let newBytes : Memory := fun i => visitor (m (word + i))
    -- all `CARD_CLEAN`
    if expectedWord = 0 then some (m, [])
    else
      (compareExchangeWeak (strong word attempt) m word expectedWord (newBytes.readLE 0 8)).map
        fun m' => (m', (List.range 8).flatMap fun i =>
          modified (word + i) (m (word + i)) (newBytes i))) fuel 0

def modifyWords (visitor : UInt8 → UInt8) (strong : Nat → Nat → Bool) (limit wordEnd : Nat) :
    Nat → Memory → Nat → Option (Memory × List Modified)
  | 0, _, _ => none
  | fuel + 1, m, wordCur =>
      if wordCur < wordEnd then do
        let word ← modifyWord visitor strong limit m wordCur
        let rest ← modifyWords visitor strong limit wordEnd fuel word.1 (wordCur + 8)
        pure (rest.1, word.2 ++ rest.2)
      else pure (m, [])

-- Without a concurrent writer; each loop has `fuel` rounds.
def modifyCardsAtomic (t : CardTable) (visitor : UInt8 → UInt8) (strong : Nat → Nat → Bool)
    (fuel : Nat) (m : Memory) (scanBegin scanEnd : Nat) : Option (Memory × List Modified) := do
  let head ← headCards visitor strong fuel (t.cardFromAddr scanEnd) fuel m
    (t.cardFromAddr scanBegin)
  let tail ← tailCards visitor strong fuel head.2.2 fuel head.1 (t.cardFromAddr scanEnd)
  let words ← modifyWords visitor strong fuel tail.2.2 fuel tail.1 head.2.2
  pure (words.1, head.2.1 ++ tail.2.1 ++ words.2)

def ageCardVisitor (card : UInt8) : UInt8 := if card = CARD_DIRTY then card - 1 else 0

section Cards

-- To mask a byte of a word out and put it back in.
theorem restore_byte (w : BitVec 64) (x : BitVec 8) (k : Nat)
    (hbyte : ∀ i < 8, w.getLsbD (k * 8 + i) = x.getLsbD i) :
    w &&& ~~~(0xff#64 <<< (k * 8)) ||| x.setWidth 64 <<< (k * 8) = w := by
  have hmask : ∀ i < 64, (0xff#64).getLsbD i = decide (i < 8) := by decide
  apply BitVec.eq_of_getLsbD_eq
  intro i hi
  rw [BitVec.getLsbD_or, BitVec.getLsbD_and, BitVec.getLsbD_not, BitVec.getLsbD_shiftLeft,
    BitVec.getLsbD_shiftLeft, BitVec.getLsbD_setWidth, hmask (i - k * 8) (by omega)]
  by_cases hlow : i < k * 8
  · simp [hi, hlow]
  · by_cases hhigh : i - k * 8 < 8
    · have hin := hbyte (i - k * 8) hhigh
      rw [Nat.add_sub_cancel' (by omega)] at hin
      have hfits : i - k * 8 < 64 := by omega
      rw [← hin]
      simp [hi, hlow, hhigh, hfits]
    · have hout : x.getLsbD (i - k * 8) = false := BitVec.getLsbD_of_ge x _ (by omega)
      simp [hi, hlow, hhigh, hout]

-- The byte exchange puts the byte back that it found.
theorem byteCas_self (b : Bool) (m : Memory) (addr : Nat) :
    byteCas b m (m addr) (m addr) addr = if b = true then some m else none := by
  have hsize : (256 : Nat) ^ 8 = 2 ^ 64 := by decide
  have hlt := m.readLE_lt (addr - addr % 8) 8
  rw [hsize] at hlt
  have hrestore := restore_byte (BitVec.ofNat 64 (m.readLE (addr - addr % 8) 8)) (m addr).toBitVec
    (addr % 8) fun i hi => by
      have hindex : (addr % 8 * 8 + i) / 8 = addr % 8 := by omega
      have hbit : (addr % 8 * 8 + i) % 8 = i := by omega
      have hin := m.testBit_readLE (addr - addr % 8) (n := 8) (i := addr % 8 * 8 + i) (by omega)
      rw [hindex, hbit, Nat.sub_add_cancel (Nat.mod_le addr 8)] at hin
      have hfits : addr % 8 * 8 + i < 64 := by omega
      rw [BitVec.getLsbD_ofNat, hin, decide_eq_true hfits, Bool.true_and]
      rfl
  have hof : (BitVec.ofNat 64 (m.readLE (addr - addr % 8) 8)).toNat =
      m.readLE (addr - addr % 8) 8 := by
    rw [BitVec.toNat_ofNat, Nat.mod_eq_of_lt hlt]
  unfold byteCas compareExchangeWeak
  simp only [hrestore, hof, Memory.writeLE_self, true_and]

-- A round of the loop changes nothing, and ends it if the visitor keeps the card.
theorem modifyCard_round (cur attempt : Nat) :
    ((if m cur = visitor (m cur) then byteCas (strong cur attempt) m (m cur) (visitor (m cur)) cur
      else none).map fun m' => (m', m cur, visitor (m cur))) =
      if visitor (m cur) = m cur ∧ strong cur attempt = true then some (m, m cur, m cur)
      else none := by
  by_cases hkeeps : visitor (m cur) = m cur
  · rw [hkeeps, if_pos rfl, byteCas_self]
    by_cases hstrong : strong cur attempt = true
    · simp [hstrong]
    · simp [hstrong]
  · rw [if_neg fun h => hkeeps h.symm, if_neg fun h => hkeeps h.1]
    rfl

theorem modifyCard_eq_some {fuel cur : Nat} {r : Memory × UInt8 × UInt8}
    (h : modifyCard visitor strong fuel m cur cur = some r) :
    visitor (m cur) = m cur ∧ r = (m, m cur, m cur) := by
  obtain ⟨attempt, hround⟩ := retry_eq_some h
  rw [modifyCard_round] at hround
  split at hround
  next hgo => exact ⟨hgo.1, (Option.some.inj hround).symm⟩
  next => cases hround

theorem modifyCard_runs {cur : Nat} (hkeeps : visitor (m cur) = m cur)
    (hstrong : ∃ k, strong cur k = true) :
    ∃ enough, ∀ fuel, enough ≤ fuel →
      modifyCard visitor strong fuel m cur cur = some (m, m cur, m cur) := by
  obtain ⟨k, hk⟩ := hstrong
  refine ⟨k + 1, fun fuel hfuel => retry_runs (n := k) ?_ (fun i => ?_) hfuel⟩
  · rw [modifyCard_round, Nat.zero_add, if_pos ⟨hkeeps, hk⟩]
  · rw [modifyCard_round]
    split
    next => exact Or.inr rfl
    next => exact Or.inl rfl

-- Where the first loop ends.
def wordBoundary (cur cardEnd : Nat) : Nat := min cardEnd ((cur + 7) / 8 * 8)

-- If the first loop ends the visitor keeps every card on its way.
theorem headCards_eq_some {limit cardEnd fuel cur : Nat} {r : Memory × List Modified × Nat}
    (hle : cur ≤ cardEnd) (h : headCards visitor strong limit cardEnd fuel m cur = some r) :
    (∀ c, cur ≤ c → c < wordBoundary cur cardEnd → visitor (m c) = m c) ∧
      r = (m, [], wordBoundary cur cardEnd) := by
  induction fuel generalizing cur r with
  | zero => cases h
  | succ fuel ih =>
      unfold headCards at h
      by_cases hgo : cur % 8 ≠ 0 ∧ cur < cardEnd
      · rw [if_pos hgo] at h
        simp only [Option.bind_eq_bind, Option.bind_eq_some_iff] at h
        obtain ⟨card, hcard, rest, hrest, hr⟩ := h
        obtain ⟨hkeeps, rfl⟩ := modifyCard_eq_some hcard
        obtain ⟨hall, rfl⟩ := ih (by omega) hrest
        have hsame : wordBoundary (cur + 1) cardEnd = wordBoundary cur cardEnd := by
          unfold wordBoundary
          omega
        rw [hsame] at hall hr
        refine ⟨fun c hl hr => ?_, ?_⟩
        · rcases Nat.eq_or_lt_of_le hl with rfl | hl
          · exact hkeeps
          · exact hall c hl hr
        · simpa [modified] using hr.symm
      · rw [if_neg hgo] at h
        have hend : wordBoundary cur cardEnd = cur := by
          unfold wordBoundary
          omega
        rw [hend]
        exact ⟨fun c hl hr => by omega, (Option.some.inj h).symm⟩

theorem headCards_runs {cardEnd cur : Nat} (hle : cur ≤ cardEnd)
    (hkeeps : ∀ c, cur ≤ c → c < wordBoundary cur cardEnd → visitor (m c) = m c)
    (hstrong : ∀ a, ∃ k, strong a k = true) :
    ∃ enough, ∀ limit fuel, enough ≤ limit → enough ≤ fuel →
      headCards visitor strong limit cardEnd fuel m cur =
        some (m, [], wordBoundary cur cardEnd) := by
  induction hn : wordBoundary cur cardEnd - cur generalizing cur with
  | zero =>
      refine ⟨1, fun limit fuel _ hfuel => ?_⟩
      obtain ⟨fuel, rfl⟩ : ∃ f, fuel = f + 1 := ⟨fuel - 1, by omega⟩
      have hstop : ¬(cur % 8 ≠ 0 ∧ cur < cardEnd) := by
        unfold wordBoundary at hn
        omega
      have hend : wordBoundary cur cardEnd = cur := by
        unfold wordBoundary at *
        omega
      unfold headCards
      rw [if_neg hstop, hend]
      rfl
  | succ n ih =>
      have hgo : cur % 8 ≠ 0 ∧ cur < cardEnd := by
        unfold wordBoundary at hn
        omega
      have hsame : wordBoundary (cur + 1) cardEnd = wordBoundary cur cardEnd := by
        unfold wordBoundary
        omega
      obtain ⟨enough, hcard⟩ := modifyCard_runs (hkeeps cur (Nat.le_refl _) (by omega)) (hstrong cur)
      obtain ⟨more, hrest⟩ := @ih (cur + 1) (by omega)
        (fun c hl hr => hkeeps c (by omega) (by rwa [hsame] at hr)) (by omega)
      refine ⟨enough + more + 1, fun limit fuel hlimit hfuel => ?_⟩
      obtain ⟨fuel, rfl⟩ : ∃ f, fuel = f + 1 := ⟨fuel - 1, by omega⟩
      unfold headCards
      rw [if_pos hgo, hcard limit (by omega), Option.bind_eq_bind, Option.bind_some,
        hrest limit fuel (by omega) (by omega), hsame]
      simp [modified]

end Cards

section Words

def modifiedCall (visitor : UInt8 → UInt8) (m : Memory) (c : Nat) : Modified :=
  (c, m c, visitor (m c))

-- The cards that a round on the word changes.
def changedCards (visitor : UInt8 → UInt8) (m : Memory) (word : Nat) : List Nat :=
  (List.range' word 8).filter fun c => visitor (m c) ≠ m c

-- What a round on a word comes to.
def wordResult (visitor : UInt8 → UInt8) (m : Memory) (word : Nat) : Memory × List Modified :=
  if m.readLE word 8 = 0 then (m, [])
  else (m.writeBytes word 8 fun i => visitor (m (word + i)),
    (changedCards visitor m word).map (modifiedCall visitor m))

theorem flatMap_modified (visitor : UInt8 → UInt8) (m : Memory) (word n : Nat) :
    ((List.range n).flatMap fun i =>
        modified (word + i) (m (word + i)) (visitor (m (word + i)))) =
      ((List.range' word n).filter fun c => visitor (m c) ≠ m c).map (modifiedCall visitor m) := by
  have hmap : ((List.range n).flatMap fun i =>
      modified (word + i) (m (word + i)) (visitor (m (word + i)))) =
        (List.range' word n).flatMap fun c => modified c (m c) (visitor (m c)) := by
    rw [List.range'_eq_map_range, List.flatMap_map]
  rw [hmap]
  induction List.range' word n with
  | nil => rfl
  | cons c rest ih =>
      rw [List.flatMap_cons, ih]
      by_cases hsame : visitor (m c) = m c
      · simp [modified, hsame]
      · simp [modified, modifiedCall, hsame, Ne.symm hsame]

theorem modifyWord_round (word attempt : Nat) :
    (if m.readLE word 8 = 0 then some (m, [])
      else (compareExchangeWeak (strong word attempt) m word (m.readLE word 8)
        (Memory.readLE (fun i => visitor (m (word + i))) 0 8)).map fun m' =>
          (m', (List.range 8).flatMap fun i =>
            modified (word + i) (m (word + i)) (visitor (m (word + i))))) =
      if m.readLE word 8 = 0 ∨ strong word attempt = true then some (wordResult visitor m word)
      else none := by
  unfold wordResult compareExchangeWeak changedCards
  by_cases hzero : m.readLE word 8 = 0
  · simp [hzero]
  · by_cases hstrong : strong word attempt = true
    · simp only [hzero, hstrong, if_false, or_true, and_self, if_true, Option.map_some,
        Memory.writeLE_readLE, flatMap_modified, Nat.zero_add]
    · simp [hzero, hstrong]

theorem modifyWord_eq_some {fuel word : Nat} {r : Memory × List Modified}
    (h : modifyWord visitor strong fuel m word = some r) : r = wordResult visitor m word := by
  obtain ⟨attempt, hround⟩ := retry_eq_some h
  rw [modifyWord_round] at hround
  split at hround
  next => exact (Option.some.inj hround).symm
  next => cases hround

theorem modifyWord_runs (word : Nat) (hstrong : ∃ k, strong word k = true) :
    ∃ enough, ∀ fuel, enough ≤ fuel →
      modifyWord visitor strong fuel m word = some (wordResult visitor m word) := by
  obtain ⟨k, hk⟩ := hstrong
  refine ⟨k + 1, fun fuel hfuel => retry_runs (n := k) ?_ (fun i => ?_) hfuel⟩
  · rw [modifyWord_round, Nat.zero_add, if_pos (Or.inr hk)]
  · rw [modifyWord_round]
    split
    next => exact Or.inr rfl
    next => exact Or.inl rfl

-- The card lies in a word from `word` to before `wordEnd` that is not all clean.
def Scans (m : Memory) (word wordEnd c : Nat) : Prop :=
  word ≤ c / 8 * 8 ∧ c / 8 * 8 < wordEnd ∧ m.readLE (c / 8 * 8) 8 ≠ 0

instance (m : Memory) (word wordEnd c : Nat) : Decidable (Scans m word wordEnd c) :=
  inferInstanceAs (Decidable (_ ∧ _ ∧ _))

-- What the loop over the words does to the cards, and what it reports.
structure WordsDone (visitor : UInt8 → UInt8) (m : Memory) (word wordEnd : Nat)
    (r : Memory × List Modified) : Prop where
  cards : ∀ c, r.1 c = if Scans m word wordEnd c then visitor (m c) else m c
  calls : ∃ l, r.2 = l.map (modifiedCall visitor m) ∧
    Enumerates l fun c => Scans m word wordEnd c ∧ visitor (m c) ≠ m c

theorem WordsDone.nil {word wordEnd : Nat} (hle : wordEnd ≤ word) :
    WordsDone visitor m word wordEnd (m, []) := by
  have hnone : ∀ c, ¬Scans m word wordEnd c := by
    rintro c ⟨hl, hr, _⟩
    omega
  exact ⟨fun c => by rw [if_neg (hnone c)], [], rfl, Enumerates.nil fun c h => hnone c h.1⟩

theorem wordResult_done {word : Nat} (halign : word % 8 = 0) :
    WordsDone visitor m word (word + 1) (wordResult visitor m word) := by
  have hone : ∀ c, word ≤ c / 8 * 8 ∧ c / 8 * 8 < word + 1 ↔ word ≤ c ∧ c < word + 8 := by omega
  have hword : ∀ c, word ≤ c ∧ c < word + 8 → c / 8 * 8 = word := by omega
  unfold wordResult
  by_cases hzero : m.readLE word 8 = 0
  · have hnone : ∀ c, ¬Scans m word (word + 1) c := by
      rintro c ⟨hl, hr, hne⟩
      rw [hword c ((hone c).mp ⟨hl, hr⟩)] at hne
      exact hne hzero
    rw [if_pos hzero]
    exact ⟨fun c => by rw [if_neg (hnone c)], [], rfl, Enumerates.nil fun c h => hnone c h.1⟩
  · have hscans : ∀ c, Scans m word (word + 1) c ↔ word ≤ c ∧ c < word + 8 := by
      intro c
      unfold Scans
      rw [← and_assoc, hone, and_iff_left_of_imp]
      intro hin
      rwa [hword c hin]
    rw [if_neg hzero]
    refine ⟨fun c => ?_, changedCards visitor m word, rfl, ?_⟩
    · unfold Memory.writeBytes
      simp only [hscans]
      by_cases hin : word ≤ c ∧ c < word + 8
      · rw [if_pos hin, if_pos hin, Nat.add_sub_cancel' hin.1]
      · rw [if_neg hin, if_neg hin]
    · refine (Enumerates.filter_range _ word 8).congr fun c => ?_
      rw [hscans, and_assoc]
      simp

-- One word, and then the rest of them.
theorem WordsDone.append {word wordEnd : Nat} {r r' : Memory × List Modified}
    (halign : word % 8 = 0) (hlt : word < wordEnd) (h : WordsDone visitor m word (word + 1) r)
    (h' : WordsDone visitor r.1 (word + 8) wordEnd r') :
    WordsDone visitor m word wordEnd (r'.1, r.2 ++ r'.2) := by
  have hkept : ∀ c, word + 8 ≤ c → r.1 c = m c := fun c hc => by
    rw [h.cards, if_neg fun hs => by have := hs.2.1; omega]
  have hrest : ∀ c, Scans r.1 (word + 8) wordEnd c ↔ Scans m (word + 8) wordEnd c := fun c => by
    unfold Scans
    refine and_congr_right fun hl => ?_
    rw [Memory.readLE_congr fun a ha _ => hkept a (by omega)]
  have hsplit : ∀ c, Scans m word wordEnd c ↔
      Scans m word (word + 1) c ∨ Scans m (word + 8) wordEnd c := fun c => by
    unfold Scans
    constructor
    · rintro ⟨hl, hr, hne⟩
      by_cases hfirst : c / 8 * 8 = word
      · exact Or.inl ⟨hl, by omega, hne⟩
      · exact Or.inr ⟨by omega, hr, hne⟩
    · rintro (⟨hl, hr, hne⟩ | ⟨hl, hr, hne⟩)
      · exact ⟨hl, by omega, hne⟩
      · exact ⟨by omega, hr, hne⟩
  have hbehind : ∀ c, Scans m (word + 8) wordEnd c → r.1 c = m c := fun c hs =>
    hkept c (by have := hs.1; omega)
  obtain ⟨l, hl, hlist⟩ := h.calls
  obtain ⟨l', hl', hlist'⟩ := h'.calls
  refine ⟨fun c => ?_, l ++ l', ?_, ?_⟩
  · rw [h'.cards]
    simp only [hrest, hsplit]
    by_cases hs : Scans m (word + 8) wordEnd c
    · rw [if_pos hs, if_pos (Or.inr hs), hbehind c hs]
    · rw [if_neg hs, h.cards]
      simp only [hs, or_false]
  · have hsame : l'.map (modifiedCall visitor r.1) = l'.map (modifiedCall visitor m) := by
      apply List.map_congr_left
      intro c hc
      unfold modifiedCall
      rw [hbehind c ((hrest c).mp ((hlist'.mem_iff c).mp hc).1)]
    simp only
    rw [List.map_append, hl, hl', hsame]
  · refine (hlist.append hlist' fun a c ha hc => ?_).congr fun c => ?_
    · have hbefore := ha.1.2.1
      have hafter := hc.1.1
      omega
    · rw [hrest, hsplit, or_and_right]
      refine or_congr_right (and_congr_right fun hs => ?_)
      rw [hbehind c hs]

theorem modifyWords_eq_some {limit wordEnd fuel word : Nat} {r : Memory × List Modified}
    (halign : word < wordEnd → word % 8 = 0)
    (h : modifyWords visitor strong limit wordEnd fuel m word = some r) :
    WordsDone visitor m word wordEnd r := by
  induction fuel generalizing m word r with
  | zero => cases h
  | succ fuel ih =>
      unfold modifyWords at h
      by_cases hgo : word < wordEnd
      · rw [if_pos hgo] at h
        simp only [Option.bind_eq_bind, Option.bind_eq_some_iff] at h
        obtain ⟨first, hfirst, rest, hrest, hr⟩ := h
        rw [modifyWord_eq_some hfirst] at hrest hr
        have halign' := halign hgo
        obtain rfl := Option.some.inj hr
        exact (wordResult_done halign').append halign' hgo (ih (fun _ => by omega) hrest)
      · rw [if_neg hgo] at h
        obtain rfl := Option.some.inj h
        exact WordsDone.nil (by omega)

theorem modifyWords_runs (visitor : UInt8 → UInt8) (m : Memory) (word wordEnd : Nat)
    (hstrong : ∀ a, ∃ k, strong a k = true) :
    ∃ enough, ∀ limit fuel, enough ≤ limit → enough ≤ fuel →
      ∃ r, modifyWords visitor strong limit wordEnd fuel m word = some r := by
  induction hn : wordEnd - word using Nat.strong_induction_on generalizing m word with
  | _ n ih =>
      by_cases hgo : word < wordEnd
      · obtain ⟨enough, hfirst⟩ := modifyWord_runs (m := m) word (hstrong word)
        obtain ⟨more, hrest⟩ := ih (wordEnd - (word + 8)) (by omega)
          (wordResult visitor m word).1 (word + 8) rfl
        refine ⟨enough + more + 1, fun limit fuel hlimit hfuel => ?_⟩
        obtain ⟨fuel, rfl⟩ : ∃ f, fuel = f + 1 := ⟨fuel - 1, by omega⟩
        obtain ⟨r, hr⟩ := hrest limit fuel (by omega) (by omega)
        unfold modifyWords
        rw [if_pos hgo, hfirst limit (by omega), Option.bind_eq_bind, Option.bind_some, hr]
        exact ⟨_, rfl⟩
      · refine ⟨1, fun limit fuel _ hfuel => ?_⟩
        obtain ⟨fuel, rfl⟩ : ∃ f, fuel = f + 1 := ⟨fuel - 1, by omega⟩
        unfold modifyWords
        rw [if_neg hgo]
        exact ⟨_, rfl⟩

end Words

section Range

variable {t : CardTable} {scanBegin scanEnd : Nat}

-- The cards of the addresses of the scan range.
def InRange (t : CardTable) (scanBegin scanEnd c : Nat) : Prop :=
  ∃ a, scanBegin ≤ a ∧ a < scanEnd ∧ t.cardFromAddr a = c

-- A card in one of the aligned words that begin among the cards from the first to
-- before that of the end, and are not all clean.
def InDirtyWord (t : CardTable) (m : Memory) (scanBegin scanEnd c : Nat) : Prop :=
  Scans m (t.cardFromAddr scanBegin) (t.cardFromAddr scanEnd) c

instance (t : CardTable) (m : Memory) (scanBegin scanEnd c : Nat) :
    Decidable (t.InDirtyWord m scanBegin scanEnd c) :=
  inferInstanceAs (Decidable (Scans _ _ _ _))

-- The cards of the range, and no others, are replaced, and the replaced ones that
-- have changed are reported, each once.
structure Modifies (t : CardTable) (visitor : UInt8 → UInt8) (m : Memory)
    (scanBegin scanEnd : Nat) (r : Memory × List Modified) : Prop where
  inside : ∀ c, t.InRange scanBegin scanEnd c → r.1 c = visitor (m c)
  outside : ∀ c, ¬t.InRange scanBegin scanEnd c → r.1 c = m c
  nodup : r.2.Nodup
  mem_iff : ∀ call, call ∈ r.2 ↔ t.InRange scanBegin scanEnd call.1 ∧
    call.2 = (m call.1, visitor (m call.1)) ∧ visitor (m call.1) ≠ m call.1

theorem cardFromAddr_le (t : CardTable) {a b : Nat} (hle : a ≤ b) :
    t.cardFromAddr a ≤ t.cardFromAddr b := by
  unfold cardFromAddr
  rw [card_shift_eq, card_shift_eq]
  exact Nat.add_le_add_left (Nat.div_le_div_right hle) _

-- Every card from the first to before that of the end is in the range.
theorem inRange_of_lt {c : Nat} (hl : t.cardFromAddr scanBegin ≤ c)
    (hr : c < t.cardFromAddr scanEnd) : t.InRange scanBegin scanEnd c := by
  unfold InRange cardFromAddr at *
  simp only [card_shift_eq] at *
  refine ⟨max scanBegin (1024 * (c - t.biasedBegin)), Nat.le_max_left _ _, ?_, ?_⟩
  · omega
  · omega

theorem scans_boundary {c : Nat} (hle : scanBegin ≤ scanEnd) :
    Scans m (wordBoundary (t.cardFromAddr scanBegin) (t.cardFromAddr scanEnd))
        (t.cardFromAddr scanEnd) c ↔ t.InDirtyWord m scanBegin scanEnd c := by
  have hcards := t.cardFromAddr_le hle
  have hsame : wordBoundary (t.cardFromAddr scanBegin) (t.cardFromAddr scanEnd) ≤ c / 8 * 8 ∧
      c / 8 * 8 < t.cardFromAddr scanEnd ↔ t.cardFromAddr scanBegin ≤ c / 8 * 8 ∧
        c / 8 * 8 < t.cardFromAddr scanEnd := by
    unfold wordBoundary
    omega
  unfold InDirtyWord Scans
  rw [← and_assoc, hsame, and_assoc]

-- The second loop looks at the end of the first one and never starts.
theorem tailCards_eq (limit fuel cur cardEnd : Nat) (hstop : cur % 8 = 0 ∨ cardEnd ≤ cur) :
    tailCards visitor strong limit cur (fuel + 1) m cardEnd = some (m, [], cardEnd) := by
  unfold tailCards
  rw [if_neg (by omega)]
  rfl

theorem modifyCardsAtomic_eq_some {fuel : Nat} {r : Memory × List Modified}
    (hle : scanBegin ≤ scanEnd)
    (h : t.modifyCardsAtomic visitor strong fuel m scanBegin scanEnd = some r) :
    (∀ c, t.cardFromAddr scanBegin ≤ c →
        c < wordBoundary (t.cardFromAddr scanBegin) (t.cardFromAddr scanEnd) →
          visitor (m c) = m c) ∧
      WordsDone visitor m (wordBoundary (t.cardFromAddr scanBegin) (t.cardFromAddr scanEnd))
        (t.cardFromAddr scanEnd) r := by
  have hcards := t.cardFromAddr_le hle
  cases fuel with
  | zero => cases h
  | succ fuel =>
      unfold modifyCardsAtomic at h
      simp only [Option.bind_eq_bind, Option.bind_eq_some_iff] at h
      obtain ⟨head, hhead, tail, htail, words, hwords, hr⟩ := h
      obtain ⟨hkeeps, rfl⟩ := headCards_eq_some hcards hhead
      have hboundary : wordBoundary (t.cardFromAddr scanBegin) (t.cardFromAddr scanEnd) % 8 = 0 ∨
          t.cardFromAddr scanEnd ≤
            wordBoundary (t.cardFromAddr scanBegin) (t.cardFromAddr scanEnd) := by
        unfold wordBoundary
        omega
      rw [tailCards_eq _ _ _ _ hboundary] at htail
      obtain rfl := Option.some.inj htail
      have hdone : WordsDone visitor m
          (wordBoundary (t.cardFromAddr scanBegin) (t.cardFromAddr scanEnd))
          (t.cardFromAddr scanEnd) words := by
        refine modifyWords_eq_some (fun hlt => ?_) hwords
        exact hboundary.resolve_right (Nat.not_le.mpr hlt)
      obtain rfl := Option.some.inj hr
      exact ⟨hkeeps, hdone⟩

theorem modifyCardsAtomic_runs (hle : scanBegin ≤ scanEnd)
    (hkeeps : ∀ c, t.cardFromAddr scanBegin ≤ c →
      c < wordBoundary (t.cardFromAddr scanBegin) (t.cardFromAddr scanEnd) → visitor (m c) = m c)
    (hstrong : ∀ a, ∃ k, strong a k = true) :
    ∃ fuel r, t.modifyCardsAtomic visitor strong fuel m scanBegin scanEnd = some r := by
  obtain ⟨enough, hhead⟩ := headCards_runs (t.cardFromAddr_le hle) hkeeps hstrong
  obtain ⟨more, hwords⟩ := modifyWords_runs visitor m
    (wordBoundary (t.cardFromAddr scanBegin) (t.cardFromAddr scanEnd)) (t.cardFromAddr scanEnd)
    hstrong
  have hboundary : wordBoundary (t.cardFromAddr scanBegin) (t.cardFromAddr scanEnd) % 8 = 0 ∨
      t.cardFromAddr scanEnd ≤
        wordBoundary (t.cardFromAddr scanBegin) (t.cardFromAddr scanEnd) := by
    unfold wordBoundary
    omega
  obtain ⟨r, hr⟩ := hwords (enough + more + 1) (enough + more + 1) (by omega) (by omega)
  refine ⟨enough + more + 1, r, ?_⟩
  unfold modifyCardsAtomic
  simp only [hhead (enough + more + 1) (enough + more + 1) (by omega) (by omega),
    Option.bind_eq_bind, Option.bind_some, tailCards_eq _ _ _ _ hboundary, hr]
  rfl

theorem WordsDone.modifies {r : Memory × List Modified} (hle : scanBegin ≤ scanEnd)
    (h : WordsDone visitor m (wordBoundary (t.cardFromAddr scanBegin) (t.cardFromAddr scanEnd))
      (t.cardFromAddr scanEnd) r)
    (hkeeps : ∀ c, ¬(t.InRange scanBegin scanEnd c ↔ t.InDirtyWord m scanBegin scanEnd c) →
      visitor (m c) = m c) : t.Modifies visitor m scanBegin scanEnd r := by
  have hchanged : ∀ c, visitor (m c) ≠ m c →
      (t.InDirtyWord m scanBegin scanEnd c ↔ t.InRange scanBegin scanEnd c) := fun c hne => by
    by_contra hdiffer
    exact hne (hkeeps c fun h => hdiffer h.symm)
  have hcards : ∀ c, r.1 c = if t.InDirtyWord m scanBegin scanEnd c then visitor (m c) else m c := by
    intro c
    rw [h.cards]
    exact if_congr (scans_boundary hle) rfl rfl
  obtain ⟨l, hl, hlist⟩ := h.calls
  refine ⟨fun c hin => ?_, fun c hout => ?_, ?_, fun call => ?_⟩
  · rw [hcards]
    by_cases hsame : visitor (m c) = m c
    · rw [hsame, ite_self]
    · rw [if_pos ((hchanged c hsame).mpr hin)]
  · rw [hcards]
    by_cases hsame : visitor (m c) = m c
    · rw [hsame, ite_self]
    · rw [if_neg fun hword => hout ((hchanged c hsame).mp hword)]
  · rw [hl]
    apply List.Nodup.map
    · intro a c heq
      exact congrArg Prod.fst heq
    · exact hlist.sorted.imp fun hlt => hlt.ne
  · rw [hl, List.mem_map]
    constructor
    · rintro ⟨c, hc, rfl⟩
      obtain ⟨hscans, hne⟩ := (hlist.mem_iff c).mp hc
      exact ⟨(hchanged c hne).mp ((scans_boundary hle).mp hscans), rfl, hne⟩
    · rintro ⟨hin, hvalues, hne⟩
      refine ⟨call.1, (hlist.mem_iff call.1).mpr
        ⟨(scans_boundary hle).mpr ((hchanged _ hne).mpr hin), hne⟩, ?_⟩
      unfold modifiedCall
      rw [← hvalues]

-- The call meets its purpose exactly when the visitor keeps the cards that are in the
-- range or in a dirty word, but not in both.
theorem modify_cards_exact_iff (hle : scanBegin ≤ scanEnd)
    (hstrong : ∀ a, ∃ k, strong a k = true) :
    (∃ fuel r, t.modifyCardsAtomic visitor strong fuel m scanBegin scanEnd = some r ∧
        t.Modifies visitor m scanBegin scanEnd r) ↔
      ∀ c, ¬(t.InRange scanBegin scanEnd c ↔ t.InDirtyWord m scanBegin scanEnd c) →
        visitor (m c) = m c := by
  constructor
  · rintro ⟨fuel, r, hrun, hmodifies⟩ c hne
    obtain ⟨_, hdone⟩ := modifyCardsAtomic_eq_some hle hrun
    have hcard := hdone.cards c
    by_cases hin : t.InRange scanBegin scanEnd c
    · rw [if_neg fun h => hne ⟨fun _ => (scans_boundary hle).mp h, fun _ => hin⟩] at hcard
      rw [← hmodifies.inside c hin, hcard]
    · have hword : t.InDirtyWord m scanBegin scanEnd c := by
        by_contra hout
        exact hne ⟨fun h => absurd h hin, fun h => absurd h hout⟩
      rw [if_pos ((scans_boundary hle).mpr hword)] at hcard
      rw [← hcard, hmodifies.outside c hin]
  · intro hkeeps
    obtain ⟨fuel, r, hrun⟩ := modifyCardsAtomic_runs (m := m) hle
      (fun c hl hr => hkeeps c fun hiff => by
        have hword := (hiff.mp (inRange_of_lt hl (by unfold wordBoundary at hr; omega))).1
        unfold wordBoundary at hr
        omega) hstrong
    obtain ⟨_, hdone⟩ := modifyCardsAtomic_eq_some hle hrun
    exact ⟨fuel, r, hrun, hdone.modifies hle hkeeps⟩

-- A heap of forty cards from 2 ^ 20 on.
def fortyCards : CardTable := ⟨8192, 4096, 7280, 112⟩

example : new 4096 1048576 40960 8192 = .ok fortyCards := by decide

theorem modify_cards_exact_iff_words :
    (∃ fuel r, fortyCards.modifyCardsAtomic ageCardVisitor (fun _ _ => true) fuel
          (fun _ => CARD_DIRTY) 1048576 1064960 = some r ∧
        fortyCards.Modifies ageCardVisitor (fun _ => CARD_DIRTY) 1048576 1064960 r) ↔
      ∀ c, ¬(fortyCards.InRange 1048576 1064960 c ↔
          fortyCards.InDirtyWord (fun _ => CARD_DIRTY) 1048576 1064960 c) →
        ageCardVisitor CARD_DIRTY = CARD_DIRTY :=
  modify_cards_exact_iff (by decide) fun _ => ⟨0, rfl⟩

-- From the second card on: the first loop never leaves a dirty card that is to be aged.
theorem age_second_card_diverges :
    ¬∃ fuel r, fortyCards.modifyCardsAtomic ageCardVisitor (fun _ _ => true) fuel
        (fun _ => CARD_DIRTY) 1049600 1050624 = some r ∧
      fortyCards.Modifies ageCardVisitor (fun _ => CARD_DIRTY) 1049600 1050624 r := by
  rintro ⟨fuel, r, hrun, _⟩
  obtain ⟨hkeeps, _⟩ := modifyCardsAtomic_eq_some (by decide) hrun
  have hcard := hkeeps (fortyCards.cardFromAddr 1049600) (Nat.le_refl _) (by decide)
  exact absurd hcard (by decide)

-- The first card alone: the seven behind it are aged with it.
example : (fortyCards.modifyCardsAtomic ageCardVisitor (fun _ _ => true) 2 (fun _ => CARD_DIRTY)
    1048576 1049600).map (fun r => r.2.length) = some 8 := by decide +kernel

end Range

end Rsgc.Storage.CardTable
