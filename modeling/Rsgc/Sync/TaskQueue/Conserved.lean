import Rsgc.Sync.TaskQueue

namespace Rsgc.Sync

namespace Age

-- Ages in the order in which the queue goes through them.
def Before (a b : Age) : Prop := a.epoch < b.epoch ∨ (a.epoch = b.epoch ∧ a.top < b.top)

def NotAfter (a b : Age) : Prop := a = b ∨ a.Before b

variable {a b d : Age}

theorem Before.trans (h : a.Before b) (h' : b.Before d) : a.Before d := by
  unfold Before at h h' ⊢
  omega

theorem Before.ne (h : a.Before b) : a ≠ b := by
  rintro rfl
  unfold Before at h
  omega

theorem NotAfter.before (h : a.NotAfter b) (h' : b.Before d) : a.Before d := by
  rcases h with rfl | h
  · exact h'
  · exact h.trans h'

-- Without a full turn of the tag the word determines the age.
theorem NotAfter.eq_of_sameData (h : a.NotAfter b) (hsame : b.SameData a)
    (hturn : b.epoch < a.epoch + idxRange) : b = a := by
  rcases h with rfl | h
  · rfl
  · obtain ⟨htop, htag⟩ := hsame
    unfold tag idxRange at htag
    unfold idxRange at hturn
    unfold Before at h
    omega

end Age

section Fits

variable {α : Type*} (n : QueueSize)

-- What the owner knows by its place of a queue of `count` elements. Once
-- `pop_local` has set the bottom, the element above it still counts.
def Owner.Fits (bottom : Nat) (age : Age) (elems : Nat → α) (count : Nat) : Owner α → Prop
  | .idle => bottom = (age.top + count) % n.size
  | .writing _ bot =>
      bottom = (age.top + count) % n.size ∧ bot = bottom ∧ count < n.maxElems
  | .publishing x bot =>
      bottom = (age.top + count) % n.size ∧ bot = bottom ∧ count < n.maxElems ∧ elems bot = x
  | .lowering bot =>
      bottom = (age.top + count) % n.size ∧ bot = (age.top + count + (n.size - 1)) % n.size
  | .lookingTop bot => bottom = bot ∧ bot = (age.top + count + (n.size - 1)) % n.size
  | .lookingAge bot =>
      bottom = bot ∧ bot = (age.top + count + (n.size - 1)) % n.size ∧ count ≤ 1
  | .claiming bot oldAge =>
      bottom = bot ∧ bot = (age.top + count + (n.size - 1)) % n.size ∧ count ≤ 1 ∧
        oldAge.top = bot ∧ (count = 1 → age = oldAge) ∧
        (count = 0 → age.Before (GenericTaskQueue.emptyAge bot oldAge))
  | .resetting bot oldAge =>
      bottom = bot ∧ bot = (age.top + count + (n.size - 1)) % n.size ∧ count = 0 ∧
        age.Before (GenericTaskQueue.emptyAge bot oldAge)
  | .panicked => False

-- A thief that has found an element loses it only when the age changes.
def Thief.Fits (age : Age) (count : Nat) : Thief → Prop
  | .idle | .reading _ => True
  | .sawAge oldAge => oldAge.NotAfter age
  | .sawBottom oldAge => oldAge.NotAfter age ∧ (oldAge = age → 0 < count)

-- The element that a thief has taken out of the queue and not read.
def Thief.claims (elems : Nat → α) : Thief → Multiset α
  | .reading top => {elems top}
  | _ => 0

theorem Thief.Fits.newer {age age' : Age} {count : Nat} (hage : age.Before age') (count' : Nat)
    {x : Thief} (h : x.Fits age count) : x.Fits age' count' := by
  cases x with
  | idle | reading top => trivial
  | sawAge oldAge => exact Or.inr (Age.NotAfter.before h hage)
  | sawBottom oldAge =>
      have hbefore := Age.NotAfter.before h.1 hage
      exact ⟨Or.inr hbefore, fun heq => absurd heq hbefore.ne⟩

theorem Thief.Fits.recount {age : Age} {count count' : Nat} (hpos : 0 < count → 0 < count')
    {x : Thief} (h : x.Fits age count) : x.Fits age count' := by
  cases x with
  | idle | reading top => trivial
  | sawAge oldAge => exact h
  | sawBottom oldAge => exact ⟨h.1, fun heq => hpos (h.2 heq)⟩

end Fits

namespace GenericTaskQueue

variable {τ α : Type*} [Fintype τ] (n : QueueSize)

-- How many elements the queue has. While `pop_local` is undecided about the
-- element above the bottom it counts.
def count (s : GenericTaskQueue τ α) : Nat :=
  match s.owner with
  | .lookingTop _ | .lookingAge _ | .claiming _ _ | .resetting _ _ =>
      (n.dirtySize s.bottom s.age.top + 1) % n.size
  | _ => n.dirtySize s.bottom s.age.top

def contents (s : GenericTaskQueue τ α) : List α := ring s.elems n.size s.age.top (s.count n)

-- The elements that thieves are about to read.
def claimed (s : GenericTaskQueue τ α) : Multiset α := ∑ i, (s.thief i).claims s.elems

structure Holds (s : GenericTaskQueue τ α) (count : Nat) : Prop where
  top_lt : s.age.top < n.size
  count_le : count ≤ n.maxElems
  owner : s.owner.Fits n s.bottom s.age s.elems count
  thief : ∀ i, (s.thief i).Fits s.age count
  balance : (s.accepted : Multiset α) =
    s.returned + s.claimed + ring s.elems n.size s.age.top count

variable {n} {s : GenericTaskQueue τ α} {count : Nat}

theorem Holds.count_eq (h : s.Holds n count) : s.count n = count := by
  have hge := n.size_ge
  have hle := h.count_le
  have hfits := h.owner
  unfold QueueSize.maxElems at hle
  have hstill : s.bottom = (s.age.top + count) % n.size →
      n.dirtySize s.bottom s.age.top = count :=
    fun hbot => n.dirtySize_eq h.top_lt (by omega) hbot
  have hbelow : s.bottom = (s.age.top + count + (n.size - 1)) % n.size →
      (n.dirtySize s.bottom s.age.top + 1) % n.size = count := by
    intro hbot
    have hindex : s.bottom = (s.age.top + (count + (n.size - 1)) % n.size) % n.size := by
      rw [hbot, Nat.add_mod_mod, Nat.add_assoc]
    rw [n.dirtySize_eq h.top_lt (Nat.mod_lt _ (by omega)) hindex, Nat.mod_add_mod]
    have hsum : count + (n.size - 1) + 1 = count + n.size := by omega
    rw [hsum, Nat.add_mod_right, Nat.mod_eq_of_lt (by omega)]
  unfold GenericTaskQueue.count
  cases howner : s.owner with
  | idle =>
      rw [howner] at hfits
      exact hstill hfits
  | writing x bot | publishing x bot | lowering bot =>
      rw [howner] at hfits
      exact hstill hfits.1
  | lookingTop bot =>
      rw [howner] at hfits
      exact hbelow (hfits.1.trans hfits.2)
  | lookingAge bot | claiming bot oldAge | resetting bot oldAge =>
      rw [howner] at hfits
      exact hbelow (hfits.1.trans hfits.2.1)
  | panicked =>
      rw [howner] at hfits
      exact hfits.elim

theorem emptyAge_top {bot : Nat} (hbot : bot < n.size) (oldAge : Age) :
    (emptyAge bot oldAge).top = bot := Nat.mod_eq_of_lt (hbot.trans_le n.size_le)

theorem before_emptyAge (bot : Nat) (oldAge : Age) : oldAge.Before (emptyAge bot oldAge) :=
  Or.inl (Nat.lt_succ_self _)

theorem stolenAge_top (n : QueueSize) (oldAge : Age) :
    (stolenAge n oldAge).top = (oldAge.top + 1) % n.size := by
  have hlt : (oldAge.top + 1) % n.size < n.size := by
    have hge := n.size_ge
    exact Nat.mod_lt _ (by omega)
  unfold stolenAge Age.newFlags
  simp only [n.incrementIndex_eq]
  exact Nat.mod_eq_of_lt (hlt.trans_le n.size_le)

theorem stolenAge_epoch (n : QueueSize) (oldAge : Age) : (stolenAge n oldAge).epoch =
    oldAge.epoch + if (oldAge.top + 1) % n.size = 0 then 1 else 0 := by
  unfold stolenAge Age.newFlags
  simp only [n.incrementIndex_eq]

-- A stolen element moves the age on, but not past the age that the owner installs
-- when it loses the last element.
theorem before_stolenAge {oldAge : Age} (htop : oldAge.top < n.size) :
    oldAge.Before (stolenAge n oldAge) := by
  unfold Age.Before
  rw [stolenAge_top, stolenAge_epoch]
  by_cases hwrap : (oldAge.top + 1) % n.size = 0
  · rw [if_pos hwrap]
    omega
  · have hlt : oldAge.top + 1 < n.size := by
      by_contra hnot
      have heq : oldAge.top + 1 = n.size := by omega
      exact hwrap (by rw [heq, Nat.mod_self])
    rw [if_neg hwrap, Nat.mod_eq_of_lt hlt]
    omega

theorem stolenAge_before {oldAge : Age} (htop : oldAge.top < n.size) :
    (stolenAge n oldAge).Before (emptyAge oldAge.top oldAge) := by
  have hge := n.size_ge
  have hepoch : (emptyAge oldAge.top oldAge).epoch = oldAge.epoch + 1 := rfl
  unfold Age.Before
  rw [stolenAge_top, stolenAge_epoch, emptyAge_top htop, hepoch]
  by_cases hwrap : (oldAge.top + 1) % n.size = 0
  · have hpos : 0 < oldAge.top := by
      by_contra hzero
      have heq : oldAge.top + 1 = 1 := by omega
      rw [heq, Nat.mod_eq_of_lt (by omega)] at hwrap
      omega
    rw [if_pos hwrap, hwrap]
    omega
  · rw [if_neg hwrap]
    omega

-- The last element is the one above the bottom.
theorem below_eq_top {top count : Nat} (htop : top < n.size) (hle : count ≤ 1) :
    (top + count + (n.size - 1)) % n.size = top ↔ count = 1 := by
  have hge := n.size_ge
  constructor
  · intro heq
    by_contra hne
    obtain rfl : count = 0 := by omega
    have hindex : (top + (n.size - 1)) % n.size = (top + 0) % n.size := by
      rw [Nat.add_zero, Nat.mod_eq_of_lt htop]
      exact heq
    have hsame := ring_index_inj top (by omega) (by omega) hindex
    omega
  · rintro rfl
    have hsum : top + 1 + (n.size - 1) = top + n.size := by omega
    rw [hsum, Nat.add_mod_right, Nat.mod_eq_of_lt htop]

theorem owner_fits_stolen {owner : Owner α} {bottom : Nat} {age : Age} {elems : Nat → α}
    (htop : age.top < n.size) (h : owner.Fits n bottom age elems (count + 1)) :
    owner.Fits n bottom (stolenAge n age) elems count := by
  have hshift : ((stolenAge n age).top + count) % n.size = (age.top + (count + 1)) % n.size := by
    rw [stolenAge_top, Nat.mod_add_mod, Nat.add_assoc, Nat.add_comm 1]
  have hbelow : ((stolenAge n age).top + count + (n.size - 1)) % n.size =
      (age.top + (count + 1) + (n.size - 1)) % n.size := by
    rw [← Nat.mod_add_mod, hshift, Nat.mod_add_mod]
  cases owner with
  | idle =>
      unfold Owner.Fits at h ⊢
      rw [hshift]
      exact h
  | writing x bot =>
      obtain ⟨hbottom, hbot, hlt⟩ := h
      exact ⟨by rw [hshift]; exact hbottom, hbot, by omega⟩
  | publishing x bot =>
      obtain ⟨hbottom, hbot, hlt, helem⟩ := h
      exact ⟨by rw [hshift]; exact hbottom, hbot, by omega, helem⟩
  | lowering bot =>
      obtain ⟨hbottom, hbot⟩ := h
      exact ⟨by rw [hshift]; exact hbottom, by rw [hbelow]; exact hbot⟩
  | lookingTop bot =>
      obtain ⟨hbottom, hbot⟩ := h
      exact ⟨hbottom, by rw [hbelow]; exact hbot⟩
  | lookingAge bot =>
      obtain ⟨hbottom, hbot, hle⟩ := h
      exact ⟨hbottom, by rw [hbelow]; exact hbot, by omega⟩
  | claiming bot oldAge =>
      obtain ⟨hbottom, hbot, hle, hold, hlast, _⟩ := h
      obtain rfl := hlast (by omega)
      refine ⟨hbottom, by rw [hbelow]; exact hbot, by omega, hold, by omega, fun _ => ?_⟩
      rw [← hold]
      exact stolenAge_before htop
  | resetting bot oldAge =>
      obtain ⟨_, _, hzero, _⟩ := h
      omega
  | panicked => exact h.elim

section Owner

theorem Holds.goOn {owner : Owner α} {bottom : Nat} (h : s.Holds n count)
    (hfits : owner.Fits n bottom s.age s.elems count) :
    Holds n { s with owner := owner, bottom := bottom } count :=
  ⟨h.top_lt, h.count_le, hfits, h.thief, h.balance⟩

theorem Holds.push (h : s.Holds n count) (howner : s.owner = .idle) (x : α) :
    (s.push n x).Holds n count := by
  have hge := n.size_ge
  have hle := h.count_le
  have hbottom := h.owner
  rw [howner] at hbottom
  have hdirty := n.dirtySize_eq h.top_lt (by unfold QueueSize.maxElems at hle; omega) hbottom
  have hlt : s.bottom < n.size := by
    rw [show s.bottom = _ from hbottom]
    exact Nat.mod_lt _ (by omega)
  unfold GenericTaskQueue.push
  simp only [hdirty]
  rw [if_pos ⟨hlt, hle⟩]
  split
  · rename_i hroom
    exact h.goOn ⟨hbottom, rfl, hroom⟩
  · exact h

theorem Holds.popLocal (h : s.Holds n count) (howner : s.owner = .idle) (threshold : Nat) :
    (s.popLocal n threshold).Holds n count := by
  have hbottom := h.owner
  rw [howner] at hbottom
  unfold GenericTaskQueue.popLocal
  split
  · exact h
  · refine h.goOn ⟨hbottom, ?_⟩
    rw [n.decrementIndex_eq, show s.bottom = _ from hbottom, Nat.mod_add_mod]

-- An element may be written where no thief is about to read.
theorem Holds.write {x : α} {bot : Nat} (h : s.Holds n count) (howner : s.owner = .writing x bot)
    (hread : ∀ i, s.thief i ≠ .reading bot) :
    Holds n { s with elems := Function.update s.elems bot x, owner := .publishing x bot }
      count := by
  have hge := n.size_ge
  have hfits := h.owner
  rw [howner] at hfits
  obtain ⟨hbottom, hbot, hlt⟩ := hfits
  refine ⟨h.top_lt, h.count_le, ⟨hbottom, hbot, hlt, Function.update_self _ _ _⟩, h.thief, ?_⟩
  have hclaims : ∀ i, (s.thief i).claims (Function.update s.elems bot x) =
      (s.thief i).claims s.elems := by
    intro i
    cases hi : s.thief i with
    | reading top =>
        have hne : top ≠ bot := by
          rintro rfl
          exact hread i hi
        have hcell : Function.update s.elems bot x top = s.elems top :=
          Function.update_of_ne hne x s.elems
        exact congrArg (fun y => ({y} : Multiset α)) hcell
    | _ => rfl
  have hclaimed : ∑ i, (s.thief i).claims (Function.update s.elems bot x) = s.claimed :=
    Finset.sum_congr rfl fun i _ => hclaims i
  have hring : ring (Function.update s.elems bot x) n.size s.age.top count =
      ring s.elems n.size s.age.top count := by
    unfold QueueSize.maxElems at hlt
    rw [hbot, hbottom]
    exact ring_update (by omega) x
  have hbalance := h.balance
  rw [← hclaimed, ← hring] at hbalance
  exact hbalance

theorem Holds.publish {x : α} {bot : Nat} (h : s.Holds n count)
    (howner : s.owner = .publishing x bot) :
    Holds n { s with bottom := n.incrementIndex bot, owner := .idle, accepted := x :: s.accepted }
      (count + 1) := by
  have hfits := h.owner
  rw [howner] at hfits
  obtain ⟨hbottom, hbot, hlt, helem⟩ := hfits
  refine ⟨h.top_lt, hlt, ?_, fun i => (h.thief i).recount fun _ => by omega, ?_⟩
  · change n.incrementIndex bot = (s.age.top + (count + 1)) % n.size
    rw [n.incrementIndex_eq, hbot, hbottom, Nat.mod_add_mod, Nat.add_assoc]
  · have hbalance := h.balance
    have hclaimed : claimed { s with
        bottom := n.incrementIndex bot, owner := .idle, accepted := x :: s.accepted } =
          s.claimed := rfl
    have hindex : (s.age.top + count) % n.size = bot := by rw [hbot, hbottom]
    rw [hclaimed, ring_last, hindex, helem, ← Multiset.cons_coe, hbalance, ← Multiset.coe_add,
      ← Multiset.singleton_add, ← Multiset.coe_singleton]
    ac_rfl

-- What the owner or a thief returns was the last or the first element.
theorem Holds.take {age : Age} {owner : Owner α} {bottom count' : Nat} {x : α}
    (h : s.Holds n count) (htop : age.top < n.size) (hle : count' ≤ n.maxElems)
    (howner : owner.Fits n bottom age s.elems count') (hthief : ∀ i, (s.thief i).Fits age count')
    (hring : (ring s.elems n.size s.age.top count : Multiset α) =
      {x} + (ring s.elems n.size age.top count' : Multiset α)) :
    Holds n { s with age := age, owner := owner, bottom := bottom, returned := x :: s.returned }
      count' := by
  refine ⟨htop, hle, howner, hthief, ?_⟩
  have hclaimed : claimed { s with
      age := age, owner := owner, bottom := bottom, returned := x :: s.returned } =
        s.claimed := rfl
  rw [hclaimed, ← Multiset.cons_coe, ← Multiset.singleton_add, h.balance, hring]
  ac_rfl

theorem Holds.lookTop {bot : Nat} (h : s.Holds n count) (howner : s.owner = .lookingTop bot)
    (hclean : 0 < n.cleanSize bot s.age.top) :
    ∃ count', (s.finish (some (s.elems bot))).Holds n count' := by
  have hge := n.size_ge
  have hle := h.count_le
  unfold QueueSize.maxElems at hle
  have hfits := h.owner
  rw [howner] at hfits
  obtain ⟨hbottom, hbot⟩ := hfits
  rw [n.cleanSize_below h.top_lt (by omega) hbot] at hclean
  obtain ⟨rest, rfl⟩ : ∃ rest, count = rest + 1 := ⟨count - 1, by omega⟩
  have hlast : bot = (s.age.top + rest) % n.size := by
    have hsum : s.age.top + (rest + 1) + (n.size - 1) = s.age.top + rest + n.size := by omega
    rw [hbot, hsum, Nat.add_mod_right]
  refine ⟨rest, h.take h.top_lt (by unfold QueueSize.maxElems; omega) (hbottom.trans hlast)
    (fun i => (h.thief i).recount fun _ => by omega) ?_⟩
  rw [ring_last, ← hlast, ← Multiset.coe_add, Multiset.coe_singleton, add_comm]

theorem Holds.lookAge {bot : Nat} (h : s.Holds n count) (howner : s.owner = .lookingAge bot) :
    if bot = s.age.top then Holds n { s with owner := .claiming bot s.age } count
    else Holds n { s with owner := .resetting bot s.age } count := by
  have hfits := h.owner
  rw [howner] at hfits
  obtain ⟨hbottom, hbot, hle⟩ := hfits
  have hone := below_eq_top (n := n) h.top_lt hle
  rw [← hbot] at hone
  split
  · rename_i htop
    have hcount := hone.mp htop
    exact h.goOn ⟨hbottom, hbot, hle, htop.symm, fun _ => rfl, by omega⟩
  · rename_i htop
    have hcount : count = 0 := by
      by_contra hne
      exact htop (hone.mpr (by omega))
    exact h.goOn ⟨hbottom, hbot, hcount, before_emptyAge bot s.age⟩

-- The owner finds the age unchanged only while the last element is there.
theorem Holds.claim {bot : Nat} {oldAge : Age} (h : s.Holds n count)
    (howner : s.owner = .claiming bot oldAge) (hsame : s.age.SameData oldAge) :
    Holds n { s with
      age := emptyAge bot oldAge, owner := .idle, returned := s.elems bot :: s.returned } 0 := by
  have hge := n.size_ge
  have hfits := h.owner
  rw [howner] at hfits
  obtain ⟨hbottom, hbot, hle, hold, hlast, _⟩ := hfits
  have htop : bot = s.age.top := by rw [← hold, hsame.1]
  have hcount : count = 1 := (below_eq_top h.top_lt hle).mp (hbot.symm.trans htop)
  obtain rfl := hlast hcount
  have hempty : (emptyAge bot s.age).top = bot := emptyAge_top (htop ▸ h.top_lt) s.age
  refine h.take ?_ (Nat.zero_le _) ?_ (fun i => (h.thief i).newer (before_emptyAge bot s.age) 0) ?_
  · rw [hempty, htop]
    exact h.top_lt
  · change s.bottom = ((emptyAge bot s.age).top + 0) % n.size
    rw [hempty, hbottom, Nat.add_zero, Nat.mod_eq_of_lt (htop ▸ h.top_lt)]
  · rw [hcount, ring_first h.top_lt, ring_zero, ring_zero, htop]
    rfl

theorem Holds.lose {bot : Nat} {oldAge : Age} (h : s.Holds n count)
    (howner : s.owner = .claiming bot oldAge) (hsame : ¬s.age.SameData oldAge) :
    Holds n { s with owner := .resetting bot oldAge } count := by
  have hfits := h.owner
  rw [howner] at hfits
  obtain ⟨hbottom, hbot, hle, _, hlast, hbefore⟩ := hfits
  have hcount : count = 0 := by
    by_contra hne
    rw [hlast (by omega)] at hsame
    exact hsame ⟨rfl, rfl⟩
  exact h.goOn ⟨hbottom, hbot, hcount, hbefore hcount⟩

theorem Holds.reset {bot : Nat} {oldAge : Age} (h : s.Holds n count)
    (howner : s.owner = .resetting bot oldAge) :
    ({ s with age := emptyAge bot oldAge }.finish none).Holds n 0 := by
  have hge := n.size_ge
  have hfits := h.owner
  rw [howner] at hfits
  obtain ⟨hbottom, hbot, rfl, hbefore⟩ := hfits
  have hlt : bot < n.size := by
    rw [hbot]
    exact Nat.mod_lt _ (by omega)
  have hempty := emptyAge_top hlt oldAge
  refine ⟨?_, Nat.zero_le _, ?_, fun i => (h.thief i).newer hbefore 0, h.balance⟩
  · change (emptyAge bot oldAge).top < n.size
    rw [hempty]
    exact hlt
  · change s.bottom = ((emptyAge bot oldAge).top + 0) % n.size
    rw [hempty, hbottom, Nat.add_zero, Nat.mod_eq_of_lt hlt]

end Owner

section Thieves

variable [DecidableEq τ] {i : τ}

theorem claimed_goto (s : GenericTaskQueue τ α) (i : τ) (x : Thief) :
    (s.goto i x).claimed + (s.thief i).claims s.elems = s.claimed + x.claims s.elems :=
  sum_update_add (fun y : Thief => y.claims s.elems) s.thief i x

omit [Fintype τ] in
theorem goto_fits {age : Age} {count : Nat} {x : Thief} (h : ∀ i, (s.thief i).Fits age count)
    (hx : x.Fits age count) (j : τ) : ((s.goto i x).thief j).Fits age count := by
  change (Function.update s.thief i x j).Fits age count
  by_cases hj : j = i
  · subst hj
    rw [Function.update_self]
    exact hx
  · rw [Function.update_of_ne hj]
    exact h j

theorem Holds.moveThief {x : Thief} (h : s.Holds n count) (hx : x.Fits s.age count)
    (hclaims : x.claims s.elems = (s.thief i).claims s.elems) : (s.goto i x).Holds n count := by
  refine ⟨h.top_lt, h.count_le, h.owner, goto_fits h.thief hx, ?_⟩
  have hclaimed := claimed_goto s i x
  rw [hclaims] at hclaimed
  rw [add_right_cancel hclaimed]
  exact h.balance

theorem Holds.seeBottom {oldAge : Age} (h : s.Holds n count) (hi : s.thief i = .sawAge oldAge)
    (hclean : n.cleanSize s.bottom oldAge.top ≠ 0) :
    (s.goto i (.sawBottom oldAge)).Holds n count := by
  have hge := n.size_ge
  have hle := h.count_le
  have hsaw := h.thief i
  rw [hi] at hsaw
  refine h.moveThief ⟨hsaw, ?_⟩ (by rw [hi]; rfl)
  rintro rfl
  unfold QueueSize.maxElems at hle
  have hfits := h.owner
  have hstill : s.bottom = (s.age.top + count) % n.size → 0 < count := by
    intro hbottom
    rw [n.cleanSize_eq h.top_lt (by omega) hbottom] at hclean
    omega
  have hbelow : s.bottom = (s.age.top + count + (n.size - 1)) % n.size → 0 < count := by
    intro hbottom
    rw [n.cleanSize_below h.top_lt (by omega) hbottom] at hclean
    omega
  cases howner : s.owner with
  | idle =>
      rw [howner] at hfits
      exact hstill hfits
  | writing x bot | publishing x bot | lowering bot =>
      rw [howner] at hfits
      exact hstill hfits.1
  | lookingTop bot =>
      rw [howner] at hfits
      exact hbelow (hfits.1.trans hfits.2)
  | lookingAge bot | claiming bot oldAge | resetting bot oldAge =>
      rw [howner] at hfits
      exact hbelow (hfits.1.trans hfits.2.1)
  | panicked =>
      rw [howner] at hfits
      exact hfits.elim

-- The exchange takes the first element out of the queue.
theorem Holds.take_first {oldAge : Age} (h : s.Holds n count) (hi : s.thief i = .sawBottom oldAge)
    (hsame : s.age.SameData oldAge) (hturn : s.age.epoch < oldAge.epoch + idxRange) :
    ∃ count', Holds n ({ s with age := stolenAge n oldAge }.goto i (.reading oldAge.top))
      count' := by
  have hge := n.size_ge
  have hle := h.count_le
  have hsaw := h.thief i
  rw [hi] at hsaw
  obtain ⟨hbefore, hpos⟩ := hsaw
  obtain rfl := hbefore.eq_of_sameData hsame hturn
  obtain ⟨rest, rfl⟩ : ∃ rest, count = rest + 1 := ⟨count - 1, by have := hpos rfl; omega⟩
  refine ⟨rest, ?_, by omega, owner_fits_stolen h.top_lt h.owner, ?_, ?_⟩
  · change (stolenAge n s.age).top < n.size
    rw [stolenAge_top]
    exact Nat.mod_lt _ (by omega)
  · exact goto_fits (fun j => (h.thief j).newer (before_stolenAge h.top_lt) rest) trivial
  · have hclaimed := claimed_goto s i (.reading s.age.top)
    have hnone : (s.thief i).claims s.elems = 0 := by
      rw [hi]
      rfl
    have hone : (Thief.reading s.age.top).claims s.elems = {s.elems s.age.top} := rfl
    rw [hnone, hone, add_zero] at hclaimed
    change (s.accepted : Multiset α) = s.returned + (s.goto i (.reading s.age.top)).claimed +
      (ring s.elems n.size (stolenAge n s.age).top rest : Multiset α)
    rw [hclaimed, h.balance, ring_first h.top_lt, stolenAge_top, ← Multiset.cons_coe,
      ← Multiset.singleton_add]
    ac_rfl

theorem Holds.read {top : Nat} (h : s.Holds n count) (hi : s.thief i = .reading top) :
    Holds n { s.goto i .idle with returned := s.elems top :: s.returned } count := by
  refine ⟨h.top_lt, h.count_le, h.owner, goto_fits h.thief trivial, ?_⟩
  have hclaimed := claimed_goto s i .idle
  have hone : (s.thief i).claims s.elems = {s.elems top} := by
    rw [hi]
    rfl
  have hnone : Thief.idle.claims s.elems = 0 := rfl
  rw [hone, hnone, add_zero] at hclaimed
  change (s.accepted : Multiset α) = (s.elems top :: s.returned : List α) +
    (s.goto i .idle).claimed + (ring s.elems n.size s.age.top count : Multiset α)
  rw [h.balance, ← hclaimed, ← Multiset.cons_coe, ← Multiset.singleton_add]
  ac_rfl

end Thieves

section Runs

variable [DecidableEq τ]

-- The exchange of the last element does not fail when it finds the expected age,
-- and no push writes where a thief still has to read.
def OwnerUndisturbed (s : GenericTaskQueue τ α) (spurious : Bool) : Owner α → Prop
  | .writing _ bot => ∀ i, s.thief i ≠ .reading bot
  | .claiming _ oldAge => s.age.SameData oldAge → spurious = false
  | _ => True

-- The exchange of a thief does not fail when it finds the expected age, and the
-- tag has not turned over since the thief saw it.
def ThiefUndisturbed (s : GenericTaskQueue τ α) (spurious : Bool) : Thief → Prop
  | .sawBottom oldAge =>
      s.age.SameData oldAge → spurious = false ∧ s.age.epoch < oldAge.epoch + idxRange
  | _ => True

def Undisturbed (s : GenericTaskQueue τ α) : QueueEvent τ α → Prop
  | .advance spurious => s.OwnerUndisturbed spurious s.owner
  | .steal i spurious => s.ThiefUndisturbed spurious (s.thief i)
  | .push _ | .popLocal _ => True

instance (s : GenericTaskQueue τ α) (spurious : Bool) :
    (owner : Owner α) → Decidable (s.OwnerUndisturbed spurious owner)
  | .writing _ bot => inferInstanceAs (Decidable (∀ i, s.thief i ≠ .reading bot))
  | .claiming _ oldAge => inferInstanceAs (Decidable (s.age.SameData oldAge → spurious = false))
  | .idle | .publishing _ _ | .lowering _ | .lookingTop _ | .lookingAge _ | .resetting _ _
  | .panicked => .isTrue trivial

instance (s : GenericTaskQueue τ α) (spurious : Bool) :
    (thief : Thief) → Decidable (s.ThiefUndisturbed spurious thief)
  | .sawBottom oldAge => inferInstanceAs (Decidable (s.age.SameData oldAge →
      spurious = false ∧ s.age.epoch < oldAge.epoch + idxRange))
  | .idle | .sawAge _ | .reading _ => .isTrue trivial

instance (s : GenericTaskQueue τ α) : (e : QueueEvent τ α) → Decidable (s.Undisturbed e)
  | .advance spurious => inferInstanceAs (Decidable (s.OwnerUndisturbed spurious s.owner))
  | .steal i spurious => inferInstanceAs (Decidable (s.ThiefUndisturbed spurious (s.thief i)))
  | .push _ | .popLocal _ => .isTrue trivial

omit [DecidableEq τ] in
theorem Holds.advance {t : GenericTaskQueue τ α} {spurious : Bool} (h : s.Holds n count)
    (hgood : s.OwnerUndisturbed spurious s.owner) (hstep : s.advance n spurious = some t) :
    ∃ count', t.Holds n count' := by
  unfold GenericTaskQueue.advance at hstep
  cases howner : s.owner with
  | idle | panicked =>
      rw [howner] at hstep
      cases hstep
  | writing x bot =>
      rw [howner] at hstep hgood
      obtain rfl := Option.some.inj hstep
      exact ⟨count, h.write howner hgood⟩
  | publishing x bot =>
      rw [howner] at hstep
      obtain rfl := Option.some.inj hstep
      exact ⟨count + 1, h.publish howner⟩
  | lowering bot =>
      rw [howner] at hstep
      obtain rfl := Option.some.inj hstep
      have hfits := h.owner
      rw [howner] at hfits
      exact ⟨count, h.goOn ⟨rfl, hfits.2⟩⟩
  | lookingTop bot =>
      rw [howner] at hstep
      simp only at hstep
      split at hstep
      · rename_i hclean
        obtain rfl := Option.some.inj hstep
        exact h.lookTop howner hclean
      · rename_i hclean
        obtain rfl := Option.some.inj hstep
        have hge := n.size_ge
        have hle := h.count_le
        unfold QueueSize.maxElems at hle
        have hfits := h.owner
        rw [howner] at hfits
        rw [n.cleanSize_below h.top_lt (by omega) hfits.2] at hclean
        exact ⟨count, h.goOn ⟨hfits.1, hfits.2, by omega⟩⟩
  | lookingAge bot =>
      rw [howner] at hstep
      simp only at hstep
      have hlook := h.lookAge howner
      split at hstep
      · rename_i htop
        obtain rfl := Option.some.inj hstep
        rw [if_pos htop] at hlook
        exact ⟨count, hlook⟩
      · rename_i htop
        obtain rfl := Option.some.inj hstep
        rw [if_neg htop] at hlook
        exact ⟨count, hlook⟩
  | claiming bot oldAge =>
      rw [howner] at hstep hgood
      by_cases hsame : s.age.SameData oldAge
      · have hstrong : spurious = false := hgood hsame
        simp only [cmpxchgAge, hsame, hstrong, and_self, if_true] at hstep
        obtain rfl := Option.some.inj hstep
        exact ⟨0, h.claim howner hsame⟩
      · simp only [cmpxchgAge, hsame, false_and, if_false] at hstep
        obtain rfl := Option.some.inj hstep
        exact ⟨count, h.lose howner hsame⟩
  | resetting bot oldAge =>
      rw [howner] at hstep
      obtain rfl := Option.some.inj hstep
      exact ⟨0, h.reset howner⟩

theorem Holds.steal {i : τ} {spurious : Bool} (h : s.Holds n count)
    (hgood : s.ThiefUndisturbed spurious (s.thief i)) :
    ∃ count', (s.steal n i spurious).Holds n count' := by
  unfold GenericTaskQueue.steal
  cases hi : s.thief i with
  | idle => exact ⟨count, h.moveThief (Or.inl rfl) (by rw [hi]; rfl)⟩
  | sawAge oldAge =>
      simp only
      split
      · exact ⟨count, h.moveThief trivial (by rw [hi]; rfl)⟩
      · rename_i hclean
        exact ⟨count, h.seeBottom hi hclean⟩
  | sawBottom oldAge =>
      rw [hi] at hgood
      by_cases hsame : s.age.SameData oldAge
      · obtain ⟨hstrong, hturn⟩ := hgood hsame
        simp only [cmpxchgAge, hsame, hstrong, and_self, if_true]
        exact h.take_first hi hsame hturn
      · simp only [cmpxchgAge, hsame, false_and, if_false]
        exact ⟨count, h.moveThief trivial (by rw [hi]; rfl)⟩
  | reading top => exact ⟨count, h.read hi⟩

theorem Holds.step {t : GenericTaskQueue τ α} {e : QueueEvent τ α} (h : s.Holds n count)
    (hgood : s.Undisturbed e) (hstep : s.step n e = some t) : ∃ count', t.Holds n count' := by
  cases e with
  | push x =>
      simp only [GenericTaskQueue.step] at hstep
      split at hstep
      · rename_i howner
        obtain rfl := Option.some.inj hstep
        exact ⟨count, h.push howner x⟩
      · cases hstep
  | popLocal threshold =>
      simp only [GenericTaskQueue.step] at hstep
      split at hstep
      · rename_i howner
        obtain rfl := Option.some.inj hstep
        exact ⟨count, h.popLocal howner threshold⟩
      · cases hstep
  | advance spurious => exact h.advance hgood hstep
  | steal i spurious =>
      obtain rfl := Option.some.inj hstep
      exact h.steal hgood

omit [Fintype τ] in
theorem new_init (n : QueueSize) (elems : Nat → α) :
    (taskQueueMachine τ α n).init (.new elems) := ⟨elems, rfl⟩

end Runs

-- With exchanges that never fail so, the owner loses 7 to a thief, resets the age
-- and writes 8 into the same slot before the thief reads it.
theorem late_read_loses : ∃ s, (taskQueueMachine (Fin 2) Nat TASKQUEUE_SIZE).Reachable s ∧
    s.accepted = [8, 7] ∧ s.returned = [8, 8] := by
  have hrun : ((taskQueueMachine (Fin 2) Nat TASKQUEUE_SIZE).run (.new fun _ => 0)
      [.push 7, .advance false, .advance false, .steal 0 false, .steal 0 false, .popLocal 0,
        .advance false, .steal 0 false, .advance false, .advance false, .advance false, .push 8,
        .advance false, .advance false, .steal 0 false, .popLocal 0, .advance false,
        .advance false, .advance false, .advance false]).map
          (fun s => (s.accepted, s.returned)) = some ([8, 7], [8, 8]) := by
    decide +kernel
  obtain ⟨s, hs, hp⟩ := Option.map_eq_some_iff.mp hrun
  obtain ⟨haccepted, hreturned⟩ := Prod.mk.inj hp
  exact ⟨s, Machine.run_reachable (Machine.Via.init (new_init _ _)) hs, haccepted, hreturned⟩

end GenericTaskQueue

end Rsgc.Sync
