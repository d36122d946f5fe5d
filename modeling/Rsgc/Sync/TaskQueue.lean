import Mathlib.Algebra.Order.Group.Multiset
import Rsgc.Lib.Census
import Rsgc.Lib.Machine
import Rsgc.Lib.Ring

namespace Rsgc.Sync

-- The capacity of a queue. Indices are masked, so it is a power of two, and an
-- index has to fit in the `Idx` of an age.
structure QueueSize where
  size : Nat
  log : Nat
  size_eq : size = 2 ^ log
  log_pos : 0 < log
  log_le : log ≤ 32

def TASKQUEUE_SIZE : QueueSize := ⟨131072, 17, by decide, by decide, by decide⟩

-- The number of values of an `Idx`.
def idxRange : Nat := 2 ^ 32

-- The tag is the lower half of `epoch`: how often it was incremented is not in
-- the source.
structure Age where
  top : Nat
  epoch : Nat
deriving DecidableEq, Repr

namespace Age

def tag (a : Age) : Nat := a.epoch % idxRange

-- `Age::new_flags`, for a tag that is incremented `more` times
def newFlags (top : Nat) (old : Age) (more : Nat) : Age := ⟨top % idxRange, old.epoch + more⟩

-- `==` on the whole words
def SameData (a b : Age) : Prop := a.top = b.top ∧ a.tag = b.tag

instance (a b : Age) : Decidable (a.SameData b) := inferInstanceAs (Decidable (_ ∧ _))

end Age

namespace QueueSize

variable (n : QueueSize)

-- "This is two less than the actual queue size, so that a full queue can be
-- distinguished from underflow involving pop_local and concurrent pop_global"
def maxElems : Nat := n.size - 2

def dirtySize (bot top : Nat) : Nat := (bot + 2 ^ 64 - top) % 2 ^ 64 &&& (n.size - 1)

def cleanSize (bot top : Nat) : Nat :=
  if n.dirtySize bot top = n.size - 1 then 0 else n.dirtySize bot top

def incrementIndex (index : Nat) : Nat := (index + 1) &&& (n.size - 1)

def decrementIndex (index : Nat) : Nat := (index + 2 ^ 64 - 1) % 2 ^ 64 &&& (n.size - 1)

end QueueSize

-- The owner between two accesses to the queue. In `push` it is about to write the
-- element at `bot` or to set the bottom behind it. In `pop_local` it is about to
-- set the bottom to `bot` or to look at the top; in `pop_local_slow` to look at
-- the age, to exchange it or to store the new one.
inductive Owner (α : Type*)
  | idle
  | writing (x : α) (bot : Nat)
  | publishing (x : α) (bot : Nat)
  | lowering (bot : Nat)
  | lookingTop (bot : Nat)
  | lookingAge (bot : Nat)
  | claiming (bot : Nat) (oldAge : Age)
  | resetting (bot : Nat) (oldAge : Age)
  | panicked

-- A thief in `pop_global`: it has seen the age, has found an element above the
-- bottom, or has exchanged the age and is about to read the element.
inductive Thief
  | idle
  | sawAge (oldAge : Age)
  | sawBottom (oldAge : Age)
  | reading (top : Nat)
deriving DecidableEq, Repr

-- The elements that `push` accepted and that were returned are not in the source.
structure GenericTaskQueue (τ α : Type*) where
  bottom : Nat
  age : Age
  elems : Nat → α
  owner : Owner α
  thief : τ → Thief
  accepted : List α
  returned : List α

-- `advance` and `steal` are the next access of the owner and of a thief. A weak
-- exchange may fail although it finds the expected value.
inductive QueueEvent (τ α : Type*)
  | push (x : α)
  | popLocal (threshold : Nat)
  | advance (spurious : Bool)
  | steal (i : τ) (spurious : Bool)

namespace GenericTaskQueue

variable {τ α : Type*}

-- The memory of the elements is not initialized.
def new (elems : Nat → α) : GenericTaskQueue τ α :=
  ⟨0, ⟨0, 0⟩, elems, .idle, fun _ => .idle, [], []⟩

variable [DecidableEq τ]

def goto (s : GenericTaskQueue τ α) (i : τ) (x : Thief) : GenericTaskQueue τ α :=
  { s with thief := Function.update s.thief i x }

-- `cmpxchg_age`: the value that is read back and the queue after the exchange
def cmpxchgAge (s : GenericTaskQueue τ α) (oldAge newAge : Age) (spurious : Bool) :
    Age × GenericTaskQueue τ α :=
  (s.age, if s.age.SameData oldAge ∧ spurious = false then { s with age := newAge } else s)

-- `push` up to the write of the element, with its assertions.
def push (n : QueueSize) (s : GenericTaskQueue τ α) (x : α) : GenericTaskQueue τ α :=
  let dirty := n.dirtySize s.bottom s.age.top
  if s.bottom < n.size ∧ dirty ≤ n.maxElems then
    if dirty < n.maxElems then { s with owner := .writing x s.bottom } else s
  else { s with owner := .panicked }

-- `pop_local` up to the write of the bottom.
def popLocal (n : QueueSize) (s : GenericTaskQueue τ α) (threshold : Nat) :
    GenericTaskQueue τ α :=
  if n.dirtySize s.bottom s.age.top ≤ threshold then s
  else { s with owner := .lowering (n.decrementIndex s.bottom) }

-- The age that `pop_local_slow` installs.
def emptyAge (bot : Nat) (oldAge : Age) : Age := .newFlags bot oldAge 1

-- The age that `pop_global` installs.
def stolenAge (n : QueueSize) (oldAge : Age) : Age :=
  let newTop := n.incrementIndex oldAge.top
  .newFlags newTop oldAge (if newTop = 0 then 1 else 0)

def finish (s : GenericTaskQueue τ α) (result : Option α) : GenericTaskQueue τ α :=
  { s with owner := .idle, returned := result.toList ++ s.returned }

-- Only the owner writes elements, so its own reads take place with the access
-- before.
def advance (n : QueueSize) (s : GenericTaskQueue τ α) (spurious : Bool) :
    Option (GenericTaskQueue τ α) :=
  match s.owner with
  | .idle | .panicked => none
  | .writing x bot =>
      some { s with elems := Function.update s.elems bot x, owner := .publishing x bot }
  | .publishing x bot =>
      some { s with bottom := n.incrementIndex bot, owner := .idle, accepted := x :: s.accepted }
  | .lowering bot => some { s with bottom := bot, owner := .lookingTop bot }
  | .lookingTop bot =>
      if 0 < n.cleanSize bot s.age.top then some (s.finish (some (s.elems bot)))
      else some { s with owner := .lookingAge bot }
  | .lookingAge bot =>
      if bot = s.age.top then some { s with owner := .claiming bot s.age }
      else some { s with owner := .resetting bot s.age }
  | .claiming bot oldAge =>
      let (tempAge, s) := s.cmpxchgAge oldAge (emptyAge bot oldAge) spurious
      if tempAge.SameData oldAge then some (s.finish (some (s.elems bot)))
      else some { s with owner := .resetting bot oldAge }
  | .resetting bot oldAge => some ({ s with age := emptyAge bot oldAge }.finish none)

def steal (n : QueueSize) (s : GenericTaskQueue τ α) (i : τ) (spurious : Bool) :
    GenericTaskQueue τ α :=
  match s.thief i with
  | .idle => s.goto i (.sawAge s.age)
  | .sawAge oldAge =>
      if n.cleanSize s.bottom oldAge.top = 0 then s.goto i .idle else s.goto i (.sawBottom oldAge)
  | .sawBottom oldAge =>
      let (resAge, s) := s.cmpxchgAge oldAge (stolenAge n oldAge) spurious
      if resAge.SameData oldAge then s.goto i (.reading oldAge.top) else s.goto i .idle
  | .reading top => { s.goto i .idle with returned := s.elems top :: s.returned }

def step (n : QueueSize) (s : GenericTaskQueue τ α) : QueueEvent τ α → Option (GenericTaskQueue τ α)
  | .push x =>
      match s.owner with
      | .idle => some (s.push n x)
      | _ => none
  | .popLocal threshold =>
      match s.owner with
      | .idle => some (s.popLocal n threshold)
      | _ => none
  | .advance spurious => s.advance n spurious
  | .steal i spurious => some (s.steal n i spurious)

end GenericTaskQueue

def taskQueueMachine (τ α : Type*) [DecidableEq τ] (n : QueueSize) :
    Machine (GenericTaskQueue τ α) (QueueEvent τ α) where
  init s := ∃ elems, s = .new elems
  step := GenericTaskQueue.step n

namespace QueueSize

variable (n : QueueSize)

theorem size_ge : 2 ≤ n.size := by
  rw [n.size_eq]
  calc
    2 = 2 ^ 1 := rfl
    _ ≤ 2 ^ n.log := Nat.pow_le_pow_right Nat.two_pos n.log_pos

theorem size_le : n.size ≤ idxRange := by
  rw [n.size_eq]
  exact Nat.pow_le_pow_right Nat.two_pos n.log_le

theorem and_mask (x : Nat) : x &&& (n.size - 1) = x % n.size := by
  rw [n.size_eq, Nat.and_two_pow_sub_one_eq_mod]

theorem word_mod (x : Nat) : x % 2 ^ 64 % n.size = x % n.size := by
  apply Nat.mod_mod_of_dvd
  rw [n.size_eq]
  exact Nat.pow_dvd_pow 2 (n.log_le.trans (by decide))

theorem incrementIndex_eq (index : Nat) : n.incrementIndex index = (index + 1) % n.size :=
  n.and_mask _

theorem sub_mod_word {a b d : Nat} (hb : b < n.size) (h : a % n.size = (b + d) % n.size) :
    (a + 2 ^ 64 - b) % n.size = d % n.size := by
  have hword : 2 ^ 64 % n.size = 0 := by
    rw [← n.word_mod, Nat.mod_self, Nat.zero_mod]
  have hle := n.size_le
  unfold idxRange at hle
  have hback : (b + (a + 2 ^ 64 - b)) % n.size = (b + d) % n.size := by
    have hsum : b + (a + 2 ^ 64 - b) = a + 2 ^ 64 := by omega
    rw [hsum, Nat.add_mod, hword, Nat.add_zero, Nat.mod_mod, h]
  exact Nat.ModEq.add_left_cancel' b hback

theorem decrementIndex_eq (index : Nat) :
    n.decrementIndex index = (index + (n.size - 1)) % n.size := by
  have hge := n.size_ge
  unfold decrementIndex
  rw [n.and_mask, n.word_mod]
  apply n.sub_mod_word (by omega)
  have hsum : 1 + (index + (n.size - 1)) = index + n.size := by omega
  rw [hsum, Nat.add_mod_right]

theorem dirtySize_eq {bot top d : Nat} (htop : top < n.size) (hd : d < n.size)
    (hbot : bot = (top + d) % n.size) : n.dirtySize bot top = d := by
  unfold dirtySize
  rw [n.and_mask, n.word_mod, n.sub_mod_word (d := d) htop, Nat.mod_eq_of_lt hd]
  rw [hbot, Nat.mod_mod]

theorem cleanSize_eq {bot top d : Nat} (htop : top < n.size) (hd : d + 1 < n.size)
    (hbot : bot = (top + d) % n.size) : n.cleanSize bot top = d := by
  unfold cleanSize
  rw [n.dirtySize_eq htop (by omega) hbot, if_neg (by omega)]

-- One below the bottom of `d` elements.
theorem cleanSize_below {bot top d : Nat} (htop : top < n.size) (hd : d + 1 < n.size)
    (hbot : bot = (top + d + (n.size - 1)) % n.size) : n.cleanSize bot top = d - 1 := by
  have hge := n.size_ge
  by_cases hzero : d = 0
  · subst hzero
    unfold cleanSize
    rw [n.dirtySize_eq htop (d := n.size - 1) (by omega) hbot, if_pos rfl]
  · apply n.cleanSize_eq htop (by omega)
    have hsum : top + d + (n.size - 1) = top + (d - 1) + n.size := by omega
    rw [hbot, hsum, Nat.add_mod_right]

end QueueSize

end Rsgc.Sync
