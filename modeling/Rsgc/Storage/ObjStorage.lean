import Rsgc.Lib.Linked
import Rsgc.Lib.Machine

namespace Rsgc.Storage

-- `allocate`, or `allocaten` for so many pointers.
inductive EntryRequest
  | one
  | many (size : Nat)
deriving DecidableEq, Repr

-- Blocks are numbered in the order in which they are made. `prev` and `next` are the links
-- of their entries in the list.
structure AllocationList where
  head : Option Nat
  tail : Option Nat
  prev : Nat → Option Nat
  next : Nat → Option Nat

namespace AllocationList

def pushFront (l : AllocationList) (block : Nat) : AllocationList :=
  match l.head with
  | none => { l with head := some block, tail := some block }
  | some old =>
      { l with
        head := some block
        next := Function.update l.next block (some old)
        prev := Function.update l.prev old (some block) }

def pushBack (l : AllocationList) (block : Nat) : AllocationList :=
  match l.tail with
  | none => { l with head := some block, tail := some block }
  | some old =>
      { l with
        tail := some block
        prev := Function.update l.prev block (some old)
        next := Function.update l.next old (some block) }

-- The links of the block itself stay. An assertion that fails gives `none`.
def unlink (l : AllocationList) (block : Nat) : Option AllocationList :=
  match l.prev block, l.next block with
  | none, none =>
      if l.head = some block ∧ l.tail = some block then some { l with head := none, tail := none }
      else none
  | none, some next =>
      if l.head = some block then
        some { l with head := some next, prev := Function.update l.prev next none }
      else none
  | some prev, none =>
      if l.tail = some block then
        some { l with tail := some prev, next := Function.update l.next prev none }
      else none
  | some prev, some next =>
      some { l with
        next := Function.update l.next prev (some next)
        prev := Function.update l.prev next (some prev) }

def contains (l : AllocationList) (block : Nat) : Bool :=
  (l.next block).isSome || l.tail = some block

end AllocationList

-- Where a thread is: between two places there is one access to something shared, and what
-- it does besides before the next one.
inductive StoragePlace
  | idle
  -- with the mutex, in `block_for_allocation` and in `reduce_deferred_updates`
  | choosing (request : EntryRequest)
  | popping (request : EntryRequest) (block : Nat)
  | exchanging (request : EntryRequest) (block : Nat) (tail : Option Nat)
  | popped (request : EntryRequest) (block : Nat)
  | judging (request : EntryRequest) (block : Nat)
  -- without it, in `try_add_block`
  | adding (request : EntryRequest)
  -- with it, with a block for the allocation
  | taking (block index : Nat)
  | taken (block index : Nat)
  | takingAll (block : Nat) (new : BitVec 64) (size : Nat)
  -- in `release_entries`
  | clearing (block : Nat) (releasing : BitVec 64)
  | checking (block : Nat)
  | linking (block : Nat)
  | loading (block : Nat)
  | storing (block : Nat) (head : Option Nat)
  | pushing (block : Nat) (head : Option Nat)
deriving DecidableEq, Repr

-- `mask` and `deferredNext` are fields of the blocks; `held` are the entries that were
-- returned to callers and that no `release` was called for.
structure ObjStorage (τ : Type*) where
  created : Nat
  mask : Nat → BitVec 64
  list : AllocationList
  deferredNext : Nat → Option Nat
  deferred : Option Nat
  owner : Option τ
  held : Nat → BitVec 64
  place : τ → StoragePlace

-- `fail` is a weak exchange that fails without a reason.
inductive StorageEvent (τ : Type*)
  | allocate (t : τ) (request : EntryRequest)
  | release (t : τ) (block index : Nat)
  | go (t : τ)
  | fail (t : τ)
deriving DecidableEq

namespace ObjStorage

def new (τ : Type*) : ObjStorage τ where
  created := 0
  mask := fun _ => 0
  list := ⟨none, none, fun _ => none, fun _ => none⟩
  deferredNext := fun _ => none
  deferred := none
  owner := none
  held := fun _ => 0
  place := fun _ => .idle

-- What is left of the entries when the lowest `limit` of them are handed out.
def handOut : Nat → BitVec 64 → BitVec 64
  | 0, taken => taken
  | limit + 1, taken =>
      if taken = 0 then 0
      else handOut limit (taken ^^^ BitVec.twoPow 64 taken.ctz.toNat)

variable {τ : Type*} [DecidableEq τ]

def goto (s : ObjStorage τ) (t : τ) (place : StoragePlace) : ObjStorage τ :=
  { s with place := Function.update s.place t place }

-- The end of the deferred list points to itself.
def afterDeferred (s : ObjStorage τ) (block : Nat) : Option Nat :=
  if s.deferredNext block = some block then none else s.deferredNext block

-- The blocks of the allocation list, and those of the deferred list.
def listed (s : ObjStorage τ) : List Nat := Path.walk s.list.next s.created s.list.head

def queued (s : ObjStorage τ) : List Nat := Path.walk s.afterDeferred s.created s.deferred

-- What is done with the first block of the list. Without a free entry the check of its
-- index fails.
def begin (s : ObjStorage τ) (t : τ) (block : Nat) : EntryRequest → Option (ObjStorage τ)
  | .one =>
      let index := (~~~s.mask block).ctz.toNat
      if index < 64 then some (s.goto t (.taking block index)) else none
  | .many size =>
      (s.list.unlink block).map fun list =>
        { s.goto t (.takingAll block (~~~s.mask block) size) with list := list }

-- Without a deferred block the mutex is given up for a new one.
def popDeferred (s : ObjStorage τ) (t : τ) (request : EntryRequest) : ObjStorage τ :=
  match s.deferred with
  | none => { s.goto t (.adding request) with owner := none }
  | some block => s.goto t (.popping request block)

def choose (s : ObjStorage τ) (t : τ) (request : EntryRequest) : Option (ObjStorage τ) :=
  match s.list.head with
  | some block => s.begin t block request
  | none => some (s.popDeferred t request)

def exchange (s : ObjStorage τ) (t : τ) (request : EntryRequest) (block : Nat)
    (tail : Option Nat) : ObjStorage τ :=
  if s.deferred = some block then { s.goto t (.popped request block) with deferred := tail }
  else s.popDeferred t request

-- What `reduce_deferred_updates` does with the block that it has popped.
def judge (s : ObjStorage τ) (block : Nat) : Option AllocationList :=
  if s.mask block = BitVec.allOnes 64 then
    if s.list.contains block then none else some s.list
  else if s.list.contains block then
    if s.mask block = 0 then (s.list.unlink block).map fun list => list.pushBack block
    else some s.list
  else if s.mask block = 0 then some (s.list.pushBack block)
  else some (s.list.pushFront block)

def addBlock (s : ObjStorage τ) (t : τ) (request : EntryRequest) : ObjStorage τ :=
  { s.goto t (.choosing request) with
    created := s.created + 1
    mask := Function.update s.mask s.created 0
    list := AllocationList.pushBack { s.list with
      prev := Function.update s.list.prev s.created none
      next := Function.update s.list.next s.created none } s.created
    deferredNext := Function.update s.deferredNext s.created none
    owner := some t }

-- The entry is returned, and the mutex given up.
def finish (s : ObjStorage τ) (t : τ) (block index : Nat) (list : AllocationList) :
    ObjStorage τ :=
  { s.goto t .idle with
    list := list
    owner := none
    held := Function.update s.held block (s.held block ||| BitVec.twoPow 64 index) }

-- All free entries are taken, the mutex is given up, and those that were not asked for are
-- released. The pointers are the caller's from here on.
def takeAll (s : ObjStorage τ) (t : τ) (block : Nat) (new : BitVec 64) (size : Nat) :
    ObjStorage τ :=
  let rest := handOut size new
  { s.goto t (if rest = 0 then .idle else .clearing block rest) with
    mask := Function.update s.mask block (s.mask block + new)
    owner := none
    held := Function.update s.held block (s.held block ||| (new ^^^ rest)) }

-- The loop that ends with the exchange of the bitmask.
def clear (s : ObjStorage τ) (t : τ) (block : Nat) (releasing : BitVec 64) : ObjStorage τ :=
  let old := s.mask block
  { s.goto t (if releasing = old ∨ old = BitVec.allOnes 64 then .checking block else .idle) with
    mask := Function.update s.mask block (old ^^^ releasing) }

def link (s : ObjStorage τ) (block : Nat) (next : Option Nat) : ObjStorage τ :=
  { s with deferredNext := Function.update s.deferredNext block next }

def push (s : ObjStorage τ) (t : τ) (block : Nat) (head : Option Nat) : ObjStorage τ :=
  if s.deferred = head then { s.goto t .idle with deferred := some block }
  else s.goto t (.storing block s.deferred)

def go (s : ObjStorage τ) (t : τ) : Option (ObjStorage τ) :=
  match s.place t with
  | .idle => none
  | .choosing request => s.choose t request
  | .popping request block =>
      some (s.goto t (.exchanging request block (s.afterDeferred block)))
  | .exchanging request block tail => some (s.exchange t request block tail)
  | .popped request block => some ((s.goto t (.judging request block)).link block none)
  | .judging request block =>
      (s.judge block).map fun list => { s.goto t (.choosing request) with list := list }
  | .adding request => if s.owner = none then some (s.addBlock t request) else none
  | .taking block index =>
      some { s.goto t (.taken block index) with
        mask := Function.update s.mask block (s.mask block + BitVec.twoPow 64 index) }
  | .taken block index =>
      if s.mask block = BitVec.allOnes 64 then (s.list.unlink block).map (s.finish t block index)
      else some (s.finish t block index s.list)
  | .takingAll block new size => some (s.takeAll t block new size)
  | .clearing block releasing => some (s.clear t block releasing)
  | .checking block =>
      some (s.goto t (if s.deferredNext block = none then .linking block else .idle))
  | .linking block => some ((s.goto t (.loading block)).link block (some block))
  | .loading block => some (s.goto t (.storing block s.deferred))
  | .storing block head =>
      some ((s.goto t (.pushing block head)).link block (some (head.getD block)))
  | .pushing block head => some (s.push t block head)

def step (s : ObjStorage τ) : StorageEvent τ → Option (ObjStorage τ)
  | .allocate t request =>
      if s.place t = .idle ∧ s.owner = none then
        some { s.goto t (.choosing request) with owner := some t }
      else none
  | .release t block index =>
      if s.place t = .idle ∧ (s.held block).getLsbD index = true then
        some { s.goto t (.clearing block (BitVec.twoPow 64 index)) with
          held := Function.update s.held block (s.held block ^^^ BitVec.twoPow 64 index) }
      else none
  | .go t => s.go t
  | .fail t =>
      match s.place t with
      | .pushing block _ => some (s.goto t (.storing block s.deferred))
      | _ => none

end ObjStorage

end Rsgc.Storage
