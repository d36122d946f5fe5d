import Rsgc.Storage.ObjStorage

namespace Rsgc.Storage

-- In the part of `release_entries` that puts the block on the deferred list.
def StoragePlace.queues : StoragePlace → Nat → Bool
  | checking block, b | linking block, b | loading block, b | storing block _, b
  | pushing block _, b => block = b
  | _, _ => false

namespace ObjStorage

variable {τ : Type*} [DecidableEq τ]

-- All that a thread can do in one step.
inductive Move (s : ObjStorage τ) (t : τ) : ObjStorage τ → Prop
  | allocate {request : EntryRequest} (ht : s.place t = .idle) (hfree : s.owner = none) :
      Move s t { s.goto t (.choosing request) with owner := some t }
  | release {block index : Nat} (ht : s.place t = .idle)
      (hheld : (s.held block).getLsbD index = true) :
      Move s t { s.goto t (.clearing block (BitVec.twoPow 64 index)) with
        held := Function.update s.held block (s.held block ^^^ BitVec.twoPow 64 index) }
  | beginOne {block : Nat} (ht : s.place t = .choosing .one) (hhead : s.list.head = some block)
      (hlt : (~~~s.mask block).ctz.toNat < 64) :
      Move s t (s.goto t (.taking block (~~~s.mask block).ctz.toNat))
  | beginMany {size block : Nat} {list : AllocationList} (ht : s.place t = .choosing (.many size))
      (hhead : s.list.head = some block) (hunlink : s.list.unlink block = some list) :
      Move s t { s.goto t (.takingAll block (~~~s.mask block) size) with list := list }
  | pop {request : EntryRequest} {block : Nat}
      (ht : (s.place t = .choosing request ∧ s.list.head = none) ∨
        ∃ old tail, s.place t = .exchanging request old tail)
      (hdeferred : s.deferred = some block) : Move s t (s.goto t (.popping request block))
  | giveUp {request : EntryRequest}
      (ht : s.place t = .choosing request ∨ ∃ old tail, s.place t = .exchanging request old tail) :
      Move s t { s.goto t (.adding request) with owner := none }
  | readTail {request : EntryRequest} {block : Nat} (ht : s.place t = .popping request block) :
      Move s t (s.goto t (.exchanging request block (s.afterDeferred block)))
  | exchange {request : EntryRequest} {block : Nat} {tail : Option Nat}
      (ht : s.place t = .exchanging request block tail) (hdeferred : s.deferred = some block) :
      Move s t { s.goto t (.popped request block) with deferred := tail }
  | detach {request : EntryRequest} {block : Nat} (ht : s.place t = .popped request block) :
      Move s t ((s.goto t (.judging request block)).link block none)
  | judge {request : EntryRequest} {block : Nat} {list : AllocationList}
      (ht : s.place t = .judging request block) (hjudge : s.judge block = some list) :
      Move s t { s.goto t (.choosing request) with list := list }
  | addBlock {request : EntryRequest} (ht : s.place t = .adding request) (hfree : s.owner = none) :
      Move s t (s.addBlock t request)
  | take {block index : Nat} (ht : s.place t = .taking block index) :
      Move s t { s.goto t (.taken block index) with
        mask := Function.update s.mask block (s.mask block + BitVec.twoPow 64 index) }
  | finishFull {block index : Nat} {list : AllocationList} (ht : s.place t = .taken block index)
      (hfull : s.mask block = BitVec.allOnes 64) (hunlink : s.list.unlink block = some list) :
      Move s t (s.finish t block index list)
  | finish {block index : Nat} (ht : s.place t = .taken block index)
      (hfull : s.mask block ≠ BitVec.allOnes 64) : Move s t (s.finish t block index s.list)
  | takeAll {block size : Nat} {new : BitVec 64} (ht : s.place t = .takingAll block new size) :
      Move s t (s.takeAll t block new size)
  | clear {block : Nat} {releasing : BitVec 64} (ht : s.place t = .clearing block releasing) :
      Move s t (s.clear t block releasing)
  | skip {block : Nat} (ht : s.place t = .checking block) (hlinked : s.deferredNext block ≠ none) :
      Move s t (s.goto t .idle)
  | check {block : Nat} (ht : s.place t = .checking block) (hfree : s.deferredNext block = none) :
      Move s t (s.goto t (.linking block))
  | link {block : Nat} (ht : s.place t = .linking block) :
      Move s t ((s.goto t (.loading block)).link block (some block))
  | load {block : Nat}
      (ht : s.place t = .loading block ∨ ∃ head, s.place t = .pushing block head) :
      Move s t (s.goto t (.storing block s.deferred))
  | store {block : Nat} {head : Option Nat} (ht : s.place t = .storing block head) :
      Move s t ((s.goto t (.pushing block head)).link block (some (head.getD block)))
  | push {block : Nat} {head : Option Nat} (ht : s.place t = .pushing block head)
      (hdeferred : s.deferred = head) :
      Move s t { s.goto t .idle with deferred := some block }

variable {s u : ObjStorage τ} {t : τ} {request : EntryRequest}

-- The steps that go right: a block from the deferred list has no link left from the
-- allocation list, or is in it and not empty; nobody else has linked the block since it was
-- checked; and no entry of the block was released since its free entries were read, or the
-- block is on the deferred list or on the way there.
def SmoothAt (s : ObjStorage τ) : StoragePlace → Prop
  | .judging _ block => s.list.next block = none ∨ block ∈ s.listed ∧ s.mask block ≠ 0
  | .linking block => s.deferredNext block = none
  | .takingAll block new _ =>
      new = ~~~s.mask block ∨ block ∈ s.queued ∨ ∃ v, (s.place v).queues block = true
  | _ => True

def Fits (s : ObjStorage τ) : StorageEvent τ → Prop
  | .go t => s.SmoothAt (s.place t)
  | _ => True

end ObjStorage

end Rsgc.Storage
