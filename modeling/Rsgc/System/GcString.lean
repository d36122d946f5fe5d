import Rsgc.Lib.Utf8
import Rsgc.System.ArrayList

namespace Rsgc.System

-- The `String` on the heap: an array list of bytes.
abbrev GcString := ArrayList UInt8

namespace GcString

-- The characters of the `str` that a string stands for. With bytes that encode none it
-- must not be used.
def asStr (s : GcString) : Except Fault (List Char) := do
  let bytes ← s.slice
  match Utf8.decode bytes with
  | some cs => pure cs
  | none => throw .access

def new (available : Allocator) : Except Fault GcString := ArrayList.withCapacity available 0

def withCapacity (available : Allocator) (capacity : Nat) : Except Fault GcString :=
  ArrayList.withCapacity available capacity

def pushBytes (available : Allocator) (s : GcString) : List UInt8 → Except Fault GcString
  | [] => pure s
  | b :: bytes => do
      let s ← s.push 1 available b
      pushBytes available s bytes

-- `ArrayList::with` pushes what it is given into a list of that capacity.
def fromStr (available : Allocator) (cs : List Char) : Except Fault GcString := do
  let s ← withCapacity available (Utf8.encode cs).length
  pushBytes available s (Utf8.encode cs)

def push (s : GcString) (available : Allocator) (ch : Char) : Except Fault GcString :=
  if ch.utf8Size = 1 then ArrayList.push s 1 available ch.toUInt8
  else pushBytes available s (String.utf8EncodeChar ch)

def pushStr (s : GcString) (available : Allocator) (cs : List Char) : Except Fault GcString :=
  pushBytes available s (Utf8.encode cs)

def clear (s : GcString) : GcString := s.truncate 0

def truncate (s : GcString) (len : Nat) : GcString := ArrayList.truncate s len

def reserve (s : GcString) (available : Allocator) (additional : Nat) : Except Fault GcString :=
  ArrayList.reserve s 1 available additional

def pop (s : GcString) : Except Fault (Option Char × GcString) := do
  let cs ← s.asStr
  match cs.getLast? with
  | none => pure (none, s)
  | some ch => pure (some ch, s.setLen (s.len - ch.utf8Size))

def remove (s : GcString) (idx : Nat) : Except Fault (Char × GcString) := do
  let cs ← s.asStr
  match Utf8.splitAt cs idx with
  | none | some (_, []) => throw .panic
  | some (_, ch :: _) =>
      let next := idx + ch.utf8Size
      let len := s.len
      let s ← s.copy next idx (len - next)
      pure (ch, s.setLen (len - (next - idx)))

def insertBytes (s : GcString) (available : Allocator) (idx : Nat) (bytes : List UInt8) :
    Except Fault GcString := do
  let len := s.len
  let amt := bytes.length
  let s ← s.reserve available amt
  let s ← s.copy idx (idx + amt) (len - idx)
  let s ← s.fill idx bytes
  pure (s.setLen (len + amt))

def insert (s : GcString) (available : Allocator) (idx : Nat) (ch : Char) :
    Except Fault GcString := do
  let cs ← s.asStr
  ensure (Utf8.IsBoundary cs idx) Fault.panic
  s.insertBytes available idx (String.utf8EncodeChar ch)

def insertStr (s : GcString) (available : Allocator) (idx : Nat) (string : List Char) :
    Except Fault GcString := do
  let cs ← s.asStr
  ensure (Utf8.IsBoundary cs idx) Fault.panic
  s.insertBytes available idx (Utf8.encode string)

def splitOff (p : Profile) (s : GcString) (available : Allocator) (at' : Nat) :
    Except Fault (GcString × GcString) :=
  ArrayList.splitOff p s 1 available at'

def replaceRange (p : Profile) (s : GcString) (available : Allocator) (start stop : Nat)
    (replaceWith : List Char) : Except Fault GcString := do
  let bytes := Utf8.encode replaceWith
  let amt := bytes.length
  let oldLen := s.len
  let replaced ← plainSub p stop start
  let kept ← plainSub p oldLen replaced
  let newLen := kept + amt
  let s ← s.reserve available amt
  let rest ← plainSub p oldLen stop
  let s ← s.copy stop (start + amt) rest
  let s ← s.fill start bytes
  pure (s.setLen newLen)

end GcString

end Rsgc.System
