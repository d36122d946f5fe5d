import Rsgc.Lib.Utf8
import Rsgc.System.ArrayList

namespace Rsgc.System

-- A `Str`: its `length` field, and the bytes behind the header, of which memory was asked
-- for `allocated`. A `str` is the list of its characters.
structure Str where
  length : Nat
  allocated : Nat
  data : Slots UInt8

namespace Str

-- The `length` field has 32 bits; an addition that overflows panics.
def new (available : Allocator) (init : List Char) : Except Fault Str := do
  let bytes := Utf8.encode init
  ensure (available (bytes.length + 1) = true) Fault.outOfMemory
  ensure (bytes.length % 2 ^ 32 + 1 < 2 ^ 32) Fault.panic
  let data := Slots.fill (fun _ => none) 0 bytes
  pure ⟨bytes.length % 2 ^ 32 + 1, bytes.length + 1,
    Function.update data bytes.length (some 0)⟩

def len (s : Str) : Nat := s.length

def isEmpty (s : Str) : Bool := s.length = 0

def readByte (s : Str) (slot : Nat) : Except Fault UInt8 := do
  ensure (slot < s.allocated) Fault.access
  match s.data slot with
  | some b => pure b
  | none => throw .access

-- `from_utf8_unchecked` of the slice of `length` bytes
def deref (s : Str) : Except Fault (List Char) := do
  let bytes ← (List.range s.length).mapM s.readByte
  match Utf8.decode bytes with
  | some cs => pure cs
  | none => throw .access

-- `PartialEq<str>`
def eqStr (s : Str) (other : List Char) : Except Fault Bool := do
  let cs ← s.deref
  pure (cs = other)

-- `PartialEq`
def eq (s other : Str) : Except Fault Bool := do
  let cs ← s.deref
  let cs' ← other.deref
  pure (cs = cs')

-- `hashStr` is what a `str` does to the state of a hasher.
def hash {σ : Type} (s : Str) (hashStr : List Char → σ → σ) (state : σ) : Except Fault σ := do
  let cs ← s.deref
  pure (hashStr cs state)

-- The heap string is seen as these characters.
structure Shows (s : Str) (cs : List Char) : Prop where
  deref : s.deref = .ok cs
  len : s.len = (Utf8.encode cs).length
  isEmpty : s.isEmpty = true ↔ cs = []
  eqStr : ∀ other, s.eqStr other = .ok (cs = other : Bool)
  hash : ∀ (σ : Type) (hashStr : List Char → σ → σ) (state : σ),
    s.hash hashStr state = .ok (hashStr cs state)

-- Fewer than `u32::MAX` bytes.
def Short (cs : List Char) : Prop := (Utf8.encode cs).length < 2 ^ 32 - 1

instance (cs : List Char) : Decidable (Short cs) := Nat.decLt _ _

-- Two of these are equal where the strings are.
def Compares (s : Str) (available : Allocator) (cs : List Char) : Prop :=
  ∀ cs' other, Short cs' → new available cs' = .ok other → s.eq other = .ok (cs = cs' : Bool)

-- What `Str::new` is to give: the string itself.
def RoundTrips (available : Allocator) (cs : List Char) : Prop :=
  ∃ s, new available cs = .ok s ∧ s.Shows cs ∧ s.Compares available cs

def terminator : Char := Char.ofNat 0

variable {available : Allocator} {cs : List Char} {s : Str}

theorem encode_terminated (cs : List Char) :
    Utf8.encode (cs ++ [terminator]) = Utf8.encode cs ++ [0] := by
  rw [Utf8.encode_append, Utf8.encode_singleton]
  rfl

theorem Shows.of_deref (hderef : s.deref = .ok cs)
    (hlen : s.length = (Utf8.encode cs).length) : s.Shows cs := by
  refine ⟨hderef, hlen, ?_, fun other => ?_, fun σ hashStr state => ?_⟩
  · unfold Str.isEmpty
    rw [decide_eq_true_eq, hlen]
    constructor
    · exact Utf8.eq_nil_of_length_encode cs
    · rintro rfl
      rfl
  · unfold Str.eqStr
    rw [hderef, Except.ok_bind]
    rfl
  · unfold Str.hash
    rw [hderef, Except.ok_bind]
    rfl

theorem Shows.unique {cs' : List Char} (h : s.Shows cs) (h' : s.Shows cs') : cs = cs' :=
  Except.ok.inj (h.deref.symm.trans h'.deref)

theorem Shows.eq {other : Str} {cs' : List Char} (h : s.Shows cs) (h' : other.Shows cs') :
    s.eq other = .ok (cs = cs' : Bool) := by
  unfold Str.eq
  rw [h.deref, Except.ok_bind, h'.deref, Except.ok_bind]
  rfl

theorem readByte_eq {slot : Nat} {b : UInt8} (hslot : slot < s.allocated)
    (hvalue : s.data slot = some b) : s.readByte slot = .ok b := by
  unfold readByte
  rw [ensure_bind hslot, hvalue]
  rfl

theorem deref_eq (hlen : s.length = (Utf8.encode cs).length) (hroom : s.length ≤ s.allocated)
    (hdata : s.data.HoldsAt 0 (Utf8.encode cs)) : s.deref = .ok cs := by
  have hread : ∀ i b, (Utf8.encode cs)[i]? = some b → s.readByte i = .ok b := by
    intro i b hb
    have hlt := (List.getElem?_eq_some_iff.mp hb).1
    have hslot := hdata i b hb
    rw [Nat.zero_add] at hslot
    exact readByte_eq (by omega) hslot
  unfold deref
  rw [hlen, Except.mapM_range_ok hread, Except.ok_bind, Utf8.decode_encode]
  rfl

-- The length counts the terminator, which is the last character then.
theorem new_shows (hshort : Short cs) (hnew : new available cs = .ok s) :
    s.Shows (cs ++ [terminator]) := by
  unfold Short at hshort
  obtain ⟨_, _, hlength⟩ := Except.bind_eq_ok.mp hnew
  obtain ⟨_, _, hs⟩ := Except.bind_eq_ok.mp hlength
  have hencode := encode_terminated cs
  have hdata := (Slots.fill_holdsAt (fun _ => none) 0 (Utf8.encode cs)).push (x := 0)
  rw [Nat.zero_add, ← hencode] at hdata
  have hmod := Nat.mod_eq_of_lt (show (Utf8.encode cs).length < 2 ^ 32 by omega)
  have hlen : s.length = (Utf8.encode (cs ++ [terminator])).length := by
    rw [← Except.pure_eq_ok.mp hs, hencode, List.length_append, List.length_singleton]
    exact congrArg (· + 1) hmod
  have hroom : s.length ≤ s.allocated := by
    rw [← Except.pure_eq_ok.mp hs]
    exact Nat.add_le_add_right (Nat.mod_le _ _) 1
  refine Shows.of_deref (deref_eq hlen hroom ?_) hlen
  rw [← Except.pure_eq_ok.mp hs]
  exact hdata

theorem new_eq (hshort : Short cs) (havailable : available ((Utf8.encode cs).length + 1) = true) :
    ∃ s, new available cs = .ok s := by
  unfold Short at hshort
  have hmod := Nat.mod_eq_of_lt (show (Utf8.encode cs).length < 2 ^ 32 by omega)
  unfold new
  simp only [ensure_bind havailable, hmod]
  rw [ensure_bind (by omega)]
  exact ⟨_, rfl⟩

-- Strings are equal where they are with their terminators.
theorem new_compares (hshort : Short cs) (hnew : new available cs = .ok s) :
    s.Compares available cs := by
  intro cs' other hshort' hother
  rw [(new_shows hshort hnew).eq (new_shows hshort' hother)]
  simp only [List.append_cancel_right_eq]

-- No string comes back: each is seen with its terminator. Only the comparison of two such
-- strings is that of the strings themselves.
theorem str_keeps_terminator (available : Allocator) (hshort : Short cs) :
    ¬RoundTrips available cs ∧
      (available ((Utf8.encode cs).length + 1) = true →
        ∃ s, new available cs = .ok s ∧ s.Shows (cs ++ [terminator]) ∧
          s.Compares available cs) := by
  refine ⟨?_, fun havailable => ?_⟩
  · rintro ⟨s, hnew, hshows, _⟩
    have hsame := hshows.unique (new_shows hshort hnew)
    simp at hsame
  · obtain ⟨s, hnew⟩ := new_eq hshort havailable
    exact ⟨s, hnew, new_shows hshort hnew, new_compares hshort hnew⟩

theorem str_keeps_terminator_two : ¬RoundTrips anyMemory ['h', 'é'] ∧
    ∃ s, new anyMemory ['h', 'é'] = .ok s ∧ s.Shows (['h', 'é'] ++ [terminator]) ∧
      s.Compares anyMemory ['h', 'é'] := by
  have hshort : Short ['h', 'é'] := by decide +kernel
  obtain ⟨hnot, hshows⟩ := str_keeps_terminator anyMemory hshort
  exact ⟨hnot, hshows rfl⟩

-- The empty string is not empty.
theorem empty_str_not_empty : ∃ s, new anyMemory [] = .ok s ∧ s.len = 1 ∧ s.isEmpty = false ∧
    s.deref = .ok [terminator] ∧ s.eqStr [] = .ok false ∧ ¬RoundTrips anyMemory [] := by
  have hnew : new anyMemory [] = .ok _ := rfl
  have hshows : Shows _ [terminator] := new_shows (by decide) hnew
  refine ⟨_, hnew, rfl, rfl, hshows.deref, hshows.eqStr [], ?_⟩
  rintro ⟨s, hs, hempty, _⟩
  obtain rfl := Except.ok.inj (hnew.symm.trans hs)
  cases hshows.unique hempty

end Str

end Rsgc.System
