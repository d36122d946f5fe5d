import Rsgc.System.ArrayList.SplitOff
import Rsgc.System.GcString

namespace Rsgc.System.GcString

open RawArray

variable {s : GcString} {cs front rest : List Char} {l : List UInt8} {available : Allocator}
  {idx : Nat}

-- The bytes are those of the characters, and so valid.
def Spells (s : GcString) (cs : List Char) : Prop := RawArray.Denotes s (Utf8.encode cs)

theorem Spells.asStr (h : s.Spells cs) : s.asStr = .ok cs := by
  unfold GcString.asStr
  rw [ArrayList.slice_eq h, Except.ok_bind, Utf8.decode_encode]
  rfl

theorem pushBytes_yields {bytes : List UInt8} (h : RawArray.Denotes s l)
    (hroom : ArrayList.HasRoomFor s 1 bytes.length) :
    Yields (pushBytes available s bytes) fun b => RawArray.Denotes b (l ++ bytes) := by
  induction bytes generalizing s l with
  | nil =>
      unfold pushBytes
      rw [List.append_nil]
      exact .pure h
  | cons byte bytes ih =>
      obtain ⟨hfits, hnext⟩ := hroom.next h
      unfold pushBytes
      apply (ArrayList.push_yields h hfits).bind
      rintro b ⟨hdenotes, hcap⟩
      have hlen : b.len = s.len + 1 := by
        rw [hdenotes.len_eq, h.len_eq, List.length_append, List.length_singleton]
      have hall := ih hdenotes (hnext b hlen hcap)
      rwa [List.append_assoc, List.singleton_append] at hall

theorem pushStr_yields {new : List Char} (h : s.Spells cs)
    (hroom : ArrayList.HasRoomFor s 1 (Utf8.encode new).length) :
    Yields (s.pushStr available new) fun b => b.Spells (cs ++ new) := by
  unfold pushStr Spells
  rw [Utf8.encode_append]
  exact pushBytes_yields h hroom

theorem push_yields {ch : Char} (h : s.Spells cs)
    (hroom : ArrayList.HasRoomFor s 1 ch.utf8Size) :
    Yields (s.push available ch) fun b => b.Spells (cs ++ [ch]) := by
  have hsize := String.length_utf8EncodeChar ch
  unfold GcString.push Spells
  rw [Utf8.encode_append, Utf8.encode_singleton]
  split
  · rename_i hone
    rw [hone] at hroom
    rw [String.utf8EncodeChar_eq_singleton hone]
    exact (ArrayList.push_yields h (hroom.next h).1).mono fun _ hpost => hpost.1
  · rw [← hsize] at hroom
    exact pushBytes_yields h hroom

theorem fromStr_yields (hlt : (Utf8.encode cs).length < 2 ^ 32) :
    Yields (fromStr available cs) fun b => b.Spells cs := by
  unfold fromStr withCapacity
  apply (ArrayList.withCapacity_yields available _).bind
  rintro b ⟨hdenotes, hcap⟩
  rw [Nat.mod_eq_of_lt hlt] at hcap
  have hlen := hdenotes.len_eq
  exact pushBytes_yields hdenotes fun hmore => absurd hmore (by rw [hcap, hlen]; simp)

theorem truncate_spells (h : s.Spells (front ++ rest)) :
    (s.truncate (Utf8.encode front).length).Spells front := by
  have htake := ArrayList.truncate_denotes h (Utf8.encode front).length
  rwa [Utf8.encode_append, List.take_left] at htake

theorem pop_eq (h : s.Spells cs) : ∃ b, s.pop = .ok (cs.getLast?, b) ∧ b.Spells cs.dropLast := by
  unfold GcString.pop
  rw [h.asStr, Except.ok_bind]
  rcases List.eq_nil_or_concat' cs with rfl | ⟨front, last, rfl⟩
  · exact ⟨s, rfl, h⟩
  · have hlen := h.len_eq
    have hsize := String.length_utf8EncodeChar last
    have htake := h.take (Utf8.encode front).length
    rw [Utf8.encode_append, List.take_left] at htake
    rw [Utf8.encode_append, Utf8.encode_singleton, List.length_append, hsize] at hlen
    rw [List.getLast?_concat, List.dropLast_concat]
    simp only
    rw [hlen, Nat.add_sub_cancel]
    exact ⟨_, rfl, htake⟩

theorem Spells.parts {mid : List Char} (h : s.Spells (front ++ (mid ++ rest))) :
    RawArray.Denotes s (Utf8.encode front ++ Utf8.encode mid ++ Utf8.encode rest) := by
  unfold Spells at h
  rwa [Utf8.encode_append, Utf8.encode_append, ← List.append_assoc] at h

theorem remove_eq {ch : Char} (h : s.Spells (front ++ ch :: rest)) :
    ∃ b, s.remove (Utf8.encode front).length = .ok (ch, b) ∧ b.Spells (front ++ rest) := by
  have hsize := String.length_utf8EncodeChar ch
  have hparts := Spells.parts (show s.Spells (front ++ ([ch] ++ rest)) from h)
  have hlen := hparts.len_eq
  obtain ⟨b, hb, hdenotes⟩ := ArrayList.cut_eq hparts
  rw [Utf8.encode_singleton] at hlen hb
  rw [List.length_append, List.length_append, hsize] at hlen
  rw [hsize] at hb
  have hrest : s.len - ((Utf8.encode front).length + ch.utf8Size) = (Utf8.encode rest).length := by
    omega
  have hkept : s.len - ((Utf8.encode front).length + ch.utf8Size - (Utf8.encode front).length) =
      (Utf8.encode front ++ Utf8.encode rest).length := by
    rw [List.length_append]
    omega
  unfold GcString.remove
  rw [h.asStr, Except.ok_bind, Utf8.splitAt_encode]
  simp only
  rw [hrest, hkept, hb]
  refine ⟨_, rfl, ?_⟩
  unfold Spells
  rwa [Utf8.encode_append]

-- Nothing but a character on a boundary can be removed.
theorem remove_panics (h : s.Spells cs)
    (hnone : ∀ front ch rest, Utf8.splitAt cs idx ≠ some (front, ch :: rest)) :
    s.remove idx = .error .panic := by
  unfold GcString.remove
  rw [h.asStr, Except.ok_bind]
  cases hsplit : Utf8.splitAt cs idx with
  | none => rfl
  | some r =>
      obtain ⟨front, rest⟩ := r
      cases rest with
      | nil => rfl
      | cons ch rest => exact absurd hsplit (hnone front ch rest)

-- A gap is made, or closed up to the new size, and filled.
theorem replace_yields (available : Allocator) (new : List Char) {mid : List Char}
    (h : s.Spells (front ++ (mid ++ rest)))
    (hroom : ArrayList.HasRoomFor s 1 (Utf8.encode new).length) :
    Yields (do
      let s ← s.reserve available (Utf8.encode new).length
      let s ← s.copy ((Utf8.encode front).length + (Utf8.encode mid).length)
        ((Utf8.encode front).length + (Utf8.encode new).length) (Utf8.encode rest).length
      let s ← s.fill (Utf8.encode front).length (Utf8.encode new)
      pure (s.setLen ((Utf8.encode front).length + (Utf8.encode rest).length +
        (Utf8.encode new).length))) fun b => Spells b (front ++ (new ++ rest)) := by
  have hparts := h.parts
  have hlen := hparts.len_eq
  rw [List.length_append, List.length_append] at hlen
  unfold ArrayList.HasRoomFor at hroom
  rw [hparts.len_eq] at hroom
  unfold reserve
  apply (ArrayList.reserve_yields _ hparts hroom).bind
  rintro a ⟨hdenotes, hle⟩
  rw [List.length_append, List.length_append] at hle
  have hnew : (Utf8.encode front ++ Utf8.encode new ++ Utf8.encode rest).length =
      (Utf8.encode front).length + (Utf8.encode rest).length + (Utf8.encode new).length := by
    rw [List.length_append, List.length_append]
    omega
  obtain ⟨b, c, hb, hc, hspliced⟩ := ArrayList.splice_eq (Utf8.encode new) hdenotes (by omega)
  rw [hb, Except.ok_bind, hc, Except.ok_bind, ← hnew]
  refine .pure ?_
  unfold Spells
  rwa [Utf8.encode_append, Utf8.encode_append, ← List.append_assoc]

theorem insertBytes_yields {new : List Char} (h : s.Spells (front ++ rest))
    (hroom : ArrayList.HasRoomFor s 1 (Utf8.encode new).length) :
    Yields (s.insertBytes available (Utf8.encode front).length (Utf8.encode new)) fun b =>
      b.Spells (front ++ (new ++ rest)) := by
  have hlen := h.len_eq
  have hgap : s.Spells (front ++ ([] ++ rest)) := h
  have hreplace := replace_yields available new hgap hroom
  rw [Utf8.encode_append, List.length_append] at hlen
  have hrest : s.len - (Utf8.encode front).length = (Utf8.encode rest).length := by omega
  unfold insertBytes
  simp only
  rw [hrest, hlen]
  exact hreplace

theorem replaceRange_yields (p : Profile) {mid new : List Char} (h : s.Spells (front ++ (mid ++ rest)))
    (hroom : ArrayList.HasRoomFor s 1 (Utf8.encode new).length) :
    Yields (replaceRange p s available (Utf8.encode front).length
      ((Utf8.encode front).length + (Utf8.encode mid).length) new) fun b =>
        b.Spells (front ++ (new ++ rest)) := by
  have hlen := h.len_eq
  have hsmall := h.len_small
  have hreplace := replace_yields available new h hroom
  rw [Utf8.encode_append, Utf8.encode_append, List.length_append, List.length_append] at hlen
  have hkept : s.len - (Utf8.encode mid).length =
      (Utf8.encode front).length + (Utf8.encode rest).length := by omega
  have hrest : s.len - ((Utf8.encode front).length + (Utf8.encode mid).length) =
      (Utf8.encode rest).length := by omega
  unfold replaceRange
  simp only
  rw [plainSub_eq p (by omega) (by omega), Except.ok_bind, Nat.add_sub_cancel_left,
    plainSub_eq p (by omega) (by omega), Except.ok_bind, hkept,
    plainSub_eq p (by omega) (by omega), hrest]
  exact hreplace

-- A range that is not one of the string is caught by the subtractions of a debug build.
theorem replaceRange_stops (available : Allocator) {start stop : Nat} {new : List Char}
    (h : s.Spells cs)
    (hroom : start ≤ stop → stop - start ≤ s.len →
      ArrayList.HasRoomFor s 1 (Utf8.encode new).length)
    (hout : stop < start ∨ s.len < stop) :
    Stops (replaceRange .debug s available start stop new) := by
  unfold replaceRange
  simp only
  obtain hpanic | ⟨hge, hreplaced⟩ := plainSub_debug stop start
  · exact Or.inl (by rw [hpanic, Except.error_bind])
  · rw [hreplaced, Except.ok_bind]
    obtain hpanic | ⟨hge', hkept⟩ := plainSub_debug s.len (stop - start)
    · exact Or.inl (by rw [hpanic, Except.error_bind])
    · have hfits := hroom hge hge'
      unfold ArrayList.HasRoomFor at hfits
      rw [h.len_eq] at hfits
      rw [hkept, Except.ok_bind]
      unfold reserve
      apply (ArrayList.reserve_yields _ h hfits).bind_stops
      intro b _
      obtain hpanic | ⟨hle, _⟩ := plainSub_debug s.len stop
      · exact Or.inl (by rw [hpanic, Except.error_bind])
      · omega

theorem insert_eq (s : GcString) (available : Allocator) (idx : Nat) (ch : Char) :
    s.insert available idx ch = s.insertStr available idx [ch] := by
  unfold GcString.insert insertStr
  rw [Utf8.encode_singleton]

theorem insertStr_yields {new : List Char} (h : s.Spells cs)
    (hsplit : Utf8.splitAt cs idx = some (front, rest))
    (hroom : ArrayList.HasRoomFor s 1 (Utf8.encode new).length) :
    Yields (s.insertStr available idx new) fun b => b.Spells (front ++ (new ++ rest)) := by
  have hboundary : Utf8.IsBoundary cs idx := Option.isSome_iff_exists.mpr ⟨_, hsplit⟩
  obtain ⟨rfl, rfl⟩ := Utf8.splitAt_eq_some.mp hsplit
  unfold insertStr
  rw [h.asStr, Except.ok_bind, ensure_bind hboundary]
  exact insertBytes_yields h hroom

theorem insertStr_panics {new : List Char} (h : s.Spells cs)
    (hnone : Utf8.splitAt cs idx = none) : s.insertStr available idx new = .error .panic := by
  unfold insertStr
  rw [h.asStr, Except.ok_bind]
  apply ensure_bind_error
  unfold Utf8.IsBoundary
  rw [hnone]
  exact Bool.false_ne_true

theorem reserve_yields {additional : Nat} (h : s.Spells cs)
    (hroom : ArrayList.HasRoomFor s 1 additional) :
    Yields (s.reserve available additional) fun b => b.Spells cs := by
  unfold ArrayList.HasRoomFor at hroom
  rw [h.len_eq] at hroom
  exact (ArrayList.reserve_yields _ h hroom).mono fun _ hpost => hpost.1

theorem splitOff_yields (p : Profile) (available : Allocator) (h : s.Spells (front ++ rest))
    (hlast : s.len ≤ (Utf8.encode front).length + 1) :
    Yields (splitOff p s available (Utf8.encode front).length) fun r =>
      r.1.Spells front ∧ r.2.Spells rest := by
  rw [h.len_eq] at hlast
  have hle : (Utf8.encode front).length ≤ (Utf8.encode (front ++ rest)).length := by
    rw [Utf8.encode_append, List.length_append]
    omega
  apply (ArrayList.splitOff_yields h hle hlast).mono
  rintro ⟨b, other⟩ ⟨hb, hother⟩
  rw [Utf8.encode_append, List.take_left] at hb
  rw [Utf8.encode_append, List.drop_left] at hother
  exact ⟨hb, hother⟩

end Rsgc.System.GcString
