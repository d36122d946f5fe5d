import Rsgc.Lib.Machine
import Rsgc.System.GcString.Calls

namespace Rsgc.System

-- The calls to one string after the other: `fromStr` goes on with a new one, and
-- `follow` says whether the run goes on with the part that `split_off` returns.
inductive StringCall
  | fromStr (string : List Char)
  | push (ch : Char)
  | pushStr (string : List Char)
  | pop
  | insert (idx : Nat) (ch : Char)
  | insertStr (idx : Nat) (string : List Char)
  | remove (idx : Nat)
  | truncate (len : Nat)
  | splitOff (at' : Nat) (follow : Bool)
  | replaceRange (start stop : Nat) (replaceWith : List Char)
  | clear
  | reserve (additional : Nat)

inductive StringAnswer
  | none
  | char (ch : Option Char)
  | string (bytes : List UInt8)
deriving DecidableEq

namespace StringCall

def perform (p : Profile) (available : Allocator) (s : GcString) :
    StringCall → Except Fault (StringAnswer × GcString)
  | fromStr string => (GcString.fromStr available string).map fun t => (.none, t)
  | push ch => (s.push available ch).map fun t => (.none, t)
  | pushStr string => (s.pushStr available string).map fun t => (.none, t)
  | pop => s.pop.map fun r => (.char r.1, r.2)
  | insert idx ch => (s.insert available idx ch).map fun t => (.none, t)
  | insertStr idx string => (s.insertStr available idx string).map fun t => (.none, t)
  | remove idx => (s.remove idx).map fun r => (.char (some r.1), r.2)
  | truncate len => .ok (.none, s.truncate len)
  | splitOff at' follow => do
      let (s, other) ← GcString.splitOff p s available at'
      let (kept, answer) := if follow then (other, s) else (s, other)
      let bytes ← answer.slice
      pure (.string bytes, kept)
  | replaceRange start stop replaceWith =>
      (GcString.replaceRange p s available start stop replaceWith).map fun t => (.none, t)
  | clear => .ok (.none, s.clear)
  | reserve additional => (s.reserve available additional).map fun t => (.none, t)

-- The same calls on the `String` of the standard library, which panics where a
-- position is not on a boundary.
def onStd (cs : List Char) : StringCall → Option (StringAnswer × List Char)
  | fromStr string => some (.none, string)
  | push ch => some (.none, cs ++ [ch])
  | pushStr string => some (.none, cs ++ string)
  | pop => some (.char cs.getLast?, cs.dropLast)
  | insert idx ch => (Utf8.splitAt cs idx).map fun r => (.none, r.1 ++ ([ch] ++ r.2))
  | insertStr idx string => (Utf8.splitAt cs idx).map fun r => (.none, r.1 ++ (string ++ r.2))
  | remove idx =>
      match Utf8.splitAt cs idx with
      | some (front, ch :: rest) => some (.char (some ch), front ++ rest)
      | _ => none
  | truncate len =>
      if (Utf8.encode cs).length < len then some (.none, cs)
      else (Utf8.splitAt cs len).map fun r => (.none, r.1)
  | splitOff at' follow => (Utf8.splitAt cs at').map fun r =>
      if follow then (.string (Utf8.encode r.1), r.2) else (.string (Utf8.encode r.2), r.1)
  | replaceRange start stop replaceWith =>
      if start ≤ stop then do
        let (front, rest) ← Utf8.splitAt cs start
        let (_, rest) ← Utf8.splitAt rest (stop - start)
        some (.none, front ++ (replaceWith ++ rest))
      else none
  | clear => some (.none, [])
  | reserve _ => some (.none, cs)

end StringCall

-- The string, the characters that it should have, and the answers of both.
structure StringRun where
  string : GcString
  model : List Char
  answers : List (StringAnswer × StringAnswer)

namespace StringRun

def step (p : Profile) (s : StringRun) (e : StringCall × Allocator) : Option StringRun := do
  let (answer, string) ← (e.1.perform p e.2 s.string).toOption
  let (expected, model) ← e.1.onStd s.model
  some ⟨string, model, (answer, expected) :: s.answers⟩

end StringRun

-- `new` is `with_capacity` of 0.
def stringMachine (p : Profile) : Machine StringRun (StringCall × Allocator) where
  init := fun s => ∃ available capacity string,
    GcString.withCapacity available capacity = .ok string ∧ s = ⟨string, [], []⟩
  step := StringRun.step p

namespace StringRun

variable {p : Profile} {s t : StringRun} {c : StringCall} {available : Allocator} {e : StringCall × Allocator}

-- The list of bytes can take so many more of them.
def HasRoomFor (s : StringRun) (additional : Nat) : Prop :=
  ArrayList.HasRoomFor s.string 1 additional

-- `truncate`, `split_off` and `replace_range` are only given positions on boundaries,
-- where they do not stop by themselves, and the list of bytes stays below 2^32. A release
-- build does not see that a position is behind the end, or a range the wrong way round.
def Fits (p : Profile) (s : StringRun) : StringCall × Allocator → Prop
  | (.fromStr string, _) => (Utf8.encode string).length < 2 ^ 32
  | (.push ch, _) => s.HasRoomFor ch.utf8Size
  | (.pushStr string, _) => s.HasRoomFor (Utf8.encode string).length
  | (.insert idx ch, _) => Utf8.IsBoundary s.model idx → s.HasRoomFor ch.utf8Size
  | (.insertStr idx string, _) =>
      Utf8.IsBoundary s.model idx → s.HasRoomFor (Utf8.encode string).length
  | (.truncate len, _) => len < s.string.len → Utf8.IsBoundary s.model len
  | (.splitOff at' _, _) =>
      (p = .release → at' ≤ s.string.len) ∧
        (at' + 1 = s.string.len → Utf8.IsBoundary s.model at')
  | (.replaceRange start stop replaceWith, _) =>
      (p = .release → start ≤ stop ∧ stop ≤ s.string.len) ∧
        (start ≤ stop → stop - start ≤ s.string.len →
          s.HasRoomFor (Utf8.encode replaceWith).length ∧
            (stop ≤ s.string.len → Utf8.IsBoundary s.model start ∧ Utf8.IsBoundary s.model stop))
  | (.reserve additional, _) => s.HasRoomFor additional
  | _ => True

-- A call that returns has done what it does in the standard library, where that does
-- not panic. Only `split_off` also stops where that returns.
def Agrees (p : Profile) (s : StringRun) (c : StringCall) (available : Allocator) : Prop :=
  match c.onStd s.model with
  | none => Stops (c.perform p available s.string)
  | some (expected, model) =>
      (Yields (c.perform p available s.string) fun r => r.1 = expected ∧ r.2.Spells model) ∨
        ∃ at' follow, c = .splitOff at' follow ∧ at' + 1 < s.string.len ∧
          Stops (c.perform p available s.string)

structure Faithful (s : StringRun) : Prop where
  spells : s.string.Spells s.model
  answers : ∀ p ∈ s.answers, p.1 = p.2

theorem agrees_of_none (hstd : c.onStd s.model = none)
    (hstops : Stops (c.perform p available s.string)) : s.Agrees p c available := by
  unfold Agrees
  rw [hstd]
  exact hstops

theorem agrees_of_some {expected : StringAnswer} {model : List Char}
    (hstd : c.onStd s.model = some (expected, model))
    (hyields : Yields (c.perform p available s.string) fun r => r.1 = expected ∧ r.2.Spells model) :
    s.Agrees p c available := by
  unfold Agrees
  rw [hstd]
  exact Or.inl hyields

theorem Stops.map {β γ : Type} {call : Except Fault β} (h : Stops call) (f : β → γ) :
    Stops (call.map f) := by
  obtain hpanic | hfail := h
  · exact Or.inl (by rw [hpanic]; rfl)
  · exact Or.inr (by rw [hfail]; rfl)

-- `insert` is `insert_str` with one character.
theorem insertStr_agrees (idx : Nat) (new : List Char) (h : s.string.Spells s.model)
    (hstd : c.onStd s.model =
      (Utf8.splitAt s.model idx).map fun r => (.none, r.1 ++ (new ++ r.2)))
    (hperform : c.perform p available s.string =
      (s.string.insertStr available idx new).map fun t => (.none, t))
    (hfits : Utf8.IsBoundary s.model idx → s.HasRoomFor (Utf8.encode new).length) :
    s.Agrees p c available := by
  cases hsplit : Utf8.splitAt s.model idx with
  | none =>
      rw [hsplit] at hstd
      apply agrees_of_none hstd
      rw [hperform, GcString.insertStr_panics h hsplit]
      exact Or.inl rfl
  | some r =>
      have hroom := hfits (Option.isSome_iff_exists.mpr ⟨_, hsplit⟩)
      rw [hsplit] at hstd
      apply agrees_of_some hstd
      rw [hperform]
      exact (GcString.insertStr_yields h hsplit hroom).map fun _ hb => ⟨rfl, hb⟩

theorem remove_agrees {idx : Nat} (h : s.string.Spells s.model) :
    s.Agrees p (.remove idx) available := by
  by_cases hchar : ∃ front ch rest, Utf8.splitAt s.model idx = some (front, ch :: rest)
  · obtain ⟨front, ch, rest, hsplit⟩ := hchar
    obtain ⟨hmodel, rfl⟩ := Utf8.splitAt_eq_some.mp hsplit
    have hspells := h
    rw [hmodel] at hspells
    obtain ⟨b, hb, hremoved⟩ := GcString.remove_eq hspells
    have hstd : StringCall.onStd s.model (.remove (Utf8.encode front).length) =
        some (.char (some ch), front ++ rest) := by
      unfold StringCall.onStd
      simp only [hsplit]
    exact agrees_of_some hstd (.map_ok hb ⟨rfl, hremoved⟩)
  · have hnone : ∀ front ch rest, Utf8.splitAt s.model idx ≠ some (front, ch :: rest) :=
      fun front ch rest hsplit => hchar ⟨front, ch, rest, hsplit⟩
    apply agrees_of_none
    · unfold StringCall.onStd
      simp only
    · exact Stops.map (Or.inl (GcString.remove_panics h hnone)) _

theorem truncate_agrees {len : Nat} (h : s.string.Spells s.model)
    (hfits : len < s.string.len → Utf8.IsBoundary s.model len) :
    s.Agrees p (.truncate len) available := by
  have hlen := h.len_eq
  rcases Nat.lt_or_ge (Utf8.encode s.model).length len with hgt | hle
  · apply agrees_of_some
    · exact if_pos hgt
    · have hsame : s.string.truncate len = s.string := if_pos (by omega)
      exact .of_ok rfl ⟨rfl, by rw [hsame]; exact h⟩
  · have hboundary : Utf8.IsBoundary s.model len := by
      rcases Nat.lt_or_ge len s.string.len with hlt | hge
      · exact hfits hlt
      · obtain rfl : len = (Utf8.encode s.model).length := by omega
        exact Utf8.isBoundary_length s.model
    obtain ⟨front, rest, hsplit, hmodel, rfl⟩ := Utf8.splitAt_of_boundary hboundary
    apply agrees_of_some
    · unfold StringCall.onStd
      simp only
      rw [if_neg (by omega), hsplit]
      rfl
    · rw [hmodel] at h
      exact .of_ok rfl ⟨rfl, GcString.truncate_spells h⟩

-- A tail of two bytes or more stops the call, whatever the standard library does.
theorem splitOff_stops {at' : Nat} {follow : Bool}
    (hstops : Stops (GcString.splitOff p s.string available at'))
    (hmany : at' + 1 < s.string.len ∨ StringCall.onStd s.model (.splitOff at' follow) = none) :
    s.Agrees p (.splitOff at' follow) available := by
  have hcall : Stops (StringCall.perform p available s.string (.splitOff at' follow)) :=
    hstops.bind _
  cases hstd : StringCall.onStd s.model (.splitOff at' follow) with
  | none => exact agrees_of_none hstd hcall
  | some r =>
      unfold Agrees
      rw [hstd]
      rcases hmany with hlt | hnone
      · exact Or.inr ⟨at', follow, rfl, hlt, hcall⟩
      · rw [hnone] at hstd
        cases hstd

theorem splitOff_agrees {at' : Nat} {follow : Bool} (h : s.string.Spells s.model)
    (hfits : s.Fits p (.splitOff at' follow, available)) :
    s.Agrees p (.splitOff at' follow) available := by
  have hlen := h.len_eq
  obtain ⟨hinside, hboundary⟩ := hfits
  rcases Nat.lt_or_ge (Utf8.encode s.model).length at' with hgt | hle
  · cases p with
    | release => exact absurd (hinside rfl) (by omega)
    | debug =>
        apply splitOff_stops (Or.inl (ArrayList.splitOff_panics h hgt))
        apply Or.inr
        unfold StringCall.onStd
        simp only [Utf8.splitAt_none_of_gt hgt, Option.map_none]
  · rcases Nat.lt_or_ge (at' + 1) s.string.len with hmany | hfew
    · exact splitOff_stops (ArrayList.splitOff_stops h (by omega)) (Or.inl hmany)
    · have hboundary : Utf8.IsBoundary s.model at' := by
        rcases Nat.eq_or_lt_of_le hle with rfl | hlt
        · exact Utf8.isBoundary_length s.model
        · exact hboundary (by omega)
      obtain ⟨front, rest, hsplit, hmodel, rfl⟩ := Utf8.splitAt_of_boundary hboundary
      have hstd : StringCall.onStd s.model (.splitOff (Utf8.encode front).length follow) =
          some (if follow then (.string (Utf8.encode front), rest)
            else (.string (Utf8.encode rest), front)) := by
        unfold StringCall.onStd
        simp only [hsplit, Option.map_some]
      rw [hmodel] at h
      have hyields := GcString.splitOff_yields p available h hfew
      cases follow with
      | true =>
          apply agrees_of_some hstd
          apply hyields.bind
          rintro ⟨b, other⟩ ⟨hb, hother⟩
          simp only [if_true]
          rw [ArrayList.slice_eq hb]
          exact .pure ⟨rfl, hother⟩
      | false =>
          apply agrees_of_some hstd
          apply hyields.bind
          rintro ⟨b, other⟩ ⟨hb, hother⟩
          simp only [Bool.false_eq_true, if_false]
          rw [ArrayList.slice_eq hother]
          exact .pure ⟨rfl, hb⟩

-- A range that is not one of the string panics in the standard library.
theorem replaceRange_onStd {start stop : Nat} {cs new : List Char}
    (hout : stop < start ∨ (Utf8.encode cs).length < stop) :
    StringCall.onStd cs (.replaceRange start stop new) = none := by
  unfold StringCall.onStd
  simp only
  split
  · rename_i hle
    cases hsplit : Utf8.splitAt cs start with
    | none => rfl
    | some r =>
        obtain ⟨hmodel, hfront⟩ := Utf8.splitAt_eq_some.mp hsplit
        have hlength := congrArg (fun cs => (Utf8.encode cs).length) hmodel
        simp only [Utf8.encode_append, List.length_append] at hlength
        simp only [Option.bind_eq_bind, Option.bind_some,
          Utf8.splitAt_none_of_gt (show (Utf8.encode r.2).length < stop - start by omega),
          Option.bind_none]
  · rfl

theorem replaceRange_agrees {start stop : Nat} {new : List Char} (h : s.string.Spells s.model)
    (hfits : s.Fits p (.replaceRange start stop new, available)) :
    s.Agrees p (.replaceRange start stop new) available := by
  have hlen := h.len_eq
  obtain ⟨hinside, hfits⟩ := hfits
  by_cases hin : start ≤ stop ∧ stop ≤ s.string.len
  · obtain ⟨hle, hstop⟩ := hin
    obtain ⟨hroom, hboundaries⟩ := hfits hle (by omega)
    obtain ⟨hfirst, hsecond⟩ := hboundaries hstop
    obtain ⟨front, mid, rest, hmodel, rfl, hmid⟩ := Utf8.exists_between hfirst hsecond hle
    obtain rfl : stop = (Utf8.encode front).length + (Utf8.encode mid).length := by omega
    have hstd : StringCall.onStd s.model (.replaceRange (Utf8.encode front).length
        ((Utf8.encode front).length + (Utf8.encode mid).length) new) =
          some (.none, front ++ (new ++ rest)) := by
      unfold StringCall.onStd
      simp only [if_pos hle, hmodel, Utf8.splitAt_encode, Nat.add_sub_cancel_left,
        Option.bind_eq_bind, Option.bind_some]
    rw [hmodel] at h
    exact agrees_of_some hstd ((GcString.replaceRange_yields p h hroom).map fun _ hb => ⟨rfl, hb⟩)
  · cases p with
    | release => exact absurd (hinside rfl) hin
    | debug =>
        have hout : stop < start ∨ s.string.len < stop := by omega
        have hstops := GcString.replaceRange_stops available h
          (fun hle hlt => (hfits hle hlt).1) hout
        exact agrees_of_none (replaceRange_onStd (by omega)) (Stops.map hstops _)

theorem agrees (h : s.string.Spells s.model) (hfits : s.Fits p (c, available)) :
    s.Agrees p c available := by
  cases c with
  | fromStr string =>
      exact Or.inl ((GcString.fromStr_yields hfits).map fun _ hb => ⟨rfl, hb⟩)
  | push ch => exact Or.inl ((GcString.push_yields h hfits).map fun _ hb => ⟨rfl, hb⟩)
  | pushStr string => exact Or.inl ((GcString.pushStr_yields h hfits).map fun _ hb => ⟨rfl, hb⟩)
  | pop =>
      obtain ⟨b, hb, hspells⟩ := GcString.pop_eq h
      exact Or.inl (.map_ok hb ⟨rfl, hspells⟩)
  | insert idx ch =>
      apply insertStr_agrees idx [ch] h rfl
      · exact congrArg (Except.map _) (GcString.insert_eq _ _ _ _)
      · rw [Utf8.encode_singleton, String.length_utf8EncodeChar]
        exact hfits
  | insertStr idx string => exact insertStr_agrees idx string h rfl rfl hfits
  | remove idx => exact remove_agrees h
  | truncate len => exact truncate_agrees h hfits
  | splitOff at' follow => exact splitOff_agrees h hfits
  | replaceRange start stop replaceWith => exact replaceRange_agrees h hfits
  | clear =>
      have hnone : s.string.Spells ([] ++ s.model) := h
      exact Or.inl (.of_ok rfl ⟨rfl, GcString.truncate_spells hnone⟩)
  | reserve additional =>
      exact Or.inl ((GcString.reserve_yields h hfits).map fun _ hb => ⟨rfl, hb⟩)

theorem Faithful.step (h : s.Faithful) (hfits : s.Fits p e) (hstep : s.step p e = some t) :
    t.Faithful := by
  obtain ⟨⟨answer, string⟩, hperform, hrest⟩ := Option.bind_eq_some_iff.mp hstep
  obtain ⟨⟨expected, model⟩, hstd, ht⟩ := Option.bind_eq_some_iff.mp hrest
  obtain rfl := Option.some.inj ht
  have hok := Except.toOption_eq_some.mp hperform
  have hagrees := agrees h.spells hfits
  unfold Agrees at hagrees
  rw [hstd, hok] at hagrees
  rcases hagrees with (hfail | ⟨r, hr, hanswer, hspells⟩) | ⟨_, _, _, _, hpanic | hfail⟩
  · cases hfail
  · obtain rfl := Except.ok.inj hr
    refine ⟨hspells, fun p hp => ?_⟩
    rcases List.mem_cons.mp hp with rfl | hp
    · exact hanswer
    · exact h.answers p hp
  · cases hpanic
  · cases hfail

-- As long as the calls that do not look at the boundaries are given some, the string
-- is the one of the standard library, and its bytes are valid.
theorem string_refines (hs : (stringMachine p).Via (Fits p) s) :
    s.Faithful ∧ ∀ c available, s.Fits p (c, available) → s.Agrees p c available := by
  have h : s.Faithful := by
    refine Machine.Via.invariant (P := Faithful) (fun s hinit => ?_)
      (fun s e t h hgood hstep => h.step hgood hstep) hs
    obtain ⟨available, capacity, string, hnew, rfl⟩ := hinit
    obtain hfail | ⟨b, hb, hdenotes, _⟩ :=
      ArrayList.withCapacity_yields (α := UInt8) available capacity
    · have hsame : ArrayList.withCapacity available capacity = .ok string := hnew
      rw [hsame] at hfail
      cases hfail
    · obtain rfl := Except.ok.inj (hnew.symm.trans hb)
      exact ⟨hdenotes, by simp⟩
  exact ⟨h, fun c available hfits => agrees h.spells hfits⟩

instance (s : StringRun) (additional : Nat) : Decidable (s.HasRoomFor additional) :=
  inferInstanceAs (Decidable (ArrayList.HasRoomFor _ _ _))

instance (p : Profile) (s : StringRun) : (e : StringCall × Allocator) → Decidable (s.Fits p e)
  | (.fromStr _, _) => inferInstanceAs (Decidable (_ < _))
  | (.push _, _) | (.pushStr _, _) | (.reserve _, _) =>
      inferInstanceAs (Decidable (s.HasRoomFor _))
  | (.insert _ _, _) | (.insertStr _ _, _) =>
      inferInstanceAs (Decidable (Utf8.IsBoundary _ _ → s.HasRoomFor _))
  | (.truncate _, _) => inferInstanceAs (Decidable (_ < _ → Utf8.IsBoundary _ _))
  | (.splitOff _ _, _) => inferInstanceAs (Decidable ((_ = _ → _ ≤ _) ∧
      (_ = _ → Utf8.IsBoundary _ _)))
  | (.replaceRange _ _ _, _) => inferInstanceAs (Decidable ((_ = _ → _ ≤ _ ∧ _ ≤ _) ∧
      (_ ≤ _ → _ ≤ _ →
        s.HasRoomFor _ ∧ (_ ≤ _ → Utf8.IsBoundary _ _ ∧ Utf8.IsBoundary _ _))))
  | (.pop, _) | (.remove _, _) | (.clear, _) => inferInstanceAs (Decidable True)

def emptyString : StringRun := ⟨⟨0, 0, 0, fun _ => none⟩, [], []⟩

theorem emptyString_init : (stringMachine p).init emptyString :=
  ⟨anyMemory, 0, emptyString.string, rfl, rfl⟩

-- Characters of one to four bytes are inserted, replaced and taken away.
theorem string_refines_mixed : ∃ s, (stringMachine .release).Via (Fits .release) s ∧ s.model = ['z', '😀', 'a'] ∧
    s.Faithful ∧ ∀ c available, s.Fits .release (c, available) → s.Agrees .release c available := by
  have hrun : ((stringMachine .release).runVia (Fits .release) emptyString
      (([.push 'é', .pushStr ['a', '€', 'b'], .insert 2 '😀', .insertStr 0 ['x', 'y'],
        .remove 2, .reserve 9, .replaceRange 1 2 ['z', 'ü'], .truncate 9, .pop, .push 'b',
        .splitOff 8 false, .splitOff 8 true, .insertStr 0 ['z', '😀'], .push 'a'] :
          List StringCall).map fun c => (c, anyMemory))).map (fun s => s.model) = some ['z', '😀', 'a'] := by decide +kernel
  obtain ⟨s, hs, hmodel⟩ := Option.map_eq_some_iff.mp hrun
  have hvia := Machine.via_of_runVia (Machine.Via.init emptyString_init) hs
  exact ⟨s, hvia, hmodel, string_refines hvia⟩

-- Half of the only character is cut off, and what is left encodes nothing.
theorem truncate_splits_character : ∃ s, (stringMachine .debug).Reachable s ∧
    (StringCall.truncate 1).onStd s.model = none ∧
      ∃ t, (StringCall.truncate 1).perform .debug anyMemory s.string = .ok (.none, t) ∧
        t.slice = .ok [0xc3] ∧ ∀ cs, Utf8.encode cs ≠ [0xc3] := by
  have hrun : ((stringMachine .debug).run emptyString [(.push 'é', anyMemory)]).map
      (fun s => (s.model, (s.string.truncate 1).slice.toOption)) =
        some (['é'], some [0xc3]) := by decide +kernel
  obtain ⟨s, hs, heq⟩ := Option.map_eq_some_iff.mp hrun
  obtain ⟨hmodel, hslice⟩ := Prod.mk.inj heq
  have hreachable := Machine.run_reachable (Machine.Via.init emptyString_init) hs
  refine ⟨s, hreachable, ?_, _, rfl, Except.toOption_eq_some.mp hslice, fun cs hcs => ?_⟩
  · rw [hmodel]
    decide +kernel
  · have hdecode := Utf8.decode_encode cs
    have hnone : Utf8.decode [0xc3] = none := by decide +kernel
    rw [hcs, hnone] at hdecode
    cases hdecode

end StringRun

end Rsgc.System
