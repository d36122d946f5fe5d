import Rsgc.Lib.Machine
import Rsgc.System.ArrayList.Growth
import Rsgc.System.ArrayList.InPlace

namespace Rsgc.System

inductive ArrayListCall (α : Type)
  | push (val : α)
  | pop
  | get (idx : Nat)
  | set (idx : Nat) (val : α)
  | remove (idx : Nat)
  | swapRemove (idx : Nat)
  | truncate (len : Nat)
  | resize (newLen : Nat) (value : α)
  | retain (f : List α → α → Bool)
  | retainMut (f : ArrayList.Closure α)
  | reverseInPlace

namespace ArrayListCall

variable {α : Type}

-- The answer and the new list.
def perform (elemSize : Nat) (available : Allocator) (a : ArrayList α) :
    ArrayListCall α → Except Fault (Option α × ArrayList α)
  | push val => (a.push elemSize available val).map fun b => (none, b)
  | pop => a.pop
  | get idx => (a.get idx).map fun x => (x, a)
  | set idx val => a.set idx val
  | remove idx => a.remove idx
  | swapRemove idx => (a.swapRemove idx).map fun r => (some r.1, r.2)
  | truncate len => .ok (none, a.truncate len)
  | resize newLen value => (a.resize elemSize available newLen value).map fun b => (none, b)
  | retain f => (a.retain elemSize f).map fun b => (none, b)
  | retainMut f => (a.retainMut elemSize f).map fun b => (none, b)
  | reverseInPlace => a.reverseInPlace.map fun b => (none, b)

-- The same on a list. Only `swap_remove` may panic.
def onList (l : List α) : ArrayListCall α → Option (Option α × List α)
  | push val => some (none, l ++ [val])
  | pop => some (l.getLast?, l.dropLast)
  | get idx => some (l[idx]?, l)
  | set idx val => some (l[idx]?, l.set idx val)
  | remove idx => some (l[idx]?, l.eraseIdx idx)
  | swapRemove idx => do
      let x ← l[idx]?
      let last ← l.getLast?
      some (some x, (l.set idx last).dropLast)
  | truncate len => some (none, l.take len)
  | resize newLen value => some (none, l.take newLen ++ List.replicate (newLen - l.length) value)
  | retain f => some (none, ArrayList.retained (fun seen x => (x, f seen x)) [] l)
  | retainMut f => some (none, ArrayList.retained f [] l)
  | reverseInPlace => some (none, l.reverse)

end ArrayListCall

-- The array list, the list that it should be, and the answers of both.
structure ArrayListRun (α : Type) where
  list : ArrayList α
  model : List α
  answers : List (Option α × Option α)

namespace ArrayListRun

variable {α : Type}

def step (elemSize : Nat) (s : ArrayListRun α) (e : ArrayListCall α × Allocator) :
    Option (ArrayListRun α) := do
  let (answer, list) ← (e.1.perform elemSize e.2 s.list).toOption
  let (expected, model) ← e.1.onList s.model
  some ⟨list, model, (answer, expected) :: s.answers⟩

end ArrayListRun

def arrayListMachine (α : Type) (elemSize : Nat) :
    Machine (ArrayListRun α) (ArrayListCall α × Allocator) where
  init := fun s => ∃ available capacity list,
    ArrayList.withCapacity available capacity = .ok list ∧ s = ⟨list, [], []⟩
  step := ArrayListRun.step elemSize

namespace ArrayListRun

variable {α : Type} {s t : ArrayListRun α} {elemSize : Nat} {available : Allocator}
  {c : ArrayListCall α} {e : ArrayListCall α × Allocator}

-- No array of 2^32 elements or more is asked for when the list grows.
def Fits (elemSize : Nat) (s : ArrayListRun α) : ArrayListCall α × Allocator → Prop
  | (.push _, _) => s.list.len = s.list.cap → nextCapacity elemSize s.list.cap < 2 ^ 32
  | (.resize newLen _, _) =>
      s.list.cap < newLen → s.list.grownCapacity elemSize newLen < 2 ^ 32
  | _ => True

-- The call does what it does on lists: it ends in a panic there or not at all.
def Agrees (elemSize : Nat) (s : ArrayListRun α) (c : ArrayListCall α) (available : Allocator) :
    Prop :=
  match c.onList s.model with
  | none => c.perform elemSize available s.list = .error .panic
  | some (expected, model) =>
      Yields (c.perform elemSize available s.list) fun r => r.1 = expected ∧ r.2.Denotes model

structure Faithful (s : ArrayListRun α) : Prop where
  denotes : s.list.Denotes s.model
  answers : ∀ p ∈ s.answers, p.1 = p.2

theorem agrees (hsize : 0 < elemSize) (h : s.list.Denotes s.model)
    (hfits : s.Fits elemSize (c, available)) : s.Agrees elemSize c available := by
  cases c with
  | push val =>
      exact (ArrayList.push_yields h hfits).map fun _ hpost => ⟨rfl, hpost.1⟩
  | pop =>
      obtain ⟨b, hb, hdenotes⟩ := ArrayList.pop_eq h
      exact .of_ok hb ⟨rfl, hdenotes⟩
  | get idx => exact .map_ok (ArrayList.get_eq h idx) ⟨rfl, h⟩
  | set idx val =>
      obtain ⟨b, hb, hdenotes⟩ := ArrayList.set_eq h idx val
      exact .of_ok hb ⟨rfl, hdenotes⟩
  | remove idx =>
      obtain ⟨b, hb, hdenotes⟩ := ArrayList.remove_eq h idx
      exact .of_ok hb ⟨rfl, hdenotes⟩
  | swapRemove idx =>
      unfold Agrees
      rcases Nat.lt_or_ge idx s.model.length with hlt | hge
      · have hx : s.model[idx]? = some _ := List.getElem?_eq_getElem hlt
        have hlast : s.model.getLast? = some _ :=
          List.getLast?_eq_some_getLast (List.ne_nil_of_length_pos (by omega))
        obtain ⟨b, hb, hdenotes⟩ := ArrayList.swapRemove_eq h hx hlast
        simp only [ArrayListCall.onList, hx, hlast, Option.bind_eq_bind, Option.bind_some]
        exact .map_ok hb ⟨rfl, hdenotes⟩
      · have hpanic := ArrayList.swapRemove_panics h hge
        simp only [ArrayListCall.onList, List.getElem?_eq_none hge, Option.bind_eq_bind,
          Option.bind_none]
        unfold ArrayListCall.perform
        simp only [hpanic]
        rfl
  | truncate len => exact .of_ok rfl ⟨rfl, ArrayList.truncate_denotes h len⟩
  | resize newLen value => exact (ArrayList.resize_yields h hfits).map fun _ hpost => ⟨rfl, hpost⟩
  | retain f =>
      obtain ⟨b, hb, hdenotes⟩ := ArrayList.retainMut_eq (fun seen x => (x, f seen x)) h hsize
      exact .map_ok hb ⟨rfl, hdenotes⟩
  | retainMut f =>
      obtain ⟨b, hb, hdenotes⟩ := ArrayList.retainMut_eq f h hsize
      exact .map_ok hb ⟨rfl, hdenotes⟩
  | reverseInPlace =>
      obtain ⟨b, hb, hdenotes⟩ := ArrayList.reverseInPlace_eq h
      exact .map_ok hb ⟨rfl, hdenotes⟩

theorem Faithful.step (hsize : 0 < elemSize) (h : s.Faithful) (hfits : s.Fits elemSize e)
    (hstep : s.step elemSize e = some t) : t.Faithful := by
  obtain ⟨⟨answer, list⟩, hperform, hrest⟩ := Option.bind_eq_some_iff.mp hstep
  obtain ⟨⟨expected, model⟩, hlist, ht⟩ := Option.bind_eq_some_iff.mp hrest
  obtain rfl := Option.some.inj ht
  have hok := Except.toOption_eq_some.mp hperform
  have hagrees := agrees hsize h.denotes hfits
  unfold Agrees at hagrees
  rw [hlist] at hagrees
  obtain hfail | ⟨r, hr, hanswer, hdenotes⟩ := hagrees
  · rw [hok] at hfail
    cases hfail
  · obtain rfl := Except.ok.inj (hok.symm.trans hr)
    refine ⟨hdenotes, fun p hp => ?_⟩
    rcases List.mem_cons.mp hp with rfl | hp
    · exact hanswer
    · exact h.answers p hp

-- As long as no array of 2^32 elements is asked for, the array list is the list.
theorem arrayList_refines (hsize : 0 < elemSize)
    (hs : (arrayListMachine α elemSize).Via (Fits elemSize) s) :
    s.Faithful ∧ ∀ c available, s.Fits elemSize (c, available) → s.Agrees elemSize c available := by
  have h : s.Faithful := by
    refine Machine.Via.invariant (P := Faithful) (fun s hinit => ?_)
      (fun s e t h hgood hstep => h.step hsize hgood hstep) hs
    obtain ⟨available, capacity, list, hnew, rfl⟩ := hinit
    obtain hfail | ⟨b, hb, hdenotes, _⟩ :=
      ArrayList.withCapacity_yields (α := α) available capacity
    · rw [hnew] at hfail
      cases hfail
    · obtain rfl := Except.ok.inj (hnew.symm.trans hb)
      exact ⟨hdenotes, by simp⟩
  exact ⟨h, fun c available hfits => agrees hsize h.denotes hfits⟩

instance (elemSize : Nat) (s : ArrayListRun α) :
    (e : ArrayListCall α × Allocator) → Decidable (s.Fits elemSize e)
  | (.push _, _) => inferInstanceAs (Decidable (_ → _))
  | (.resize _ _, _) => inferInstanceAs (Decidable (_ → _))
  | (.pop, _) | (.get _, _) | (.set _ _, _) | (.remove _, _) | (.swapRemove _, _)
  | (.truncate _, _) | (.retain _, _) | (.retainMut _, _) | (.reverseInPlace, _) =>
      inferInstanceAs (Decidable True)

def newList (cap : Nat) : ArrayList α := ⟨cap, 0, cap, fun _ => none⟩

theorem newList_init (elemSize : Nat) {cap : Nat} (hlt : cap < 2 ^ 32) :
    (arrayListMachine α elemSize).init ⟨newList cap, [], []⟩ := by
  refine ⟨anyMemory, cap, newList cap, ?_, rfl⟩
  have hsmall := Nat.mod_eq_of_lt hlt
  unfold ArrayList.withCapacity RawArray.new newList
  rw [ensure_bind (show anyMemory cap = true from rfl), hsmall]
  rfl

-- A list of `i32` is built, changed and compacted.
theorem arrayList_refines_compacted : ∃ s : ArrayListRun Nat,
    (arrayListMachine Nat 4).Via (Fits 4) s ∧ s.model = [20, 30, 60] ∧ s.Faithful ∧
      ∀ c available, s.Fits 4 (c, available) → s.Agrees 4 c available := by
  have hrun : ((arrayListMachine Nat 4).runVia (Fits 4) ⟨newList 2, [], []⟩
      (([.push 1, .push 2, .push 3, .set 0 6, .push 4, .push 5, .remove 3, .get 9, .swapRemove 1,
        .reverseInPlace, .resize 12 7, .pop, .retain fun seen _ => seen.length < 4,
        .retainMut fun _ x => (10 * x, x ≠ 5), .truncate 8, .retain fun _ x => x ≠ 70,
        .reverseInPlace, .push 20, .reverseInPlace] : List (ArrayListCall Nat)).map
          fun c => (c, anyMemory))).map (fun s => s.model) = some [20, 30, 60] := by
    decide +kernel
  obtain ⟨s, hs, hmodel⟩ := Option.map_eq_some_iff.mp hrun
  have hinit : (arrayListMachine Nat 4).init ⟨newList 2, [], []⟩ := newList_init 4 (by decide)
  have hvia := Machine.via_of_runVia (Machine.Via.init hinit) hs
  exact ⟨s, hvia, hmodel, arrayList_refines (by decide) hvia⟩

theorem step_of {list a : ArrayList α} {l m : List α} {answers : List (Option α × Option α)}
    {x y : Option α} (hperform : c.perform elemSize available list = .ok (x, a))
    (hlist : c.onList l = some (y, m)) :
    (arrayListMachine α elemSize).step ⟨list, l, answers⟩ (c, available) =
      some ⟨a, m, (x, y) :: answers⟩ := by
  unfold arrayListMachine ArrayListRun.step
  simp only [hperform, hlist]
  rfl

-- The list of 2^31 bytes is full. One byte more makes its capacity 0, and no element
-- can be read any more.
theorem get_panics : ∃ s : ArrayListRun UInt8, (arrayListMachine UInt8 1).Reachable s ∧
    s.model[0]? = some 7 ∧
      (ArrayListCall.get 0).perform 1 anyMemory s.list = .error .panic := by
  obtain ⟨n, hn⟩ : ∃ n, n = 2 ^ 31 := ⟨_, rfl⟩
  have hinit : (arrayListMachine UInt8 1).init ⟨newList n, [], []⟩ := newList_init 1 (by omega)
  have hempty : (newList n : ArrayList UInt8).Denotes [] :=
    ⟨rfl, Nat.zero_le _, Nat.le_refl _, show n < 2 ^ 32 by omega, Slots.holdsAt_nil⟩
  obtain ⟨a, ha, hfull, hcap⟩ := ArrayList.resize_eq 1 anyMemory (7 : UInt8) hempty
    (show 0 < n by omega) (Nat.le_refl n)
  obtain ⟨b, hb, hlen, hzero⟩ := ArrayList.push_truncates 1 (7 : UInt8) hfull
    (by rw [List.nil_append, List.length_replicate]; exact hn) (hcap.trans hn)
    (show anyMemory (2 ^ 32) = true from rfl)
  have hstart : (arrayListMachine UInt8 1).Reachable _ := Machine.Via.init hinit
  have hresize := hstart.next (step_of (c := .resize n 7) (congrArg (Except.map _) ha) rfl)
  have hpush := hresize.next (step_of (c := .push 7) (congrArg (Except.map _) hb) rfl)
  refine ⟨_, hpush, ?_, ?_⟩
  · have hpos : 0 < (List.replicate (n - ([] : List UInt8).length) (7 : UInt8)).length := by
      rw [List.length_replicate, List.length_nil]
      omega
    rw [List.take_nil, List.nil_append, List.getElem?_append_left hpos,
      List.getElem?_eq_getElem hpos, List.getElem_replicate]
  · unfold ArrayListCall.perform ArrayList.get RawArray.index
    simp only
    rw [hlen, if_neg (by decide), ensure_bind_error (by omega)]
    rfl

end ArrayListRun

end Rsgc.System
