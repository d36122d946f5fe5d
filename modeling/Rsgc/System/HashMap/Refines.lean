import Rsgc.Lib.Machine
import Rsgc.System.HashMap.Calls
import Rsgc.System.HashMap.Iterate

namespace Rsgc.System

-- The table, and the finite map that it should be.
structure HashMapRun (K V : Type) where
  map : HashMap K V
  model : K → Option V

namespace HashMapRun

variable {K V : Type} [BEq K]

def step (hash : K → Nat) (s : HashMapRun K V) (c : HashMapCall K V) :
    Option (HashMapRun K V) := do
  let (_, map) ← (c.perform hash s.map).toOption
  some ⟨map, (c.onMap s.model).2⟩

end HashMapRun

def hashMapMachine {K : Type} (V : Type) [BEq K] (hash : K → Nat) :
    Machine (HashMapRun K V) (HashMapCall K V) where
  init := fun s => ∃ cap map, HashMap.withCapacity cap = .ok map ∧ s = ⟨map, fun _ => none⟩
  step := HashMapRun.step hash

namespace HashMapRun

open HashMap (iter)
open Buckets (entries)
open Keyed (Represents)

variable {K V : Type} [BEq K] {hash : K → Nat} {s t : HashMapRun K V} {c : HashMapCall K V}

-- What the insertion of a fresh key needs.
def Fits (hash : K → Nat) (s : HashMapRun K V) : HashMapCall K V → Prop
  | .put key _ => s.model key = none → s.map.PutFits
  | .entry key vacant _ => vacant ≠ none → s.model key = none → s.map.InsertFits hash key
  | _ => True

-- The call answers as on the finite map, and leaves a table that again denotes one.
def Agrees (hash : K → Nat) (s : HashMapRun K V) (c : HashMapCall K V) : Prop :=
  ∃ map, c.perform hash s.map = .ok ((c.onMap s.model).1, map) ∧
    map.Denotes hash (c.onMap s.model).2

theorem agrees [EquivBEq K] (hhash : ∀ a b : K, (a == b) = true → hash a = hash b)
    (h : s.map.Denotes hash s.model) (hfits : s.Fits hash c) : s.Agrees hash c := by
  cases c with
  | put key value => exact HashMap.put_ok hhash h key value hfits
  | get key =>
      refine ⟨s.map, ?_, h⟩
      unfold HashMapCall.perform
      simp only [HashMap.get_ok hhash h key]
      rfl
  | getMut key f => exact HashMap.getMut_ok hhash h key f
  | remove key => exact HashMap.remove_ok hhash h key
  | entry key vacant call => exact HashMap.entry_ok hhash h key vacant call hfits

theorem withCapacity_denotes {cap : Nat} {map : HashMap K V}
    (hnew : HashMap.withCapacity cap = .ok map) : map.Denotes hash fun _ => none := by
  unfold HashMap.withCapacity at hnew
  obtain ⟨_, hcap, hmap⟩ := Except.bind_eq_ok.mp hnew
  obtain rfl := Except.pure_eq_ok.mp hmap
  have hlt := Except.ensure_eq_ok.mp hcap
  refine ⟨?_, fun _ _ node hnode => ?_, [], Keyed.represents_nil, ?_⟩
  · have hpos : 0 < if cap < 16 then 16 else cap := by
      split <;> omega
    unfold HashMap.newArrayLen
    simp only
    rw [Nat.mod_eq_of_lt (by omega)]
    exact hpos
  · cases hnode
  · simp

theorem denotes_of_via [EquivBEq K] (hhash : ∀ a b : K, (a == b) = true → hash a = hash b)
    (hs : (hashMapMachine V hash).Via (Fits hash) s) : s.map.Denotes hash s.model := by
  refine Machine.Via.invariant (P := fun s => s.map.Denotes hash s.model) (fun s hinit => ?_)
    (fun s c t h hfits hstep => ?_) hs
  · obtain ⟨cap, map, hnew, rfl⟩ := hinit
    exact withCapacity_denotes hnew
  · obtain ⟨map, hperform, hdenotes⟩ := agrees hhash h hfits
    obtain ⟨r, hr, ht⟩ := Option.bind_eq_some_iff.mp hstep
    obtain rfl := Option.some.inj ht
    have hok := Except.toOption_eq_some.mp hr
    rw [hperform] at hok
    obtain rfl := Except.ok.inj hok
    exact hdenotes

-- As long as each fresh entry comes into the chain of its key, the table is the map.
theorem hashMap_refines [EquivBEq K] (hhash : ∀ a b : K, (a == b) = true → hash a = hash b)
    (hs : (hashMapMachine V hash).Via (Fits hash) s) :
    (∀ c, s.Fits hash c → s.Agrees hash c) ∧
      (entries s.map.len s.map.nodes).Pairwise (fun a b => (a.key == b.key) = false) ∧
      ∃ pairs, Represents pairs s.model ∧
        ∀ fuel > pairs.length, s.map.collect fuel iter = .ok (some pairs) := by
  have h := denotes_of_via hhash hs
  refine ⟨fun c hfits => agrees hhash h hfits, ?_, HashMap.iter_yields h.holds⟩
  obtain ⟨l, hl, hentries⟩ := h.holds
  refine hentries.symm.pairwise (List.pairwise_map.mpr hl.distinct) fun hab => ?_
  rwa [BEq.comm]

instance (m : HashMap K V) : Decidable m.CanResize := Nat.decLt _ _

instance (m : HashMap K V) : Decidable m.PutFits :=
  inferInstanceAs (Decidable (m.count + 1 < 2 ^ 32 ∧ (_ → _)))

instance (hash : K → Nat) (m : HashMap K V) (k : K) : Decidable (m.InsertFits hash k) :=
  inferInstanceAs (Decidable (_ ∧ if HashMap.threshold m.len < m.count + 1 then m.CanResize
    else m.len - 1 &&& hash k = hash k % m.len))

instance [DecidableEq V] (hash : K → Nat) (s : HashMapRun K V) :
    (c : HashMapCall K V) → Decidable (s.Fits hash c)
  | .put _ _ => inferInstanceAs (Decidable (_ → _))
  | .entry _ _ _ => inferInstanceAs (Decidable (_ → _ → _))
  | .get _ | .getMut _ _ | .remove _ => inferInstanceAs (Decidable True)

def emptyRun (cap : Nat) : HashMapRun Nat Nat := ⟨⟨0, cap, fun _ => []⟩, fun _ => none⟩

-- The table of 16 chains is filled, through `put` and through entries, until it is resized.
theorem hashMap_refines_resized : ∃ s : HashMapRun Nat Nat,
    (hashMapMachine Nat id).Via (Fits id) s ∧ s.map.len = 32 ∧ s.model 17 = some 21 ∧
      (∀ c, s.Fits id c → s.Agrees id c) ∧
      (entries s.map.len s.map.nodes).Pairwise (fun a b => (a.key == b.key) = false) ∧
      ∃ pairs, Represents pairs s.model ∧
        ∀ fuel > pairs.length, s.map.collect fuel iter = .ok (some pairs) := by
  have hrun : ((hashMapMachine Nat id).runVia (Fits id) (emptyRun 16)
      ([.put 1 10, .put 17 20, .entry 33 (some 30) .get, .entry 1 (some 3) (.insert 40),
        .getMut 17 (· + 1), .remove 33, .entry 1 none .remove] ++
        (List.range 12).map fun i => .put (3 * i) i)).map
          (fun s => (s.map.len, s.model 17)) = some (32, some 21) := by
    decide +kernel
  obtain ⟨s, hs, hmodel⟩ := Option.map_eq_some_iff.mp hrun
  have hinit : (hashMapMachine Nat id).init (emptyRun 16) := ⟨16, _, rfl, rfl⟩
  have hvia := Machine.via_of_runVia (Machine.Via.init hinit) hs
  exact ⟨s, hvia, congrArg Prod.fst hmodel, congrArg Prod.snd hmodel,
    hashMap_refines (fun a b hkey => by simpa using hkey) hvia⟩

-- Of 17 chains, the mask leads the vacant entry of the key 1 to the chain 0. A lookup
-- tries the chain 1.
theorem vacant_entry_lost : ∃ s : HashMapRun Nat Nat, (hashMapMachine Nat id).Reachable s ∧
    s.model 1 = some 7 ∧ s.map.get id 1 = .ok none := by
  have hrun : ((hashMapMachine Nat id).run (emptyRun 17) [.entry 1 (some 7) .get]).map
      (fun s => (s.model 1, (s.map.get id 1).toOption)) = some (some 7, some none) := by
    decide +kernel
  obtain ⟨s, hs, hmodel⟩ := Option.map_eq_some_iff.mp hrun
  have hinit : (hashMapMachine Nat id).init (emptyRun 17) := ⟨17, _, rfl, rfl⟩
  exact ⟨s, Machine.run_reachable (Machine.Via.init hinit) hs, congrArg Prod.fst hmodel,
    Except.toOption_eq_some.mp (congrArg Prod.snd hmodel)⟩

end HashMapRun

end Rsgc.System
