import Rsgc.System.HashMap.Entries

namespace Rsgc.System

namespace HashMap

open Buckets (entries)

variable {K V : Type} {hash : K → Nat} {n : Nat} {dst : Nat → List (HashNode K V)}

theorem moveEntry_ok (hpos : 0 < n) (hplaced : Placed hash n dst) (entry : HashNode K V) :
    ∃ dst', moveEntry hash n dst entry = .ok dst' ∧ Placed hash n dst' ∧
      (entries n dst').Perm (entry :: entries n dst) := by
  have hlt : hash entry.key % n < n := Nat.mod_lt _ hpos
  have hmoved : Placed hash n (Function.update dst (hash entry.key % n)
      (entry :: dst (hash entry.key % n))) := by
    refine hplaced.update fun node hnode => ?_
    rcases List.mem_cons.mp hnode with rfl | hnode
    · rfl
    · exact hplaced _ hlt node hnode
  refine ⟨_, ?_, hmoved, Buckets.entries_cons_perm dst hlt entry⟩
  unfold moveEntry
  rw [position_eq _ hpos]
  rfl

-- A loop whose steps each bring something to its place brings all of it there.
theorem foldlM_moves {α : Type} (contents : α → List (HashNode K V))
    {move : (Nat → List (HashNode K V)) → α → Except HashPanic (Nat → List (HashNode K V))}
    (hmove : ∀ dst a, Placed hash n dst → ∃ dst', move dst a = .ok dst' ∧ Placed hash n dst' ∧
      (entries n dst').Perm (contents a ++ entries n dst))
    (items : List α) (hplaced : Placed hash n dst) :
    ∃ dst', items.foldlM move dst = .ok dst' ∧ Placed hash n dst' ∧
      (entries n dst').Perm (items.flatMap contents ++ entries n dst) := by
  induction items generalizing dst with
  | nil => exact ⟨dst, rfl, hplaced, List.Perm.refl _⟩
  | cons a rest ih =>
      obtain ⟨moved, hok, hplaced', hperm⟩ := hmove dst a hplaced
      obtain ⟨dst', hrest, hfinal, hperm'⟩ := ih hplaced'
      refine ⟨dst', ?_, hfinal, hperm'.trans ?_⟩
      · rw [List.foldlM_cons, hok, Except.ok_bind]
        exact hrest
      · rw [List.flatMap_cons]
        refine (hperm.append_left _).trans ?_
        rw [← List.append_assoc]
        exact List.perm_append_comm.append_right _

theorem rehashBuckets_ok (src : Nat → List (HashNode K V)) (hpos : 0 < n) (srcLen : Nat)
    (hplaced : Placed hash n dst) :
    ∃ dst', rehashBuckets hash srcLen n src dst = .ok dst' ∧ Placed hash n dst' ∧
      (entries n dst').Perm (entries srcLen src ++ entries n dst) := by
  refine foldlM_moves src (fun dst i hplaced => ?_) (List.range srcLen) hplaced
  obtain ⟨dst', hok, hplaced', hperm⟩ := foldlM_moves (fun node => [node])
    (fun dst node hplaced => moveEntry_ok hpos hplaced node) (src i) hplaced
  rw [List.flatMap_singleton'] at hperm
  exact ⟨dst', hok, hplaced', hperm⟩

-- A resize moves every entry to its place, wherever it lay.
theorem resize_moves {m : HashMap K V} (hlen : 0 < newArrayLen (m.len * 2)) :
    ∃ grown, resize hash m = .ok grown ∧ grown.count = m.count ∧ 0 < grown.len ∧
      Placed hash grown.len grown.nodes ∧
      (entries grown.len grown.nodes).Perm (entries m.len m.nodes) := by
  have hempty : Placed hash (newArrayLen (m.len * 2)) fun _ => ([] : List (HashNode K V)) := by
    intro i _ node hnode
    cases hnode
  obtain ⟨nodes, hok, hplaced, hperm⟩ := rehashBuckets_ok m.nodes hlen m.len hempty
  rw [Buckets.entries_nil, List.append_nil] at hperm
  refine ⟨{ m with len := newArrayLen (m.len * 2), nodes := nodes }, ?_, rfl, hlen, hplaced, hperm⟩
  unfold resize
  exact Except.bind_eq_ok.mpr ⟨nodes, hok, rfl⟩

theorem resize_ok [BEq K] {m : HashMap K V} {f : K → Option V}
    (hlen : 0 < newArrayLen (m.len * 2)) (h : Holds hash m.len m.nodes f) :
    ∃ grown, resize hash m = .ok grown ∧ grown.count = m.count ∧ grown.Denotes hash f := by
  obtain ⟨grown, hok, hcount, hpos, hplaced, hperm⟩ := resize_moves hlen
  exact ⟨grown, hok, hcount, hpos, hplaced, h.of_perm hperm⟩

-- There is no place for an entry where the new array is empty.
theorem newArrayLen_pos {m grown : HashMap K V} {node : HashNode K V}
    (hok : resize hash m = .ok grown) (hmem : node ∈ entries m.len m.nodes) :
    0 < newArrayLen (m.len * 2) := by
  by_contra hzero
  obtain ⟨i, hi, hnode⟩ := Buckets.mem_entries.mp hmem
  obtain ⟨nodes, hrehash, _⟩ := Except.bind_eq_ok.mp hok
  obtain ⟨dst, dst', hchain⟩ := Except.foldlM_ok_step hrehash i (List.mem_range.mpr hi)
  obtain ⟨before, after, hmove⟩ := Except.foldlM_ok_step hchain node hnode
  obtain ⟨j, hposition, _⟩ := Except.bind_eq_ok.mp hmove
  obtain ⟨_, hlen, _⟩ := Except.bind_eq_ok.mp hposition
  exact Except.ensure_eq_ok.mp hlen (by omega)

end HashMap

end Rsgc.System
