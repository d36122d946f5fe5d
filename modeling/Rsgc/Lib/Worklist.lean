import Mathlib.Data.Finset.Card
import Mathlib.Data.Prod.Lex
import Mathlib.Logic.Hydra

namespace Rsgc

-- A list of operations that are taken in any order. An operation visits a node that
-- nothing has visited, or leaves operations that are smaller.
namespace Worklist

open Relation

variable {α ω : Type*} {r : ω → ω → Prop} {visited visited' : α → Bool} {nodes : Finset α}
  {work ops : List ω} {op : ω} {i : Nat}

-- The nodes left to visit, and then the operations.
def Smaller (r : ω → ω → Prop) : Nat × Multiset ω → Nat × Multiset ω → Prop :=
  Prod.Lex (· < ·) (CutExpand r)

def measure (nodes : Finset α) (visited : α → Bool) (work : List ω) : Nat × Multiset ω :=
  ((nodes.filter fun a => visited a = false).card, work)

theorem smaller_wellFounded (hr : WellFounded r) : WellFounded (Smaller r) :=
  WellFounded.prod_lex wellFounded_lt hr.cutExpand

theorem coe_append_eraseIdx (ops : List ω) (hop : work[i]? = some op) :
    (↑(ops ++ work.eraseIdx i) : Multiset ω) + {op} = ↑work + ↑ops := by
  have hperm : (op :: work.eraseIdx i).Perm work := by
    obtain ⟨hi, rfl⟩ := List.getElem?_eq_some_iff.mp hop
    exact List.getElem_cons_eraseIdx_perm hi
  rw [← Multiset.coe_singleton, Multiset.coe_add, Multiset.coe_add, Multiset.coe_eq_coe]
  refine (List.perm_append_singleton op (ops ++ work.eraseIdx i)).trans ?_
  refine List.perm_middle.symm.trans ?_
  exact (hperm.append_left ops).trans List.perm_append_comm

-- The operation only leaves smaller ones.
theorem smaller_of_replaced (hop : work[i]? = some op) (hops : ∀ o ∈ ops, r o op) :
    Smaller r (measure nodes visited (ops ++ work.eraseIdx i)) (measure nodes visited work) := by
  refine Prod.Lex.right _ ⟨ops, op, fun o ho => hops o (Multiset.mem_coe.mp ho), ?_⟩
  exact coe_append_eraseIdx ops hop

-- The operation visits one of the nodes, whatever it leaves.
theorem smaller_of_visited {a : α} {work' : List ω} (ha : a ∈ nodes) (hnew : visited a = false)
    (hvisit : visited' a = true) (hkeep : ∀ b, visited b = true → visited' b = true) :
    Smaller r (measure nodes visited' work') (measure nodes visited work) := by
  refine Prod.Lex.left _ _ (Finset.card_lt_card ?_)
  refine Finset.ssubset_iff_subset_ne.mpr ⟨fun b hb => ?_, fun heq => ?_⟩
  · obtain ⟨hb, hleft⟩ := Finset.mem_filter.mp hb
    refine Finset.mem_filter.mpr ⟨hb, Bool.eq_false_iff.mpr fun hvisited => ?_⟩
    rw [hkeep b hvisited] at hleft
    cases hleft
  · have hmem : a ∈ nodes.filter fun b => visited b = false := Finset.mem_filter.mpr ⟨ha, hnew⟩
    rw [← heq, Finset.mem_filter, hvisit] at hmem
    cases hmem.2

end Worklist

end Rsgc
