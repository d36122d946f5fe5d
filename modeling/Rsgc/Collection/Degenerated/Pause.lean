import Rsgc.Collection.Conservative.Tracing

namespace Rsgc.Collection

open Marking Storage

-- A step of the marking neither loses nor adds an object that is marked or will be.
theorem safe_step_iff {graph : Graph} {marks marks' : Nat → Bool} {op : Op} {ops : List Op}
    {work work' : Op → Prop} (hstep : op.step graph marks = some (marks', ops)) (hok : op.Ok)
    (hshort : op.Short graph) (hop : work op) (hkeep : ∀ o, work o → o = op ∨ work' o)
    (hnew : ∀ o ∈ ops, work' o) (hback : ∀ o, work' o → work o ∨ o ∈ ops) (x : Nat) :
    (coloring graph marks' work').Safe x ↔ (coloring graph marks work).Safe x :=
  ⟨Op.safe_of_step hstep hok hshort hop hback,
    Coloring.Safe.advance (Op.step_advances hstep hok hshort hkeep hnew)⟩

namespace World

variable {c : Config} {s s' : World}

theorem tasks_safe_iff {op : Op} {marks : Nat → Bool} {ops : List Op} {i : Nat}
    (hop : s.work[i]? = some op) (hok : op.Ok) (hshort : op.Short s.graph)
    (hdone : op.step s.graph s.marks = some (marks, ops))
    (hgraph : s'.graph = s.graph) (hmarks : s'.marks = marks)
    (hwork : s'.work = ops ++ s.work.eraseIdx i) (o : Nat) :
    s'.tasks.Safe o ↔ s.tasks.Safe o := by
  unfold tasks
  rw [hgraph, hmarks, hwork]
  refine safe_step_iff hdone hok hshort (List.mem_of_getElem? hop) (fun x hx => ?_)
    (fun x hx => List.mem_append_left _ hx) (fun x hx => ?_) o
  · exact (eq_or_mem_eraseIdx hop hx).imp_right (List.mem_append_right _)
  · exact (List.mem_append.mp hx).symm.imp_left List.mem_of_mem_eraseIdx

theorem tasks_done (hwork : s.work = []) (o : Nat) : s.tasks.Safe o ↔ s.marks o = true := by
  refine ⟨Coloring.Safe.marked_of_done fun x => ?_, Or.inl⟩
  rintro ⟨op, hop, -⟩
  simp only [hwork] at hop
  cases hop

-- The roots are visited one after the other, whatever else is left to do.
theorem collectRoots_safe (s : World) (rest : Op → Prop) (o : Nat) :
    (coloring s.graph s.collectRoots.marks fun op => op ∈ s.collectRoots.work ∨ rest op).Safe o ↔
      (coloring s.graph s.marks fun op =>
        (op ∈ s.work ∨ ∃ r ∈ s.roots, op = .visit r) ∨ rest op).Safe o := by
  have hfold (refs : List Nat) (s : World) :
      (coloring s.graph (refs.foldl visit s).marks fun op =>
        op ∈ (refs.foldl visit s).work ∨ rest op).Safe o ↔
        (coloring s.graph s.marks fun op =>
          (op ∈ s.work ∨ ∃ r ∈ refs, op = .visit r) ∨ rest op).Safe o := by
    induction refs generalizing s with
    | nil => simp
    | cons ref refs ih =>
        obtain ⟨ops, hstep, hwork⟩ := s.visit_step ref
        refine (ih (s.visit ref)).trans ?_
        refine safe_step_iff hstep trivial trivial
          (Or.inl (Or.inr ⟨ref, List.mem_cons_self, rfl⟩)) ?_ ?_ ?_ o
        · rintro op ((hop | ⟨r, hr, rfl⟩) | hop)
          · exact Or.inr (Or.inl (Or.inl (hwork ▸ List.mem_append_right _ hop)))
          · rcases List.mem_cons.mp hr with rfl | hr
            · exact Or.inl rfl
            · exact Or.inr (Or.inl (Or.inr ⟨r, hr, rfl⟩))
          · exact Or.inr (Or.inr hop)
        · exact fun op hop => Or.inl (Or.inl (hwork ▸ List.mem_append_left _ hop))
        · rintro op ((hop | ⟨r, hr, rfl⟩) | hop)
          · rw [hwork] at hop
            rcases List.mem_append.mp hop with hop | hop
            · exact Or.inr hop
            · exact Or.inl (Or.inl (Or.inl hop))
          · exact Or.inl (Or.inl (Or.inr ⟨r, List.mem_cons_of_mem _ hr, rfl⟩))
          · exact Or.inl (Or.inr hop)
  rw [collectRoots_eq]
  exact hfold s.roots s

-- The flush of a pause comes after the roots. It pushes the buffered objects that
-- are not marked by then, and with `gc-incremental-update` all of them.
def Flushed (c : Config) (s : World) (x : Nat) : Prop :=
  x ∈ s.entries ∧ (c.build = .incrementalUpdate ∨ s.marks x = false ∧ x ∉ s.roots)

-- What the marking of a pause begins with: from the start, for a concurrent mark that
-- it completes, or nothing where the marks are taken as they are.
def restarted (s : World) : Coloring Nat :=
  coloring s.graph (fun _ => false) fun op => op ∈ s.work ∨ ∃ r ∈ s.roots, op = .visit r

def resumed (c : Config) (s : World) : Coloring Nat :=
  coloring s.graph s.marks fun op => (op ∈ s.work ∨ ∃ r ∈ s.roots, op = .visit r) ∨
    ∃ x, s.Flushed c x ∧ op = .push (.new x false false)

def settled (s : World) : Coloring Nat := coloring s.graph s.marks fun _ => False

-- The objects that are marked when a degenerated collection has done its marking.
def leftToMark (c : Config) (s : World) : Coloring Nat :=
  match s.degenPoint with
  | .outsideCycle => s.restarted
  | .concurrentMark => if s.concurrentMark then s.resumed c else s.settled
  | .concurrentSweep | .unset => s.settled

def Survives (c : Config) (s : World) (o : Nat) : Prop := (s.leftToMark c).Safe o

theorem settled_safe (o : Nat) : s.settled.Safe o ↔ s.marks o = true := by
  refine ⟨Coloring.Safe.marked_of_done fun x => ?_, Or.inl⟩
  rintro ⟨op, hop, -⟩
  exact hop

theorem restarted_safe (s : World) (o : Nat) :
    s.prepareGc.collectRoots.tasks.Safe o ↔ s.restarted.Safe o := by
  have hroots := collectRoots_safe s.prepareGc (fun _ => False) o
  simp only [or_false] at hroots
  exact hroots

-- Whatever is reachable is marked where the marks have been cleared before.
theorem Reaches.restarted {o : Nat} (h : s.Reaches o) : s.restarted.Safe o := by
  obtain ⟨r, hr, hpath⟩ := h
  refine Coloring.Guarded.reaches (guarded_unmarked _ _) ?_ hpath
  exact Coloring.Safe.of_source ⟨.visit r, Or.inr ⟨r, hr, rfl⟩, Or.inl rfl⟩

end World

end Rsgc.Collection
