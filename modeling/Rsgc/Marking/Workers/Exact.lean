import Rsgc.Marking.Workers.Effects

namespace Rsgc.Marking

-- A task that stands for the whole object `o`.
def MarkTask.IsFresh (o : Nat) (t : MarkTask) : Prop := t.obj = o ∧ t.isNotChunked = true

instance (o : Nat) (t : MarkTask) : Decidable (t.IsFresh o) := inferInstanceAs (Decidable (_ ∧ _))

def Op.IsFresh (o : Nat) : Op → Prop
  | .push t => t.IsFresh o
  | _ => False

instance (o : Nat) : (op : Op) → Decidable (op.IsFresh o)
  | .push t => inferInstanceAs (Decidable (t.IsFresh o))
  | .scan .. | .visit _ | .spill _ => inferInstanceAs (Decidable False)

namespace MarkingRun

variable {n stride : Nat} {graph : Graph} {roots : List Nat} {s t : MarkingRun n}

-- What the claim asks of every state: the marks are exact once nothing is left,
-- no object is pushed twice, and the tasks pushed are those begun or queued.
structure Exact (graph : Graph) (roots : List Nat) (s : MarkingRun n) : Prop where
  exact : s.Done → ∀ o, s.marks o = true ↔ graph.Reaches roots o
  fresh : ∀ o, s.pushed.countP (MarkTask.IsFresh o) ≤ 1
  conserved : (s.pushed : Multiset MarkTask) = s.executed + s.queued

-- The objects that are marked or that the work left will mark are those that
-- the roots reach. A whole object is pushed when it gets its mark.
structure Inv (graph : Graph) (roots : List Nat) (s : MarkingRun n) : Prop where
  ok : ∀ op ∈ s.items, op.Ok
  marked : ∀ task, .push task ∈ s.items → s.marks task.obj = true
  safe : ∀ o, (coloring graph s.marks (· ∈ s.items)).Safe o ↔ graph.Reaches roots o
  fresh : ∀ o, s.items.countP (Op.IsFresh o) + s.executed.countP (MarkTask.IsFresh o) ≤
    if s.marks o = true then 1 else 0
  conserved : (s.pushed : Multiset MarkTask) = s.executed + s.queued

theorem Inv.short (h : s.Inv graph roots)
    (hlen : ∀ o, graph.Reaches roots o → (graph o).iterateRange = true →
      (graph o).length ≤ 2 ^ 30) {op : Op} (hop : op ∈ s.items) : op.Short graph := by
  cases op with
  | push task =>
      intro _
      exact hlen task.obj ((h.safe task.obj).mp (Or.inl (h.marked task hop)))
  | scan | visit | spill => trivial

end MarkingRun

theorem countP_isFresh_eq_zero {ops : List Op} (h : ∀ task, .push task ∈ ops →
    task.isNotChunked = false) (o : Nat) : (ops : Multiset Op).countP (Op.IsFresh o) = 0 := by
  rw [Multiset.countP_eq_zero]
  intro op hop hfresh
  cases op with
  | push task =>
      have hnot : task.isNotChunked = true := hfresh.2
      rw [h task hop] at hnot
      cases hnot
  | scan | visit | spill => exact hfresh

theorem doTask_push {graph : Graph} {t : MarkTask} {ops : List Op} (h : doTask graph t = some ops)
    (hok : (Op.push t).Ok) (hshort : (Op.push t).Short graph) :
    ∀ task, .push task ∈ ops → task.isNotChunked = false := by
  have hwork (w : ChunkWork) (o : Object) (hsane : ∀ u ∈ w.pushes, Sane t.obj u) (task : MarkTask)
      (hmem : .push task ∈ w.ops t.obj o) : task.isNotChunked = false := by
    rcases List.mem_append.mp hmem with hmem | hmem
    · obtain ⟨u, hu, heq⟩ := List.mem_map.mp hmem
      obtain rfl := Op.push.inj heq
      exact (hsane u hu).fits.isNotChunked
    · obtain ⟨r, -, heq⟩ := List.mem_map.mp hmem
      cases heq
  intro task hmem
  rcases doTask_cases h hok hshort with ⟨-, -, rfl⟩ | ⟨-, -, w, rfl, hsane, -⟩ |
    ⟨-, w, rfl, hsane, -⟩
  · split at hmem <;> simp at hmem
  · rcases List.mem_cons.mp hmem with heq | hmem
    · cases heq
    · exact hwork w _ hsane task hmem
  · exact hwork w _ hsane task hmem

namespace Op

variable {graph : Graph} {marks marks' : Nat → Bool} {op : Op} {ops : List Op}

-- A task is pushed for an object that gets its mark, or for parts of one that
-- has it.
theorem step_push (h : op.step graph marks = some (marks', ops)) (hok : op.Ok)
    (hshort : op.Short graph) (hmarked : ∀ task, op = .push task → marks task.obj = true) :
    ∀ task, .push task ∈ ops → marks' task.obj = true := by
  intro task hmem
  cases op with
  | scan obj part next stop =>
      simp only [step] at h
      split at h <;> obtain ⟨-, rfl⟩ := Prod.mk.inj (Option.some.inj h) <;> simp at hmem
  | visit ref =>
      simp only [step] at h
      split at h <;> obtain ⟨rfl, rfl⟩ := Prod.mk.inj (Option.some.inj h)
      · cases hmem
      · obtain rfl := Op.push.inj (List.mem_singleton.mp hmem)
        exact Function.update_self _ _ _
  | push begun =>
      obtain ⟨_, hops, heq⟩ := Option.map_eq_some_iff.mp h
      obtain ⟨rfl, rfl⟩ := Prod.mk.inj heq
      have hon : task.obj = begun.obj := (doTask_ops hops hok hshort _ hmem).2
      rw [hon]
      exact hmarked begun rfl
  | spill target =>
      obtain ⟨-, rfl⟩ := Prod.mk.inj (Option.some.inj h)
      cases hmem

-- Only a visit makes a whole object a task, and that object gets its mark then.
theorem step_fresh (h : op.step graph marks = some (marks', ops)) (hop : ∀ task, op ≠ .push task)
    (o : Nat) : (ops : Multiset Op).countP (IsFresh o) + (if marks o = true then 1 else 0) =
      if marks' o = true then 1 else 0 := by
  have hnone (hmarks : marks' = marks) (hpush : ∀ task, .push task ∉ ops) :
      (ops : Multiset Op).countP (IsFresh o) + (if marks o = true then 1 else 0) =
        if marks' o = true then 1 else 0 := by
    rw [countP_isFresh_eq_zero (fun task hmem => absurd hmem (hpush task)), zero_add, hmarks]
  cases op with
  | scan obj part next stop =>
      simp only [step] at h
      split at h <;> obtain ⟨rfl, rfl⟩ := Prod.mk.inj (Option.some.inj h) <;>
        exact hnone rfl (by simp)
  | visit ref =>
      simp only [step] at h
      split at h <;> rename_i hmark <;> obtain ⟨rfl, rfl⟩ := Prod.mk.inj (Option.some.inj h)
      · exact hnone rfl (by simp)
      · have hfresh : (Op.push (.new ref false false)).IsFresh o ↔ ref = o := by
          simp [IsFresh, MarkTask.IsFresh, MarkTask.new, MarkTask.isNotChunked]
        rw [Multiset.coe_countP, List.countP_cons, List.countP_nil]
        by_cases ho : o = ref
        · subst ho
          simp [hfresh, hmark]
        · simp [hfresh, Ne.symm ho, Function.update_of_ne ho]
  | push task => exact absurd rfl (hop task)
  | spill target =>
      obtain ⟨rfl, rfl⟩ := Prod.mk.inj (Option.some.inj h)
      exact hnone rfl (by simp)

end Op

theorem coloring_congr {graph : Graph} {marks : Nat → Bool} {work work' : Op → Prop}
    (h : ∀ x, (∃ op, work op ∧ op.Delivers graph x) ↔ ∃ op, work' op ∧ op.Delivers graph x) :
    coloring graph marks work = coloring graph marks work' := by
  unfold coloring
  congr 1
  funext x
  exact propext (h x)

-- Of null slots nothing is delivered.
theorem delivers_pass {graph : Graph} {obj : Nat} {part : Part} {next count stop : Nat}
    (hnull : (graph obj).Null part next count) (x : Nat) :
    (Op.scan obj part next stop).Delivers graph x ↔
      (Op.scan obj part (next + count) stop).Delivers graph x := by
  constructor
  · rintro (hx | ⟨o, slot, ⟨rfl, rfl, hle, hlt⟩, href⟩)
    · cases hx
    · obtain ⟨entry, hfind, -⟩ := Option.map_eq_some_iff.mp href
      have heq : entry.1 = slot := by simpa using List.find?_some hfind
      have hout := hnull entry (List.mem_of_find?_eq_some hfind) (by rw [heq])
      rw [heq] at hout
      exact Or.inr ⟨_, slot, ⟨rfl, rfl, by omega, hlt⟩, href⟩
  · rintro (hx | ⟨o, slot, ⟨rfl, rfl, hle, hlt⟩, href⟩)
    · cases hx
    · exact Or.inr ⟨_, slot, ⟨rfl, rfl, by omega, hlt⟩, href⟩

namespace MarkingRun

variable {n stride : Nat} {graph : Graph} {roots : List Nat} {s t : MarkingRun n}

-- A step that carries out one of the operations left.
theorem Inv.work (h : s.Inv graph roots) {op : Op} {ops : List Op} {rest : Multiset Op}
    (hstep : op.step graph s.marks = some (t.marks, ops)) (hshort : op.Short graph)
    (hs : s.items = op ::ₘ rest) (ht : t.items = ops + rest) :
    (∀ o ∈ t.items, o.Ok) ∧ (∀ task, .push task ∈ t.items → t.marks task.obj = true) ∧
      ∀ o, (coloring graph t.marks (· ∈ t.items)).Safe o ↔ graph.Reaches roots o := by
  have hop : op ∈ s.items := by rw [hs]; exact Multiset.mem_cons_self op rest
  have hrest : ∀ o ∈ rest, o ∈ s.items := fun o ho => by rw [hs]; exact Multiset.mem_cons_of_mem ho
  have hmem (o : Op) : o ∈ t.items ↔ o ∈ ops ∨ o ∈ rest := by simp [ht]
  have hok := h.ok op hop
  refine ⟨fun o ho => ?_, fun task htask => ?_, fun o => ⟨fun ho => ?_, fun ho => ?_⟩⟩
  · exact ((hmem o).mp ho).elim (Op.step_ok hstep hok hshort o) fun ho => h.ok o (hrest o ho)
  · rcases (hmem _).mp htask with hnew | hold
    · refine Op.step_push hstep hok hshort (fun begun heq => ?_) task hnew
      exact h.marked begun (heq ▸ hop)
    · exact (Op.step_marks hstep _).mpr (Or.inl (h.marked task (hrest _ hold)))
  · refine (h.safe o).mp (Op.safe_of_step hstep hok hshort hop (fun o ho => ?_) ho)
    exact ((hmem o).mp ho).elim Or.inr fun ho => Or.inl (hrest o ho)
  · refine ((h.safe o).mpr ho).advance (Op.step_advances hstep hok hshort (fun o ho => ?_) ?_)
    · rw [hs] at ho
      exact (Multiset.mem_cons.mp ho).imp_right fun ho => (hmem o).mpr (Or.inr ho)
    · exact fun o ho => (hmem o).mpr (Or.inl ho)

theorem Inv.step (h : s.Inv graph roots) (hlen : ∀ o, graph.Reaches roots o →
    (graph o).iterateRange = true → (graph o).length ≤ 2 ^ 30) {e : MarkingEvent n}
    (hstep : s.step graph stride e = some t) : t.Inv graph roots := by
  have hconserved := Effect.conserved (step_effect hstep) h.conserved
  obtain ⟨-, begun, hrewrites, -, hexecuted, -⟩ := step_effect hstep
  cases hrewrites with
  | still spills hspill hitems hmarks =>
      have hnot (x : Nat) (op : Op) (hop : op ∈ spills) : ¬op.Delivers graph x := by
        obtain ⟨target, rfl⟩ := hspill op hop
        rintro (hx | ⟨_, _, hc, -⟩)
        · cases hx
        · exact hc
      refine ⟨fun op hop => ?_, fun task htask => ?_, fun o => ?_, fun o => ?_, hconserved⟩
      · rcases Multiset.mem_add.mp (hitems ▸ hop) with hold | hnew
        · exact h.ok op hold
        · obtain ⟨target, rfl⟩ := hspill op hnew
          trivial
      · rcases Multiset.mem_add.mp (hitems ▸ htask) with hold | hnew
        · exact hmarks ▸ h.marked task hold
        · obtain ⟨target, heq⟩ := hspill _ hnew
          cases heq
      · rw [← h.safe o, hmarks]
        have hcongr : coloring graph s.marks (· ∈ s.items) = coloring graph s.marks (· ∈ t.items) := by
          refine coloring_congr fun x => ⟨?_, ?_⟩
          · rintro ⟨op, hop, hx⟩
            exact ⟨op, hitems ▸ Multiset.mem_add.mpr (Or.inl hop), hx⟩
          · rintro ⟨op, hop, hx⟩
            rcases Multiset.mem_add.mp (hitems ▸ hop) with hold | hnew
            · exact ⟨op, hold, hx⟩
            · exact absurd hx (hnot x op hnew)
        rw [hcongr]
      · have hzero : (spills : Multiset Op).countP (Op.IsFresh o) = 0 := by
          refine countP_isFresh_eq_zero (fun task hmem => ?_) o
          obtain ⟨target, heq⟩ := hspill _ hmem
          cases heq
        rw [hitems, Multiset.countP_add, hzero, hexecuted, hmarks]
        exact h.fresh o
  | work op ops rest hop hwork hs ht =>
      have hmem : op ∈ s.items := by rw [hs]; exact Multiset.mem_cons_self op rest
      obtain ⟨hok, hmarked, hsafe⟩ := h.work hwork (h.short hlen hmem) hs ht
      refine ⟨hok, hmarked, hsafe, fun o => ?_, hconserved⟩
      have hold := h.fresh o
      have hnew := Op.step_fresh hwork hop o
      have hzero : ¬op.IsFresh o := by
        cases op with
        | push task => exact absurd rfl (hop task)
        | scan | visit | spill => exact id
      rw [hs, Multiset.countP_cons_of_neg _ hzero] at hold
      rw [ht, Multiset.countP_add, hexecuted, List.nil_append]
      omega
  | begin task ops rest hdo hmarks hs ht =>
      have hmem : .push task ∈ s.items := by rw [hs]; exact Multiset.mem_cons_self _ rest
      have hshort := h.short hlen hmem
      have hwork : (Op.push task).step graph s.marks = some (t.marks, ops) := by
        rw [hmarks]
        exact Option.map_eq_some_iff.mpr ⟨ops, hdo, rfl⟩
      obtain ⟨hok, hmarked, hsafe⟩ := h.work hwork hshort hs ht
      refine ⟨hok, hmarked, hsafe, fun o => ?_, hconserved⟩
      have hold := h.fresh o
      have hzero := countP_isFresh_eq_zero (doTask_push hdo (h.ok _ hmem) hshort) o
      have hiff : (Op.push task).IsFresh o ↔ task.IsFresh o := Iff.rfl
      rw [hs, Multiset.countP_cons] at hold
      rw [ht, Multiset.countP_add, hzero, hexecuted, hmarks, List.singleton_append,
        List.countP_cons]
      simp only [hiff, decide_eq_true_eq] at hold ⊢
      omega
  | pass obj part next count stop rest hle hnull hmarks hs ht =>
      refine ⟨fun op hop => ?_, fun task htask => ?_, fun o => ?_, fun o => ?_, hconserved⟩
      · rcases Multiset.mem_cons.mp (ht ▸ hop) with rfl | hop
        · trivial
        · exact h.ok op (hs ▸ Multiset.mem_cons_of_mem hop)
      · rcases Multiset.mem_cons.mp (ht ▸ htask) with heq | hop
        · cases heq
        · exact hmarks ▸ h.marked task (hs ▸ Multiset.mem_cons_of_mem hop)
      · rw [← h.safe o, hmarks]
        have hcongr : coloring graph s.marks (· ∈ s.items) = coloring graph s.marks (· ∈ t.items) := by
          refine coloring_congr fun x => ?_
          simp only [hs, ht, Multiset.mem_cons, or_and_right, exists_or, exists_eq_left]
          exact or_congr_left (delivers_pass hnull x)
        rw [hcongr]
      · have hold := h.fresh o
        rw [hs, Multiset.countP_cons_of_neg _ id] at hold
        rw [ht, Multiset.countP_cons_of_neg _ id, hexecuted, hmarks]
        exact hold

theorem Inv.init : (⟨fun _ => false, roots, [], fun _ => ⟨⟨[], 0, []⟩, .rooting [], 0⟩, n, [], []⟩ :
    MarkingRun n).Inv graph roots := by
  have hitems : (⟨fun _ => false, roots, [], fun _ => ⟨⟨[], 0, []⟩, .rooting [], 0⟩, n, [], []⟩ :
      MarkingRun n).items = (roots.map Op.visit : Multiset Op) := by
    simp [items, inHand, queued, SlotVisitor.queued, WorkerPhase.ops]
  have hvisit {op : Op} (hop : op ∈ (roots.map Op.visit : Multiset Op)) :
      ∃ r ∈ roots, op = .visit r := by
    obtain ⟨r, hr, rfl⟩ := List.mem_map.mp (Multiset.mem_coe.mp hop)
    exact ⟨r, hr, rfl⟩
  refine ⟨fun op hop => ?_, fun task hop => ?_, fun o => ?_, fun o => ?_, ?_⟩
  · obtain ⟨r, -, rfl⟩ := hvisit (hitems ▸ hop)
    trivial
  · obtain ⟨r, -, heq⟩ := hvisit (hitems ▸ hop)
    cases heq
  · rw [hitems]
    constructor
    · rintro (hmark | ⟨r, ⟨op, hop, hr⟩, -, hpath⟩)
      · cases hmark
      · obtain ⟨r', hr', rfl⟩ := hvisit hop
        rcases hr with heq | ⟨_, _, hc, -⟩
        · obtain rfl := Op.visit.inj heq
          exact ⟨r', hr', Relation.ReflTransGen.mono (fun _ _ hab => hab.1) _ _ hpath⟩
        · exact absurd hc id
    · rintro ⟨r, hr, hpath⟩
      refine Or.inr ⟨r, ⟨.visit r, List.mem_map_of_mem hr, Or.inl rfl⟩, Bool.false_ne_true, ?_⟩
      exact Relation.ReflTransGen.mono (fun _ _ hab => ⟨hab, Bool.false_ne_true⟩) _ _ hpath
  · rw [hitems, Multiset.countP_eq_zero.mpr fun op hop hfresh => ?_]
    · simp
    · obtain ⟨r, -, rfl⟩ := hvisit hop
      exact hfresh
  · simp [queued, SlotVisitor.queued]

theorem inv_of_reachable (hlen : ∀ o, graph.Reaches roots o → (graph o).iterateRange = true →
    (graph o).length ≤ 2 ^ 30) (hs : (stwMark n stride graph roots).Reachable s) :
    s.Inv graph roots := by
  refine Machine.Reachable.invariant (P := fun s => s.Inv graph roots) ?_ ?_ hs
  · rintro s rfl
    exact Inv.init
  · exact fun s e t h hstep => h.step hlen hstep

theorem marking_exact (hlen : ∀ o, graph.Reaches roots o → (graph o).iterateRange = true →
    (graph o).length ≤ 2 ^ 30) (hs : (stwMark n stride graph roots).Reachable s) :
    s.Exact graph roots := by
  have h := inv_of_reachable hlen hs
  refine ⟨fun hdone o => ?_, fun o => ?_, h.conserved⟩
  · rw [← h.safe o]
    have hnone : ∀ x, ¬(coloring graph s.marks (· ∈ s.items)).source x := by
      rintro x ⟨op, hop, -⟩
      rw [hdone.items_eq] at hop
      exact Multiset.notMem_zero op hop
    exact ⟨Or.inl, fun hsafe => hsafe.marked_of_done hnone⟩
  · -- A task pushed has been begun or is still among the operations left.
    have hqueued : s.queued.countP (MarkTask.IsFresh o) ≤ s.items.countP (Op.IsFresh o) := by
      rw [items, Multiset.countP_add, Multiset.countP_map]
      refine le_trans (le_of_eq ?_) (Nat.le_add_left _ _)
      rw [Multiset.countP_eq_card_filter]
      rfl
    have hcount := congrArg (Multiset.countP (MarkTask.IsFresh o)) h.conserved
    rw [Multiset.countP_add, Multiset.coe_countP, Multiset.coe_countP] at hcount
    have hfresh := h.fresh o
    split at hfresh <;> omega

instance (s : MarkingRun n) : Decidable s.Done := inferInstanceAs (Decidable (_ ∧ _ ∧ _))

-- The run of a single worker, which takes the tasks of the injector one by one.
def soleWorker (graph : Graph) (s : MarkingRun 1) : MarkingEvent 1 :=
  let w : Fin 1 := ⟨0, Nat.one_pos⟩
  match (s.workers w).phase with
  | .running (.scan obj part next stop :: _) =>
      if next < stop ∧ (graph obj).Null part next (stop - next) then .pass w (stop - next)
      else .step w
  | .popGlobal => s.injector.head?.elim (.step w) fun task => .take w task []
  | .rooting [] => s.roots.head?.elim .start (.root w)
  | _ => .step w

def soleRun (graph : Graph) (roots : List Nat) (fuel : Nat) : MarkingRun 1 :=
  (stwMark 1 32 graph roots).drive (soleWorker graph) fuel
    ⟨fun _ => false, roots, [], fun _ => ⟨⟨[], 0, []⟩, .rooting [], 0⟩, 1, [], []⟩

theorem soleRun_reachable (graph : Graph) (roots : List Nat) (fuel : Nat) :
    (stwMark 1 32 graph roots).Reachable (soleRun graph roots fuel) :=
  Machine.drive_reachable (Machine.Via.init rfl) fuel

-- Object 0 is an array whose first element refers to object 1.
def arrayGraph (length : Nat) (hlt : length < 2 ^ 32) (hpos : 0 < length) : Graph := fun o =>
  if o = 0 then
    ⟨⟨false, 0, some ⟨length, 1, true, hlt⟩⟩, [(⟨.item, 0⟩, 1)], by
      intro entry hentry
      obtain rfl := List.mem_singleton.mp hentry
      exact ⟨rfl, by simpa [Shape.length, Shape.itemSlots] using hpos⟩⟩
  else ⟨⟨false, 0, none⟩, [], by simp⟩

theorem marking_exact_short_array :
    ∃ s, (stwMark 1 32 (arrayGraph 5000 (by decide) (by decide)) [0]).Reachable s ∧ s.Done ∧
      s.marks 1 = true ∧ s.Exact (arrayGraph 5000 (by decide) (by decide)) [0] := by
  have hdone : (soleRun (arrayGraph 5000 (by decide) (by decide)) [0] 60).Done ∧
      (soleRun (arrayGraph 5000 (by decide) (by decide)) [0] 60).marks 1 = true := by
    decide +kernel
  refine ⟨_, soleRun_reachable _ _ 60, hdone.1, hdone.2, marking_exact ?_ (soleRun_reachable _ _ 60)⟩
  intro o _ _
  by_cases ho : o = 0
  · subst ho
    show 5000 ≤ 2 ^ 30
    decide
  · simp [arrayGraph, ho, Shape.length]

-- With one element more than 2^30 the first one is in no chunk.
theorem long_array_first_element_lost :
    ¬∀ s : MarkingRun 1, (stwMark 1 32 (arrayGraph (2 ^ 30 + 1) (by decide) (by decide)) [0]).Reachable s →
      s.Exact (arrayGraph (2 ^ 30 + 1) (by decide) (by decide)) [0] := by
  intro hall
  have hdone : (soleRun (arrayGraph (2 ^ 30 + 1) (by decide) (by decide)) [0] 2600).Done ∧
      (soleRun (arrayGraph (2 ^ 30 + 1) (by decide) (by decide)) [0] 2600).marks 1 = false := by
    decide +kernel
  have hexact := (hall _ (soleRun_reachable _ _ 2600)).exact hdone.1 1
  have hreach : (arrayGraph (2 ^ 30 + 1) (by decide) (by decide)).Reaches [0] 1 :=
    ⟨0, List.mem_singleton_self 0, Relation.ReflTransGen.single ⟨⟨.item, 0⟩, rfl⟩⟩
  rw [hdone.2] at hexact
  exact absurd (hexact.mpr hreach) (by decide)

end MarkingRun

end Rsgc.Marking
