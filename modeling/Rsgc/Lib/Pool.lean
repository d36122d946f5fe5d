import Mathlib.Data.Fintype.EquivFin
import Rsgc.Lib.Census

namespace Rsgc

-- How far a worker of a pool is on its way from its own queue to the end.
-- A busy worker may hold work. A drained one has found its own queue empty, a
-- spent one the shared queue after that. A resting worker has left the counter
-- and a raising one has read it to rejoin.
inductive Stage
  | busy
  | drained
  | spent
  | resting
  | raising (seen : Nat)
  | stopped
deriving DecidableEq, Repr

def Stage.active : Stage → Bool
  | busy | drained | spent => true
  | resting | raising _ | stopped => false

-- A worker that has left for good, or will as soon as it looks again.
def Stage.final : Stage → Bool
  | stopped | raising 0 => true
  | _ => false

-- Workers with a queue each, one shared queue, and a counter of the workers
-- that have not announced that they are idle.
structure Pool (ι : Type*) where
  stage : ι → Stage
  loaded : ι → Prop
  shared : Prop
  count : Nat

namespace Pool

variable {ι : Type*}

section

variable [Fintype ι]

def activeCount (stage : ι → Stage) : Nat := ∑ i, (stage i).active.toNat

-- Work that is shared has a worker that will still look for it, and the
-- counter is right as long as it is used, which a single worker does not do.
structure Inv (p : Pool ι) : Prop where
  unloaded : ∀ i, p.stage i ≠ .busy → ¬p.loaded i
  shared : p.shared → Nonempty ι → ∃ i, p.stage i = .busy ∨ p.stage i = .drained
  count : Fintype.card ι ≠ 1 → p.count = activeCount p.stage
  final : ∀ i, (p.stage i).final = true → Fintype.card ι = 1 ∨ p.count = 0

theorem inactive_of_activeCount {stage : ι → Stage} (h : activeCount stage = 0) (i : ι) :
    (stage i).active = false := by
  have hi : (stage i).active.toNat = 0 := (Finset.sum_eq_zero_iff.mp h) i (Finset.mem_univ i)
  cases hb : (stage i).active with
  | false => rfl
  | true => rw [hb] at hi; exact absurd hi (by decide)

theorem Inv.init {p : Pool ι} (hstage : ∀ i, p.stage i = .busy)
    (hcount : p.count = Fintype.card ι) : p.Inv where
  unloaded i h := absurd (hstage i) h
  shared := fun _ ⟨i⟩ => ⟨i, Or.inl (hstage i)⟩
  count _ := by simp [activeCount, hstage, hcount, Stage.active]
  final i h := by rw [hstage i] at h; cases h

-- What an inactive worker of a finished pool leaves: nothing anywhere.
theorem Inv.finished {p : Pool ι} (hp : p.Inv) {i : ι} (hi : p.stage i = .stopped) :
    ¬p.shared ∧ ∀ j, (p.stage j).active = false ∧ ¬p.loaded j := by
  have hinactive : ∀ j, (p.stage j).active = false := by
    intro j
    by_cases hone : Fintype.card ι = 1
    · rw [Fintype.card_le_one_iff.mp hone.le j i, hi]
      rfl
    · have hzero := (hp.final i (by rw [hi]; rfl)).resolve_left hone
      exact inactive_of_activeCount ((hp.count hone).symm.trans hzero) j
  have hidle : ∀ j, p.stage j ≠ .busy ∧ p.stage j ≠ .drained := by
    intro j
    have hj := hinactive j
    constructor <;> intro h <;> rw [h] at hj <;> cases hj
  refine ⟨fun hs => ?_, fun j => ⟨hinactive j, hp.unloaded j (hidle j).1⟩⟩
  obtain ⟨j, hj | hj⟩ := hp.shared hs ⟨i⟩
  · exact (hidle j).1 hj
  · exact (hidle j).2 hj

end

variable [DecidableEq ι] [Fintype ι]

-- Worker `i` gets to stage `x`; of the other workers some work may be taken.
structure Moves (p q : Pool ι) (i : ι) (x : Stage) : Prop where
  stage : q.stage = Function.update p.stage i x
  loaded : ∀ j, j ≠ i → q.loaded j → p.loaded j

omit [Fintype ι] in
-- A worker is replaced where its stage and its load are read off the worker.
theorem moves_of_update {α : Type*} (stage : α → Stage) (loaded : α → Prop) (workers : ι → α)
    (i : ι) (x : α) (shared shared' : Prop) (count count' : Nat) :
    Moves ⟨fun j => stage (workers j), fun j => loaded (workers j), shared, count⟩
      ⟨fun j => stage (Function.update workers i x j),
        fun j => loaded (Function.update workers i x j), shared', count'⟩ i (stage x) where
  stage := by
    funext j
    by_cases hj : j = i
    · subst hj
      simp only [Function.update_self]
    · simp only [Function.update_of_ne hj]
  loaded j hj hl := by
    simpa only [Function.update_of_ne hj] using hl

-- The steps of a pool. Only a busy worker adds to the shared queue or to a queue.
inductive Step (p q : Pool ι) : Prop
  | work (i : ι) (h : p.stage i = .busy) (hm : Moves p q i .busy) (hc : q.count = p.count)
  | drain (i : ι) (h : p.stage i = .busy) (hm : Moves p q i .drained) (hl : ¬q.loaded i)
      (hs : q.shared → p.shared) (hc : q.count = p.count)
  | spend (i : ι) (h : p.stage i = .drained) (hm : Moves p q i .spent)
      (hl : q.loaded i → p.loaded i) (hs : ¬q.shared) (hc : q.count = p.count)
  | search (i : ι) (h : p.stage i = .spent) (hm : Moves p q i .spent)
      (hl : q.loaded i → p.loaded i) (hs : q.shared → p.shared) (hc : q.count = p.count)
  | resume (i : ι) (h : p.stage i = .drained ∨ p.stage i = .spent) (hm : Moves p q i .busy)
      (hs : q.shared → p.shared) (hc : q.count = p.count)
  | halt (i : ι) (hone : Fintype.card ι = 1) (h : p.stage i = .spent)
      (hm : Moves p q i .stopped) (hl : q.loaded i → p.loaded i) (hs : q.shared → p.shared)
      (hc : q.count = p.count)
  | rest (i : ι) (hone : Fintype.card ι ≠ 1) (h : p.stage i = .spent)
      (hm : Moves p q i (if p.count = 1 then .stopped else .resting))
      (hl : q.loaded i → p.loaded i) (hs : q.shared → p.shared) (hc : q.count = p.count - 1)
  | look (i : ι) (h : p.stage i = .resting) (hm : Moves p q i (.raising p.count))
      (hl : q.loaded i → p.loaded i) (hs : q.shared → p.shared) (hc : q.count = p.count)
  | raise (i : ι) (seen : Nat) (h : p.stage i = .raising seen)
      (hm : Moves p q i (if seen = 0 then .stopped
        else if p.count = seen then .busy else .raising p.count))
      (hl : q.loaded i → p.loaded i) (hs : q.shared → p.shared)
      (hc : q.count = if seen ≠ 0 ∧ p.count = seen then p.count + 1 else p.count)

theorem activeCount_update (stage : ι → Stage) (i : ι) (x : Stage) :
    activeCount (Function.update stage i x) + (stage i).active.toNat =
      activeCount stage + x.active.toNat :=
  sum_update_add (fun x : Stage => x.active.toNat) stage i x

variable {p q : Pool ι} {i : ι} {x : Stage}

-- What a move must respect for the invariant to hold after it.
theorem Moves.inv (hm : Moves p q i x) (hp : p.Inv) (hl : x ≠ .busy → ¬q.loaded i)
    (hs : q.shared → x = .busy ∨ x = .drained ∨
      (p.shared ∧ p.stage i ≠ .busy ∧ p.stage i ≠ .drained))
    (hc : q.count + (p.stage i).active.toNat = p.count + x.active.toNat ∨ Fintype.card ι = 1)
    (hx : x.final = true → Fintype.card ι = 1 ∨ q.count = 0)
    (hzero : p.count = 0 → Fintype.card ι = 1 ∨ q.count = 0) : q.Inv where
  unloaded j hj := by
    by_cases hji : j = i
    · subst hji
      rw [hm.stage, Function.update_self] at hj
      exact hl hj
    · rw [hm.stage, Function.update_of_ne hji] at hj
      exact fun h => hp.unloaded j hj (hm.loaded j hji h)
  shared h hne := by
    rcases hs h with hx | hx | ⟨hshared, hbusy, hdrained⟩
    · exact ⟨i, Or.inl (by rw [hm.stage, Function.update_self, hx])⟩
    · exact ⟨i, Or.inr (by rw [hm.stage, Function.update_self, hx])⟩
    · obtain ⟨j, hj⟩ := hp.shared hshared hne
      have hji : j ≠ i := by
        rintro rfl
        exact hj.elim hbusy hdrained
      exact ⟨j, by rwa [hm.stage, Function.update_of_ne hji]⟩
  count hone := by
    have hcount := hp.count hone
    have hupdate := activeCount_update p.stage i x
    have := hc.resolve_right hone
    rw [hm.stage]
    omega
  final j hj := by
    by_cases hji : j = i
    · subst hji
      rw [hm.stage, Function.update_self] at hj
      exact hx hj
    · rw [hm.stage, Function.update_of_ne hji] at hj
      exact (hp.final j hj).elim Or.inl hzero

theorem Step.inv (h : Step p q) (hp : p.Inv) : q.Inv := by
  cases h with
  | work i h hm hc =>
      refine hm.inv hp (by simp) (fun _ => Or.inl rfl) (Or.inl ?_) nofun ?_
      · simp [hc, h, Stage.active]
      · exact fun h0 => Or.inr (hc.trans h0)
  | drain i h hm hl hs hc =>
      refine hm.inv hp (fun _ => hl) (fun _ => Or.inr (Or.inl rfl)) (Or.inl ?_) nofun ?_
      · simp [hc, h, Stage.active]
      · exact fun h0 => Or.inr (hc.trans h0)
  | spend i h hm hl hs hc =>
      refine hm.inv hp ?_ (fun h' => absurd h' hs) (Or.inl ?_) nofun ?_
      · exact fun _ h' => hp.unloaded i (by simp [h]) (hl h')
      · simp [hc, h, Stage.active]
      · exact fun h0 => Or.inr (hc.trans h0)
  | search i h hm hl hs hc =>
      refine hm.inv hp ?_ (fun h' => Or.inr (Or.inr ⟨hs h', by simp [h]⟩)) (Or.inl ?_) nofun ?_
      · exact fun _ h' => hp.unloaded i (by simp [h]) (hl h')
      · simp [hc, h, Stage.active]
      · exact fun h0 => Or.inr (hc.trans h0)
  | resume i h hm hs hc =>
      refine hm.inv hp (by simp) (fun _ => Or.inl rfl) (Or.inl ?_) nofun ?_
      · rcases h with h | h <;> simp [hc, h, Stage.active]
      · exact fun h0 => Or.inr (hc.trans h0)
  | halt i hone h hm hl hs hc =>
      refine hm.inv hp ?_ (fun h' => Or.inr (Or.inr ⟨hs h', by simp [h]⟩)) (Or.inr hone) ?_ ?_
      · exact fun _ h' => hp.unloaded i (by simp [h]) (hl h')
      · exact fun _ => Or.inl hone
      · exact fun _ => Or.inl hone
  | rest i hone h hm hl hs hc =>
      -- `i` is counted itself, so the counter was positive.
      have hpos : 0 < p.count := by
        rw [hp.count hone, Nat.pos_iff_ne_zero]
        intro h0
        have := inactive_of_activeCount h0 i
        simp [h, Stage.active] at this
      refine hm.inv hp ?_ (fun h' => Or.inr (Or.inr ⟨hs h', by simp [h]⟩)) (Or.inl ?_) ?_ ?_
      · exact fun _ h' => hp.unloaded i (by simp [h]) (hl h')
      · have hx : (if p.count = 1 then Stage.stopped else .resting).active = false := by
          split <;> rfl
        have hi : (p.stage i).active = true := by rw [h]; rfl
        rw [hx, hi, hc]
        simp only [Bool.toNat_true, Bool.toNat_false]
        omega
      · intro hx
        by_cases h1 : p.count = 1
        · exact Or.inr (by omega)
        · simp [h1, Stage.final] at hx
      · exact fun h0 => absurd h0 hpos.ne'
  | look i h hm hl hs hc =>
      refine hm.inv hp ?_ (fun h' => Or.inr (Or.inr ⟨hs h', by simp [h]⟩)) (Or.inl ?_) ?_ ?_
      · exact fun _ h' => hp.unloaded i (by simp [h]) (hl h')
      · simp [hc, h, Stage.active]
      · intro hx
        cases hcount : p.count with
        | zero => exact Or.inr (hc.trans hcount)
        | succ k => rw [hcount] at hx; cases hx
      · exact fun h0 => Or.inr (hc.trans h0)
  | raise i seen h hm hl hs hc =>
      refine hm.inv hp ?_ (fun h' => Or.inr (Or.inr ⟨hs h', by simp [h]⟩)) (Or.inl ?_) ?_ ?_
      · exact fun _ h' => hp.unloaded i (by simp [h]) (hl h')
      · by_cases hz : seen = 0
        · simp [hc, h, hz, Stage.active]
        · by_cases hseen : p.count = seen <;> simp [hc, h, hz, hseen, Stage.active]
      · intro hx
        by_cases hz : seen = 0
        · subst hz
          refine (hp.final i (by rw [h]; rfl)).imp id fun h0 => ?_
          rw [hc, if_neg (by simp), h0]
        · by_cases hseen : p.count = seen
          · simp [hz, hseen, Stage.final] at hx
          · cases hcount : p.count with
            | zero => exact Or.inr (by rw [hc, if_neg (by omega), hcount])
            | succ k =>
                rw [if_neg hz, if_neg hseen, hcount] at hx
                cases hx
      · intro h0
        refine Or.inr ?_
        rw [hc, if_neg (by omega), h0]

end Pool

end Rsgc
