import Rsgc.Sync.WorkerThreads

namespace Rsgc.Sync

namespace WorkerStage

def isWoken : WorkerStage → Bool
  | woken => true
  | _ => false

def isWorked : WorkerStage → Bool
  | worked => true
  | _ => false

def isSignalling : WorkerStage → Bool
  | signalling => true
  | _ => false

-- The id of a worker that has not called `work` yet.
def numberedId : WorkerStage → Multiset Nat
  | numbered id => {id}
  | _ => 0

-- The id of a call of `work` that goes on.
def workingId : WorkerStage → Multiset Nat
  | working _ id => {id}
  | _ => 0

def Resting (stage : WorkerStage) : Prop := stage = absent ∨ stage = waiting

end WorkerStage

-- How many workers are in which stage, and with which ids.
structure Tally where
  woken : Nat
  worked : Nat
  signalling : Nat
  numbered : Multiset Nat
  working : Multiset Nat

namespace Tally

open WorkerStage

def of {τ : Type*} [Fintype τ] (stage : τ → WorkerStage) : Tally where
  woken := census isWoken stage
  worked := census isWorked stage
  signalling := census isSignalling stage
  numbered := ∑ t, (stage t).numberedId
  working := ∑ t, (stage t).workingId

def add (c : Tally) : WorkerStage → Tally
  | .absent | .waiting => c
  | .woken => { c with woken := c.woken + 1 }
  | .numbered id => { c with numbered := {id} + c.numbered }
  | .working _ id => { c with working := {id} + c.working }
  | .worked => { c with worked := c.worked + 1 }
  | .signalling => { c with signalling := c.signalling + 1 }

-- One worker apart from the others.
theorem of_update {τ : Type*} [DecidableEq τ] [Fintype τ] (stage : τ → WorkerStage) (t : τ) :
    ∃ c : Tally, ∀ x, of (Function.update stage t x) = c.add x := by
  obtain ⟨woken, hwoken⟩ := sum_split (fun y => (isWoken y).toNat) stage t
  obtain ⟨worked, hworked⟩ := sum_split (fun y => (isWorked y).toNat) stage t
  obtain ⟨signalling, hsignalling⟩ := sum_split (fun y => (isSignalling y).toNat) stage t
  obtain ⟨numbered, hnumbered⟩ := sum_split numberedId stage t
  obtain ⟨working, hworking⟩ := sum_split workingId stage t
  refine ⟨⟨woken, worked, signalling, numbered, working⟩, fun x => ?_⟩
  unfold of census
  rw [hwoken, hworked, hsignalling, hnumbered, hworking]
  cases x <;>
    simp [add, isWoken, isWorked, isSignalling, numberedId, workingId, Nat.add_comm]

def none : Tally := ⟨0, 0, 0, 0, 0⟩

theorem of_eq_none {τ : Type*} [Fintype τ] {stage : τ → WorkerStage} :
    of stage = none ↔ ∀ t, (stage t).Resting := by
  unfold of none
  simp only [Tally.mk.injEq, census_eq_zero, Finset.sum_eq_zero_iff, Finset.mem_univ, true_imp_iff,
    ← forall_and]
  refine forall_congr' fun t => ?_
  cases stage t <;>
    simp [isWoken, isWorked, isSignalling, numberedId, workingId, Resting]

end Tally

-- The values that `n` calls of `fetch_add` give.
def idsFrom (base n : Nat) : Multiset Nat :=
  (Multiset.range n).map fun i => (base + i) % 2 ^ 64

theorem idsFrom_succ (base n : Nat) :
    idsFrom base (n + 1) = {(base + n) % 2 ^ 64} + idsFrom base n := by
  unfold idsFrom
  rw [Multiset.range_succ, Multiset.map_cons, Multiset.singleton_add]

@[simp] theorem card_idsFrom (base n : Nat) : (idsFrom base n).card = n := by
  simp [idsFrom]

theorem nodup_idsFrom {base n : Nat} (hn : n ≤ 2 ^ 64) : (idsFrom base n).Nodup := by
  refine Multiset.Nodup.map_on (fun i hi j hj heq => ?_) (Multiset.nodup_range n)
  have hi' := Multiset.mem_range.mp hi
  have hj' := Multiset.mem_range.mp hj
  omega

-- The ids are the numbers of the workers just when the counter starts at zero.
theorem idsFrom_eq_range_iff {base n : Nat} (hbase : base < 2 ^ 64) (hn : n < 2 ^ 64)
    (hpos : 0 < n) : idsFrom base n = Multiset.range n ↔ base = 0 := by
  constructor
  · intro heq
    by_contra hzero
    have hbelow : ∀ i < n, (base + i) % 2 ^ 64 < n := by
      intro i hi
      rw [← Multiset.mem_range, ← heq]
      exact Multiset.mem_map_of_mem _ (Multiset.mem_range.mpr hi)
    have hfirst := hbelow 0 hpos
    rw [Nat.add_zero, Nat.mod_eq_of_lt hbase] at hfirst
    have hlast := hbelow (n - base) (by omega)
    rw [show base + (n - base) = n by omega, Nat.mod_eq_of_lt hn] at hlast
    omega
  · rintro rfl
    unfold idsFrom
    refine (Multiset.map_congr rfl fun i hi => ?_).trans (Multiset.map_id _)
    have hlt := Multiset.mem_range.mp hi
    rw [Nat.zero_add, Nat.mod_eq_of_lt (by omega)]
    rfl

-- All ids have been given, and all the calls are over.
structure TaskRecord.Complete (r : TaskRecord) : Prop where
  pos : 0 < r.numWorkers
  num_lt : r.numWorkers < 2 ^ 64
  started_lt : r.startedAt < 2 ^ 64
  ids : (r.ids : Multiset Nat) = idsFrom r.startedAt r.numWorkers
  finished : (r.finished : Multiset Nat) = r.ids

-- The counters in the middle of a task: `a` ids have been given, `left` signals are to
-- come, and `ended` signals of the end were received.
structure Balanced (d : WorkerTaskDispatcher) (r : TaskRecord) (c : Tally) (a left ended : Nat) :
    Prop where
  num_lt : r.numWorkers < 2 ^ 64
  at_lt : r.startedAt < 2 ^ 64
  started : d.started = (r.startedAt + a) % 2 ^ 64
  tokens : d.startSemaphore + c.woken + a + left = r.numWorkers
  ids : (r.ids : Multiset Nat) + c.numbered = idsFrom r.startedAt a
  finished : (r.finished : Multiset Nat) + c.working = r.ids
  notFinished : d.notFinished + r.finished.length = r.numWorkers + c.worked
  notFinished_le : d.notFinished ≤ r.numWorkers
  ending : d.endSemaphore + c.signalling + ended = min r.numWorkers 1 - d.notFinished

namespace Balanced

variable {d : WorkerTaskDispatcher} {r : TaskRecord} {c : Tally} {k a left ended id : Nat}

theorem finished_card (h : Balanced d r c a left ended) :
    r.finished.length + c.working.card = r.ids.length := by
  have hcard := congrArg Multiset.card h.finished
  rwa [Multiset.card_add, Multiset.coe_card, Multiset.coe_card] at hcard

theorem ids_card (h : Balanced d r c a left ended) : r.ids.length + c.numbered.card = a := by
  have hcard := congrArg Multiset.card h.ids
  rwa [Multiset.card_add, Multiset.coe_card, card_idsFrom] at hcard

theorem waitStart (h : Balanced d r (c.add .waiting) a left ended) (hpos : 0 < d.startSemaphore) :
    Balanced d.waitStart r (c.add .woken) a left ended := by
  have htokens : d.startSemaphore - 1 + (c.woken + 1) + a + left = r.numWorkers := by
    have hold : d.startSemaphore + c.woken + a + left = r.numWorkers := h.tokens
    omega
  exact { h with tokens := htokens }

theorem fetchId (h : Balanced d r (c.add .woken) a left ended) :
    Balanced d.addStarted r (c.add (.numbered d.started)) (a + 1) left ended := by
  have hstarted : (d.started + 1) % 2 ^ 64 = (r.startedAt + (a + 1)) % 2 ^ 64 := by
    rw [h.started, Nat.mod_add_mod, Nat.add_assoc]
  have htokens : d.startSemaphore + c.woken + (a + 1) + left = r.numWorkers := by
    have hold : d.startSemaphore + (c.woken + 1) + a + left = r.numWorkers := h.tokens
    omega
  have hids : (r.ids : Multiset Nat) + ({d.started} + c.numbered) =
      idsFrom r.startedAt (a + 1) := by
    have hold : (r.ids : Multiset Nat) + c.numbered = idsFrom r.startedAt a := h.ids
    rw [idsFrom_succ, ← hold, h.started, add_left_comm]
  exact { h with started := hstarted, tokens := htokens, ids := hids }

theorem readTask (h : Balanced d r (c.add (.numbered id)) a left ended) :
    Balanced d { r with ids := id :: r.ids } (c.add (.working k id)) a left ended := by
  have hids : ((id :: r.ids : List Nat) : Multiset Nat) + c.numbered = idsFrom r.startedAt a := by
    have hold : (r.ids : Multiset Nat) + ({id} + c.numbered) = idsFrom r.startedAt a := h.ids
    rw [← Multiset.cons_coe, ← Multiset.singleton_add, add_right_comm, ← hold, add_left_comm]
    ac_rfl
  have hfinished : (r.finished : Multiset Nat) + ({id} + c.working) =
      ((id :: r.ids : List Nat) : Multiset Nat) := by
    have hold : (r.finished : Multiset Nat) + c.working = r.ids := h.finished
    rw [← Multiset.cons_coe, ← Multiset.singleton_add, ← hold, add_left_comm]
  exact { h with ids := hids, finished := hfinished }

theorem workReturns (h : Balanced d r (c.add (.working k id)) a left ended) :
    Balanced d { r with finished := id :: r.finished } (c.add .worked) a left ended := by
  have hfinished : ((id :: r.finished : List Nat) : Multiset Nat) + c.working = r.ids := by
    have hold : (r.finished : Multiset Nat) + ({id} + c.working) = r.ids := h.finished
    rw [← Multiset.cons_coe, ← Multiset.singleton_add, ← hold]
    ac_rfl
  have hnot : d.notFinished + (r.finished.length + 1) = r.numWorkers + (c.worked + 1) := by
    have hold : d.notFinished + r.finished.length = r.numWorkers + c.worked := h.notFinished
    omega
  exact { h with finished := hfinished, notFinished := hnot }

theorem subNotFinished (h : Balanced d r (c.add .worked) a left ended) :
    Balanced d.subNotFinished r
      (c.add (if d.notFinished = 1 then .signalling else .waiting)) a left ended := by
  have hnot : d.notFinished + r.finished.length = r.numWorkers + (c.worked + 1) := h.notFinished
  have hending : d.endSemaphore + c.signalling + ended = min r.numWorkers 1 - d.notFinished :=
    h.ending
  -- no more calls are over than were made, so the counter is not zero
  have hpos : 0 < d.notFinished := by
    have htokens : d.startSemaphore + c.woken + a + left = r.numWorkers := h.tokens
    have hids := h.ids_card
    have hfinished := h.finished_card
    omega
  have hle := h.notFinished_le
  have hdec : d.subNotFinished = { d with notFinished := d.notFinished - 1 } := by
    have hlt := h.num_lt
    unfold WorkerTaskDispatcher.subNotFinished
    rw [show (d.notFinished + (2 ^ 64 - 1)) % 2 ^ 64 = d.notFinished - 1 by omega]
  have hnot' : d.notFinished - 1 + r.finished.length = r.numWorkers + c.worked := by omega
  have hle' : d.notFinished - 1 ≤ r.numWorkers := by omega
  rw [hdec]
  by_cases hlast : d.notFinished = 1
  · have hending' : d.endSemaphore + (c.signalling + 1) + ended =
        min r.numWorkers 1 - (d.notFinished - 1) := by
      omega
    rw [if_pos hlast]
    exact { h with notFinished := hnot', notFinished_le := hle', ending := hending' }
  · have hending' : d.endSemaphore + c.signalling + ended =
        min r.numWorkers 1 - (d.notFinished - 1) := by
      omega
    rw [if_neg hlast]
    exact { h with notFinished := hnot', notFinished_le := hle', ending := hending' }

theorem signalEnd (h : Balanced d r (c.add .signalling) a left ended) :
    Balanced d.signalEnd r (c.add .waiting) a left ended := by
  have hending : d.endSemaphore + 1 + c.signalling + ended =
      min r.numWorkers 1 - d.notFinished := by
    have hold : d.endSemaphore + (c.signalling + 1) + ended =
      min r.numWorkers 1 - d.notFinished := h.ending
    omega
  exact { h with ending := hending }

theorem init (d : WorkerTaskDispatcher) {numWorkers : Nat} (hn : numWorkers < 2 ^ 64)
    (hstarted : d.started < 2 ^ 64) (hstart : d.startSemaphore = 0) (hend : d.endSemaphore = 0) :
    Balanced { d with notFinished := numWorkers } ⟨numWorkers, d.started, [], [], false⟩ .none
      0 numWorkers 0 where
  num_lt := hn
  at_lt := hstarted
  started := (Nat.mod_eq_of_lt hstarted).symm
  tokens := by simp [hstart, Tally.none]
  ids := rfl
  finished := rfl
  notFinished := rfl
  notFinished_le := Nat.le_refl _
  ending := by simp [hend, Tally.none]

theorem signalStart (h : Balanced d r c a (left + 1) ended) :
    Balanced d.signalStart r c a left ended := by
  have htokens : d.startSemaphore + 1 + c.woken + a + left = r.numWorkers := by
    have hold := h.tokens
    omega
  exact { h with tokens := htokens }

theorem waitEnd (h : Balanced d r c a left 0) (hpos : 0 < d.endSemaphore) :
    Balanced d.waitEnd r c a left 1 := by
  have hending : d.endSemaphore - 1 + c.signalling + 1 = min r.numWorkers 1 - d.notFinished := by
    have hold := h.ending
    omega
  exact { h with ending := hending }

-- When the coordinator has received the signal of the end, nothing is left to do.
theorem completed (h : Balanced d r c a 0 1) :
    c = .none ∧ d.startSemaphore = 0 ∧ d.endSemaphore = 0 ∧ r.Complete := by
  have htokens := h.tokens
  have hnot := h.notFinished
  have hending := h.ending
  have hids := h.ids_card
  have hfinished := h.finished_card
  have ha : a = r.numWorkers := by omega
  have hnumbered : c.numbered = 0 := Multiset.card_eq_zero.mp (by omega)
  have hworking : c.working = 0 := Multiset.card_eq_zero.mp (by omega)
  have hc : c = ⟨c.woken, c.worked, c.signalling, c.numbered, c.working⟩ := rfl
  refine ⟨?_, by omega, by omega, by omega, h.num_lt, h.at_lt, ?_, ?_⟩
  · rw [hc, hnumbered, hworking, show c.woken = 0 by omega, show c.worked = 0 by omega,
      show c.signalling = 0 by omega]
    rfl
  · have hall := h.ids
    rwa [hnumbered, add_zero, ha] at hall
  · have hall := h.finished
    rwa [hworking, add_zero] at hall

end Balanced

end Rsgc.Sync
