import Rsgc.Lib.Simulation
import Rsgc.Sync.Monitor.Ideal
import Rsgc.Sync.Monitor.Steps

namespace Rsgc.Sync

namespace Monitor

variable {τ : Type*} [DecidableEq τ]

-- A notification of all is about to empty the queue of the condition variable.
def Clearing (code : τ → Code) : Prop := ∃ t, (code t).inQueues = some .all

-- The thread waits, and no notification has reached it.
def Pending (s : Monitor τ) (t : τ) : Prop := s.slot t = .atCondvar ∧ ¬Clearing s.code

structure Shows (s : Monitor τ) (x : IdealMonitor τ) : Prop where
  owner : ∀ t, s.Owns t ↔ x.owner = some t
  outside : ∀ t, x.place t = .outside ↔ (s.code t).holds = false ∧ (s.code t).seeks = false ∧
    (s.code t).waits = false ∧ (s.code t).sleeps = false
  inside : ∀ t, x.place t = .inside ↔
    (s.code t).holds = true ∧ (s.code t).waits = false ∨ s.slot t = .unparked true
  waiting : ∀ t, x.place t = .waiting ↔ s.Pending t
  unnotified : ∀ t, (s.code t).waits = true → (x.unnotified t = true ↔ s.Pending t)
  result : ∀ t, (s.code t).waits = false → x.unnotified t = s.timedOut t

-- A notification that has found nobody who waits.
def foundNone : Notify → List (IdealEvent τ)
  | .one => [.notifyOne none]
  | .all => [.notifyAll]

-- What happens where the mutex is unlocked, by what its owner does next.
def unlocked (t : τ) : Resume → List (IdealEvent τ)
  | .leave => [.leave t]
  | .relock => [.leave t, .enter t]
  | .sleep _ => [.release t]

-- The steps of the code at which the monitor does something, and what. A notification of
-- all is effective when it has taken the queues, one of one thread with its choice.
def trace (s : Monitor τ) : MonitorEvent τ → List (IdealEvent τ)
  | .lock t => [.enter t]
  | .tryLock t => if isLocked s.state then [.tryEnter t false] else []
  | .unlock t _ => if s.state = LOCKED_BIT then [.leave t] else []
  | .bump _ => []
  | .wait t _ => [.wait t]
  | .notify _ op => if s.condState then [] else foundNone op
  | .step t succeeds =>
      match s.code t with
      | .trying state =>
          if s.state = state ∧ succeeds = true then [.tryEnter t true]
          else if isLocked s.state then [.tryEnter t false] else []
      | .locking => if s.state = 0#8 ∧ succeeds = true then [.acquire t] else []
      | .slow state =>
          if isLocked state = false ∧ s.state = state ∧ succeeds = true then [.acquire t] else []
      | .beforeSleep _ => if s.state = LOCKED_BIT then [.release t] else []
      | .notifying op _ =>
          if s.condState then if op = .all then [.notifyAll] else [] else foundNone op
      | _ => []
  | .spin _ => []
  | .unpark t chosen beFair =>
      match s.code t, chosen with
      | .unlockSlow _ next, none => unlocked t next
      | .unlockSlow forceFair next, some u =>
          unlocked t next ++ if forceFair || beFair then [.acquire u] else []
      | _, _ => []
  | .requeue t chosen =>
      match s.code t with
      | .requeueing .one _ _ => [.notifyOne chosen]
      | _ => []
  | .timeout t => if s.slot t = .atCondvar then [.timeout t] else []

variable {s u : Monitor τ} {x : IdealMonitor τ} {t : τ}

theorem clearing_update {code : τ → Code} {c : Code} (hc : c.inQueues = (code t).inQueues) :
    Clearing (Function.update code t c) ↔ Clearing code := by
  unfold Clearing
  refine exists_congr fun v => ?_
  rcases eq_or_ne v t with rfl | hv
  · rw [Function.update_self, hc]
  · rw [Function.update_of_ne hv]

omit [DecidableEq τ] in
theorem Inv.not_clearing (h : s.Inv) (hq : s.queueLock = none) : ¬Clearing s.code := by
  rintro ⟨t, ht⟩
  have hlock := (h.queueLock t).mp (by simp [ht])
  simp [hq] at hlock

theorem Shows.moves (h : s.Shows x) {c c' : Code} (hc : s.code t = c) (hkind : c'.kind = c.kind)
    (hseeks : c'.seeks = c.seeks) : (s.goto t c').Shows x := by
  subst hc
  simp only [Code.kind, Prod.mk.injEq] at hkind
  obtain ⟨hholds, hqueues, hwaits, hsleeps⟩ := hkind
  obtain ⟨ho, hout, hin, hwait, hunn, hres⟩ := h
  constructor
  all_goals simp only [goto, Owns, Pending, clearing_update hqueues, Function.update_apply] at *
  all_goals grind

theorem Shows.enters (h : s.Shows x) (hinv : s.Inv) (hc : s.code t = .idle) :
    ∃ y, (idealMonitor τ).run x [.enter t] = some y ∧ (s.goto t .locking).Shows y := by
  have hfits := hinv.fits t
  simp only [hc, Code.Fits] at hfits
  have hcl : Clearing (Function.update s.code t .locking) ↔ Clearing s.code :=
    clearing_update (by rw [hc]; rfl)
  obtain ⟨ho, hout, hin, hwait, hunn, hres⟩ := h
  have hplace : x.place t = .outside := (hout t).mpr (by simp [hc, Code.holds, Code.seeks, Code.waits, Code.sleeps])
  refine ⟨x.move t .entering, by simp [Machine.run, idealMonitor, IdealMonitor.step, hplace], ?_⟩
  constructor
  all_goals simp only [IdealMonitor.move, goto, Owns, Pending, hcl, Function.update_apply] at *
  all_goals grind [Code.holds, Code.seeks, Code.waits, Code.sleeps]

omit [DecidableEq τ] in
theorem Shows.free (h : s.Shows x) (hinv : s.Inv) (hl : isLocked s.state = false) :
    x.owner = none := by
  cases howner : x.owner with
  | none => rfl
  | some v =>
      have hlocked := hinv.locked_iff.mpr ⟨v, (h.owner v).mpr howner⟩
      simp [hl] at hlocked

theorem Shows.acquires (h : s.Shows x) (hinv : s.Inv)
    (hc : (s.code t).seeks = true ∨ ∃ state, s.code t = .trying state)
    (hl : isLocked s.state = false) (w : BitVec 8) :
    Shows { s.goto t .holding with state := w } (x.own t) := by
  obtain ⟨hholds, hqueues, hwaits, hrunning⟩ := Code.free_of_seeks hc
  have hslot := hrunning _ (hinv.fits t)
  have hfree := h.free hinv hl
  have hcl : Clearing (Function.update s.code t .holding) ↔ Clearing s.code :=
    clearing_update (by rw [hqueues]; rfl)
  obtain ⟨ho, hout, hin, hwait, hunn, hres⟩ := h
  constructor
  all_goals
    simp only [IdealMonitor.own, IdealMonitor.move, goto, Owns, Pending, hcl,
      Function.update_apply] at *
  all_goals grind [Code.holds, Code.seeks, Code.waits, Code.sleeps]

-- The code with which a thread unlocks the mutex
theorem Shows.unlocks (h : s.Shows x) (hinv : s.Inv) (next : Resume) (w : BitVec 8)
    (hc : (∃ forceFair, s.code t = .unlockSlow forceFair next) ∨
      s.code t = .holding ∧ next = .leave ∨
      ∃ timed, s.code t = .beforeSleep timed ∧ next = .sleep timed) :
    ∃ y, (idealMonitor τ).run x (unlocked t next) = some y ∧ y.owner = none ∧
      Shows { s.goto t (.resumed next) with state := w } y := by
  have hfits := hinv.fits t
  have hcl : Clearing (Function.update s.code t (.resumed next)) ↔ Clearing s.code := by
    apply clearing_update
    rcases hc with ⟨forceFair, hc⟩ | ⟨hc, rfl⟩ | ⟨timed, hc, rfl⟩
    · rw [hc]
      exact (Code.resumed_spec forceFair next).2.1
    · rw [hc]; rfl
    · rw [hc]; rfl
  have howner : x.owner = some t := (h.owner t).mp (Or.inl (by grind [Code.holds]))
  obtain ⟨ho, hout, hin, hwait, hunn, hres⟩ := h
  cases next with
  | leave =>
      have hplace : x.place t = .inside :=
        (hin t).mpr (Or.inl (by grind [Code.holds, Code.waits]))
      refine ⟨{ x.move t .outside with owner := none },
        by simp [Machine.run, idealMonitor, IdealMonitor.step, hplace, howner, unlocked], rfl, ?_⟩
      constructor
      all_goals
        simp only [IdealMonitor.move, goto, Owns, Pending, Function.update_apply, Code.resumed] at *
      all_goals grind [Code.holds, Code.seeks, Code.waits, Code.sleeps, Code.Fits]
  | relock =>
      have hplace : x.place t = .inside :=
        (hin t).mpr (Or.inl (by grind [Code.holds, Code.waits]))
      refine ⟨{ x.move t .entering with owner := none }, ?_, rfl, ?_⟩
      · simp [Machine.run, idealMonitor, IdealMonitor.step, hplace, howner, unlocked, IdealMonitor.move]
      constructor
      all_goals
        simp only [IdealMonitor.move, goto, Owns, Pending, Function.update_apply, Code.resumed] at *
      all_goals grind [Code.holds, Code.seeks, Code.waits, Code.sleeps, Code.Fits]
  | sleep timed =>
      have hplace : x.place t ≠ .inside := by
        rw [ne_eq, hin]
        grind [Code.waits, Code.Fits]
      refine ⟨{ x with owner := none },
        by simp [Machine.run, idealMonitor, IdealMonitor.step, hplace, howner, unlocked], rfl, ?_⟩
      constructor
      all_goals
        simp only [goto, Owns, Pending, Function.update_apply, Code.resumed] at *
      all_goals grind [Code.holds, Code.seeks, Code.waits, Code.sleeps, Code.Fits]

-- The entry of a thread in the queue of the mutex is given a token, with the mutex or not.
theorem Shows.handsOver (h : s.Shows x) (hslot : s.slot t = .atMutex)
    (hc : (s.code t).sleeps = true) (hfree : x.owner = none) (w : BitVec 8) (queue : List τ) :
    (idealMonitor τ).run x [.acquire t] = some (x.own t) ∧
      Shows { s.setSlot t (.unparked true) with mutexQueue := queue, state := w } (x.own t) := by
  obtain ⟨hholds, hseek, hqueues, hmarked⟩ := Code.of_sleeps hc
  obtain ⟨ho, hout, hin, hwait, hunn, hres⟩ := h
  constructor
  · have hplace : x.place t = .entering := by
      cases hp : x.place t with
      | entering => rfl
      | outside => simp [(hout t).mp hp] at hc
      | inside => simpa [hholds, hslot] using (hin t).mp hp
      | waiting => simpa [Pending, hslot] using (hwait t).mp hp
    simp [Machine.run, idealMonitor, IdealMonitor.step, hplace, hfree]
  · constructor
    all_goals
      simp only [IdealMonitor.own, IdealMonitor.move, setSlot, Owns, Pending,
        Function.update_apply] at *
    all_goals grind

theorem Shows.unparked (h : s.Shows x) (hslot : s.slot t = .atMutex) (w : BitVec 8)
    (queue : List τ) :
    Shows { s.setSlot t (.unparked false) with mutexQueue := queue, state := w } x := by
  obtain ⟨ho, hout, hin, hwait, hunn, hres⟩ := h
  constructor
  all_goals simp only [setSlot, Owns, Pending, Function.update_apply] at *
  all_goals grind

theorem Shows.parksMutex (h : s.Shows x) (hinv : s.Inv) (hc : s.code t = .parking) :
    (s.parkMutex t).Shows x := by
  unfold parkMutex
  split_ifs with hs
  · have hslot : s.slot t = .running := by simpa [hc, Code.Fits] using hinv.fits t
    have hcl : Clearing (Function.update s.code t .parked) ↔ Clearing s.code :=
      clearing_update (by rw [hc]; rfl)
    obtain ⟨ho, hout, hin, hwait, hunn, hres⟩ := h
    constructor
    all_goals simp only [goto, setSlot, Owns, Pending, hcl, Function.update_apply] at *
    all_goals grind [Code.holds, Code.seeks, Code.waits, Code.sleeps]
  · exact h.moves hc rfl rfl

theorem Shows.parksCondvar (h : s.Shows x) (hinv : s.Inv) (hc : s.code t = .holding)
    (hq : s.queueLock = none) (timed : Bool) :
    ∃ y, (idealMonitor τ).run x [.wait t] = some y ∧ (s.parkCondvar t timed).Shows y := by
  have hslot : s.slot t = .running := by simpa [hc, Code.Fits] using hinv.fits t
  have hcl : Clearing (Function.update s.code t (.beforeSleep timed)) ↔ Clearing s.code :=
    clearing_update (by rw [hc]; rfl)
  have hclearing := hinv.not_clearing hq
  have howner : x.owner = some t := (h.owner t).mp (Or.inl (by simp [hc, Code.holds]))
  have hplace : x.place t = .inside := (h.inside t).mpr (Or.inl (by simp [hc, Code.holds, Code.waits]))
  obtain ⟨ho, hout, hin, hwait, hunn, hres⟩ := h
  refine ⟨_, by simp [Machine.run, idealMonitor, IdealMonitor.step, hplace, howner]; rfl, ?_⟩
  constructor
  all_goals
    simp only [parkCondvar, IdealMonitor.move, goto, setSlot, Owns, Pending, hcl,
      Function.update_apply] at *
  all_goals grind [Code.holds, Code.seeks, Code.waits, Code.sleeps]

theorem Shows.handedOver (h : s.Shows x) (hslot : s.slot t = .unparked true)
    (hc : (s.code t).sleeps = true) {timedOut : τ → Bool}
    (htimed : ∀ v, timedOut v = if v = t ∧ (s.code t).waits = true then false else s.timedOut v) :
    Shows { (s.goto t .holding).setSlot t .running with timedOut := timedOut } x := by
  obtain ⟨hholds, hseek, hqueues, hmarked⟩ := Code.of_sleeps hc
  have hcl : Clearing (Function.update s.code t .holding) ↔ Clearing s.code :=
    clearing_update (by rw [hqueues]; rfl)
  obtain ⟨ho, hout, hin, hwait, hunn, hres⟩ := h
  constructor
  all_goals simp only [goto, setSlot, Owns, Pending, hcl, Function.update_apply] at *
  all_goals grind [Code.holds, Code.seeks, Code.waits, Code.sleeps]

theorem Shows.awakes (h : s.Shows x) {c : Code} (hslot : s.slot t = .unparked false)
    (hc : (s.code t).sleeps = true) (hseeks : c = .reloading ∨ c = .locking) {timedOut : τ → Bool}
    (htimed : ∀ v, timedOut v = if v = t ∧ (s.code t).waits = true then false else s.timedOut v) :
    Shows { (s.goto t c).setSlot t .running with timedOut := timedOut } x := by
  obtain ⟨hholds, hseek, hqueues, hmarked⟩ := Code.of_sleeps hc
  have hcl : Clearing (Function.update s.code t c) ↔ Clearing s.code := by
    apply clearing_update
    rcases hseeks with rfl | rfl <;> rw [hqueues] <;> rfl
  obtain ⟨ho, hout, hin, hwait, hunn, hres⟩ := h
  constructor
  all_goals simp only [goto, setSlot, Owns, Pending, hcl, Function.update_apply] at *
  all_goals grind [Code.holds, Code.seeks, Code.waits, Code.sleeps]

-- A notification that sees no waiting thread is right.
theorem Shows.foundNone (h : s.Shows x) (hnone : ∀ t, ¬s.Pending t) (op : Notify) :
    (idealMonitor τ).run x (Monitor.foundNone op) = some x := by
  have hplace : ∀ t, x.place t ≠ .waiting := fun t hw => hnone t ((h.waiting t).mp hw)
  cases op with
  | one => simp [Monitor.foundNone, Machine.run, idealMonitor, IdealMonitor.step, hplace]
  | all => simp [Monitor.foundNone, Machine.run, idealMonitor, IdealMonitor.step, hplace]

omit [DecidableEq τ] in
theorem Inv.waits_of_atCondvar (h : s.Inv) (t : τ) (hslot : s.slot t = .atCondvar) :
    (s.code t).waits = true :=
  Code.waits_of_fits (hslot ▸ h.fits t)

omit [DecidableEq τ] in
theorem Inv.not_pending (h : s.Inv) (hnull : s.condState = false) (t : τ) : ¬s.Pending t := by
  rintro ⟨hslot, hclearing⟩
  have hmem := (h.condQueue.mem_iff t).mpr hslot
  rcases h.condState (List.ne_nil_of_mem hmem) with hs | hex
  · simp [hnull] at hs
  · exact hclearing hex

-- With the queues locked a notification of all is made.
theorem Shows.locksQueues (h : s.Shows x) (hinv : s.Inv) {op : Notify} {held : Bool}
    (hq : s.queueLock = none) (hc : s.code t = .notifying op held) (condState : Bool)
    (queueLock : Option τ) :
    ∃ y, (idealMonitor τ).run x (if op = .all then [.notifyAll] else []) = some y ∧
      Shows { s.goto t (.marking op held) with queueLock := queueLock, condState := condState } y := by
  have hclearing := hinv.not_clearing hq
  have hwaits := hinv.waits_of_atCondvar
  have hcl : Clearing (Function.update s.code t (.marking op held)) ↔ op = .all := by
    constructor
    · rintro ⟨v, hv⟩
      rcases eq_or_ne v t with rfl | hne
      · simpa [Code.inQueues] using hv
      · rw [Function.update_of_ne hne] at hv
        exact absurd ⟨v, hv⟩ hclearing
    · rintro rfl
      exact ⟨t, by simp [Code.inQueues]⟩
  obtain ⟨ho, hout, hin, hwait, hunn, hres⟩ := h
  cases op with
  | one =>
      refine ⟨x, rfl, ?_⟩
      constructor
      all_goals simp only [goto, Owns, Pending, hcl, Function.update_apply] at *
      all_goals cases held <;> grind [Code.holds, Code.seeks, Code.waits, Code.sleeps]
  | all =>
      refine ⟨_, by simp [Machine.run, idealMonitor, IdealMonitor.step]; rfl, ?_⟩
      constructor
      all_goals simp only [goto, Owns, Pending, hcl, Function.update_apply] at *
      all_goals cases held <;> grind [Code.holds, Code.seeks, Code.waits, Code.sleeps]

omit [DecidableEq τ] in
theorem Inv.clearing_iff (h : s.Inv) (op : Notify) (hc : (s.code t).inQueues = some op) :
    Clearing s.code ↔ op = .all := by
  have hlock := (h.queueLock t).mp (by simp [hc])
  constructor
  · rintro ⟨v, hv⟩
    have hother := (h.queueLock v).mp (by simp [hv])
    obtain rfl : t = v := Option.some.inj (hlock.symm.trans hother)
    exact Option.some.inj (hc.symm.trans hv)
  · rintro rfl
    exact ⟨t, hc⟩

theorem Inv.not_clearing_after (h : s.Inv) {op : Notify} {held locked : Bool}
    (hc : s.code t = .requeueing op held locked) :
    ¬Clearing (Function.update s.code t (.after held)) := by
  rintro ⟨v, hv⟩
  rcases eq_or_ne v t with rfl | hne
  · simp [(Code.after_spec held).2.1] at hv
  · rw [Function.update_of_ne hne] at hv
    have hmine := (h.queueLock t).mp (by simp [hc, Code.inQueues])
    have hother := (h.queueLock v).mp (by simp [hv])
    exact hne (Option.some.inj (hother.symm.trans hmine))

theorem Shows.requeuesNone (h : s.Shows x) (hinv : s.Inv) {op : Notify} {held locked : Bool}
    (hc : s.code t = .requeueing op held locked) (hempty : s.condQueue = []) (condState : Bool) :
    Shows { s.goto t (.after held) with queueLock := none, condState := condState } x := by
  have hnone := hinv.condQueue.eq_nil_iff.mp hempty
  obtain ⟨hholds, hqueues, hmarked, hwaits, -⟩ := Code.after_spec held
  obtain ⟨ho, hout, hin, hwait, hunn, hres⟩ := h
  constructor
  all_goals simp only [goto, Owns, Pending, Function.update_apply] at *
  all_goals cases held <;> grind [Code.holds, Code.seeks, Code.waits, Code.sleeps, Code.after]

theorem Shows.requeuesOne (h : s.Shows x) (hinv : s.Inv) {held locked : Bool}
    (hc : s.code t = .requeueing .one held locked) {u : τ} (hu : u ∈ s.condQueue) :
    ∃ y, (idealMonitor τ).run x [.notifyOne (some u)] = some y ∧
      Shows { (s.requeueOne u locked).goto t (.after held) with queueLock := none } y := by
  have hslot := (hinv.condQueue.mem_iff u).mp hu
  have huwaits := hinv.waits_of_atCondvar u hslot
  have hclearing : ¬Clearing s.code := by
    rw [hinv.clearing_iff .one (by rw [hc]; rfl)]
    nofun
  have hafter := hinv.not_clearing_after hc
  have hplace : x.place u = .waiting := (h.waiting u).mpr ⟨hslot, hclearing⟩
  obtain ⟨hholds, hqueues, hmarked, hwaits, -⟩ := Code.after_spec held
  obtain ⟨ho, hout, hin, hwait, hunn, hres⟩ := h
  refine ⟨_, by simp [Machine.run, idealMonitor, IdealMonitor.step, hplace]; rfl, ?_⟩
  constructor
  all_goals
    simp only [requeueOne, IdealMonitor.move, goto, setSlot, Owns, Pending,
      Function.update_apply] at *
  all_goals
    cases held <;> cases locked <;>
      grind [Code.holds, Code.seeks, Code.waits, Code.sleeps, Code.after]

theorem Shows.requeuesAll (h : s.Shows x) (hinv : s.Inv) {held locked : Bool}
    (hc : s.code t = .requeueing .all held locked) {u : τ} :
    Shows { (s.requeueAll u locked).goto t (.after held) with queueLock := none } x := by
  have hmem := hinv.condQueue.mem_iff
  have hsub : ∀ v, v ∈ s.condQueue.erase u → v ∈ s.condQueue := fun v => List.mem_of_mem_erase
  have hclearing := (hinv.clearing_iff .all (by rw [hc]; rfl)).mpr rfl
  have hafter := hinv.not_clearing_after hc
  obtain ⟨hholds, hqueues, hmarked, hwaits, -⟩ := Code.after_spec held
  obtain ⟨ho, hout, hin, hwait, hunn, hres⟩ := h
  constructor
  all_goals simp only [requeueAll, goto, Owns, Pending, Function.update_apply] at *
  all_goals
    cases held <;> cases locked <;>
      grind [Code.holds, Code.seeks, Code.waits, Code.sleeps, Code.after]

theorem Shows.timesOut (h : s.Shows x) (hinv : s.Inv) (hc : s.code t = .waiting true)
    (hslot : s.slot t = .atCondvar) (hq : s.queueLock = none) (condState : Bool) (queue : List τ) :
    ∃ y, (idealMonitor τ).run x [.timeout t] = some y ∧
      Shows { (s.goto t .locking).setSlot t .running with
        condQueue := queue
        condState := condState
        timedOut := Function.update s.timedOut t true } y := by
  have hclearing := hinv.not_clearing hq
  have hcl : Clearing (Function.update s.code t .locking) ↔ Clearing s.code :=
    clearing_update (by rw [hc]; rfl)
  have hplace : x.place t = .waiting := (h.waiting t).mpr ⟨hslot, hclearing⟩
  obtain ⟨ho, hout, hin, hwait, hunn, hres⟩ := h
  refine ⟨x.move t .entering, by simp [Machine.run, idealMonitor, IdealMonitor.step, hplace], ?_⟩
  constructor
  all_goals
    simp only [IdealMonitor.move, goto, setSlot, Owns, Pending, hcl, Function.update_apply] at *
  all_goals grind [Code.holds, Code.seeks, Code.waits, Code.sleeps]

theorem Shows.wasRequeued (h : s.Shows x) (hc : s.code t = .waiting true)
    (hslot : s.slot t = .atMutex) (queue : List τ) :
    Shows { (s.goto t .locking).setSlot t .running with
      mutexQueue := queue
      timedOut := Function.update s.timedOut t false } x := by
  have hcl : Clearing (Function.update s.code t .locking) ↔ Clearing s.code :=
    clearing_update (by rw [hc]; rfl)
  obtain ⟨ho, hout, hin, hwait, hunn, hres⟩ := h
  constructor
  all_goals simp only [goto, setSlot, Owns, Pending, hcl, Function.update_apply] at *
  all_goals grind [Code.holds, Code.seeks, Code.waits, Code.sleeps]

-- A step that the monitor does not show.
theorem Shows.silent (h : u.Shows x) :
    ∃ y, (idealMonitor τ).run x [] = some y ∧ u.Shows y :=
  ⟨x, rfl, h⟩

theorem Shows.goes (h : s.Shows x) {c c' : Code} (hc : s.code t = c) (hkind : c'.kind = c.kind)
    (hseeks : c'.seeks = c.seeks) :
    ∃ y, (idealMonitor τ).run x [] = some y ∧ (s.goto t c').Shows y :=
  (h.moves hc hkind hseeks).silent

omit [DecidableEq τ] in
theorem Shows.withState (h : s.Shows x) (w : BitVec 8) : Shows { s with state := w } x :=
  ⟨h.owner, h.outside, h.inside, h.waiting, h.unnotified, h.result⟩

theorem lockLoop_seeks (state : BitVec 8) : (Code.lockLoop state).seeks = true :=
  (Code.lockLoop_spec state).2.2.1

theorem run_acquire (hplace : x.place t = .entering) (hfree : x.owner = none) :
    (idealMonitor τ).run x [.acquire t] = some (x.own t) := by
  simp [Machine.run, idealMonitor, IdealMonitor.step, hplace, hfree]

omit [DecidableEq τ] in
theorem Shows.entering_of_seeks (h : s.Shows x) (hinv : s.Inv) (hc : (s.code t).seeks = true) :
    x.place t = .entering := by
  obtain ⟨hholds, -, -, hrunning⟩ := Code.free_of_seeks (Or.inl hc)
  have hslot := hrunning _ (hinv.fits t)
  cases hp : x.place t with
  | entering => rfl
  | outside => simp [(h.outside t).mp hp] at hc
  | inside => simpa [hholds, hslot] using (h.inside t).mp hp
  | waiting => simpa [Pending, hslot] using (h.waiting t).mp hp

theorem Shows.tries (h : s.Shows x) (hinv : s.Inv)
    (hc : s.code t = .idle ∨ ∃ state, s.code t = .trying state) :
    (isLocked s.state = false →
      (idealMonitor τ).run x [.tryEnter t true] = some (x.own t)) ∧
    (isLocked s.state = true → (idealMonitor τ).run x [.tryEnter t false] = some x) := by
  have hplace : x.place t = .outside := by
    rw [h.outside]
    rcases hc with hc | ⟨state, hc⟩ <;> simp [hc, Code.holds, Code.seeks, Code.waits, Code.sleeps]
  constructor
  · intro hl
    simp [Machine.run, idealMonitor, IdealMonitor.step, hplace, h.free hinv hl]
  · intro hl
    have howner : x.owner ≠ none := by
      obtain ⟨v, hv⟩ := hinv.locked_iff.mp hl
      rw [(h.owner v).mp hv]
      exact Option.some_ne_none v
    simp [Machine.run, idealMonitor, IdealMonitor.step, hplace, howner]

section StepCode

variable {succeeds : Bool} (h : s.Shows x) (hinv : s.Inv)
  (hstep : s.stepCode t succeeds = some u)

include h hinv hstep

-- The exchange of `try_lock` takes the mutex, or the mutex is held by someone else, or the
-- exchange has failed for another reason and is tried again.
theorem Shows.stepTrying {state : BitVec 8} (hc : s.code t = .trying state) :
    ∃ y, (idealMonitor τ).run x (s.trace (.step t succeeds)) = some y ∧ u.Shows y := by
  have hfits := hinv.fits t
  rw [hc] at hfits
  obtain ⟨htaken, hfailed⟩ := h.tries hinv (Or.inr ⟨state, hc⟩)
  simp only [trace, hc]
  simp only [Monitor.stepCode, hc] at hstep
  split at hstep
  · rename_i v hv
    obtain ⟨hs, rfl⟩ := exchange_eq_some hv
    cases hstep
    rw [if_pos hs]
    obtain ⟨rfl, -⟩ := hs
    exact ⟨_, htaken hfits.2, h.acquires hinv (Or.inr ⟨_, hc⟩) hfits.2 _⟩
  · rename_i hv
    cases hstep
    rw [if_neg (exchange_eq_none hv)]
    split_ifs with hl
    · exact ⟨x, hfailed hl, h.moves hc rfl rfl⟩
    · exact h.goes hc rfl rfl

theorem Shows.stepLocking (hc : s.code t = .locking) :
    ∃ y, (idealMonitor τ).run x (s.trace (.step t succeeds)) = some y ∧ u.Shows y := by
  have hseeks : (s.code t).seeks = true := by rw [hc]; rfl
  simp only [trace, hc]
  simp only [Monitor.stepCode, hc] at hstep
  split at hstep
  · rename_i v hv
    obtain ⟨hs, rfl⟩ := exchange_eq_some hv
    cases hstep
    have hl : isLocked s.state = false := by rw [hs.1]; rfl
    rw [if_pos hs]
    exact ⟨_, run_acquire (h.entering_of_seeks hinv hseeks) (h.free hinv hl),
      h.acquires hinv (Or.inl hseeks) hl _⟩
  · rename_i hv
    cases hstep
    rw [if_neg (exchange_eq_none hv)]
    exact h.goes hc rfl rfl

-- In `lock_slow` the thread marks a locked mutex as parked and takes one that is free.
theorem Shows.stepSlow {state : BitVec 8} (hc : s.code t = .slow state) :
    ∃ y, (idealMonitor τ).run x (s.trace (.step t succeeds)) = some y ∧ u.Shows y := by
  have hseeks : (s.code t).seeks = true := by rw [hc]; rfl
  have hloop := h.moves hc (Code.lockLoop_spec s.state).1 (lockLoop_seeks _)
  simp only [trace, hc]
  simp only [Monitor.stepCode, hc] at hstep
  split_ifs at hstep with hl
  · rw [if_neg (by simp [hl])]
    split at hstep
    · rename_i v hv
      obtain ⟨-, rfl⟩ := exchange_eq_some hv
      cases hstep
      exact (h.withState _).goes hc rfl rfl
    · cases hstep
      exact hloop.silent
  · split at hstep
    · rename_i v hv
      obtain ⟨hs, rfl⟩ := exchange_eq_some hv
      cases hstep
      have hfree : isLocked s.state = false := by rw [hs.1]; exact Bool.eq_false_iff.mpr hl
      rw [if_pos ⟨Bool.eq_false_iff.mpr hl, hs⟩]
      exact ⟨_, run_acquire (h.entering_of_seeks hinv hseeks) (h.free hinv hfree),
        h.acquires hinv (Or.inl hseeks) hfree _⟩
    · rename_i hv
      cases hstep
      rw [if_neg fun hall => exchange_eq_none hv hall.2]
      exact hloop.silent

omit hinv in
-- A parked thread wakes up with the mutex in its hands or has to go for it.
theorem Shows.stepParked (hc : s.code t = .parked) :
    ∃ y, (idealMonitor τ).run x (s.trace (.step t succeeds)) = some y ∧ u.Shows y := by
  simp only [Monitor.stepCode, hc, wake] at hstep
  simp only [trace, hc]
  split at hstep
  · rename_i hslot
    cases hstep
    exact (h.handedOver hslot (by simp [hc, Code.sleeps])
      (by simp [hc, Code.waits, goto])).silent
  · rename_i hslot
    cases hstep
    exact (h.awakes hslot (by simp [hc, Code.sleeps]) (Or.inl rfl)
      (by simp [hc, Code.waits, goto])).silent
  · cases hstep

omit hinv in
theorem Shows.stepWaiting {timed : Bool} (hc : s.code t = .waiting timed) :
    ∃ y, (idealMonitor τ).run x (s.trace (.step t succeeds)) = some y ∧ u.Shows y := by
  simp only [Monitor.stepCode, hc, wake] at hstep
  simp only [trace, hc]
  split at hstep
  · rename_i hslot
    cases hstep
    exact (h.handedOver hslot (by simp [hc, Code.sleeps])
      (by simp [hc, Code.waits, Function.update_apply])).silent
  · rename_i hslot
    cases hstep
    exact (h.awakes hslot (by simp [hc, Code.sleeps]) (Or.inr rfl)
      (by simp [hc, Code.waits, Function.update_apply])).silent
  · cases hstep

theorem Shows.stepBeforeSleep {timed : Bool} (hc : s.code t = .beforeSleep timed) :
    ∃ y, (idealMonitor τ).run x (s.trace (.step t succeeds)) = some y ∧ u.Shows y := by
  simp only [trace, hc]
  simp only [Monitor.stepCode, hc] at hstep
  by_cases hs : s.state = LOCKED_BIT
  · rw [if_pos hs] at hstep ⊢
    cases hstep
    obtain ⟨y, hrun, -, hy⟩ := h.unlocks hinv (.sleep timed) 0#8
      (Or.inr (Or.inr ⟨timed, hc, rfl⟩))
    exact ⟨y, hrun, hy⟩
  · rw [if_neg hs] at hstep ⊢
    cases hstep
    exact h.goes hc rfl rfl

-- A notification that finds the queue empty under its lock is over.
theorem Shows.stepNotifying {op : Notify} {held : Bool} (hc : s.code t = .notifying op held) :
    ∃ y, (idealMonitor τ).run x (s.trace (.step t succeeds)) = some y ∧ u.Shows y := by
  simp only [Monitor.stepCode, hc] at hstep
  simp only [trace, hc]
  split at hstep
  · rename_i hq
    split at hstep
    · rename_i hs
      cases hstep
      rw [if_pos hs]
      exact h.locksQueues hinv hq hc _ _
    · rename_i hs
      cases hstep
      rw [if_neg hs]
      exact ⟨x, h.foundNone (hinv.not_pending (Bool.eq_false_iff.mpr hs)) op,
        h.moves hc (Code.after_kind op held).1 (by cases held <;> rfl)⟩
  · cases hstep

omit hinv in
theorem Shows.stepMarked {op : Notify} {held : Bool} {state : BitVec 8}
    (hc : s.code t = .marked op held state) :
    ∃ y, (idealMonitor τ).run x (s.trace (.step t succeeds)) = some y ∧ u.Shows y := by
  simp only [trace, hc]
  simp only [Monitor.stepCode, hc] at hstep
  split at hstep
  · rename_i v hv
    obtain ⟨-, rfl⟩ := exchange_eq_some hv
    cases hstep
    exact (h.withState _).goes hc (by cases held <;> rfl) rfl
  · cases hstep
    obtain ⟨hkind, -, hseeks, -⟩ := Code.markLoop_spec op held s.state
    exact h.goes hc (hkind.trans (by cases held <;> rfl)) hseeks

theorem Shows.stepCode :
    ∃ y, (idealMonitor τ).run x (s.trace (.step t succeeds)) = some y ∧ u.Shows y := by
  cases hc : s.code t with
  | trying state => exact h.stepTrying hinv hstep hc
  | locking => exact h.stepLocking hinv hstep hc
  | reloading =>
      simp only [Monitor.stepCode, hc, Option.some.injEq] at hstep
      subst hstep
      simp only [trace, hc]
      exact h.goes hc (Code.lockLoop_spec _).1 (lockLoop_seeks _)
  | slow state => exact h.stepSlow hinv hstep hc
  | parking =>
      simp only [Monitor.stepCode, hc, guard_eq_some] at hstep
      obtain ⟨-, rfl⟩ := hstep
      simp only [trace, hc]
      exact (h.parksMutex hinv hc).silent
  | parked => exact h.stepParked hstep hc
  | beforeSleep timed => exact h.stepBeforeSleep hinv hstep hc
  | waiting timed => exact h.stepWaiting hstep hc
  | notifying op held => exact h.stepNotifying hinv hstep hc
  | marking op held =>
      simp only [Monitor.stepCode, hc, Option.some.injEq] at hstep
      subst hstep
      simp only [trace, hc]
      obtain ⟨hkind, -, hseeks, -⟩ := Code.markLoop_spec op held s.state
      exact h.goes hc hkind hseeks
  | marked op held state => exact h.stepMarked hstep hc
  | idle | holding | unlockSlow _ _ | requeueing _ _ _ => simp [Monitor.stepCode, hc] at hstep

end StepCode

theorem Shows.stepUnpark (h : s.Shows x) (hinv : s.Inv) {chosen : Option τ} {beFair : Bool}
    (hstep : s.stepUnpark t chosen beFair = some u) :
    ∃ y, (idealMonitor τ).run x (s.trace (.unpark t chosen beFair)) = some y ∧ u.Shows y := by
  cases hc : s.code t with
  | unlockSlow forceFair next =>
      cases chosen with
      | none =>
          simp only [trace, hc]
          simp only [Monitor.stepUnpark, hc, guard_eq_some] at hstep
          obtain ⟨-, rfl⟩ := hstep
          obtain ⟨y, hrun, -, hy⟩ := h.unlocks hinv next 0#8 (Or.inl ⟨forceFair, hc⟩)
          exact ⟨y, hrun, hy⟩
      | some v =>
          simp only [trace, hc]
          simp only [Monitor.stepUnpark, hc] at hstep
          split at hstep
          · rename_i hmem
            have hslot := (hinv.mutexQueue.mem_iff v).mp hmem.2
            have hsleeps := hinv.sleeps_of_mem hc hmem.2
            obtain ⟨y, hrun, hfree, hy⟩ := h.unlocks hinv next s.state
              (Or.inl ⟨forceFair, hc⟩)
            cases hfair : forceFair || beFair with
            | false =>
                simp only [hfair, Bool.false_eq_true, if_false, Option.some.injEq] at hstep
                subst hstep
                rw [if_neg Bool.false_ne_true, List.append_nil]
                exact ⟨y, hrun, hy.unparked hslot _ _⟩
            | true =>
                simp only [hfair, if_true, Option.some.injEq] at hstep
                subst hstep
                obtain ⟨hacquire, hown⟩ := hy.handsOver hslot hsleeps hfree
                  (if s.mutexQueue.erase v = [] then LOCKED_BIT else s.state)
                  (s.mutexQueue.erase v)
                refine ⟨y.own v, ?_, hown⟩
                rw [if_pos rfl, Machine.run_append, hrun]
                exact hacquire
          · cases hstep
  | _ => simp [Monitor.stepUnpark, hc] at hstep

theorem Shows.stepRequeue (h : s.Shows x) (hinv : s.Inv) {chosen : Option τ}
    (hstep : s.stepRequeue t chosen = some u) :
    ∃ y, (idealMonitor τ).run x (s.trace (.requeue t chosen)) = some y ∧ u.Shows y := by
  cases hc : s.code t with
  | requeueing op held locked =>
      simp only [trace, hc]
      cases chosen with
      | none =>
          simp only [Monitor.stepRequeue, hc, guard_eq_some] at hstep
          obtain ⟨hempty, rfl⟩ := hstep
          have hshows := h.requeuesNone hinv hc hempty (if op = .one then false else s.condState)
          cases op with
          | one =>
              have hnone : ∀ v, ¬s.Pending v := fun v hv =>
                hinv.condQueue.eq_nil_iff.mp hempty v hv.1
              exact ⟨x, h.foundNone hnone .one, hshows⟩
          | all => exact hshows.silent
      | some v =>
          simp only [Monitor.stepRequeue, hc, guard_eq_some] at hstep
          obtain ⟨hmem, rfl⟩ := hstep
          cases op with
          | one => exact h.requeuesOne hinv hc hmem
          | all => exact (h.requeuesAll hinv hc).silent
  | _ => simp [Monitor.stepRequeue, hc] at hstep

theorem Shows.stepTimeout (h : s.Shows x) (hinv : s.Inv) (hstep : s.stepTimeout t = some u) :
    ∃ y, (idealMonitor τ).run x (s.trace (.timeout t)) = some y ∧ u.Shows y := by
  unfold Monitor.stepTimeout at hstep
  split at hstep
  · rename_i hc hslot
    rw [guard_eq_some] at hstep
    obtain ⟨hq, rfl⟩ := hstep
    simp only [trace, hslot, if_true]
    exact h.timesOut hinv hc hslot hq _ _
  · rename_i hc hslot
    rw [guard_eq_some] at hstep
    obtain ⟨-, rfl⟩ := hstep
    simp only [trace, hslot, reduceCtorEq, if_false]
    exact (h.wasRequeued hc hslot _).silent
  · cases hstep

theorem Shows.step (h : s.Shows x) (hinv : s.Inv) {e : MonitorEvent τ} (hstep : s.step e = some u) :
    ∃ y, (idealMonitor τ).run x (s.trace e) = some y ∧ u.Shows y := by
  cases e with
  | lock t =>
      simp only [Monitor.step, guard_eq_some] at hstep
      obtain ⟨hc, rfl⟩ := hstep
      exact h.enters hinv hc
  | tryLock t =>
      simp only [Monitor.step, guard_eq_some] at hstep
      obtain ⟨hc, rfl⟩ := hstep
      simp only [trace]
      split_ifs with hl
      · exact ⟨x, (h.tries hinv (Or.inl hc)).2 hl, h⟩
      · exact h.goes hc rfl rfl
  | unlock t forceFair =>
      simp only [Monitor.step, guard_eq_some] at hstep
      obtain ⟨hc, rfl⟩ := hstep
      simp only [trace]
      split_ifs with hs
      · obtain ⟨y, hrun, -, hy⟩ := h.unlocks hinv .leave 0#8 (Or.inr (Or.inl ⟨hc, rfl⟩))
        exact ⟨y, hrun, hy⟩
      · exact h.goes hc rfl rfl
  | bump t =>
      simp only [Monitor.step, guard_eq_some] at hstep
      obtain ⟨hc, rfl⟩ := hstep
      simp only [trace]
      split_ifs with hp
      · exact h.goes hc rfl rfl
      · exact h.silent
  | wait t timed =>
      simp only [Monitor.step, guard_eq_some] at hstep
      obtain ⟨⟨hc, hq⟩, rfl⟩ := hstep
      exact h.parksCondvar hinv hc hq timed
  | notify t op =>
      simp only [Monitor.step] at hstep
      simp only [trace]
      have hfound : s.condState ≠ true → (idealMonitor τ).run x (Monitor.foundNone op) = some x := fun hs =>
        h.foundNone (hinv.not_pending (Bool.eq_false_iff.mpr hs)) op
      split at hstep
      · rename_i hc
        cases hstep
        split_ifs with hs
        · exact h.goes hc rfl rfl
        · exact ⟨x, hfound hs, h⟩
      · rename_i hc
        cases hstep
        split_ifs with hs
        · exact h.goes hc rfl rfl
        · exact ⟨x, hfound hs, h⟩
      · cases hstep
  | step t succeeds => exact h.stepCode hinv hstep
  | spin t =>
      simp only [Monitor.step] at hstep
      simp only [trace]
      split at hstep
      · rename_i state hc
        rw [guard_eq_some] at hstep
        obtain ⟨-, rfl⟩ := hstep
        exact h.goes hc (Code.lockLoop_spec _).1 (lockLoop_seeks _)
      · cases hstep
  | unpark t chosen beFair => exact h.stepUnpark hinv hstep
  | requeue t chosen => exact h.stepRequeue hinv hstep
  | timeout t => exact h.stepTimeout hinv hstep

-- The mutex with its condition variable does what an ideal monitor does: each step of the
-- code is a step of the monitor or none. A wait begins before the mutex is free, one
-- notification wakes one thread if there is any, and the other one all that wait.
theorem simulation : (monitor τ).Simulation (idealMonitor τ) Shows trace where
  init s hs := by
    have heq : s = ⟨0#8, false, [], [], none, fun _ => .idle, fun _ => .running,
      fun _ => false⟩ := hs
    subst heq
    refine ⟨_, rfl, ?_⟩
    constructor <;> intro t <;>
      simp [Owns, Pending, Code.holds, Code.seeks, Code.waits, Code.sleeps]
  step s x e u hs h hstep := h.step (inv_of_reachable hs) hstep

-- A run of the code is a run of the ideal monitor, which shows where the threads are and
-- how their waits have ended.
theorem refines {events : List (MonitorEvent τ)} (hinit : (monitor τ).init s)
    (hrun : (monitor τ).run s events = some u) :
    ∃ x y, (idealMonitor τ).init x ∧
      (idealMonitor τ).run x (Machine.Simulation.traces (monitor τ) trace s events) = some y ∧
      u.Shows y := by
  obtain ⟨x, hx, hshows⟩ := simulation.init s hinit
  obtain ⟨y, hy, h⟩ := simulation.run (Machine.Via.init hinit) hshows hrun
  exact ⟨x, y, hx, hy, h⟩

-- The first thread waits, the second one notifies it and hands the mutex over.
theorem refines_notified :
    ∃ y, (idealMonitor (Fin 2)).run ⟨none, fun _ => .outside, fun _ => false⟩
        [.enter 0, .acquire 0, .wait 0, .release 0, .enter 1, .acquire 1, .notifyOne (some 0),
          .leave 1, .acquire 0] = some y ∧ y.owner = some 0 ∧ y.unnotified 0 = false := by
  let start : Monitor (Fin 2) := ⟨0#8, false, [], [], none, fun _ => .idle, fun _ => .running,
    fun _ => false⟩
  let events : List (MonitorEvent (Fin 2)) := [.lock 0, .step 0 true, .wait 0 false,
    .step 0 true, .lock 1, .step 1 true, .notify 1 .one, .step 1 true, .step 1 true,
    .step 1 true, .requeue 1 (some 0), .unlock 1 false, .unpark 1 (some 0) true, .step 0 true]
  have hrun : ((monitor (Fin 2)).run start events).map (fun u => (u.code 0, u.timedOut 0)) =
      some (.holding, false) := by decide
  obtain ⟨u, hu, hr⟩ := Option.map_eq_some_iff.mp hrun
  obtain ⟨hcode, htimed⟩ := Prod.mk.inj hr
  obtain ⟨x, y, rfl, hy, h⟩ := refines rfl hu
  have htrace : Machine.Simulation.traces (monitor (Fin 2)) trace start events =
      [.enter 0, .acquire 0, .wait 0, .release 0, .enter 1, .acquire 1, .notifyOne (some 0),
        .leave 1, .acquire 0] := by decide
  rw [htrace] at hy
  refine ⟨y, hy, (h.owner 0).mp (Or.inl (by rw [hcode]; rfl)), ?_⟩
  rw [h.result 0 (by rw [hcode]; rfl), htimed]

end Monitor

end Rsgc.Sync
