import Mathlib.Data.List.Nodup
import Mathlib.Data.Nat.Find
import Rsgc.System.FinalizerQueue.Filter

namespace Rsgc.System

namespace FinalizerQueue

variable {τ φ : Type} {s t : FinalizerQueue τ φ} {marked : Pointer → Bool} {chain : List Pointer}

section Survivors

variable {r : Registration φ × Nat} {k : Nat}

theorem survives_append (hruns : t.runs = s.runs ++ [marked]) (hle : r.2 ≤ s.runs.length) :
    t.survives r = (s.survives r && marked r.1.object) := by
  unfold survives
  rw [hruns, List.drop_append_of_le_length hle, List.all_append, List.all_cons, List.all_nil,
    Bool.and_true]

theorem survives_iff : s.survives r = true ↔
    ∀ j, r.2 ≤ j → j < s.runs.length →
      (s.runs[j]?.map fun marked => marked r.1.object) = some true := by
  unfold survives
  rw [List.all_eq_true]
  constructor
  · intro h j hle hlt
    rw [List.getElem?_eq_getElem hlt, Option.map_some]
    refine congrArg some (h _ ?_)
    rw [List.mem_iff_getElem]
    exact ⟨j - r.2, by simp; omega, by simp [Nat.add_sub_cancel' hle]⟩
  · intro h m hm
    obtain ⟨i, hi, rfl⟩ := List.mem_iff_getElem.mp hm
    have hlt : r.2 + i < s.runs.length := by
      simp at hi
      omega
    have hmark := h (r.2 + i) (by omega) hlt
    rw [List.getElem?_eq_getElem hlt, Option.map_some, Option.some.injEq] at hmark
    simpa using hmark

theorem FirstUnmarked.lt (h : s.FirstUnmarked r k) : k < s.runs.length := by
  obtain ⟨_, hmark, _⟩ := h
  by_contra hge
  rw [List.getElem?_eq_none (by omega)] at hmark
  cases hmark

theorem FirstUnmarked.not_survives (h : s.FirstUnmarked r k) : ¬s.survives r = true := by
  intro hsurvives
  have hmark := survives_iff.mp hsurvives k h.1 h.lt
  rw [h.2.1] at hmark
  cases hmark

-- Of the runs since there is a first one that has met the object unmarked, unless
-- all have met it marked.
theorem exists_firstUnmarked (h : ¬s.survives r = true) : ∃ k, s.FirstUnmarked r k := by
  have hex : ∃ j, r.2 ≤ j ∧ j < s.runs.length ∧
      (s.runs[j]?.map fun marked => marked r.1.object) = some false := by
    by_contra hnone
    refine h (survives_iff.mpr fun j hle hlt => ?_)
    have hne : (s.runs[j]?.map fun marked => marked r.1.object) ≠ some false :=
      fun hfalse => hnone ⟨j, hle, hlt, hfalse⟩
    rw [List.getElem?_eq_getElem hlt, Option.map_some] at hne ⊢
    simpa using hne
  classical
  obtain ⟨hle, hlt, hmark⟩ := Nat.find_spec hex
  refine ⟨Nat.find hex, hle, hmark, fun j hj hfind => ?_⟩
  have hmin := Nat.find_min hex hfind
  have hne : (s.runs[j]?.map fun marked => marked r.1.object) ≠ some false :=
    fun hfalse => hmin ⟨hj, by omega, hfalse⟩
  rw [List.getElem?_eq_getElem (by omega), Option.map_some] at hne ⊢
  simpa using hne

theorem firstUnmarked_append (hruns : t.runs = s.runs ++ [marked]) (hle : r.2 ≤ s.runs.length) :
    t.FirstUnmarked r k ↔ s.FirstUnmarked r k ∨
      k = s.runs.length ∧ marked r.1.object = false ∧ s.survives r = true := by
  unfold FirstUnmarked
  rw [hruns, survives_iff]
  have hbefore : ∀ j, j < s.runs.length → (s.runs ++ [marked])[j]? = s.runs[j]? :=
    fun j hj => List.getElem?_append_left hj
  rcases Nat.lt_trichotomy k s.runs.length with hlt | heq | hgt
  · rw [hbefore k hlt]
    constructor
    · rintro ⟨hsince, hmark, hall⟩
      exact Or.inl ⟨hsince, hmark, fun j hj hk => by rw [← hbefore j (by omega)]; exact hall j hj hk⟩
    · rintro (⟨hsince, hmark, hall⟩ | ⟨heq, _⟩)
      · exact ⟨hsince, hmark, fun j hj hk => by rw [hbefore j (by omega)]; exact hall j hj hk⟩
      · omega
  · subst heq
    have hlast : (s.runs ++ [marked])[s.runs.length]? = some marked := by simp
    rw [hlast, List.getElem?_eq_none (Nat.le_refl _)]
    constructor
    · rintro ⟨_, hmark, hall⟩
      refine Or.inr ⟨rfl, by simpa using hmark, fun j hj hk => ?_⟩
      rw [← hbefore j hk]
      exact hall j hj hk
    · rintro (⟨_, hmark, _⟩ | ⟨_, hmark, hall⟩)
      · cases hmark
      · exact ⟨hle, by simpa using hmark, fun j hj hk => by rw [hbefore j hk]; exact hall j hj hk⟩
  · rw [List.getElem?_eq_none (by simp; omega), List.getElem?_eq_none (by omega)]
    constructor
    · rintro ⟨_, hmark, _⟩
      cases hmark
    · rintro (⟨_, hmark, _⟩ | ⟨heq, _⟩)
      · cases hmark
      · omega

end Survivors

-- The cells of the list, and what the threads that are about to add one hold.
structure Lists (s : FinalizerQueue τ φ) (chain : List Pointer) : Prop where
  linked : Segment s.next s.list chain 0
  null : 0 ∉ chain
  nodup : chain.Nodup
  boxed : ∀ n ∈ chain, s.boxed n = true
  registrations : chain.map s.registration = (s.added.filter s.survives).map Prod.fst
  held : ∀ θ n, (s.place θ).held = some n → n ≠ 0 ∧ s.boxed n = true ∧ n ∉ chain
  target : ∀ θ n c, s.place θ = .linked n c → s.next n = c

-- The tickets are spread over the registrations that are in progress and those
-- that were added.
structure Numbered (s : FinalizerQueue τ φ) : Prop where
  since_le : ∀ r ∈ s.added, r.2 ≤ s.runs.length
  nodup : (s.added.map fun r => r.1.ticket).Nodup
  added_lt : ∀ r ∈ s.added, r.1.ticket < s.begun
  held_lt : ∀ θ n, (s.place θ).held = some n → (s.registration n).ticket < s.begun
  held_new : ∀ θ n, (s.place θ).held = some n →
    ∀ r ∈ s.added, r.1.ticket ≠ (s.registration n).ticket
  held_apart : ∀ θ θ' n n', (s.place θ).held = some n → (s.place θ').held = some n' →
    (s.registration n).ticket = (s.registration n').ticket → θ = θ'
  accounted : ∀ k < s.begun, (∃ r ∈ s.added, r.1.ticket = k) ∨
    ∃ θ n, (s.place θ).held = some n ∧ (s.registration n).ticket = k

structure Called (s : FinalizerQueue τ φ) : Prop where
  mem_iff : ∀ r k, (r, k) ∈ s.calls ↔ ∃ since, (r, since) ∈ s.added ∧ s.FirstUnmarked (r, since) k
  nodup : (s.calls.map fun c => c.1.ticket).Nodup

-- The invariant of the queue.
structure Good (s : FinalizerQueue τ φ) : Prop where
  lists : ∃ chain, s.Lists chain
  numbered : s.Numbered
  called : s.Called

theorem Numbered.congr (h : s.Numbered) (hadded : t.added = s.added)
    (hruns : s.runs.length ≤ t.runs.length) (hbegun : t.begun = s.begun)
    (hheld : ∀ θ, (t.place θ).held = (s.place θ).held)
    (hreg : t.registration = s.registration) : t.Numbered := by
  refine ⟨fun r hr => ?_, ?_, fun r hr => ?_, fun θ n hn => ?_, fun θ n hn => ?_,
    fun θ θ' n n' hn hn' => ?_, fun k hk => ?_⟩
  · exact Nat.le_trans (h.since_le r (hadded ▸ hr)) hruns
  · exact hadded.symm ▸ h.nodup
  · exact hbegun.symm ▸ h.added_lt r (hadded ▸ hr)
  · rw [hbegun, hreg]
    exact h.held_lt θ n (hheld θ ▸ hn)
  · rw [hadded, hreg]
    exact h.held_new θ n (hheld θ ▸ hn)
  · rw [hreg]
    exact h.held_apart θ θ' n n' (hheld θ ▸ hn) (hheld θ' ▸ hn')
  · rw [hadded, hreg]
    simp only [hheld]
    exact h.accounted k (hbegun ▸ hk)

theorem Called.congr (h : s.Called) (hadded : t.added = s.added) (hruns : t.runs = s.runs)
    (hcalls : t.calls = s.calls) : t.Called := by
  refine ⟨fun r k => ?_, hcalls.symm ▸ h.nodup⟩
  unfold FirstUnmarked
  rw [hcalls, hadded, hruns]
  exact h.mem_iff r k

-- Two registrations with one ticket are the same.
theorem Numbered.eq_of_ticket (h : s.Numbered) {r r' : Registration φ × Nat} (hr : r ∈ s.added)
    (hr' : r' ∈ s.added) (heq : r.1.ticket = r'.1.ticket) : r = r' :=
  List.inj_on_of_nodup_map h.nodup hr hr' heq

section Runs

theorem survivors_append (hadded : t.added = s.added) (hruns : t.runs = s.runs ++ [marked])
    (hnumbered : s.Numbered) :
    t.added.filter t.survives =
      (s.added.filter s.survives).filter fun r => marked r.1.object := by
  rw [List.filter_filter, hadded]
  apply List.filter_congr
  intro r hr
  rw [survives_append hruns (hnumbered.since_le r hr), Bool.and_comm]

theorem Lists.filtered (h : s.Lists chain) (hnumbered : s.Numbered)
    (hfilters : Filters marked [] chain s t) :
    ({ t with runs := t.runs ++ [marked] } : FinalizerQueue τ φ).Lists
      (chain.filter (keeps marked s)) := by
  have hreg : t.registration = s.registration := hfilters.registration_eq
  have hout : ∀ θ n, (t.place θ).held = some n → n ≠ 0 ∧ s.boxed n = true ∧ n ∉ chain := by
    intro θ n hn
    rw [hfilters.place_eq] at hn
    exact h.held θ n hn
  refine ⟨hfilters.linked, fun hn => h.null (List.mem_of_mem_filter hn), h.nodup.filter _,
    fun n hn => ?_, ?_, fun θ n hn => ?_, fun θ n c hn => ?_⟩
  · obtain ⟨hmem, hkeeps⟩ := List.mem_filter.mp hn
    exact (hfilters.boxed_eq n (Or.inr hkeeps)).trans (h.boxed n hmem)
  · change (chain.filter (keeps marked s)).map t.registration = (t.added.filter _).map Prod.fst
    rw [survivors_append (t := { t with runs := t.runs ++ [marked] }) hfilters.added_eq
      (congrArg (· ++ [marked]) hfilters.runs_eq) hnumbered, hreg]
    have hchain := congrArg (List.filter fun r => marked r.object) h.registrations
    rw [List.filter_map, List.filter_map] at hchain
    exact hchain
  · obtain ⟨hpos, hboxed, hnot⟩ := hout θ n hn
    exact ⟨hpos, (hfilters.boxed_eq n (Or.inl hnot)).trans hboxed,
      fun hmem => hnot (List.mem_of_mem_filter hmem)⟩
  · have hplace : s.place θ = .linked n c := by
      rw [← hfilters.place_eq]
      exact hn
    have hnot := (h.held θ n (by rw [hplace]; rfl)).2.2
    have hnode := hfilters.node_eq n (by simpa using hnot)
    exact (congrArg Finalizer.next hnode).trans (h.target θ n c hplace)

theorem Called.filtered (h : s.Called) (hlists : s.Lists chain) (hnumbered : s.Numbered)
    (hfilters : Filters marked [] chain s t) :
    ({ t with runs := t.runs ++ [marked] } : FinalizerQueue τ φ).Called := by
  have hruns : t.runs ++ [marked] = s.runs ++ [marked] := by rw [hfilters.runs_eq]
  -- the finalizers that this run calls
  have hnew : ∀ r k, (r, k) ∈ (chain.filter fun n => !keeps marked s n).map
        (fun n => (s.registration n, s.runs.length)) ↔
      k = s.runs.length ∧ marked r.object = false ∧
        ∃ since, (r, since) ∈ s.added ∧ s.survives (r, since) = true := by
    intro r k
    have hmem : r ∈ chain.map s.registration ↔
        ∃ since, (r, since) ∈ s.added ∧ s.survives (r, since) = true := by
      rw [hlists.registrations]
      simp
    rw [← hmem]
    simp only [List.mem_map, List.mem_filter, Prod.mk.injEq, keeps, Bool.not_eq_true']
    constructor
    · rintro ⟨n, ⟨hn, hmark⟩, rfl, rfl⟩
      exact ⟨rfl, hmark, n, hn, rfl⟩
    · rintro ⟨rfl, hmark, n, hn, rfl⟩
      exact ⟨n, ⟨hn, hmark⟩, rfl, rfl⟩
  refine ⟨fun r k => ?_, ?_⟩
  · change (r, k) ∈ t.calls ↔ ∃ since, (r, since) ∈ t.added ∧ _
    rw [hfilters.calls_eq, hfilters.added_eq, List.mem_append, h.mem_iff, hnew]
    constructor
    · rintro (⟨since, hr, hfirst⟩ | ⟨rfl, hmark, since, hr, hsurvives⟩)
      · exact ⟨since, hr, (firstUnmarked_append hruns (hnumbered.since_le _ hr)).mpr (Or.inl hfirst)⟩
      · exact ⟨since, hr, (firstUnmarked_append hruns (hnumbered.since_le _ hr)).mpr
          (Or.inr ⟨rfl, hmark, hsurvives⟩)⟩
    · rintro ⟨since, hr, hfirst⟩
      rcases (firstUnmarked_append hruns (hnumbered.since_le _ hr)).mp hfirst with
        hfirst | ⟨rfl, hmark, hsurvives⟩
      · exact Or.inl ⟨since, hr, hfirst⟩
      · exact Or.inr ⟨rfl, hmark, since, hr, hsurvives⟩
  · change (t.calls.map fun c => c.1.ticket).Nodup
    rw [hfilters.calls_eq, List.map_append, List.nodup_append]
    refine ⟨h.nodup, ?_, ?_⟩
    · rw [List.map_map]
      have hall : (chain.map fun n => (s.registration n).ticket).Nodup := by
        have hmap := congrArg (List.map Registration.ticket) hlists.registrations
        rw [List.map_map, List.map_map] at hmap
        change chain.map (Registration.ticket ∘ s.registration) |>.Nodup
        rw [hmap]
        exact hnumbered.nodup.sublist (List.filter_sublist.map _)
      exact hall.sublist (List.filter_sublist.map _)
    · intro a ha b hb heq
      obtain ⟨⟨r, k⟩, hr, rfl⟩ := List.mem_map.mp ha
      obtain ⟨⟨r', k'⟩, hr', rfl⟩ := List.mem_map.mp hb
      obtain ⟨since, hadded, hfirst⟩ := (h.mem_iff r k).mp hr
      obtain ⟨_, _, since', hadded', hsurvives⟩ := (hnew r' k').mp hr'
      have hsame := hnumbered.eq_of_ticket hadded hadded' heq
      exact hfirst.not_survives (hsame ▸ hsurvives)

theorem Lists.length_le (h : s.Lists chain) : chain.length ≤ s.added.length := by
  have hlength := congrArg List.length h.registrations
  rw [List.length_map, List.length_map] at hlength
  rw [hlength]
  exact List.length_filter_le ..

-- A run comes to the end of the list.
theorem Lists.run (h : s.Lists chain) (marked : Pointer → Bool) :
    ∃ t, s.run marked = some { t with runs := t.runs ++ [marked] } ∧
      Filters marked [] chain s t := by
  have hkept : Segment s.next s.list [] s.list := rfl
  obtain ⟨t, ht, hfilters⟩ := runFrom_filters marked chain hkept h.linked (Or.inl ⟨rfl, rfl⟩)
    h.null h.nodup h.length_le
  refine ⟨t, ?_, hfilters⟩
  unfold FinalizerQueue.run
  rw [ht]
  rfl

theorem Good.run (h : s.Good) (hrun : s.run marked = some t) : t.Good := by
  obtain ⟨chain, hlists⟩ := h.lists
  obtain ⟨u, hu, hfilters⟩ := hlists.run marked
  obtain rfl := Option.some.inj (hrun.symm.trans hu)
  refine ⟨⟨_, hlists.filtered h.numbered hfilters⟩, ?_, h.called.filtered hlists h.numbered hfilters⟩
  refine h.numbered.congr hfilters.added_eq ?_ hfilters.begun_eq (fun θ => ?_)
    hfilters.registration_eq
  · simp [hfilters.runs_eq]
  · exact congrArg (fun place => (place θ).held) hfilters.place_eq

end Runs

section Adds

variable [DecidableEq τ] {θ : τ} {node current : Pointer} {place : AddPlace}

-- A thread goes on with the cell that it holds, of which only the link may change.
structure Moves (node : Pointer) (s t : FinalizerQueue τ φ) : Prop where
  held_eq : ∀ θ, (t.place θ).held = (s.place θ).held
  target : ∀ θ n c, t.place θ = .linked n c → t.next n = c
  next_eq : ∀ n, n ≠ node → t.next n = s.next n
  registration_eq : t.registration = s.registration
  list_eq : t.list = s.list
  boxed_eq : t.boxed = s.boxed
  begun_eq : t.begun = s.begun
  added_eq : t.added = s.added
  runs_eq : t.runs = s.runs
  calls_eq : t.calls = s.calls

theorem goTo_held (hheld : (s.place θ).held = place.held) (θ' : τ) :
    ((s.goTo θ place).place θ').held = (s.place θ').held := by
  unfold goTo
  by_cases hθ : θ' = θ
  · subst hθ
    simp only [Function.update_self]
    exact hheld.symm
  · simp only [Function.update_of_ne hθ]

-- The head is loaded, at first or by an exchange that failed.
theorem moves_load (h : s.Lists chain) (hheld : (s.place θ).held = some node) :
    Moves node s (s.goTo θ (.loaded node s.list)) := by
  refine ⟨goTo_held hheld, fun θ' n c hn => ?_, fun _ _ => rfl, rfl, rfl, rfl, rfl, rfl, rfl, rfl⟩
  by_cases hθ : θ' = θ
  · subst hθ
    simp [goTo] at hn
  · refine h.target θ' n c ?_
    simpa [goTo, hθ] using hn

theorem moves_link (h : s.Lists chain) (hnumbered : s.Numbered)
    (hheld : (s.place θ).held = some node) :
    Moves node s ((s.setNext node current).goTo θ (.linked node current)) := by
  refine ⟨goTo_held hheld, fun θ' n c hn => ?_, fun n hn => ?_, registration_setNext s node current,
    rfl, rfl, rfl, rfl, rfl, rfl⟩
  · change (s.setNext node current).next n = c
    rw [next_setNext]
    by_cases hθ : θ' = θ
    · subst hθ
      simp only [goTo, Function.update_self, AddPlace.linked.injEq] at hn
      obtain ⟨rfl, rfl⟩ := hn
      exact Function.update_self ..
    · simp only [goTo, Function.update_of_ne hθ] at hn
      have hne : n ≠ node := by
        rintro rfl
        have hother : (s.place θ').held = some n := by
          rw [show s.place θ' = .linked n c from hn]
          rfl
        exact hθ (hnumbered.held_apart θ' θ n n hother hheld rfl)
      rw [Function.update_of_ne hne]
      exact h.target θ' n c hn
  · change (s.setNext node current).next n = s.next n
    rw [next_setNext, Function.update_of_ne hn]

omit [DecidableEq τ] in
theorem Good.move (h : s.Good) (hheld : (s.place θ).held = some node) (hmoves : Moves node s t) :
    t.Good := by
  obtain ⟨chain, hlists⟩ := h.lists
  have hnot := (hlists.held θ node hheld).2.2
  have hsurvives : t.survives = s.survives := by
    funext r
    unfold survives
    rw [hmoves.runs_eq]
  refine ⟨⟨chain, ?_, hlists.null, hlists.nodup, ?_, ?_, ?_, hmoves.target⟩, ?_, ?_⟩
  · rw [hmoves.list_eq]
    refine hlists.linked.congr fun n hn => hmoves.next_eq n ?_
    rintro rfl
    exact hnot hn
  · rw [hmoves.boxed_eq]
    exact hlists.boxed
  · rw [hmoves.registration_eq, hmoves.added_eq, hsurvives]
    exact hlists.registrations
  · simp only [hmoves.held_eq, hmoves.boxed_eq]
    exact hlists.held
  · exact h.numbered.congr hmoves.added_eq (hmoves.runs_eq ▸ Nat.le_refl _) hmoves.begun_eq
      hmoves.held_eq hmoves.registration_eq
  · exact h.called.congr hmoves.added_eq hmoves.runs_eq hmoves.calls_eq

-- The other threads are where they were.
theorem goTo_held_cases {θ' : τ} {n : Pointer} (hheld : ((s.goTo θ place).place θ').held = some n) :
    θ' = θ ∧ place.held = some n ∨ θ' ≠ θ ∧ (s.place θ').held = some n := by
  unfold goTo at hheld
  by_cases hθ : θ' = θ
  · subst hθ
    simp only [Function.update_self] at hheld
    exact Or.inl ⟨rfl, hheld⟩
  · simp only [Function.update_of_ne hθ] at hheld
    exact Or.inr ⟨hθ, hheld⟩

theorem goTo_linked {θ' : τ} {n c : Pointer} (hnot : ∀ n c, place ≠ .linked n c)
    (hlinked : (s.goTo θ place).place θ' = .linked n c) : s.place θ' = .linked n c := by
  unfold goTo at hlinked
  by_cases hθ : θ' = θ
  · subst hθ
    simp only [Function.update_self] at hlinked
    exact absurd hlinked (hnot n c)
  · simpa only [Function.update_of_ne hθ] using hlinked

theorem Lists.push (h : s.Lists chain) (hnumbered : s.Numbered)
    (hplace : s.place θ = .linked node s.list) : (s.push θ node).Lists (node :: chain) := by
  have hheld : (s.place θ).held = some node := by rw [hplace]; rfl
  obtain ⟨hpos, hboxed, hnot⟩ := h.held θ node hheld
  have hnew : s.survives (s.registration node, s.runs.length) = true := by simp [survives]
  refine ⟨⟨rfl, ?_⟩, ?_, List.nodup_cons.mpr ⟨hnot, h.nodup⟩, fun n hn => ?_, ?_,
    fun θ' n hn => ?_, fun θ' n c hn => ?_⟩
  · change Segment s.next (s.next node) chain 0
    rw [h.target θ node s.list hplace]
    exact h.linked
  · rw [List.mem_cons, not_or]
    exact ⟨Ne.symm hpos, h.null⟩
  · rcases List.mem_cons.mp hn with rfl | hn
    · exact hboxed
    · exact h.boxed n hn
  · change (node :: chain).map s.registration =
      (List.filter s.survives ((s.registration node, s.runs.length) :: s.added)).map Prod.fst
    rw [List.filter_cons_of_pos hnew, List.map_cons, List.map_cons, h.registrations]
  · rcases goTo_held_cases hn with ⟨_, hidle⟩ | ⟨hθ, hother⟩
    · cases hidle
    · obtain ⟨hpos', hboxed', hnot'⟩ := h.held θ' n hother
      refine ⟨hpos', hboxed', fun hmem => ?_⟩
      rcases List.mem_cons.mp hmem with heq | hmem
      · exact hθ (hnumbered.held_apart θ' θ n node hother hheld (by rw [heq]))
      · exact hnot' hmem
  · exact h.target θ' n c (goTo_linked (by simp) hn)

theorem Numbered.push (h : s.Numbered) (hplace : s.place θ = .linked node s.list) :
    (s.push θ node).Numbered := by
  have hheld : (s.place θ).held = some node := by rw [hplace]; rfl
  refine ⟨fun r hr => ?_, ?_, fun r hr => ?_, fun θ' n hn => ?_, fun θ' n hn r hr => ?_,
    fun θ' θ'' n n' hn hn' => ?_, fun k hk => ?_⟩
  · rcases List.mem_cons.mp hr with rfl | hr
    · exact Nat.le_refl _
    · exact h.since_le r hr
  · refine List.nodup_cons.mpr ⟨fun hmem => ?_, h.nodup⟩
    obtain ⟨r, hr, heq⟩ := List.mem_map.mp hmem
    exact h.held_new θ node hheld r hr heq
  · rcases List.mem_cons.mp hr with rfl | hr
    · exact h.held_lt θ node hheld
    · exact h.added_lt r hr
  · rcases goTo_held_cases hn with ⟨_, hidle⟩ | ⟨_, hn⟩
    · cases hidle
    · exact h.held_lt θ' n hn
  · rcases goTo_held_cases hn with ⟨_, hidle⟩ | ⟨hθ, hn⟩
    · cases hidle
    · rcases List.mem_cons.mp hr with rfl | hr
      · exact fun heq => hθ (h.held_apart θ' θ n node hn hheld heq.symm)
      · exact h.held_new θ' n hn r hr
  · rcases goTo_held_cases hn with ⟨_, hidle⟩ | ⟨_, hn⟩
    · cases hidle
    · rcases goTo_held_cases hn' with ⟨_, hidle⟩ | ⟨_, hn'⟩
      · cases hidle
      · exact h.held_apart θ' θ'' n n' hn hn'
  · rcases h.accounted k hk with ⟨r, hr, heq⟩ | ⟨θ', n, hn, heq⟩
    · exact Or.inl ⟨r, List.mem_cons_of_mem _ hr, heq⟩
    · by_cases hθ : θ' = θ
      · subst hθ
        obtain rfl := Option.some.inj (hheld.symm.trans hn)
        exact Or.inl ⟨_, List.mem_cons_self, heq⟩
      · refine Or.inr ⟨θ', n, ?_, heq⟩
        simpa [FinalizerQueue.push, goTo, hθ] using hn

theorem Called.push (h : s.Called) : (s.push θ node).Called := by
  refine ⟨fun r k => ?_, h.nodup⟩
  refine (h.mem_iff r k).trans ⟨?_, ?_⟩
  · rintro ⟨since, hr, hfirst⟩
    exact ⟨since, List.mem_cons_of_mem _ hr, hfirst⟩
  · rintro ⟨since, hr, hfirst⟩
    rcases List.mem_cons.mp hr with heq | hr
    · obtain ⟨-, rfl⟩ := Prod.mk.inj heq
      -- no run has been made since
      have hlt : k < s.runs.length := FirstUnmarked.lt (s := s.push θ node) hfirst
      exact absurd hfirst.1 (Nat.not_le.mpr hlt)
    · exact ⟨since, hr, hfirst⟩

section Create

variable {object box : Pointer} {finalizer : φ}

theorem create_node {n : Pointer} (hn : n ≠ box) :
    (s.create θ object finalizer box).node n = s.node n := Function.update_of_ne hn ..

theorem create_registration {n : Pointer} (hn : n ≠ box) :
    (s.create θ object finalizer box).registration n = s.registration n :=
  congrArg Finalizer.toRegistration (create_node hn)

theorem create_ticket :
    ((s.create θ object finalizer box).registration box).ticket = s.begun := by
  unfold registration FinalizerQueue.create
  simp only [Function.update_self]

theorem Lists.create (h : s.Lists chain) (hpos : box ≠ 0) (hfree : s.boxed box = false) :
    (s.create θ object finalizer box).Lists chain := by
  have hne : ∀ {n}, s.boxed n = true → n ≠ box := by
    rintro n hboxed rfl
    rw [hfree] at hboxed
    cases hboxed
  have hboxed : ∀ {n}, s.boxed n = true → (s.create θ object finalizer box).boxed n = true :=
    fun hn => (Function.update_of_ne (hne hn) ..).trans hn
  refine ⟨h.linked.congr fun n hn => ?_, h.null, h.nodup, fun n hn => hboxed (h.boxed n hn), ?_,
    fun θ' n hn => ?_, fun θ' n c hn => ?_⟩
  · exact congrArg Finalizer.next (create_node (hne (h.boxed n hn)))
  · have hsame : ∀ n ∈ chain,
        (s.create θ object finalizer box).registration n = s.registration n :=
      fun n hn => create_registration (hne (h.boxed n hn))
    exact (List.map_congr_left hsame).trans h.registrations
  · rcases goTo_held_cases hn with ⟨_, hcreated⟩ | ⟨_, hn⟩
    · obtain rfl : box = n := Option.some.inj hcreated
      refine ⟨hpos, Function.update_self .., fun hmem => ?_⟩
      exact hne (h.boxed box hmem) rfl
    · obtain ⟨hpos', hboxed', hnot⟩ := h.held θ' n hn
      exact ⟨hpos', hboxed hboxed', hnot⟩
  · have hn' := goTo_linked (by simp) hn
    have hboxed' := (h.held θ' n (by rw [hn']; rfl)).2.1
    exact (congrArg Finalizer.next (create_node (hne hboxed'))).trans (h.target θ' n c hn')

theorem Numbered.create (h : s.Numbered) (hlists : s.Lists chain)
    (hidle : s.place θ = .idle) (hfree : s.boxed box = false) :
    (s.create θ object finalizer box).Numbered := by
  have hreg : ∀ {θ' n}, (s.place θ').held = some n →
      (s.create θ object finalizer box).registration n = s.registration n := by
    intro θ' n hn
    apply create_registration
    rintro rfl
    rw [(hlists.held θ' n hn).2.1] at hfree
    cases hfree
  refine ⟨h.since_le, h.nodup, fun r hr => Nat.lt_succ_of_lt (h.added_lt r hr), fun θ' n hn => ?_,
    fun θ' n hn r hr => ?_, fun θ' θ'' n n' hn hn' heq => ?_, fun k hk => ?_⟩
  · rcases goTo_held_cases hn with ⟨_, hcreated⟩ | ⟨_, hn⟩
    · obtain rfl : box = n := Option.some.inj hcreated
      rw [create_ticket]
      exact Nat.lt_succ_self s.begun
    · rw [hreg hn]
      exact Nat.lt_succ_of_lt (h.held_lt θ' n hn)
  · rcases goTo_held_cases hn with ⟨_, hcreated⟩ | ⟨_, hn⟩
    · obtain rfl : box = n := Option.some.inj hcreated
      rw [create_ticket]
      exact Nat.ne_of_lt (h.added_lt r hr)
    · rw [hreg hn]
      exact h.held_new θ' n hn r hr
  · rcases goTo_held_cases hn with ⟨rfl, hcreated⟩ | ⟨_, hother⟩
    · rcases goTo_held_cases hn' with ⟨rfl, _⟩ | ⟨_, hother'⟩
      · rfl
      · have hlt := h.held_lt θ'' n' hother'
        obtain rfl : box = n := Option.some.inj hcreated
        rw [create_ticket, hreg hother'] at heq
        omega
    · have hlt := h.held_lt θ' n hother
      rw [hreg hother] at heq
      rcases goTo_held_cases hn' with ⟨rfl, hcreated⟩ | ⟨_, hother'⟩
      · obtain rfl : box = n' := Option.some.inj hcreated
        rw [create_ticket] at heq
        omega
      · rw [hreg hother'] at heq
        exact h.held_apart θ' θ'' n n' hother hother' heq
  · rcases Nat.lt_succ_iff_lt_or_eq.mp hk with hlt | rfl
    · refine (h.accounted k hlt).imp_right ?_
      rintro ⟨θ', n, hn, heq⟩
      have hθ : θ' ≠ θ := by
        rintro rfl
        rw [hidle] at hn
        cases hn
      refine ⟨θ', n, ?_, (congrArg Registration.ticket (hreg hn)).trans heq⟩
      simpa [FinalizerQueue.create, goTo, hθ] using hn
    · exact Or.inr ⟨θ, box, by simp [FinalizerQueue.create, goTo, AddPlace.held], create_ticket⟩

end Create

theorem Good.push (h : s.Good) (hplace : s.place θ = .linked node s.list) :
    (s.push θ node).Good := by
  obtain ⟨chain, hlists⟩ := h.lists
  exact ⟨⟨_, hlists.push h.numbered hplace⟩, h.numbered.push hplace, h.called.push⟩

theorem Good.create {object box : Pointer} {finalizer : φ} (h : s.Good)
    (hidle : s.place θ = .idle) (hpos : box ≠ 0) (hfree : s.boxed box = false) :
    (s.create θ object finalizer box).Good := by
  obtain ⟨chain, hlists⟩ := h.lists
  exact ⟨⟨chain, hlists.create hpos hfree⟩, h.numbered.create hlists hidle hfree,
    h.called.congr rfl rfl rfl⟩

theorem Good.step {e : FinalizerEvent τ φ} (h : s.Good) (hstep : s.step e = some t) : t.Good := by
  obtain ⟨chain, hlists⟩ := h.lists
  cases e with
  | register θ object finalizer box =>
      obtain ⟨⟨hidle, hpos, hfree⟩, rfl⟩ := guard_eq_some.mp hstep
      exact h.create hidle hpos hfree
  | go θ =>
      unfold FinalizerQueue.step go at hstep
      cases hplace : s.place θ with
      | idle => simp [hplace] at hstep
      | created node =>
          have hheld : (s.place θ).held = some node := by rw [hplace]; rfl
          simp only [hplace, Option.some.injEq] at hstep
          exact hstep ▸ h.move hheld (moves_load hlists hheld)
      | loaded node current =>
          have hheld : (s.place θ).held = some node := by rw [hplace]; rfl
          simp only [hplace, Option.some.injEq] at hstep
          exact hstep ▸ h.move hheld (moves_link hlists h.numbered hheld)
      | linked node current =>
          have hheld : (s.place θ).held = some node := by rw [hplace]; rfl
          simp only [hplace] at hstep
          by_cases hsame : s.list = current
          · rw [if_pos hsame, Option.some.injEq] at hstep
            exact hstep ▸ h.push (hsame ▸ hplace)
          · rw [if_neg hsame, Option.some.injEq] at hstep
            exact hstep ▸ h.move hheld (moves_load hlists hheld)
  | fail θ =>
      unfold FinalizerQueue.step fail at hstep
      cases hplace : s.place θ with
      | linked node current =>
          have hheld : (s.place θ).held = some node := by rw [hplace]; rfl
          simp only [hplace, Option.some.injEq] at hstep
          exact hstep ▸ h.move hheld (moves_load hlists hheld)
      | idle => simp [hplace] at hstep
      | created node => simp [hplace] at hstep
      | loaded node current => simp [hplace] at hstep
  | run marked => exact h.run hstep

theorem good_of_reachable (hs : (finalizerQueue τ φ).Reachable s) : s.Good := by
  refine Machine.Reachable.invariant (P := Good) (fun s hinit => ?_) (fun s e t h => h.step) hs
  obtain ⟨hlist, hboxed, hidle, hbegun, hadded, hruns, hcalls⟩ := hinit
  have hheld : ∀ θ n, (s.place θ).held ≠ some n := by
    intro θ n
    simp [hidle θ, AddPlace.held]
  refine ⟨⟨[], hlist, List.not_mem_nil, List.nodup_nil, fun n hn => absurd hn List.not_mem_nil, ?_,
    fun θ n hn => absurd hn (hheld θ n), fun θ n c hn => ?_⟩, ?_, ?_⟩
  · rw [hadded]
    rfl
  · rw [hidle θ] at hn
    cases hn
  · exact ⟨by simp [hadded], by simp [hadded], by simp [hadded], fun θ n hn => absurd hn (hheld θ n),
      fun θ n hn => absurd hn (hheld θ n), fun θ _ n _ hn => absurd hn (hheld θ n), by simp [hbegun]⟩
  · exact ⟨by simp [hadded, hcalls], by simp [hcalls]⟩

end Adds

theorem walk_eq {fuel : Nat} {node : Pointer} (hlinked : Segment s.next node chain 0)
    (hnull : 0 ∉ chain) (hfuel : chain.length ≤ fuel) :
    s.walk fuel node = chain.map s.registration := by
  induction chain generalizing node fuel with
  | nil =>
      have hend : node = 0 := hlinked
      cases fuel with
      | zero => rfl
      | succ fuel => simp [walk, hend]
  | cons n rest ih =>
      obtain ⟨rfl, hrest⟩ := hlinked
      obtain ⟨hpos, hnull⟩ := not_or.mp (List.mem_cons.not.mp hnull)
      cases fuel with
      | zero => simp at hfuel
      | succ fuel =>
          unfold walk
          rw [if_neg (Ne.symm hpos), ih hrest hnull (by simpa using hfuel), List.map_cons]

theorem Lists.pending (h : s.Lists chain) : s.pending = chain.map s.registration :=
  walk_eq h.linked h.null h.length_le

variable [DecidableEq τ]

-- Every registration that was begun is still in progress or was added. What was
-- added is pending exactly while all runs since have met its object marked; its
-- finalizer is called in the first run that has not, and in no other.
structure Faithful (s : FinalizerQueue τ φ) : Prop where
  accounted : ∀ k < s.begun, (∃ r ∈ s.added, r.1.ticket = k) ∨
    ∃ θ n, (s.place θ).held = some n ∧ (s.registration n).ticket = k
  tickets : (s.added.map fun r => r.1.ticket).Nodup
  pending_eq : s.pending = (s.added.filter s.survives).map Prod.fst
  not_lost : ∀ r ∈ s.added, r.1 ∈ s.pending ∨ ∃ k, (r.1, k) ∈ s.calls
  calls_iff : ∀ r k, (r, k) ∈ s.calls ↔ ∃ since, (r, since) ∈ s.added ∧ s.FirstUnmarked (r, since) k
  called_once : (s.calls.map fun c => c.1.ticket).Nodup
  runs : ∀ marked : Pointer → Bool, ∃ t, s.step (.run marked) = some t ∧
    t.pending = s.pending.filter (fun r => marked r.object) ∧
    t.calls = s.calls ++
      (s.pending.filter fun r => !marked r.object).map fun r => (r, s.runs.length)

-- In every run of the threads and of the collections.
theorem finalized_at_most_once (hs : (finalizerQueue τ φ).Reachable s) : s.Faithful := by
  have h := good_of_reachable hs
  obtain ⟨chain, hlists⟩ := h.lists
  have hpending := hlists.pending
  refine ⟨h.numbered.accounted, h.numbered.nodup, hpending.trans hlists.registrations,
    fun r hr => ?_, h.called.mem_iff, h.called.nodup, fun marked => ?_⟩
  · by_cases hsurvives : s.survives r = true
    · refine Or.inl ?_
      rw [hpending, hlists.registrations]
      exact List.mem_map_of_mem (List.mem_filter.mpr ⟨hr, hsurvives⟩)
    · obtain ⟨k, hk⟩ := exists_firstUnmarked hsurvives
      exact Or.inr ⟨k, (h.called.mem_iff r.1 k).mpr ⟨r.2, hr, hk⟩⟩
  · obtain ⟨t, ht, hfilters⟩ := hlists.run marked
    refine ⟨_, ht, ?_, ?_⟩
    · rw [(hlists.filtered h.numbered hfilters).pending, hpending, List.filter_map]
      change (chain.filter _).map t.registration = _
      rw [hfilters.registration_eq]
      rfl
    · rw [hpending, List.filter_map, List.map_map]
      exact hfilters.calls_eq

def quietQueue : FinalizerQueue Bool Nat where
  list := 0
  node := fun _ => ⟨⟨0, 0, 0⟩, 0⟩
  boxed := fun _ => false
  place := fun _ => .idle
  begun := 0
  added := []
  runs := []
  calls := []

-- Two threads register at once, and the exchange of one fails for either reason. The
-- first run calls one finalizer, the second one the other.
theorem finalized_at_most_once_two : ∃ s, (finalizerQueue Bool Nat).Reachable s ∧
    s.calls = [(⟨0, 32, 7⟩, 0), (⟨1, 48, 8⟩, 1)] ∧ s.pending = [] ∧ s.Faithful := by
  have hrun : ((finalizerQueue Bool Nat).run quietQueue
      [.register false 32 7 1, .register true 48 8 2, .go false, .go true, .go false, .go true,
        .fail true, .go true, .go false, .go true, .go true, .go true, .run (· == 48),
        .run fun _ => false]).map (fun s => (s.calls, s.pending)) =
      some ([(⟨0, 32, 7⟩, 0), (⟨1, 48, 8⟩, 1)], []) := by
    decide +kernel
  obtain ⟨s, hs, heq⟩ := Option.map_eq_some_iff.mp hrun
  obtain ⟨hcalls, hpending⟩ := Prod.mk.inj heq
  have hinit : (finalizerQueue Bool Nat).init quietQueue :=
    ⟨rfl, fun _ => rfl, fun _ => rfl, rfl, rfl, rfl, rfl⟩
  have hreach := Machine.run_reachable (Machine.Via.init hinit) hs
  exact ⟨s, hreach, hcalls, hpending, finalized_at_most_once hreach⟩

end FinalizerQueue

end Rsgc.System
