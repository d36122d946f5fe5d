import Mathlib.Logic.Relation

namespace Rsgc

-- What a tracing collector knows of a graph: the nodes it has marked, the
-- nodes that its pending work still delivers, and the edges at this moment.
structure Coloring (α : Type*) where
  marked : α → Prop
  source : α → Prop
  edge : α → α → Prop

namespace Coloring

variable {α : Type*} (c : Coloring α)

def WhiteStep (a b : α) : Prop := c.edge a b ∧ ¬c.marked b

-- A node at the end of a path of unmarked nodes that starts at pending work.
def Protected (w : α) : Prop :=
  ∃ x, c.source x ∧ ¬c.marked x ∧ Relation.ReflTransGen c.WhiteStep x w

def Safe (w : α) : Prop := c.marked w ∨ c.Protected w

-- The tricolor invariant: what a marked node refers to is marked or protected.
def Guarded : Prop := ∀ a b, c.marked a → c.edge a b → c.Safe b

def Reaches (a b : α) : Prop := Relation.ReflTransGen c.edge a b

-- One step of the collector or of the program that it runs beside: marks stay,
-- what pending work delivers stays safe, and so does what an edge out of an
-- unmarked node points to where the step cuts the edge.
structure Advances (c c' : Coloring α) : Prop where
  marked : ∀ a, c.marked a → c'.marked a
  source : ∀ x, c.source x → ¬c.marked x → c'.Safe x
  edge : ∀ a b, c.WhiteStep a b → ¬c.marked a → c'.Safe b ∨ (¬c'.marked a ∧ c'.edge a b)

variable {c} {c' : Coloring α}

theorem Safe.of_source {x : α} (h : c.source x) : c.Safe x := by
  by_cases hx : c.marked x
  · exact Or.inl hx
  · exact Or.inr ⟨x, h, hx, Relation.ReflTransGen.refl⟩

theorem Protected.tail {a b : α} (ha : c.Protected a) (h : c.WhiteStep a b) : c.Protected b := by
  obtain ⟨x, hs, hx, hpath⟩ := ha
  exact ⟨x, hs, hx, hpath.tail h⟩

-- The induction is on the white path: a node of it that stays unmarked is
-- reached over its predecessor, or is safe on its own by now.
theorem Protected.advance (h : Advances c c') {w : α} (hw : c.Protected w) : c'.Safe w := by
  obtain ⟨x, hs, hx, hpath⟩ := hw
  suffices hall : c'.Safe w ∧ ¬c.marked w from hall.1
  induction hpath with
  | refl => exact ⟨h.source x hs hx, hx⟩
  | @tail a b _ hab ih =>
      obtain ⟨hsafe, hwhite⟩ := ih
      refine ⟨?_, hab.2⟩
      rcases h.edge a b hab hwhite with hb | ⟨ha, hedge⟩
      · exact hb
      · by_cases hb : c'.marked b
        · exact Or.inl hb
        · exact Or.inr ((hsafe.resolve_left ha).tail ⟨hedge, hb⟩)

theorem Safe.advance (h : Advances c c') {w : α} (hw : c.Safe w) : c'.Safe w := by
  rcases hw with hm | hp
  · exact Or.inl (h.marked w hm)
  · exact hp.advance h

-- A step after which all that was safe is safe, and whose marked nodes refer to
-- what a marked node referred to before, or to safe nodes.
structure Sustains (c c' : Coloring α) : Prop where
  safe : ∀ w, c.Safe w → c'.Safe w
  edge : ∀ a b, c'.marked a → c'.edge a b → (c.marked a ∧ c.edge a b) ∨ c'.Safe b

theorem Sustains.refl (c : Coloring α) : Sustains c c where
  safe _ hw := hw
  edge _ _ ha hab := Or.inl ⟨ha, hab⟩

theorem Sustains.trans {c'' : Coloring α} (h : Sustains c c') (h' : Sustains c' c'') :
    Sustains c c'' where
  safe w hw := h'.safe w (h.safe w hw)
  edge a b ha hab := by
    rcases h'.edge a b ha hab with ⟨ha', hab'⟩ | hb
    · exact (h.edge a b ha' hab').imp id (h'.safe b)
    · exact Or.inr hb

theorem Guarded.sustain (hg : c.Guarded) (h : Sustains c c') : c'.Guarded := by
  intro a b ha hab
  rcases h.edge a b ha hab with ⟨ha', hab'⟩ | hb
  · exact h.safe b (hg a b ha' hab')
  · exact hb

-- Every edge out of a marked node was there before, or is new and points to a
-- safe node.
theorem Advances.sustains (h : Advances c c')
    (hnew : ∀ a b, c'.marked a → c'.edge a b → c.edge a b ∨ c'.Safe b) : Sustains c c' where
  safe _ hw := hw.advance h
  edge a b ha hab := by
    rcases hnew a b ha hab with hold | hsafe
    · by_cases hm : c.marked a
      · exact Or.inl ⟨hm, hold⟩
      · by_cases hb : c.marked b
        · exact Or.inr (Or.inl (h.marked b hb))
        · rcases h.edge a b ⟨hold, hb⟩ hm with hsafe | ⟨hna, -⟩
          · exact Or.inr hsafe
          · exact absurd ha hna
    · exact Or.inr hsafe

theorem Guarded.step (hg : c.Guarded) {a b : α} (ha : c.Safe a) (hab : c.edge a b) :
    c.Safe b := by
  rcases ha with hm | hp
  · exact hg a b hm hab
  · by_cases hb : c.marked b
    · exact Or.inl hb
    · exact Or.inr (hp.tail ⟨hab, hb⟩)

-- A step that marks nothing and takes away nothing.
theorem Advances.of_le (hmarked : ∀ a, c'.marked a ↔ c.marked a)
    (hsource : ∀ x, c.source x → c'.source x) (hedge : ∀ a b, c.edge a b → c'.edge a b) :
    Advances c c' where
  marked a := (hmarked a).mpr
  source x hx _ := Safe.of_source (hsource x hx)
  edge a b hab ha := Or.inr ⟨fun h => ha ((hmarked a).mp h), hedge a b hab.1⟩

-- The other direction for a step that adds no edge: it makes nothing safe that
-- was not.
theorem Safe.of_advance (hmarked : ∀ a, c.marked a → c'.marked a)
    (hnew : ∀ a, c'.marked a → c.Safe a) (hsource : ∀ x, c'.source x → c.Safe x)
    (hedge : ∀ a b, c'.edge a b → c.edge a b) {w : α} (hw : c'.Safe w) : c.Safe w := by
  rcases hw with hm | ⟨x, hs, hx, hpath⟩
  · exact hnew w hm
  · suffices hall : c.Safe w ∧ ¬c'.marked w from hall.1
    induction hpath with
    | refl => exact ⟨hsource x hs, hx⟩
    | @tail a b _ hab ih =>
        obtain ⟨hsafe, hwhite⟩ := ih
        have ha : c.Protected a := hsafe.resolve_left fun h => hwhite (hmarked a h)
        exact ⟨Or.inr (ha.tail ⟨hedge a b hab.1, fun h => hab.2 (hmarked b h)⟩), hab.2⟩

-- A step that takes marks away from nodes that are pending work afterwards.
theorem Sustains.unmark (hmarked : ∀ a, c'.marked a → c.marked a)
    (hnew : ∀ a, c.marked a → ¬c'.marked a → c'.source a)
    (hsource : ∀ x, c.source x → ¬c.marked x → c'.source x)
    (hedge : ∀ a b, c'.edge a b ↔ c.edge a b) : Sustains c c' where
  safe w hw := by
    rcases hw with hw | ⟨x, hs, hx, hpath⟩
    · by_cases hafter : c'.marked w
      · exact Or.inl hafter
      · exact Safe.of_source (hnew w hw hafter)
    · have hwhite : c.WhiteStep ≤ c'.WhiteStep := fun u v huv =>
        ⟨(hedge u v).mpr huv.1, fun h => huv.2 (hmarked v h)⟩
      have hpath' := Relation.ReflTransGen.mono hwhite _ _ hpath
      exact Or.inr ⟨x, hsource x hs hx, fun h => hx (hmarked x h), hpath'⟩
  edge a b ha hab := Or.inl ⟨hmarked a ha, (hedge a b).mp hab⟩

-- Work that delivers only marked nodes is done.
theorem Sustains.of_source {source : α → Prop}
    (hsource : ∀ x, c.source x → ¬c.marked x → source x) : Sustains c { c with source } :=
  .unmark (fun _ ha => ha) (fun _ ha hna => absurd ha hna) hsource fun _ _ => Iff.rfl

theorem Guarded.reaches (hg : c.Guarded) {a b : α} (ha : c.Safe a) (hab : c.Reaches a b) :
    c.Safe b := by
  induction hab with
  | refl => exact ha
  | tail _ hstep ih => exact hg.step ih hstep

-- With no work pending, safe means marked.
theorem Safe.marked_of_done (hdone : ∀ x, ¬c.source x) {w : α} (hw : c.Safe w) : c.marked w := by
  rcases hw with hm | ⟨x, hs, -⟩
  · exact hm
  · exact absurd hs (hdone x)

theorem Guarded.marked_of_done (hg : c.Guarded) (hdone : ∀ x, ¬c.source x) {a b : α}
    (ha : c.Safe a) (hab : c.Reaches a b) : c.marked b :=
  (hg.reaches ha hab).marked_of_done hdone

end Coloring

end Rsgc
