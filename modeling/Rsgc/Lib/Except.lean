import Mathlib.Logic.Basic

namespace Rsgc

universe u v

variable {ε : Type u} {α β : Type v}

-- An assertion of the source: the computation stops with `e` when `p` fails.
def ensure (p : Prop) [Decidable p] (e : ε) : Except ε Unit :=
  if p then .ok () else .error e

theorem ensure_bind {p : Prop} [Decidable p] {e : ε} {γ : Type} {next : Unit → Except ε γ}
    (h : p) : (ensure p e >>= next) = next () := by
  unfold ensure
  rw [if_pos h]
  rfl

theorem ensure_bind_error {p : Prop} [Decidable p] {e : ε} {γ : Type} {next : Unit → Except ε γ}
    (h : ¬p) : (ensure p e >>= next) = .error e := by
  unfold ensure
  rw [if_neg h]
  rfl

namespace Except

@[simp] theorem bind_eq_ok {x : Except ε α} {f : α → Except ε β} {b : β} :
    (x >>= f) = .ok b ↔ ∃ a, x = .ok a ∧ f a = .ok b := by
  cases x <;> simp [bind, Except.bind]

@[simp] theorem pure_eq_ok {a b : α} : (pure a : Except ε α) = .ok b ↔ a = b := by
  simp [pure, Except.pure]

@[simp] theorem throw_ne_ok {e : ε} {a : α} : (throw e : Except ε α) ≠ .ok a := by
  simp [throw, throwThe, MonadExceptOf.throw]

@[simp] theorem ok_bind {a : α} {f : α → Except ε β} : (Except.ok a >>= f) = f a := rfl

@[simp] theorem error_bind {e : ε} {f : α → Except ε β} :
    (Except.error e >>= f) = Except.error e := rfl

@[simp] theorem pure_bind' {a : α} {f : α → Except ε β} : ((pure a : Except ε α) >>= f) = f a := rfl

-- What goes on from a computation that returns.
theorem exists_bind_eq_ok {x : Except ε α} {f : α → Except ε β} (hx : ∃ a, x = .ok a)
    (hf : ∀ a, x = .ok a → ∃ b, f a = .ok b) : ∃ b, (x >>= f) = .ok b := by
  obtain ⟨a, ha⟩ := hx
  rw [ha, ok_bind]
  exact hf a ha

theorem bind_eq_error {x : Except ε α} {f : α → Except ε β} {e : ε} :
    (x >>= f) = .error e ↔ x = .error e ∨ ∃ a, x = .ok a ∧ f a = .error e := by
  cases x <;> simp [bind, Except.bind]

@[simp] theorem ensure_eq_ok {p : Prop} [Decidable p] {e : ε} {u : Unit} :
    ensure p e = .ok u ↔ p := by
  by_cases hp : p <;> simp [ensure, hp]

theorem ensure_eq_error {p : Prop} [Decidable p] {e e' : ε} :
    ensure p e = .error e' ↔ ¬p ∧ e = e' := by
  by_cases hp : p <;> simp [ensure, hp]

-- A loop that has come to its end has taken a step at each of its elements.
theorem foldlM_ok_step {f : β → α → Except ε β} {items : List α} {b c : β}
    (hok : items.foldlM f b = .ok c) : ∀ a ∈ items, ∃ d d', f d a = .ok d' := by
  induction items generalizing b with
  | nil => simp
  | cons first rest ih =>
      rw [List.foldlM_cons, bind_eq_ok] at hok
      obtain ⟨d, hfirst, hrest⟩ := hok
      intro a ha
      rcases List.mem_cons.mp ha with rfl | ha
      · exact ⟨b, d, hfirst⟩
      · exact ih hrest a ha

-- A loop that reads a list, one element after the other.
theorem mapM_range_ok {f : Nat → Except ε β} {l : List β}
    (hread : ∀ i x, l[i]? = some x → f i = .ok x) : (List.range l.length).mapM f = .ok l := by
  have htaken : ∀ n ≤ l.length, (List.range n).mapM f = .ok (l.take n) := by
    intro n hn
    induction n with
    | zero =>
        rw [List.range_zero, List.take_zero]
        rfl
    | succ n ih =>
        have hx : l[n]? = some l[n] := List.getElem?_eq_getElem hn
        rw [List.range_succ, List.mapM_append, ih (by omega), List.mapM_cons, List.mapM_nil,
          hread n _ hx, List.take_add_one, hx]
        rfl
  rw [htaken _ (Nat.le_refl _), List.take_length]

theorem toOption_eq_some {x : Except ε α} {a : α} : x.toOption = some a ↔ x = .ok a := by
  cases x <;> simp [Except.toOption]

end Except

end Rsgc
