import Mathlib.Order.Basic

namespace Runs

variable {S A : Type}

inductive Reaches (step : S → A → Option S) (ok : S → A → Prop) (start : S) : S → Prop
  | refl : Reaches step ok start start
  | step {s t : S} {a : A} (h : Reaches step ok start s) (hok : ok s a) (hs : step s a = some t) :
      Reaches step ok start t

variable {step : S → A → Option S} {ok : S → A → Prop} {start s : S}

theorem Reaches.invariant {I : S → Prop} (h : Reaches step ok start s) (h0 : I start)
    (hstep : ∀ {s a t}, I s → ok s a → step s a = some t → I t) : I s := by
  induction h with
  | refl => exact h0
  | step _ hok hs ih => exact hstep ih hok hs

section

variable {p : Prop} [Decidable p] {t : S}

/-- A step behind a guard that has been taken. -/
theorem guarded (h : (if p then some s else none) = some t) : p ∧ s = t := by
  obtain ⟨hp, h⟩ := Option.ite_none_right_eq_some.mp h
  exact ⟨hp, Option.some.inj h⟩

theorem barred (h : (if p then none else some s) = some t) : ¬p ∧ s = t := by
  obtain ⟨hp, h⟩ := Option.ite_none_left_eq_some.mp h
  exact ⟨hp, Option.some.inj h⟩

end

theorem mem_concat {a b : A} {as : List A} (h : a ∈ as ++ [b]) : a ∈ as ∨ a = b := by
  rcases List.mem_append.mp h with h | h
  · exact Or.inl h
  · exact Or.inr (List.mem_singleton.mp h)

def run (step : S → A → Option S) (s : S) (as : List A) : Option S :=
  as.foldlM step s

def Meets (step : S → A → Option S) (ok : S → A → Prop) : S → List A → Prop
  | _, [] => True
  | s, a :: as => ok s a ∧ ∀ t ∈ step s a, Meets step ok t as

instance decidableMeets [∀ s a, Decidable (ok s a)] :
    ∀ (s : S) (as : List A), Decidable (Meets step ok s as)
  | _, [] => inferInstanceAs (Decidable True)
  | s, a :: as =>
    have := fun t => decidableMeets t as
    inferInstanceAs (Decidable (_ ∧ ∀ t ∈ step s a, _))

theorem reaches_run {as : List A} {t : S} (h : run step s as = some t)
    (hok : Meets step ok s as) (hs : Reaches step ok start s) : Reaches step ok start t := by
  induction as generalizing s with
  | nil =>
    cases h
    exact hs
  | cons a as ih =>
    obtain ⟨u, hu, h⟩ := Option.bind_eq_some_iff.mp h
    exact ih h (hok.2 u hu) (hs.step hok.1 hu)

theorem reached (step : S → A → Option S) (ok : S → A → Prop) (s : S) (as : List A) (P : S → Prop)
    (h : Meets step ok s as ∧ ∃ t ∈ run step s as, P t) :
    ∃ t, run step s as = some t ∧ Reaches step ok s t ∧ P t := by
  obtain ⟨hok, t, ht, hp⟩ := h
  exact ⟨t, ht, reaches_run ht hok .refl, hp⟩

end Runs
