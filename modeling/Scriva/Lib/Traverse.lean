import Mathlib.Data.List.Forall2

namespace Traverse

open List

section

variable {m : Type → Type} [Monad m] [LawfulMonad m] {α β : Type} {f : α → m β} {as : List α}

/-- A traversal that cannot fail at any element is a map. -/
theorem mapM_eq_pure {g : α → β} (h : ∀ a ∈ as, f a = pure (g a)) :
    as.mapM f = pure (as.map g) := by
  induction as with
  | nil => simp
  | cons a as ih =>
    rw [mapM_cons, h a mem_cons_self, ih fun b hb => h b (mem_cons_of_mem _ hb)]
    simp

/-- Where a bind that returns can be taken apart, a traversal that returns has succeeded at every
element, in the order of the list. -/
theorem forall₂_of_mapM (hinj : ∀ {bs cs : List β}, (pure bs : m (List β)) = pure cs → bs = cs)
    (hbind : ∀ {γ : Type} {x : m γ} {k : γ → m (List β)} {bs : List β}, x >>= k = pure bs →
      ∃ c, x = pure c ∧ k c = pure bs)
    {bs : List β} (h : as.mapM f = pure bs) : Forall₂ (fun a b => f a = pure b) as bs := by
  induction as generalizing bs with
  | nil =>
    cases hinj (h.symm.trans mapM_nil)
    exact .nil
  | cons a as ih =>
    rw [mapM_cons] at h
    obtain ⟨b, hb, h⟩ := hbind h
    obtain ⟨cs, hcs, h⟩ := hbind h
    cases hinj h
    exact .cons hb (ih hcs)

end

variable {α β ε : Type} {as : List α} {bs : List β}

theorem forall₂_of_mapM_some {f : α → Option β} (h : as.mapM f = some bs) :
    Forall₂ (fun a b => f a = some b) as bs :=
  forall₂_of_mapM Option.some.inj Option.bind_eq_some_iff.mp h

theorem forall₂_of_mapM_ok {f : α → Except ε β} (h : as.mapM f = .ok bs) :
    Forall₂ (fun a b => f a = .ok b) as bs := by
  refine forall₂_of_mapM Except.ok.inj (fun {_ x _ _} hx => ?_) h
  cases x with
  | error e => cases hx
  | ok c => exact ⟨c, rfl, hx⟩

theorem forall₂_mem {R : α → β → Prop} (h : Forall₂ R as bs) {b : β} (hb : b ∈ bs) :
    ∃ a ∈ as, R a b := by
  induction h with
  | nil => cases hb
  | @cons a' b' as bs hab _ ih =>
    rcases mem_cons.mp hb with rfl | hb
    · exact ⟨a', by simp, hab⟩
    · obtain ⟨a, ha, hr⟩ := ih hb
      exact ⟨a, by simp [ha], hr⟩

end Traverse
