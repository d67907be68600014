import Mathlib.Data.List.Basic

namespace Search

open List

def loop (f : Nat → Bool) : Nat → Nat → Nat → Nat
  | 0, i, _ => i
  | fuel + 1, i, j =>
    if i < j then
      if f ((i + j) / 2) then loop f fuel i ((i + j) / 2) else loop f fuel ((i + j) / 2 + 1) j
    else i

def search (n : Nat) (f : Nat → Bool) : Nat :=
  loop f n 0 n

variable {f : Nat → Bool} {n : Nat}

/-- The search stops at the first index where `f` holds. -/
theorem loop_spec (hmono : ∀ a b, a ≤ b → b < n → f a = true → f b = true) {fuel i j : Nat}
    (hij : i ≤ j) (hj : j ≤ n) (hfuel : j ≤ i + fuel) :
    loop f fuel i j ≤ j ∧ (∀ a, i ≤ a → a < loop f fuel i j → f a = false) ∧
      ∀ a, loop f fuel i j ≤ a → a < j → f a = true := by
  induction fuel generalizing i j with
  | zero =>
    have heq : loop f 0 i j = i := rfl
    rw [heq]
    exact ⟨hij, fun a _ _ => by omega, fun a _ _ => by omega⟩
  | succ fuel ih =>
    rw [loop]
    by_cases hlt : i < j
    · rw [if_pos hlt]
      cases hmid : f ((i + j) / 2) with
      | true =>
        rw [if_pos rfl]
        obtain ⟨hle, hbelow, habove⟩ := ih (i := i) (j := (i + j) / 2) (by omega) (by omega) (by omega)
        refine ⟨by omega, hbelow, fun a ha haj => ?_⟩
        by_cases ham : a < (i + j) / 2
        · exact habove a ha ham
        · exact hmono _ a (by omega) (by omega) hmid
      | false =>
        rw [if_neg (by simp)]
        obtain ⟨hle, hbelow, habove⟩ := ih (i := (i + j) / 2 + 1) (j := j) (by omega) hj (by omega)
        refine ⟨hle, fun a ha hlt' => ?_, habove⟩
        by_cases ham : a ≤ (i + j) / 2
        · by_contra hfa
          have := hmono a _ ham (by omega) (by simpa using hfa)
          rw [hmid] at this
          cases this
        · exact hbelow a (by omega) hlt'
    · rw [if_neg hlt]
      exact ⟨hij, fun a _ _ => by omega, fun a _ _ => by omega⟩

variable {α : Type} {p : α → Bool} {l : List α}

def searchList (l : List α) (p : α → Bool) : Nat :=
  search l.length fun i => (l[i]?).elim false p

def Splits (p : α → Bool) (l : List α) : Prop :=
  l.Pairwise fun a b => p a = true → p b = true

theorem Splits.mono (h : Splits p l) {a b : Nat} (hab : a ≤ b) (hb : b < l.length)
    (ha : (l[a]?).elim false p = true) : (l[b]?).elim false p = true := by
  rcases Nat.lt_or_eq_of_le hab with hlt | rfl
  · have hal : a < l.length := by omega
    rw [List.getElem?_eq_getElem hal] at ha
    rw [List.getElem?_eq_getElem hb]
    exact pairwise_iff_getElem.mp h a b hal hb hlt ha
  · exact ha

theorem take_drop_search (h : Splits p l) :
    (∀ x ∈ l.take (searchList l p), p x = false) ∧ ∀ x ∈ l.drop (searchList l p), p x = true := by
  obtain ⟨hle, hbelow, habove⟩ := loop_spec (f := fun i => (l[i]?).elim false p) (n := l.length)
    (fun a b hab hb ha => h.mono hab hb ha) (Nat.zero_le _) (Nat.le_refl _)
    (by omega : l.length ≤ 0 + l.length)
  constructor
  · intro x hx
    obtain ⟨i, hi, rfl⟩ := mem_iff_getElem.mp hx
    rw [length_take] at hi
    have hil : i < l.length := by omega
    have := hbelow i (by omega) (Nat.lt_of_lt_of_le hi (Nat.min_le_left _ _))
    rw [List.getElem?_eq_getElem hil] at this
    rw [getElem_take]
    exact this
  · intro x hx
    obtain ⟨i, hi, rfl⟩ := mem_iff_getElem.mp hx
    rw [length_drop] at hi
    have hil : searchList l p + i < l.length := by omega
    have := habove (searchList l p + i) (Nat.le_add_right _ _) hil
    rw [List.getElem?_eq_getElem hil] at this
    rw [getElem_drop]
    exact this

theorem mem_drop_search (h : Splits p l) {x : α} :
    x ∈ l.drop (searchList l p) ↔ x ∈ l ∧ p x = true := by
  obtain ⟨hfront, hback⟩ := take_drop_search h
  refine ⟨fun hx => ⟨mem_of_mem_drop hx, hback x hx⟩, fun ⟨hx, hp⟩ => ?_⟩
  rw [← take_append_drop (searchList l p) l] at hx
  refine (mem_append.mp hx).resolve_left fun hf => ?_
  rw [hfront x hf] at hp
  cases hp

theorem mem_take_search (h : Splits p l) {x : α} :
    x ∈ l.take (searchList l p) ↔ x ∈ l ∧ p x = false := by
  obtain ⟨hfront, hback⟩ := take_drop_search h
  refine ⟨fun hx => ⟨mem_of_mem_take hx, hfront x hx⟩, fun ⟨hx, hp⟩ => ?_⟩
  rw [← take_append_drop (searchList l p) l] at hx
  refine (mem_append.mp hx).resolve_right fun hf => ?_
  rw [hback x hf] at hp
  cases hp

structure StrictOn (less : α → α → Bool) (P : α → Prop) : Prop where
  irrefl : ∀ a, P a → less a a = false
  trans : ∀ a b c, P a → P b → P c → less a b = true → less b c = true → less a c = true
  total : ∀ a b, P a → P b → a = b ∨ less a b = true ∨ less b a = true

def Ascends (less : α → α → Bool) (l : List α) : Prop :=
  l.Pairwise fun a b => less a b = true

def position (less : α → α → Bool) (l : List α) (a : α) : Nat :=
  searchList l fun x => !less x a

def place (less : α → α → Bool) (l : List α) (a : α) : List α :=
  l.take (position less l a) ++ a :: l.drop (position less l a)

def unplace (less : α → α → Bool) (l : List α) (a : α) : List α :=
  l.take (position less l a) ++ l.drop (position less l a + 1)

variable {less : α → α → Bool} {P : α → Prop} {a b : α}

theorem position_spec (h : StrictOn less P) (hl : ∀ x ∈ l, P x) (hs : Ascends less l) (ha : P a) :
    (∀ x ∈ l.take (position less l a), less x a = true) ∧
      ∀ x ∈ l.drop (position less l a), less x a = false := by
  have hsplit : Splits (fun x => !less x a) l := by
    refine hs.imp_of_mem fun {x y} hx hy hxy hnot => ?_
    rw [Bool.not_eq_true'] at hnot ⊢
    by_contra hlt
    have := h.trans x y a (hl x hx) (hl y hy) ha hxy (by simpa using hlt)
    rw [hnot] at this
    cases this
  obtain ⟨hfront, hback⟩ := take_drop_search hsplit
  exact ⟨fun x hx => by simpa using hfront x hx, fun x hx => by simpa using hback x hx⟩

theorem mem_place : b ∈ place less l a ↔ b = a ∨ b ∈ l := by
  have hl : b ∈ l ↔ b ∈ l.take (position less l a) ∨ b ∈ l.drop (position less l a) := by
    rw [← mem_append, take_append_drop]
  rw [hl, place, mem_append, mem_cons]
  constructor
  · rintro (h | h | h)
    · exact Or.inr (Or.inl h)
    · exact Or.inl h
    · exact Or.inr (Or.inr h)
  · rintro (h | h | h)
    · exact Or.inr (Or.inl h)
    · exact Or.inl h
    · exact Or.inr (Or.inr h)

theorem place_ascends (h : StrictOn less P) (hl : ∀ x ∈ l, P x) (hs : Ascends less l) (ha : P a)
    (hnew : a ∉ l) : Ascends less (place less l a) := by
  obtain ⟨hfront, hback⟩ := position_spec h hl hs ha
  have hs' := hs
  rw [← take_append_drop (position less l a) l] at hs'
  obtain ⟨htake, hdrop, hcross⟩ := pairwise_append.mp hs'
  have habove : ∀ x ∈ l.drop (position less l a), less a x = true := by
    intro x hx
    have hmem := mem_of_mem_drop hx
    rcases h.total a x ha (hl x hmem) with rfl | hlt | hgt
    · exact absurd hmem hnew
    · exact hlt
    · rw [hback x hx] at hgt
      cases hgt
  refine pairwise_append.mpr ⟨htake, pairwise_cons.mpr ⟨habove, hdrop⟩, fun x hx y hy => ?_⟩
  rcases mem_cons.mp hy with rfl | hy
  · exact hfront x hx
  · exact hcross x hx y hy

theorem getElem_position (h : StrictOn less P) (hl : ∀ x ∈ l, P x) (hs : Ascends less l)
    (ha : a ∈ l) : l[position less l a]? = some a := by
  obtain ⟨hfront, hback⟩ := position_spec h hl hs (hl a ha)
  have hmem : a ∈ l.drop (position less l a) := by
    have hsplit : a ∈ l.take (position less l a) ∨ a ∈ l.drop (position less l a) := by
      rw [← mem_append, take_append_drop]
      exact ha
    refine hsplit.resolve_left fun hf => ?_
    have := hfront a hf
    rw [h.irrefl a (hl a ha)] at this
    cases this
  cases hd : l.drop (position less l a) with
  | nil =>
    rw [hd] at hmem
    cases hmem
  | cons x rest =>
    have hx : l[position less l a]? = some x := by
      have := congrArg List.head? hd
      rwa [List.head?_drop] at this
    rw [hd] at hmem
    rcases mem_cons.mp hmem with rfl | hrest
    · exact hx
    · have hasc : Ascends less (x :: rest) := by
        rw [← hd]
        exact hs.sublist (drop_sublist _ _)
      have hlt := (pairwise_cons.mp hasc).1 a hrest
      rw [hback x (by rw [hd]; simp)] at hlt
      cases hlt

theorem unplace_ascends (hs : Ascends less l) : Ascends less (unplace less l a) := by
  have hs' := hs
  rw [← take_append_drop (position less l a) l] at hs'
  obtain ⟨htake, hdrop, hcross⟩ := pairwise_append.mp hs'
  have hsub : (l.drop (position less l a + 1)).Sublist (l.drop (position less l a)) := by
    rw [← drop_drop]
    exact drop_sublist _ _
  exact pairwise_append.mpr ⟨htake, hdrop.sublist hsub,
    fun x hx y hy => hcross x hx y (hsub.subset hy)⟩

theorem mem_unplace (h : StrictOn less P) (hl : ∀ x ∈ l, P x) (hs : Ascends less l) (ha : a ∈ l) :
    b ∈ unplace less l a ↔ b ∈ l ∧ b ≠ a := by
  have hat := getElem_position h hl hs ha
  obtain ⟨hi, hat⟩ := List.getElem?_eq_some_iff.mp hat
  have hsplit : l = l.take (position less l a) ++ a :: l.drop (position less l a + 1) := by
    conv_lhs => rw [← take_append_drop (position less l a) l, drop_eq_getElem_cons hi, hat]
  have hasc := hs
  rw [hsplit] at hasc
  obtain ⟨-, hback, hcross⟩ := pairwise_append.mp hasc
  have hirr := h.irrefl a (hl a ha)
  have hnot : ∀ x, x ∈ l.take (position less l a) ∨ x ∈ l.drop (position less l a + 1) → x ≠ a := by
    rintro x (hx | hx) rfl
    · have := hcross x hx x (by simp)
      rw [hirr] at this
      cases this
    · have := (pairwise_cons.mp hback).1 x hx
      rw [hirr] at this
      cases this
  have hl' : b ∈ l ↔ b ∈ l.take (position less l a) ∨ b = a ∨
      b ∈ l.drop (position less l a + 1) := by
    conv_lhs => rw [hsplit]
    rw [mem_append, mem_cons]
  rw [hl', unplace, mem_append]
  constructor
  · intro hb
    exact ⟨hb.imp_right Or.inr, hnot b hb⟩
  · rintro ⟨hb | hb | hb, hne⟩
    · exact Or.inl hb
    · exact absurd hb hne
    · exact Or.inr hb

end Search
