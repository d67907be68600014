import Mathlib.Data.List.ReduceOption

namespace Gaps

open List

variable {α : Type}

/-- The items of a history that were kept, with a mark in front of each that follows dropped ones;
`gap` says whether the history starts in a gap. -/
def marked : Bool → List (α × Bool) → List (Option α)
  | _, [] => []
  | gap, (a, true) :: h => (if gap then [none] else []) ++ some a :: marked false h
  | _, (_, false) :: h => marked true h

def kept (h : List (α × Bool)) : List α :=
  (h.filter Prod.snd).map Prod.fst

def gapAfter (gap : Bool) (h : List (α × Bool)) : Bool :=
  h.foldl (fun _ p => !p.2) gap

theorem marked_append (gap : Bool) (h k : List (α × Bool)) :
    marked gap (h ++ k) = marked gap h ++ marked (gapAfter gap h) k := by
  induction h generalizing gap with
  | nil => rfl
  | cons p h ih =>
    obtain ⟨a, _ | _⟩ := p
    · exact ih true
    · show _ ++ some a :: marked false (h ++ k) = (_ ++ some a :: marked false h) ++ _
      rw [ih, append_assoc]
      rfl

theorem gapAfter_concat (gap : Bool) (h : List (α × Bool)) (a : α) (b : Bool) :
    gapAfter gap (h ++ [(a, b)]) = !b := by
  rw [gapAfter, foldl_append]
  rfl

variable {gap : Bool} {h : List (α × Bool)} {rest : List (Option α)}

theorem marked_next {mid : List (Option α)} {b : α} (hmid : ∀ x ∈ mid, x = none)
    (heq : marked gap h = mid ++ some b :: rest) :
    ∃ lost h', h = lost ++ (b, true) :: h' ∧ (∀ p ∈ lost, p.2 = false) ∧
      mid = (if gap ∨ lost ≠ [] then [none] else []) ∧ rest = marked false h' := by
  induction h generalizing gap with
  | nil => cases mid <;> cases heq
  | cons p h ih =>
    obtain ⟨a, _ | _⟩ := p
    · have hmarked : marked true h = mid ++ some b :: rest := heq
      obtain ⟨lost, h', rfl, hlost, hm, hrest⟩ := ih hmarked
      refine ⟨(a, false) :: lost, h', rfl, ?_, ?_, hrest⟩
      · intro p hp
        rcases mem_cons.mp hp with rfl | hp
        · rfl
        · exact hlost p hp
      · rw [hm]
        simp
    · refine ⟨[], h, ?_⟩
      cases gap with
      | false =>
        obtain _ | ⟨x, mid⟩ := mid
        · cases heq
          exact ⟨rfl, nofun, rfl, rfl⟩
        · cases hmid x mem_cons_self
          cases heq
      | true =>
        obtain _ | ⟨x, _ | ⟨y, mid⟩⟩ := mid
        · cases heq
        · cases hmid x mem_cons_self
          cases heq
          exact ⟨rfl, nofun, rfl, rfl⟩
        · cases hmid y (by simp)
          cases heq

theorem marked_split {pre : List (Option α)} {a : α} (heq : marked gap h = pre ++ some a :: rest) :
    ∃ before after, h = before ++ (a, true) :: after ∧ kept before = pre.reduceOption ∧
      rest = marked false after := by
  induction h generalizing gap pre with
  | nil => cases pre <;> cases heq
  | cons p h ih =>
    obtain ⟨c, _ | _⟩ := p
    · have hmarked : marked true h = pre ++ some a :: rest := heq
      obtain ⟨before, after, rfl, hkept, hrest⟩ := ih hmarked
      exact ⟨(c, false) :: before, after, rfl, hkept, hrest⟩
    · -- The item is this one, or it stands in the stream behind it.
      have hcons : ∀ pre', some c :: marked false h = pre' ++ some a :: rest →
          ∃ before after, (c, true) :: h = before ++ (a, true) :: after ∧
            kept before = pre'.reduceOption ∧ rest = marked false after := by
        intro pre' heq
        obtain _ | ⟨x, pre'⟩ := pre'
        · cases heq
          exact ⟨[], h, rfl, rfl, rfl⟩
        · obtain ⟨rfl, htail⟩ := List.cons.inj heq
          obtain ⟨before, after, rfl, hkept, hrest⟩ := ih htail
          refine ⟨(c, true) :: before, after, rfl, ?_, hrest⟩
          rw [reduceOption_cons_of_some, ← hkept]
          rfl
      cases gap with
      | false => exact hcons pre heq
      | true =>
        obtain _ | ⟨x, pre⟩ := pre
        · cases heq
        · obtain ⟨rfl, htail⟩ := List.cons.inj heq
          rw [reduceOption_cons_of_none]
          exact hcons pre htail

theorem marked_between {pre mid : List (Option α)} {a b : α} (hmid : ∀ x ∈ mid, x = none)
    (heq : marked gap h = pre ++ some a :: (mid ++ some b :: rest)) :
    ∃ before lost after, h = before ++ (a, true) :: (lost ++ (b, true) :: after) ∧
      kept before = pre.reduceOption ∧ (∀ p ∈ lost, p.2 = false) ∧
      mid = if lost = [] then [] else [none] := by
  obtain ⟨before, rest', rfl, hkept, hrest⟩ := marked_split heq
  obtain ⟨lost, after, rfl, hlost, hm, -⟩ := marked_next hmid hrest.symm
  refine ⟨before, lost, after, rfl, hkept, hlost, ?_⟩
  rw [hm]
  by_cases hnil : lost = [] <;> simp [hnil]

theorem reduceOption_marked (gap : Bool) (h : List (α × Bool)) :
    (marked gap h).reduceOption = kept h := by
  induction h generalizing gap with
  | nil => rfl
  | cons p h ih =>
    obtain ⟨a, _ | _⟩ := p
    · exact ih true
    · rw [marked, reduceOption_append, reduceOption_cons_of_some, ih]
      cases gap <;> rfl

end Gaps
