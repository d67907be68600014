import Mathlib.Data.Finset.Card
import Mathlib.Data.List.Sort

namespace Ranking

open List

variable {α : Type}

structure StrictTotalOn (less : α → α → Bool) (l : List α) : Prop where
  irrefl : ∀ a ∈ l, less a a = false
  trans : ∀ a ∈ l, ∀ b ∈ l, ∀ c ∈ l, less a b = true → less b c = true → less a c = true
  total : ∀ a ∈ l, ∀ b ∈ l, a ≠ b → less a b = true ∨ less b a = true

def sort (less : α → α → Bool) (l : List α) : List α :=
  l.insertionSort fun a b => less b a = false

theorem perm_sort (less : α → α → Bool) (l : List α) : (sort less l).Perm l :=
  perm_insertionSort _ l

section

variable [DecidableEq α] {less : α → α → Bool} {l : List α}

def rank (less : α → α → Bool) (l : List α) (a : α) : Nat :=
  (l.toFinset.filter fun b => less b a = true).card

variable {xs ys zs : List α}

section Total

variable (h : StrictTotalOn less l)
include h

theorem StrictTotalOn.rank_lt {a b : α} (ha : a ∈ l) (hb : b ∈ l)
    (hab : less a b = true) : rank less l a < rank less l b := by
  refine Finset.card_lt_card ((Finset.ssubset_iff_of_subset ?_).mpr ⟨a, ?_, ?_⟩)
  · intro c hc
    obtain ⟨hcl, hca⟩ := Finset.mem_filter.mp hc
    exact Finset.mem_filter.mpr
      ⟨hcl, h.trans c (mem_toFinset.mp hcl) a ha b hb hca hab⟩
  · exact Finset.mem_filter.mpr ⟨mem_toFinset.mpr ha, hab⟩
  · intro hmem
    rw [Finset.mem_filter, h.irrefl a ha] at hmem
    exact absurd hmem.2 (by decide)

theorem StrictTotalOn.less_iff {a b : α} (ha : a ∈ l) (hb : b ∈ l) :
    less a b = true ↔ rank less l a < rank less l b := by
  constructor
  · exact h.rank_lt ha hb
  · intro hlt
    have hne : a ≠ b := by
      rintro rfl
      exact lt_irrefl _ hlt
    rcases h.total a ha b hb hne with hab | hba
    · exact hab
    · exact absurd (h.rank_lt hb ha hba) hlt.asymm

theorem StrictTotalOn.rank_inj {a b : α} (ha : a ∈ l) (hb : b ∈ l)
    (hab : rank less l a = rank less l b) : a = b := by
  by_contra hne
  rcases h.total a ha b hb hne with hlt | hlt
  · exact absurd (h.rank_lt ha hb hlt) (by omega)
  · exact absurd (h.rank_lt hb ha hlt) (by omega)

theorem StrictTotalOn.sort_ranked (hxs : xs ⊆ l) :
    (sort less xs).Pairwise fun a b => rank less l a ≤ rank less l b := by
  have hsort : sort less xs = xs.insertionSort fun a b => rank less l a ≤ rank less l b := by
    have hmap := map_insertionSort (fun a b => less b a = false)
      (fun a b => rank less l a ≤ rank less l b) id xs ?_
    · rw [map_id, map_id] at hmap
      exact hmap
    · intro a ha b hb
      rw [← Bool.not_eq_true, h.less_iff (hxs hb) (hxs ha), not_lt]
      rfl
  have : Std.Total fun a b => rank less l a ≤ rank less l b := ⟨fun a b => le_total _ _⟩
  have : IsTrans α fun a b => rank less l a ≤ rank less l b := ⟨fun _ _ _ => le_trans⟩
  rw [hsort]
  exact pairwise_insertionSort _ xs

/-- Sorting by a strict total order has one result. -/
theorem StrictTotalOn.sort_eq (hxs : xs ⊆ l) (hperm : ys.Perm xs)
    (hys : ys.Pairwise fun a b => rank less l a ≤ rank less l b) : sort less xs = ys := by
  refine List.Perm.eq_of_pairwise ?_ (h.sort_ranked hxs) hys ((perm_sort less xs).trans hperm.symm)
  intro a b ha hb hab hba
  have ha := hxs ((perm_sort less xs).mem_iff.mp ha)
  have hb := hxs (hperm.mem_iff.mp hb)
  exact h.rank_inj ha hb (le_antisymm hab hba)

theorem StrictTotalOn.sort_split (hxs : xs ⊆ l)
    (hperm : xs.Perm (ys ++ zs))
    (hle : ∀ y ∈ ys, ∀ z ∈ zs, rank less l y ≤ rank less l z) :
    sort less xs = sort less ys ++ sort less zs := by
  have hys : ys ⊆ l := fun a ha => hxs (hperm.mem_iff.mpr (mem_append_left _ ha))
  have hzs : zs ⊆ l := fun a ha => hxs (hperm.mem_iff.mpr (mem_append_right _ ha))
  refine h.sort_eq hxs (((perm_sort less ys).append (perm_sort less zs)).trans hperm.symm) ?_
  refine pairwise_append.mpr ⟨h.sort_ranked hys, h.sort_ranked hzs, ?_⟩
  intro a ha b hb
  exact hle a ((perm_sort less ys).mem_iff.mp ha) b ((perm_sort less zs).mem_iff.mp hb)

theorem StrictTotalOn.sort_filter (p : α → Bool) :
    sort less (l.filter p) = (sort less l).filter p :=
  h.sort_eq (fun _ ha => mem_of_mem_filter ha) ((perm_sort less l).filter p)
    ((h.sort_ranked fun _ ha => ha).filter p)

theorem StrictTotalOn.sort_strict (hnodup : l.Nodup) :
    (sort less l).Pairwise fun a b => less a b = true := by
  have hnd : (sort less l).Nodup := (perm_sort less l).nodup_iff.mpr hnodup
  refine ((h.sort_ranked fun _ ha => ha).and hnd).imp_of_mem ?_
  rintro a b ha hb ⟨hle, hne⟩
  have ha := (perm_sort less l).mem_iff.mp ha
  have hb := (perm_sort less l).mem_iff.mp hb
  rw [h.less_iff ha hb]
  exact lt_of_le_of_ne hle fun heq => hne (h.rank_inj ha hb heq)

theorem StrictTotalOn.sort_after (hnodup : l.Nodup) {a : α}
    (hl : sort less l = xs ++ a :: ys) : sort less (l.filter (less a)) = ys := by
  have hstrict := h.sort_strict hnodup
  have hmem : ∀ b ∈ xs ++ a :: ys, b ∈ l := fun b hb =>
    (perm_sort less l).mem_iff.mp (hl ▸ hb)
  rw [h.sort_filter, hl]
  rw [hl] at hstrict
  obtain ⟨-, hays, hcross⟩ := pairwise_append.mp hstrict
  have ha : a ∈ l := hmem a (by simp)
  have hfront : xs.filter (less a) = [] := by
    refine filter_eq_nil_iff.mpr fun b hb hab => ?_
    have hb' : b ∈ l := hmem b (by simp [hb])
    have hself := h.trans a ha b hb' a ha hab (hcross b hb a mem_cons_self)
    rw [h.irrefl a ha] at hself
    cases hself
  have hback : ys.filter (less a) = ys :=
    filter_eq_self.mpr fun b hb => (pairwise_cons.mp hays).1 b hb
  rw [filter_append, filter_cons, h.irrefl a ha, hfront, hback]
  rfl

end Total

end

end Ranking
