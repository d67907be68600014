import Mathlib.Order.Basic
import Mathlib.Data.List.Sort

namespace Heap

variable {α β : Type}

def lessAt (before : α → α → Bool) (a : Array α) (i j : Nat) : Bool :=
  match a[i]?, a[j]? with
  | some x, some y => before x y
  | _, _ => false

def parent (j : Nat) : Nat :=
  (j - 1) / 2

def up (before : α → α → Bool) : Nat → Array α → Nat → Array α
  | 0, a, _ => a
  | fuel + 1, a, j =>
    if parent j = j then a
    else if lessAt before a j (parent j) then
      up before fuel (a.swapIfInBounds (parent j) j) (parent j)
    else a

def child (before : α → α → Bool) (a : Array α) (i : Nat) : Nat :=
  if 2 * i + 2 < a.size ∧ lessAt before a (2 * i + 2) (2 * i + 1) = true then 2 * i + 2
  else 2 * i + 1

def down (before : α → α → Bool) : Nat → Array α → Nat → Array α × Nat
  | 0, a, i => (a, i)
  | fuel + 1, a, i =>
    if a.size ≤ 2 * i + 1 then (a, i)
    else if lessAt before a (child before a i) i then
      down before fuel (a.swapIfInBounds i (child before a i)) (child before a i)
    else (a, i)

def push (before : α → α → Bool) (a : Array α) (x : α) : Array α :=
  up before (a.size + 1) (a.push x) a.size

def fix (before : α → α → Bool) (a : Array α) (i : Nat) : Array α :=
  if i < (down before a.size a i).2 then (down before a.size a i).1
  else up before (i + 1) (down before a.size a i).1 i

theorem perm_swap (a : Array α) (i j : Nat) : (a.swapIfInBounds i j).Perm a := by
  rw [Array.swapIfInBounds_def]
  split_ifs with hi hj
  · exact Array.swap_perm hi hj
  · exact Array.Perm.refl _
  · exact Array.Perm.refl _

theorem get_swap {a : Array α} {i j : Nat} (hi : i < a.size) (hj : j < a.size) (k : Nat) :
    (a.swapIfInBounds i j)[k]? = if j = k then a[i]? else if i = k then a[j]? else a[k]? := by
  rw [Array.swapIfInBounds_def, dif_pos hi, dif_pos hj, Array.getElem?_swap hi hj]
  simp only [Array.getElem?_eq_getElem hi, Array.getElem?_eq_getElem hj]

theorem perm_up (before : α → α → Bool) (fuel : Nat) (a : Array α) (j : Nat) :
    (up before fuel a j).Perm a := by
  induction fuel generalizing a j with
  | zero => exact Array.Perm.refl _
  | succ fuel ih =>
    rw [up]
    split_ifs
    · exact Array.Perm.refl _
    · exact (ih _ _).trans (perm_swap _ _ _)
    · exact Array.Perm.refl _

theorem perm_down (before : α → α → Bool) (fuel : Nat) (a : Array α) (i : Nat) :
    (down before fuel a i).1.Perm a := by
  induction fuel generalizing a i with
  | zero => exact Array.Perm.refl _
  | succ fuel ih =>
    rw [down]
    split_ifs
    · exact Array.Perm.refl _
    · exact (ih _ _).trans (perm_swap _ _ _)
    · exact Array.Perm.refl _

theorem perm_fix (before : α → α → Bool) (a : Array α) (i : Nat) : (fix before a i).Perm a := by
  unfold fix
  split_ifs
  · exact perm_down _ _ _ _
  · exact (perm_up _ _ _ _).trans (perm_down _ _ _ _)

section

variable [LinearOrder β] {rank : α → β}

def Ordered (rank : α → β) (a : Array α) : Prop :=
  ∀ i x y, a[i]? = some x → a[parent i]? = some y → rank x ≤ rank y

theorem Ordered.root {a : Array α} (h : Ordered rank a) {i : Nat} {x y : α} (hi : a[i]? = some x)
    (hroot : a[0]? = some y) : rank x ≤ rank y := by
  induction i using Nat.strong_induction_on generalizing x with
  | _ i ih =>
    by_cases hzero : i = 0
    · rw [hzero, hroot] at hi
      cases hi
      exact le_rfl
    · have hlt : parent i < i := by
        unfold parent
        omega
      have hsize : i < a.size := (Array.getElem?_eq_some_iff.mp hi).1
      obtain ⟨z, hz⟩ : ∃ z, a[parent i]? = some z :=
        ⟨_, Array.getElem?_eq_getElem (hlt.trans hsize)⟩
      exact (h i x z hi hz).trans (ih (parent i) hlt hz)

structure OrderedAbove (rank : α → β) (a : Array α) (j : Nat) : Prop where
  others : ∀ i x y, i ≠ j → a[i]? = some x → a[parent i]? = some y → rank x ≤ rank y
  across : ∀ i x y, i ≠ j → parent i = j → a[i]? = some x → a[parent j]? = some y →
    rank x ≤ rank y

/-- Ordered but for an element that may rank below its children. -/
structure OrderedBelow (rank : α → β) (a : Array α) (j : Nat) : Prop where
  others : ∀ i x y, i = 0 ∨ parent i ≠ j → a[i]? = some x → a[parent i]? = some y →
    rank x ≤ rank y
  across : ∀ i x y, i ≠ 0 → j ≠ 0 → parent i = j → a[i]? = some x → a[parent j]? = some y →
    rank x ≤ rank y

variable {before : α → α → Bool} {P : α → Prop} {a : Array α}

/-- On these elements, what belongs nearer the root ranks higher. -/
def RankedBy (before : α → α → Bool) (rank : α → β) (P : α → Prop) : Prop :=
  ∀ x y, P x → P y → (before x y = true ↔ rank y < rank x)

theorem perm_push (before : α → α → Bool) (a : Array α) (x : α) :
    (push before a x).Perm (a.push x) :=
  perm_up _ _ _ _

section Ranked

variable (hb : RankedBy before rank P)
include hb

theorem lessAt_iff (ha : ∀ x ∈ a, P x) {i j : Nat} {x y : α}
    (hi : a[i]? = some x) (hj : a[j]? = some y) :
    lessAt before a i j = true ↔ rank y < rank x := by
  rw [lessAt, hi, hj]
  exact hb x y (ha x (Array.mem_of_getElem? hi)) (ha y (Array.mem_of_getElem? hj))

theorem ordered_up {fuel j : Nat} (ha : ∀ x ∈ a, P x)
    (hj : j < a.size) (hfuel : j < fuel) (h : OrderedAbove rank a j) :
    Ordered rank (up before fuel a j) := by
  induction fuel generalizing a j with
  | zero => omega
  | succ fuel ih =>
    have hp : parent j < a.size := by
      unfold parent
      omega
    obtain ⟨x, hx⟩ : ∃ x, a[j]? = some x := ⟨_, Array.getElem?_eq_getElem hj⟩
    obtain ⟨y, hy⟩ : ∃ y, a[parent j]? = some y := ⟨_, Array.getElem?_eq_getElem hp⟩
    rw [up]
    split_ifs with hroot hless
    · intro i u v hu hv
      by_cases hi : i = j
      · rw [hi, hroot] at hv
        rw [hi, hv] at hu
        cases hu
        exact le_rfl
      · exact h.others i u v hi hu hv
    · rw [lessAt_iff hb ha hx hy] at hless
      have hlt : parent j < j := by
        unfold parent at hroot ⊢
        omega
      refine ih (fun z hz => ha z ((perm_swap a (parent j) j).mem_iff.mp hz))
        (by rw [Array.size_swapIfInBounds]; exact hp) (by omega) ⟨?_, ?_⟩
      · intro i u v hi hu hv
        rw [get_swap hp hj] at hu hv
        by_cases hij : j = i
        · -- The old parent now stands below the element.
          rw [if_pos hij, hy] at hu
          rw [← hij, if_neg (Ne.symm (ne_of_lt hlt)), if_pos rfl, hx] at hv
          cases hu
          cases hv
          exact hless.le
        · rw [if_neg hij, if_neg (Ne.symm hi)] at hu
          by_cases h1 : j = parent i
          · rw [if_pos h1, hy] at hv
            cases hv
            exact h.across i u y (Ne.symm hij) h1.symm hu hy
          · rw [if_neg h1] at hv
            by_cases h2 : parent j = parent i
            · rw [if_pos h2, hx] at hv
              cases hv
              have := h.others i u y (Ne.symm hij) hu (h2 ▸ hy)
              exact this.trans hless.le
            · rw [if_neg h2] at hv
              exact h.others i u v (Ne.symm hij) hu hv
      · intro i u v hi hpi hu hv
        rw [get_swap hp hj] at hu hv
        have hgrand : a[parent (parent j)]? = some v ∨ v = x := by
          by_cases h1 : j = parent (parent j)
          · unfold parent at h1 hlt
            omega
          · rw [if_neg h1] at hv
            by_cases h2 : parent j = parent (parent j)
            · rw [if_pos h2, hx] at hv
              cases hv
              exact Or.inr rfl
            · rw [if_neg h2] at hv
              exact Or.inl hv
        have hparent : u = y ∨ rank u ≤ rank y := by
          by_cases hij : j = i
          · rw [if_pos hij, hy] at hu
            cases hu
            exact Or.inl rfl
          · rw [if_neg hij, if_neg (Ne.symm hi)] at hu
            exact Or.inr (h.others i u y (Ne.symm hij) hu (hpi ▸ hy))
        have hle : rank u ≤ rank y := by
          rcases hparent with rfl | hle
          · exact le_rfl
          · exact hle
        rcases hgrand with hgrand | rfl
        · exact hle.trans (h.others (parent j) y v (by omega) hy hgrand)
        · exact hle.trans hless.le
    · rw [lessAt_iff hb ha hx hy] at hless
      intro i u v hu hv
      by_cases hi : i = j
      · subst hi
        rw [hx] at hu
        rw [hy] at hv
        cases hu
        cases hv
        exact not_lt.mp hless
      · exact h.others i u v hi hu hv

theorem child_spec (ha : ∀ x ∈ a, P x) {i : Nat}
    (hsize : 2 * i + 1 < a.size) :
    child before a i < a.size ∧ parent (child before a i) = i ∧ i < child before a i ∧
      ∀ k x y, k ≠ 0 → parent k = i → a[k]? = some x → a[child before a i]? = some y →
        rank x ≤ rank y := by
  obtain ⟨l, hl⟩ : ∃ l, a[2 * i + 1]? = some l := ⟨_, Array.getElem?_eq_getElem hsize⟩
  have hkids : ∀ k, k ≠ 0 → parent k = i → k = 2 * i + 1 ∨ k = 2 * i + 2 := by
    intro k hk hpk
    unfold parent at hpk
    omega
  unfold child
  split_ifs with hright
  · obtain ⟨hlt, hless⟩ := hright
    obtain ⟨r, hr⟩ : ∃ r, a[2 * i + 2]? = some r := ⟨_, Array.getElem?_eq_getElem hlt⟩
    rw [lessAt_iff hb ha hr hl] at hless
    refine ⟨hlt, by unfold parent; omega, by omega, ?_⟩
    intro k x y hk hpk hx hy
    rw [hr] at hy
    cases hy
    rcases hkids k hk hpk with rfl | rfl
    · rw [hl] at hx
      cases hx
      exact hless.le
    · rw [hr] at hx
      cases hx
      exact le_rfl
  · refine ⟨hsize, by unfold parent; omega, by omega, ?_⟩
    intro k x y hk hpk hx hy
    rw [hl] at hy
    cases hy
    rcases hkids k hk hpk with rfl | rfl
    · rw [hl] at hx
      cases hx
      exact le_rfl
    · have hlt : 2 * i + 2 < a.size := (Array.getElem?_eq_some_iff.mp hx).1
      have hnot : ¬ lessAt before a (2 * i + 2) (2 * i + 1) = true := fun hl => hright ⟨hlt, hl⟩
      rw [lessAt_iff hb ha hx hl] at hnot
      exact not_lt.mp hnot

theorem ordered_down {fuel i : Nat} (ha : ∀ x ∈ a, P x)
    (hi : i < a.size) (hfuel : a.size ≤ i + fuel) (h : OrderedBelow rank a i) :
    Ordered rank (down before fuel a i).1 := by
  induction fuel generalizing a i with
  | zero => omega
  | succ fuel ih =>
    obtain ⟨x, hx⟩ : ∃ x, a[i]? = some x := ⟨_, Array.getElem?_eq_getElem hi⟩
    -- Where no child ranks above the element, nothing is left to do.
    have hrest : (∀ k u, k ≠ 0 → parent k = i → a[k]? = some u → rank u ≤ rank x) →
        Ordered rank a := by
      intro hkids k u v hu hv
      by_cases hk : k = 0 ∨ parent k ≠ i
      · exact h.others k u v hk hu hv
      · obtain ⟨hk, hpk⟩ := not_or.mp hk
        have hpk := not_not.mp hpk
        rw [hpk, hx] at hv
        cases hv
        exact hkids k u hk hpk hu
    rw [down]
    split_ifs with hleaf hless
    · refine hrest fun k u hk hpk hu => ?_
      have hlt : k < a.size := (Array.getElem?_eq_some_iff.mp hu).1
      unfold parent at hpk
      omega
    · obtain ⟨hc, hpc, hic, hmax⟩ := child_spec hb ha (not_le.mp hleaf)
      generalize child before a i = c at hc hpc hic hmax hless ⊢
      obtain ⟨y, hy⟩ : ∃ y, a[c]? = some y := ⟨_, Array.getElem?_eq_getElem hc⟩
      rw [lessAt_iff hb ha hy hx] at hless
      refine ih (fun z hz => ha z ((perm_swap a i c).mem_iff.mp hz))
        (by rw [Array.size_swapIfInBounds]; exact hc)
        (by rw [Array.size_swapIfInBounds]; omega) ⟨?_, ?_⟩
      · intro k u v hk hu hv
        rw [get_swap hi hc] at hu hv
        by_cases hpk : c = parent k
        · rcases hk with rfl | hk
          · unfold parent at hpk
            omega
          · exact absurd hpk.symm hk
        · rw [if_neg hpk] at hv
          by_cases hkc : c = k
          · subst hkc
            rw [if_pos rfl, hx] at hu
            rw [hpc, if_pos rfl, hy] at hv
            cases hu
            cases hv
            exact hless.le
          · rw [if_neg hkc] at hu
            by_cases hki : i = k
            · subst hki
              rw [if_pos rfl, hy] at hu
              cases hu
              by_cases hzero : i = 0
              · subst hzero
                have hp0 : parent 0 = 0 := rfl
                rw [hp0, if_pos rfl, hy] at hv
                cases hv
                exact le_rfl
              · have hip : i ≠ parent i := by
                  unfold parent
                  omega
                rw [if_neg hip] at hv
                exact h.across c y v (by omega) hzero hpc hy hv
            · rw [if_neg hki] at hu
              by_cases hpi : i = parent k
              · rw [if_pos hpi, hy] at hv
                cases hv
                by_cases hk0 : k = 0
                · subst hk0
                  unfold parent at hpi
                  omega
                · exact hmax k u y hk0 hpi.symm hu hy
              · rw [if_neg hpi] at hv
                exact h.others k u v (Or.inr (Ne.symm hpi)) hu hv
      · intro k u v hk _ hpk hu hv
        rw [get_swap hi hc] at hu hv
        rw [hpc, if_neg (by omega), if_pos rfl, hy] at hv
        cases hv
        have hkc : c ≠ k := by
          unfold parent at hpk
          omega
        have hki : i ≠ k := by
          unfold parent at hpk
          omega
        rw [if_neg hkc, if_neg hki] at hu
        exact h.others k u y (Or.inr (by omega)) hu (hpk ▸ hy)
    · obtain ⟨hc, hpc, hic, hmax⟩ := child_spec hb ha (not_le.mp hleaf)
      obtain ⟨y, hy⟩ : ∃ y, a[child before a i]? = some y := ⟨_, Array.getElem?_eq_getElem hc⟩
      rw [lessAt_iff hb ha hy hx] at hless
      exact hrest fun k u hk hpk hu => (hmax k u y hk hpk hu hy).trans (not_lt.mp hless)

theorem ordered_push (ha : ∀ x ∈ a, P x) {x : α} (hx : P x)
    (h : Ordered rank a) : Ordered rank (push before a x) := by
  refine ordered_up hb ?_ (by simp) (by omega) ⟨?_, ?_⟩
  · intro y hy
    rcases Array.mem_push.mp hy with hy | rfl
    · exact ha y hy
    · exact hx
  · intro i u v hi hu hv
    rw [Array.getElem?_push, if_neg hi] at hu
    have hlt : i < a.size := (Array.getElem?_eq_some_iff.mp hu).1
    rw [Array.getElem?_push, if_neg (by unfold parent; omega)] at hv
    exact h i u v hu hv
  · intro i u v hi hpi hu hv
    rw [Array.getElem?_push, if_neg hi] at hu
    have hlt : i < a.size := (Array.getElem?_eq_some_iff.mp hu).1
    unfold parent at hpi
    omega

theorem ordered_fix (ha : ∀ x ∈ a, P x) {x : α} (hx : P x)
    (hsize : 0 < a.size) (h : Ordered rank a) :
    Ordered rank (fix before (a.setIfInBounds 0 x) 0) := by
  have hbelow : OrderedBelow rank (a.setIfInBounds 0 x) 0 := by
    refine ⟨?_, fun i u v _ hne => absurd rfl hne⟩
    intro i u v hi hu hv
    rcases hi with rfl | hi
    · have hp0 : parent 0 = 0 := rfl
      rw [hp0, hu] at hv
      cases hv
      exact le_rfl
    · have hi0 : 0 ≠ i := by
        rintro rfl
        exact hi rfl
      rw [Array.getElem?_setIfInBounds, if_neg hi0] at hu
      rw [Array.getElem?_setIfInBounds, if_neg (Ne.symm hi)] at hv
      exact h i u v hu hv
  have hmem : ∀ y ∈ a.setIfInBounds 0 x, P y := by
    intro y hy
    rcases Array.mem_or_eq_of_mem_setIfInBounds hy with hy | rfl
    · exact ha y hy
    · exact hx
  have hdown : Ordered rank (down before (a.setIfInBounds 0 x).size (a.setIfInBounds 0 x) 0).1 :=
    ordered_down hb hmem (by simpa using hsize) (by simp) hbelow
  unfold fix
  split_ifs
  · exact hdown
  · exact hdown

end Ranked

end

end Heap
