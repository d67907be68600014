import Scriva.Query

namespace Scriva.Paging

open JsonText List

structure ScanResult where
  id : UInt64
  data : Data
deriving DecidableEq

structure SortField where
  field : String
  desc : Bool
deriving DecidableEq, Repr

def ScanResult.value (r : ScanResult) (field : String) : Value :=
  (r.data.get field).getD .null

def SortField.compare (sf : SortField) (a b : ScanResult) : Ordering :=
  if sf.desc then (compareValues (a.value sf.field) (b.value sf.field)).swap
  else compareValues (a.value sf.field) (b.value sf.field)

def sortLess : List SortField → ScanResult → ScanResult → Bool
  | [], a, b => a.id < b.id
  | sf :: fields, a, b =>
    match sf.compare a b with
    | .lt => true
    | .gt => false
    | .eq => sortLess fields a b

variable {a b : Value}

theorem compareValues_num {x y : Decimal} (ha : asNumber a = some x) (hb : asNumber b = some y) :
    compareValues a b = compare x.toRat y.toRat := by
  unfold compareValues
  rw [ha, hb]
  exact Decimal.cmp_eq x y

theorem compareValues_text (h : asNumber a = none ∨ asNumber b = none) :
    compareValues a b = compare (toIndexKey a) (toIndexKey b) := by
  have htext : compareValues a b = if toIndexKey a < toIndexKey b then .lt
      else if toIndexKey a = toIndexKey b then .eq else .gt := by
    unfold compareValues
    rcases h with h | h
    · rw [h]
    · rw [h]
      cases asNumber a <;> rfl
  rw [htext]
  split_ifs with hlt heq
  · exact (compare_lt_iff_lt.mpr hlt).symm
  · exact (compare_eq_iff_eq.mpr heq).symm
  · exact (compare_gt_iff_gt.mpr (lt_of_le_of_ne (not_lt.mp hlt) (Ne.symm heq))).symm

theorem compare_swap {α : Type} [LinearOrder α] (x y : α) :
    compare y x = (compare x y).swap := by
  rcases lt_trichotomy x y with h | h | h
  · rw [compare_lt_iff_lt.mpr h, compare_gt_iff_gt.mpr h]
    rfl
  · rw [h, compare_eq_iff_eq.mpr rfl]
    rfl
  · rw [compare_gt_iff_gt.mpr h, compare_lt_iff_lt.mpr h]
    rfl

theorem compareValues_swap (a b : Value) : compareValues b a = (compareValues a b).swap := by
  cases ha : asNumber a with
  | none =>
    rw [compareValues_text (Or.inr ha), compareValues_text (Or.inl ha)]
    exact compare_swap _ _
  | some x =>
    cases hb : asNumber b with
    | none =>
      rw [compareValues_text (Or.inl hb), compareValues_text (Or.inr hb)]
      exact compare_swap _ _
    | some y =>
      rw [compareValues_num hb ha, compareValues_num ha hb]
      exact compare_swap _ _

theorem compareValues_refl (a : Value) : compareValues a a = .eq := by
  have h := compareValues_swap a a
  cases hc : compareValues a a with
  | eq => rfl
  | lt | gt => rw [hc] at h; cases h

theorem num_le_iff {x y : Decimal} (ha : asNumber a = some x) (hb : asNumber b = some y) :
    compareValues a b ≠ .gt ↔ x.toRat ≤ y.toRat := by
  rw [compareValues_num ha hb, ne_eq, compare_gt_iff_gt]
  exact not_lt

theorem text_le_iff (h : asNumber a = none ∨ asNumber b = none) :
    compareValues a b ≠ .gt ↔ toIndexKey a ≤ toIndexKey b := by
  rw [compareValues_text h, ne_eq, compare_gt_iff_gt]
  exact not_lt

/-- Two numbers and a value that is none, whose texts run the other way around it. -/
def Crosses (x y s : Value) : Prop :=
  asNumber x ≠ none ∧ asNumber y ≠ none ∧ asNumber s = none ∧ compareValues x y ≠ .gt ∧
  toIndexKey y ≤ toIndexKey s ∧ toIndexKey s ≤ toIndexKey x ∧
  ¬ (compareValues x y = .eq ∧ toIndexKey x = toIndexKey y)

theorem compareValues_trans {V : Value → Prop} (hV : ∀ x y s, V x → V y → V s → ¬ Crosses x y s)
    {c : Value} (ha : V a) (hb : V b) (hc : V c) (hab : compareValues a b ≠ .gt)
    (hbc : compareValues b c ≠ .gt) : compareValues a c ≠ .gt := by
  cases hna : asNumber a with
  | none =>
    rw [text_le_iff (Or.inl hna)] at hab ⊢
    cases hnb : asNumber b with
    | none =>
      rw [text_le_iff (Or.inl hnb)] at hbc
      exact hab.trans hbc
    | some y =>
      cases hnc : asNumber c with
      | none =>
        rw [text_le_iff (Or.inr hnc)] at hbc
        exact hab.trans hbc
      | some z =>
        -- The text in front of a number, and a larger number behind it.
        by_contra hnot
        have hlt := not_le.mp hnot
        refine hV b c a hb hc ha ⟨by simp [hnb], by simp [hnc], hna, hbc, hlt.le, hab, ?_⟩
        rintro ⟨-, heq⟩
        rw [heq] at hab
        exact absurd hab (not_le.mpr hlt)
  | some x =>
    cases hnb : asNumber b with
    | none =>
      rw [text_le_iff (Or.inr hnb)] at hab
      rw [text_le_iff (Or.inl hnb)] at hbc
      cases hnc : asNumber c with
      | none =>
        rw [text_le_iff (Or.inr hnc)]
        exact hab.trans hbc
      | some z =>
        -- The text between two numbers.
        intro hgt
        have hlt : compareValues c a = .lt := by
          rw [compareValues_swap a c, hgt]
          rfl
        refine hV c a b hc ha hb ⟨by simp [hnc], by simp [hna], hnb, by rw [hlt]; decide, hab, hbc,
          ?_⟩
        rintro ⟨heq, -⟩
        rw [hlt] at heq
        cases heq
    | some y =>
      cases hnc : asNumber c with
      | none =>
        -- The text behind the larger number.
        rw [text_le_iff (Or.inr hnc)] at hbc ⊢
        by_contra hnot
        have hlt := not_le.mp hnot
        refine hV a b c ha hb hc ⟨by simp [hna], by simp [hnb], hnc, hab, hbc, hlt.le, ?_⟩
        rintro ⟨-, heq⟩
        rw [← heq] at hbc
        exact absurd hbc (not_le.mpr hlt)
      | some z =>
        rw [num_le_iff hna hnb] at hab
        rw [num_le_iff hnb hnc] at hbc
        rw [num_le_iff hna hnc]
        exact hab.trans hbc

section

variable {sf : SortField} {fields : List SortField} {a b c : ScanResult}

theorem SortField.compare_swap (sf : SortField) (a b : ScanResult) :
    sf.compare b a = (sf.compare a b).swap := by
  unfold SortField.compare
  rw [compareValues_swap (a.value sf.field) (b.value sf.field)]
  split_ifs <;> rfl

theorem SortField.compare_trans {V : Value → Prop}
    (hV : ∀ x y s, V x → V y → V s → ¬ Crosses x y s) (ha : V (a.value sf.field))
    (hb : V (b.value sf.field)) (hc : V (c.value sf.field)) (hab : sf.compare a b ≠ .gt)
    (hbc : sf.compare b c ≠ .gt) : sf.compare a c ≠ .gt := by
  unfold SortField.compare at hab hbc ⊢
  split_ifs at hab hbc ⊢
  · rw [← compareValues_swap] at hab hbc ⊢
    exact compareValues_trans hV hc hb ha hbc hab
  · exact compareValues_trans hV ha hb hc hab hbc

theorem sortLess_irrefl (fields : List SortField) (a : ScanResult) :
    sortLess fields a a = false := by
  induction fields with
  | nil => simp [sortLess]
  | cons sf fields ih =>
    have heq : sf.compare a a = .eq := by
      unfold SortField.compare
      rw [compareValues_refl]
      split_ifs <;> rfl
    rw [sortLess, heq]
    exact ih

theorem sortLess_total (fields : List SortField) (hne : a.id ≠ b.id) :
    sortLess fields a b = true ∨ sortLess fields b a = true := by
  induction fields with
  | nil =>
    simp only [sortLess, decide_eq_true_eq]
    exact UInt64.lt_or_lt_of_ne hne
  | cons sf fields ih =>
    rw [sortLess, sortLess, sf.compare_swap a b]
    cases sf.compare a b with
    | lt => exact Or.inl rfl
    | gt => exact Or.inr rfl
    | eq => exact ih

theorem sortLess_asymm (fields : List SortField) (h : sortLess fields a b = true) :
    sortLess fields b a = false := by
  induction fields with
  | nil =>
    simp only [sortLess, decide_eq_true_eq, decide_eq_false_iff_not] at h ⊢
    exact UInt64.lt_asymm h
  | cons sf fields ih =>
    rw [sortLess] at h ⊢
    rw [sf.compare_swap a b]
    cases hc : sf.compare a b with
    | lt => rfl
    | gt =>
      rw [hc] at h
      cases h
    | eq =>
      rw [hc] at h
      exact ih h

theorem sortLess_trans {V : Value → Prop} (hV : ∀ x y s, V x → V y → V s → ¬ Crosses x y s)
    (ha : ∀ sf ∈ fields, V (a.value sf.field)) (hb : ∀ sf ∈ fields, V (b.value sf.field))
    (hc : ∀ sf ∈ fields, V (c.value sf.field)) (hab : sortLess fields a b = true)
    (hbc : sortLess fields b c = true) : sortLess fields a c = true := by
  induction fields with
  | nil =>
    simp only [sortLess, decide_eq_true_eq] at hab hbc ⊢
    exact UInt64.lt_trans hab hbc
  | cons sf fields ih =>
    have htrans : ∀ u v w : ScanResult, V (u.value sf.field) → V (v.value sf.field) →
        V (w.value sf.field) → sf.compare u v ≠ .gt → sf.compare v w ≠ .gt →
        sf.compare u w ≠ .gt := fun u v w hu hv hw => SortField.compare_trans hV hu hv hw
    have hfa := ha sf mem_cons_self
    have hfb := hb sf mem_cons_self
    have hfc := hc sf mem_cons_self
    rw [sortLess] at hab hbc ⊢
    have hle1 : sf.compare a b ≠ .gt := by
      intro hgt
      rw [hgt] at hab
      cases hab
    have hle2 : sf.compare b c ≠ .gt := by
      intro hgt
      rw [hgt] at hbc
      cases hbc
    cases hac : sf.compare a c with
    | lt => rfl
    | gt => exact absurd hac (htrans a b c hfa hfb hfc hle1 hle2)
    | eq =>
      -- All three rows tie in this field, and the rest decides.
      have hca : sf.compare c a ≠ .gt := by
        rw [sf.compare_swap a c, hac]
        decide
      have hba := htrans b c a hfb hfc hfa hle2 hca
      have hcb := htrans c a b hfc hfa hfb hca hle1
      rw [sf.compare_swap a b] at hba
      rw [sf.compare_swap b c] at hcb
      cases h1 : sf.compare a b with
      | lt => rw [h1] at hba; exact absurd rfl hba
      | gt => exact absurd h1 hle1
      | eq =>
        cases h2 : sf.compare b c with
        | lt => rw [h2] at hcb; exact absurd rfl hcb
        | gt => exact absurd h2 hle2
        | eq =>
          rw [h1] at hab
          rw [h2] at hbc
          exact ih (fun sf' h => ha sf' (mem_cons_of_mem _ h))
            (fun sf' h => hb sf' (mem_cons_of_mem _ h))
            (fun sf' h => hc sf' (mem_cons_of_mem _ h)) hab hbc

end

/-- Rows whose sort fields hold certain values are strictly and totally ordered, whatever the fields
and directions. -/
def OrdersRows (V : Value → Prop) : Prop :=
  ∀ (fields : List SortField) (a b c : ScanResult), (∀ sf ∈ fields, V (a.value sf.field)) →
    (∀ sf ∈ fields, V (b.value sf.field)) → (∀ sf ∈ fields, V (c.value sf.field)) →
    a.id ≠ b.id → b.id ≠ c.id → a.id ≠ c.id →
    sortLess fields a a = false ∧ (sortLess fields a b = true ∨ sortLess fields b a = true) ∧
    (sortLess fields a b = true → sortLess fields b c = true → sortLess fields a c = true)

def rowOf (id : UInt64) (v : Value) : ScanResult :=
  ⟨id, [("f", v)]⟩

def byField : List SortField :=
  [⟨"f", false⟩]

theorem sortLess_rowOf {i j : UInt64} {v w : Value}
    (h : compareValues v w = .lt ∨ compareValues v w = .eq ∧ i < j) :
    sortLess byField (rowOf i v) (rowOf j w) = true := by
  have hcmp : SortField.compare ⟨"f", false⟩ (rowOf i v) (rowOf j w) = compareValues v w := rfl
  rw [byField, sortLess, hcmp]
  rcases h with h | ⟨h, hlt⟩
  · rw [h]
  · rw [h]
    exact decide_eq_true hlt

theorem crosses_cycle {x y s : Value} (h : Crosses x y s) :
    ∃ i j k : UInt64, i ≠ j ∧ j ≠ k ∧ i ≠ k ∧
      sortLess byField (rowOf i x) (rowOf j y) = true ∧
      sortLess byField (rowOf j y) (rowOf k s) = true ∧
      sortLess byField (rowOf k s) (rowOf i x) = true := by
  obtain ⟨-, -, hs, hxy, hys, hsx, hne⟩ := h
  -- Equal texts leave it to the ids.
  have hbefore : ∀ (v w : Value) (i j : UInt64), asNumber v = none ∨ asNumber w = none →
      toIndexKey v ≤ toIndexKey w → (toIndexKey v = toIndexKey w → i < j) →
      sortLess byField (rowOf i v) (rowOf j w) = true := by
    intro v w i j hnone hle hid
    refine sortLess_rowOf ?_
    rw [compareValues_text hnone, compare_lt_iff_lt, compare_eq_iff_eq]
    rcases lt_or_eq_of_le hle with hlt | heq
    · exact Or.inl hlt
    · exact Or.inr ⟨heq, hid heq⟩
  cases hc : compareValues x y with
  | gt => exact absurd hc hxy
  | lt =>
    refine ⟨3, 1, 2, by decide, by decide, by decide, sortLess_rowOf (Or.inl hc), ?_, ?_⟩
    · exact hbefore y s 1 2 (Or.inr hs) hys fun _ => by decide
    · exact hbefore s x 2 3 (Or.inl hs) hsx fun _ => by decide
  | eq =>
    have htexts : toIndexKey x ≠ toIndexKey y := fun he => hne ⟨hc, he⟩
    by_cases he : toIndexKey s = toIndexKey x
    · refine ⟨1, 2, 0, by decide, by decide, by decide, sortLess_rowOf (Or.inr ⟨hc, by decide⟩), ?_,
        ?_⟩
      · exact hbefore y s 2 0 (Or.inr hs) hys fun he' => absurd (he'.trans he).symm htexts
      · exact hbefore s x 0 1 (Or.inl hs) hsx fun _ => by decide
    · refine ⟨1, 2, 3, by decide, by decide, by decide, sortLess_rowOf (Or.inr ⟨hc, by decide⟩), ?_,
        ?_⟩
      · exact hbefore y s 2 3 (Or.inr hs) hys fun _ => by decide
      · exact hbefore s x 3 1 (Or.inl hs) hsx fun he' => absurd he' he

/-- Rows are strictly and totally ordered exactly when no text among the values of their sort fields
stands crosswise to two numbers. -/
theorem sortLess_strict_total_iff (V : Value → Prop) :
    OrdersRows V ↔ ∀ x y s, V x → V y → V s → ¬ Crosses x y s := by
  constructor
  · intro h x y s hx hy hs hcross
    obtain ⟨i, j, k, hij, hjk, hik, h1, h2, h3⟩ := crosses_cycle hcross
    have hval : ∀ (id : UInt64) (v : Value), V v → ∀ sf ∈ byField, V ((rowOf id v).value sf.field) := by
      intro id v hv sf hsf
      rw [mem_singleton.mp hsf]
      exact hv
    have htrans := (h byField (rowOf i x) (rowOf j y) (rowOf k s) (hval i x hx) (hval j y hy)
      (hval k s hs) hij hjk hik).2.2 h1 h2
    rw [sortLess_asymm byField htrans] at h3
    cases h3
  · intro hV fields a b c ha hb hc hab _ _
    exact ⟨sortLess_irrefl fields a, sortLess_total fields hab, sortLess_trans hV ha hb hc⟩

/-- Ascending by one field, the number 2 stands before 10, 10 before the text 1x, and the text
before 2. -/
theorem sortLess_cycle :
    sortLess byField (rowOf 1 (.float ⟨false, 2, 0, by decide⟩))
      (rowOf 2 (.float ⟨false, 1, 1, by decide⟩)) = true ∧
    sortLess byField (rowOf 2 (.float ⟨false, 1, 1, by decide⟩)) (rowOf 3 (.str "1x")) = true ∧
    sortLess byField (rowOf 3 (.str "1x")) (rowOf 1 (.float ⟨false, 2, 0, by decide⟩)) = true := by
  decide +kernel

end Scriva.Paging
