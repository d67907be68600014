import Scriva.OrderedIndex
import Scriva.SidxMatchesLog
import Mathlib.Data.Prod.Lex

namespace Scriva

open JsonText Search KeyedLog List Option Function

def Typed (kind : IndexKind) (k : OrderedKey) : Prop :=
  k.val = valForKind kind k.key

theorem valKind_ne_empty (v : Value) : (valKind v).1 ≠ .empty := by
  cases v <;> simp [valKind]

theorem valKind_ne_mixed (v : Value) : (valKind v).1 ≠ .mixed := by
  cases v <;> simp [valKind]

theorem valKind_key (v : Value) : (valKind v).2 = valForKind (valKind v).1 (toIndexKey v) := by
  cases v with
  | float d =>
    show Value.float d = .float (litParts (toIndexKey (.float d)).toList).toDecimal
    rw [toIndexKey_toList]
    exact congrArg Value.float (floatText_parse d).symm
  | str s =>
    show Value.str s = .str (toIndexKey (.str s))
    rw [toIndexKey_str]
  | null | bool | int | list | map => rfl

theorem compareValues_float (a b : Decimal) :
    compareValues (.float a) (.float b) = compare a.toRat b.toRat :=
  a.cmp_eq b

theorem compareValues_str (a b : String) : compareValues (.str a) (.str b) = compare a b := by
  show (if toIndexKey (.str a) < toIndexKey (.str b) then _ else _) = _
  rw [toIndexKey_str, toIndexKey_str]
  rcases lt_trichotomy a b with hlt | rfl | hgt
  · rw [if_pos hlt, compare_lt_iff_lt.mpr hlt]
  · rw [if_neg (lt_irrefl a), if_pos rfl, compare_eq_iff_eq.mpr rfl]
  · rw [if_neg (not_lt_of_gt hgt), if_neg (ne_of_gt hgt), compare_gt_iff_gt.mpr hgt]

def rank (kind : IndexKind) (k : OrderedKey) : ℚ ×ₗ String :=
  toLex (if kind = .numeric then (litParts k.key.toList).toDecimal.toRat else 0, k.key)

section

variable {kind : IndexKind} {a b : OrderedKey}

theorem less_iff (ha : Typed kind a) (hb : Typed kind b) :
    orderLessKey a b = true ↔ rank kind a < rank kind b := by
  unfold Typed valForKind at ha hb
  unfold orderLessKey rank
  rw [Prod.Lex.toLex_lt_toLex, ha, hb]
  by_cases hk : kind = .numeric
  · simp only [if_pos hk, compareValues_float]
    rcases lt_trichotomy (litParts a.key.toList).toDecimal.toRat
      (litParts b.key.toList).toDecimal.toRat with hlt | heq | hgt
    · simp [compare_lt_iff_lt.mpr hlt, hlt]
    · simp [heq]
    · simp [compare_gt_iff_gt.mpr hgt, not_lt_of_gt hgt, ne_of_gt hgt]
  · simp only [if_neg hk, compareValues_str]
    rcases lt_trichotomy a.key b.key with hlt | heq | hgt
    · simp [compare_lt_iff_lt.mpr hlt, hlt]
    · simp [heq]
    · simp [compare_gt_iff_gt.mpr hgt, not_lt_of_gt hgt]

theorem typed_strict (kind : IndexKind) : StrictOn orderLessKey (Typed kind) := by
  refine ⟨fun a ha => ?_, fun a b c ha hb hc hab hbc => ?_, fun a b ha hb => ?_⟩
  · rw [← Bool.not_eq_true, less_iff ha ha]
    exact lt_irrefl _
  · rw [less_iff ha hb] at hab
    rw [less_iff hb hc] at hbc
    rw [less_iff ha hc]
    exact hab.trans hbc
  · rw [less_iff ha hb, less_iff hb ha]
    rcases lt_trichotomy (rank kind a) (rank kind b) with hlt | heq | hgt
    · exact Or.inr (Or.inl hlt)
    · have hkey : a.key = b.key := congrArg (fun p => (ofLex p).2) heq
      obtain ⟨akey, aval⟩ := a
      obtain ⟨bkey, bval⟩ := b
      cases hkey
      exact Or.inl (congrArg _ (ha.trans hb.symm))
    · exact Or.inr (Or.inr hgt)

theorem less_compare (ha : Typed kind a) (hb : Typed kind b) (hab : orderLessKey a b = true)
    {q : Value} (hq : (valKind q).1 = kind) :
    (compareValues a.val (valKind q).2 = .gt → compareValues b.val (valKind q).2 = .gt) ∧
      (compareValues a.val (valKind q).2 ≠ .lt → compareValues b.val (valKind q).2 ≠ .lt) := by
  have hrank := (less_iff ha hb).mp hab
  have hval := valKind_key q
  unfold rank at hrank
  rw [Prod.Lex.toLex_lt_toLex] at hrank
  unfold Typed valForKind at ha hb
  unfold valForKind at hval
  rw [ha, hb, hval, hq]
  by_cases hk : kind = .numeric
  · simp only [if_pos hk, compareValues_float, compare_gt_iff_gt, compare_lt_iff_lt, ne_eq,
      not_lt] at hrank ⊢
    have hle : (litParts a.key.toList).toDecimal.toRat ≤ (litParts b.key.toList).toDecimal.toRat := by
      rcases hrank with hlt | ⟨heq, -⟩
      · exact hlt.le
      · exact heq.le
    exact ⟨fun h => lt_of_lt_of_le h hle, fun h => h.trans hle⟩
  · simp only [if_neg hk, compareValues_str, compare_gt_iff_gt, compare_lt_iff_lt, ne_eq, not_lt,
      lt_self_iff_false, true_and, false_or] at hrank ⊢
    exact ⟨fun h => lt_trans h hrank, fun h => h.trans hrank.le⟩

end

namespace OrderedIndex

structure Sorted (x : OrderedIndex) : Prop where
  none : x.kind = .empty → x.entries = []
  keys : x.kind ≠ .mixed → ∀ key, (∃ k ∈ x.sorted, k.key = key) ↔ x.hasBucket key = true
  typed : ∀ k ∈ x.sorted, Typed x.kind k
  ascends : Ascends orderLessKey x.sorted

section

variable {x y : OrderedIndex} {key : String} {id : Nat} {v : Value}

theorem hasBucket_iff : x.hasBucket key = true ↔ ∃ id, (key, id) ∈ x.entries := by
  unfold hasBucket
  rw [List.any_eq_true]
  constructor
  · rintro ⟨⟨k, id⟩, hmem, hk⟩
    cases (by simpa using hk : k = key)
    exact ⟨id, hmem⟩
  · rintro ⟨id, hmem⟩
    exact ⟨(key, id), hmem, by simp⟩

theorem typed_eq {kind : IndexKind} {k : OrderedKey} (h : Typed kind k) :
    k = ⟨k.key, valForKind kind k.key⟩ :=
  congrArg (OrderedKey.mk k.key) h

theorem position_absent (hnew : ∀ k ∈ x.sorted, k.key ≠ key) (target : OrderedKey) :
    ¬ (x.sorted[position orderLessKey x.sorted target]?).any (·.key == key) = true := by
  cases hk : x.sorted[position orderLessKey x.sorted target]? with
  | none => simp
  | some k => simpa using hnew k (mem_of_getElem? hk)

theorem orderedInsert_new (hm : x.kind ≠ .mixed) (hnew : ∀ k ∈ x.sorted, k.key ≠ key) (val : Value) :
    x.orderedInsert key val = { x with sorted := place orderLessKey x.sorted ⟨key, val⟩ } := by
  unfold orderedInsert
  rw [if_neg hm, if_neg (position_absent hnew _)]

theorem orderedRemove_absent (hnew : ∀ k ∈ x.sorted, k.key ≠ key) : x.orderedRemove key = x := by
  unfold orderedRemove
  split
  · rfl
  · exact if_neg (position_absent hnew _)

theorem orderedRemove_there (hm : x.kind ≠ .mixed) (ht : ∀ k ∈ x.sorted, Typed x.kind k)
    (ha : Ascends orderLessKey x.sorted) (hmem : ⟨key, valForKind x.kind key⟩ ∈ x.sorted) :
    x.orderedRemove key =
      { x with sorted := unplace orderLessKey x.sorted ⟨key, valForKind x.kind key⟩ } := by
  unfold orderedRemove
  rw [if_neg hm]
  refine if_pos ?_
  rw [getElem_position (typed_strict x.kind) ht ha hmem]
  simp

@[simp] theorem orderedInsert_rest (x : OrderedIndex) (key : String) (val : Value) :
    (x.orderedInsert key val).entries = x.entries ∧ (x.orderedInsert key val).kind = x.kind ∧
      (x.orderedInsert key val).field = x.field := by
  unfold orderedInsert
  split
  · exact ⟨rfl, rfl, rfl⟩
  · split <;> exact ⟨rfl, rfl, rfl⟩

@[simp] theorem orderedRemove_rest (x : OrderedIndex) (key : String) :
    (x.orderedRemove key).entries = x.entries ∧ (x.orderedRemove key).kind = x.kind ∧
      (x.orderedRemove key).field = x.field := by
  unfold orderedRemove
  split
  · exact ⟨rfl, rfl, rfl⟩
  · dsimp only
    split <;> exact ⟨rfl, rfl, rfl⟩

@[simp] theorem leave_rest (x : OrderedIndex) (key : String) (id : Nat) :
    (x.leave key id).entries = x.entries.filter (· != (key, id)) ∧ (x.leave key id).kind = x.kind ∧
      (x.leave key id).field = x.field := by
  unfold leave
  dsimp only
  split
  · exact ⟨rfl, rfl, rfl⟩
  · exact orderedRemove_rest _ key

@[simp] theorem enter_rest (x : OrderedIndex) (v : Value) (id : Nat) :
    (x.enter v id).entries =
        (if (toIndexKey v, id) ∈ x.entries then x.entries else (toIndexKey v, id) :: x.entries) ∧
      (x.enter v id).kind = mergeKind x.kind (valKind v).1 ∧ (x.enter v id).field = x.field := by
  unfold enter
  dsimp only
  split
  · exact ⟨rfl, rfl, rfl⟩
  · exact orderedInsert_rest _ _ _

theorem Sorted.emptied (hnone : x.kind = .empty → x.entries = [])
    (hkeys : x.kind ≠ .mixed → ∀ k, k ≠ key →
      ((∃ j ∈ x.sorted, j.key = k) ↔ x.hasBucket k = true))
    (hempty : ¬ x.hasBucket key = true) (ht : ∀ k ∈ x.sorted, Typed x.kind k)
    (ha : Ascends orderLessKey x.sorted) : (x.orderedRemove key).Sorted := by
  by_cases hm : x.kind = .mixed
  · unfold orderedRemove
    rw [if_pos hm]
    exact ⟨hnone, fun hne => absurd hm hne, ht, ha⟩
  by_cases hmem : (⟨key, valForKind x.kind key⟩ : OrderedKey) ∈ x.sorted
  · have hleft := fun b => mem_unplace (b := b) (typed_strict x.kind) ht ha hmem
    rw [orderedRemove_there hm ht ha hmem]
    refine ⟨hnone, fun _ k => ?_, fun k hk => ht k ((hleft k).mp hk).1, unplace_ascends ha⟩
    by_cases hk : k = key
    · subst hk
      refine ⟨fun ⟨j, hj, hjk⟩ => ?_, fun hb => absurd hb hempty⟩
      obtain ⟨hj, hne⟩ := (hleft j).mp hj
      have heq := typed_eq (ht j hj)
      rw [hjk] at heq
      exact absurd heq hne
    · refine Iff.trans (exists_congr fun j => ?_) (hkeys hm k hk)
      rw [hleft j]
      refine ⟨fun ⟨hj, hjk⟩ => ⟨hj.1, hjk⟩, fun ⟨hj, hjk⟩ => ⟨⟨hj, fun heq => ?_⟩, hjk⟩⟩
      rw [heq] at hjk
      exact hk hjk.symm
  · have hnew : ∀ k ∈ x.sorted, k.key ≠ key := by
      intro k hk hkey
      have heq := typed_eq (ht k hk)
      rw [hkey] at heq
      exact hmem (heq ▸ hk)
    rw [orderedRemove_absent hnew]
    refine ⟨hnone, fun _ k => ?_, ht, ha⟩
    by_cases hk : k = key
    · subst hk
      exact ⟨fun ⟨j, hj, hjk⟩ => absurd hjk (hnew j hj), fun hb => absurd hb hempty⟩
    · exact hkeys hm k hk

theorem Sorted.leave (h : x.Sorted) (key : String) (id : Nat) : (x.leave key id).Sorted := by
  have hother : ∀ k, k ≠ key → (OrderedIndex.hasBucket
      { x with entries := x.entries.filter (· != (key, id)) } k = true ↔ x.hasBucket k = true) := by
    intro k hk
    rw [hasBucket_iff, hasBucket_iff]
    refine exists_congr fun i => ?_
    simp [hk]
  have hnone : x.kind = .empty → x.entries.filter (· != (key, id)) = [] := by
    intro hk
    rw [h.none hk]
    rfl
  unfold OrderedIndex.leave
  dsimp only
  split
  · next hbucket =>
    have hx : x.hasBucket key = true := by
      rw [hasBucket_iff] at hbucket ⊢
      exact hbucket.imp fun i hi => (mem_filter.mp hi).1
    refine ⟨hnone, fun hm k => ?_, h.typed, h.ascends⟩
    by_cases hk : k = key
    · subst hk
      exact (h.keys hm k).trans (by rw [hx, hbucket])
    · exact (h.keys hm k).trans (hother k hk).symm
  · next hempty =>
    exact Sorted.emptied hnone (fun hm k hk => (h.keys hm k).trans (hother k hk).symm) hempty
      h.typed h.ascends

theorem mem_enter {k : String} {i : Nat} :
    (k, i) ∈ (x.enter v id).entries ↔ (k, i) = (toIndexKey v, id) ∨ (k, i) ∈ x.entries := by
  rw [(x.enter_rest v id).1]
  split
  · next hmem =>
    refine ⟨Or.inr, fun h => h.elim (fun heq => ?_) fun h => h⟩
    rw [heq]
    exact hmem
  · exact mem_cons

theorem hasBucket_enter {k : String} :
    (x.enter v id).hasBucket k = true ↔ k = toIndexKey v ∨ x.hasBucket k = true := by
  rw [hasBucket_iff, hasBucket_iff]
  constructor
  · rintro ⟨i, hi⟩
    rcases mem_enter.mp hi with heq | hi
    · exact Or.inl (congrArg Prod.fst heq)
    · exact Or.inr ⟨i, hi⟩
  · rintro (rfl | ⟨i, hi⟩)
    · exact ⟨id, mem_enter.mpr (Or.inl rfl)⟩
    · exact ⟨i, mem_enter.mpr (Or.inr hi)⟩

theorem merge_mixed (v : Value) : mergeKind .mixed (valKind v).1 = .mixed := by
  have := valKind_ne_mixed v
  simp [mergeKind]

theorem merge_pure {kind : IndexKind} (h : mergeKind kind (valKind v).1 ≠ .mixed) :
    mergeKind kind (valKind v).1 = (valKind v).1 ∧ (kind = .empty ∨ kind = (valKind v).1) := by
  unfold mergeKind at h ⊢
  by_cases he : kind = .empty
  · exact ⟨if_pos he, Or.inl he⟩
  · rw [if_neg he] at h ⊢
    by_cases hk : kind = (valKind v).1
    · rw [if_pos hk]
      exact ⟨hk, Or.inr hk⟩
    · rw [if_neg hk] at h
      exact absurd rfl h

theorem Sorted.empty (h : x.Sorted) (hk : x.kind = .empty) : x.sorted = [] := by
  refine eq_nil_iff_forall_not_mem.mpr fun k hmem => ?_
  have hbucket := (h.keys (by rw [hk]; simp) k.key).mp ⟨k, hmem, rfl⟩
  rw [hasBucket_iff, h.none hk] at hbucket
  obtain ⟨i, hi⟩ := hbucket
  cases hi

theorem Sorted.enter (h : x.Sorted) (v : Value) (id : Nat) : (x.enter v id).Sorted := by
  have hnone : (x.enter v id).kind = .empty → (x.enter v id).entries = [] := by
    intro hk
    rw [(x.enter_rest v id).2.1] at hk
    obtain ⟨heq, -⟩ := merge_pure (v := v) (by rw [hk]; simp)
    exact absurd (heq.symm.trans hk) (valKind_ne_empty v)
  by_cases hm : mergeKind x.kind (valKind v).1 = .mixed
  · have hsorted : (x.enter v id).sorted = [] := by
      unfold OrderedIndex.enter orderedInsert observe
      simp [hm]
    exact ⟨hnone, fun hne => absurd ((x.enter_rest v id).2.1.trans hm) hne, by simp [hsorted],
      by simp [hsorted, Ascends]⟩
  obtain ⟨hkind, hprev⟩ := merge_pure hm
  have hxm : x.kind ≠ .mixed := by
    intro hx
    rw [hx] at hm
    exact hm (merge_mixed v)
  have htyped : ∀ k ∈ x.sorted, Typed (valKind v).1 k := by
    rcases hprev with he | he
    · simp [h.empty he]
    · rw [← he]
      exact h.typed
  by_cases hb : x.hasBucket (toIndexKey v) = true
  · have hsorted : (x.enter v id).sorted = x.sorted := by
      unfold OrderedIndex.enter observe
      simp [hm, hb]
    refine ⟨hnone, fun _ k => ?_, ?_, ?_⟩
    · rw [hsorted, hasBucket_enter]
      refine (h.keys hxm k).trans ⟨Or.inr, fun hor => hor.elim (fun heq => ?_) fun h => h⟩
      rw [heq]
      exact hb
    · rw [hsorted, (x.enter_rest v id).2.1, hkind]
      exact htyped
    · rw [hsorted]
      exact h.ascends
  · have hnew : ∀ k ∈ x.sorted, k.key ≠ toIndexKey v := fun k hk hkey =>
      hb ((h.keys hxm _).mp ⟨k, hk, hkey⟩)
    have hfresh : Typed (valKind v).1 ⟨toIndexKey v, (valKind v).2⟩ := valKind_key v
    have hsorted : (x.enter v id).sorted =
        place orderLessKey x.sorted ⟨toIndexKey v, (valKind v).2⟩ := by
      unfold OrderedIndex.enter
      simp only [hb]
      rw [if_neg (by simp), orderedInsert_new hm (by simpa [observe, hm] using hnew)]
      simp [observe, hm]
    refine ⟨hnone, fun _ k => ?_, ?_, ?_⟩
    · rw [hsorted, hasBucket_enter, ← h.keys hxm k]
      constructor
      · rintro ⟨j, hj, rfl⟩
        rcases mem_place.mp hj with rfl | hj
        · exact Or.inl rfl
        · exact Or.inr ⟨j, hj, rfl⟩
      · rintro (rfl | ⟨j, hj, rfl⟩)
        · exact ⟨_, mem_place.mpr (Or.inl rfl), rfl⟩
        · exact ⟨j, mem_place.mpr (Or.inr hj), rfl⟩
    · rw [hsorted, (x.enter_rest v id).2.1, hkind]
      intro k hk
      rcases mem_place.mp hk with rfl | hk
      · exact hfresh
      · exact htyped k hk
    · rw [hsorted]
      exact place_ascends (typed_strict _) htyped h.ascends hfresh fun hmem => hnew _ hmem rfl

/-- An index whose buckets have every id of a map under its value, and whose kind knows the value.
It may have more. -/
structure Serves (m : Nat → Option Value) (x : OrderedIndex) : Prop extends Sorted x where
  entries : ∀ id v, m id = some v → (toIndexKey v, id) ∈ x.entries
  kinds : ∀ id v, m id = some v → x.kind = .mixed ∨ x.kind = (valKind v).1

variable {m : Nat → Option Value}

section Serves

variable (h : Serves m x)
include h

theorem Serves.forget (id : Nat) : Serves (Function.update m id none) x := by
  have hsub : ∀ i v, Function.update m id none i = some v → m i = some v := by
    intro i v hv
    by_cases hi : i = id
    · subst hi
      simp at hv
    · rwa [update_of_ne hi] at hv
  exact ⟨h.toSorted, fun i v hv => h.entries i v (hsub i v hv),
    fun i v hv => h.kinds i v (hsub i v hv)⟩

theorem Serves.leave (key : String) (id : Nat) :
    Serves (Function.update m id none) (x.leave key id) := by
  refine ⟨h.toSorted.leave key id, fun i v hv => ?_, fun i v hv => ?_⟩
  · by_cases hi : i = id
    · subst hi
      simp at hv
    · rw [update_of_ne hi] at hv
      rw [(x.leave_rest key id).1]
      simp [h.entries i v hv, hi]
  · rw [(x.leave_rest key id).2.1]
    exact (h.forget id).kinds i v hv

theorem Serves.enter (v : Value) (id : Nat) :
    Serves (Function.update m id (some v)) (x.enter v id) := by
  refine ⟨h.toSorted.enter v id, fun i w hw => ?_, fun i w hw => ?_⟩
  · rw [mem_enter]
    by_cases hi : i = id
    · subst hi
      rw [update_self] at hw
      cases hw
      exact Or.inl rfl
    · rw [update_of_ne hi] at hw
      exact Or.inr (h.entries i w hw)
  · rw [(x.enter_rest v id).2.1]
    by_cases hm : mergeKind x.kind (valKind v).1 = .mixed
    · exact Or.inl hm
    obtain ⟨hkind, hprev⟩ := merge_pure hm
    by_cases hi : i = id
    · subst hi
      rw [update_self] at hw
      cases hw
      exact Or.inr hkind
    · rw [update_of_ne hi] at hw
      have hknown := h.entries i w hw
      rcases hprev with he | he
      · rw [h.none he] at hknown
        cases hknown
      · rcases h.kinds i w hw with hx | hx
        · exact absurd (he.symm.trans hx) (valKind_ne_mixed v)
        · exact Or.inr (hkind.trans (he.symm.trans hx))

theorem Serves.reversed (reverse : Nat → Option String) :
    Serves m { x with reverse := reverse } :=
  ⟨⟨h.none, h.keys, h.typed, h.ascends⟩, h.entries, h.kinds⟩

theorem Serves.remove (id : Nat) :
    Serves (Function.update m id none) (x.remove id) := by
  unfold OrderedIndex.remove
  split
  · exact h.forget id
  · next key _ => exact (h.leave key id).reversed _

theorem Serves.add (v : Value) (id : Nat) :
    Serves (Function.update m id ((some v).filter (acceptsIn x.field))) (x.add v id) := by
  unfold OrderedIndex.add
  split
  · next hacc =>
    rw [filter_some, if_pos hacc]
    exact h.enter v id
  · next hacc =>
    rw [filter_some, if_neg hacc]
    exact h.forget id

theorem Serves.update (id : Nat) (v : Value) :
    Serves (Function.update m id ((some v).filter (acceptsIn x.field))) (x.update id v) := by
  unfold OrderedIndex.update
  split
  · next hacc =>
    rw [filter_some, if_pos hacc]
    split
    · exact h.enter v id
    · next old _ =>
      have := (h.leave old id).enter v id
      rwa [Function.update_idem] at this
  · next hacc =>
    rw [filter_some, if_neg hacc]
    exact h.remove id

end Serves

end

end OrderedIndex

def Entry.valueIn (field : String) (e : Entry) : Option Value :=
  if e.op = .delete then none else acceptedValue field e.data

namespace OrderedIndex

section

variable {x : OrderedIndex} {m : Nat → Option Value} {d : Decisions} {ls ls' : List LogLine}

theorem Serves.put (h : Serves m x) (fresh : Bool) (e : Entry) :
    Serves (Function.update m e.id (e.valueIn x.field)) (x.put fresh e) := by
  unfold OrderedIndex.put Entry.valueIn acceptedValue
  cases hop : e.op with
  | delete => exact h.remove e.id
  | insert | update =>
    simp only [reduceCtorEq, if_false]
    cases hv : (e.data.getD []).get x.field with
    | none =>
      cases fresh with
      | true => exact h.forget e.id
      | false => exact h.remove e.id
    | some v =>
      cases fresh with
      | true => exact h.add v e.id
      | false => exact h.update e.id v

@[simp] theorem put_field (x : OrderedIndex) (fresh : Bool) (e : Entry) :
    (x.put fresh e).field = x.field := by
  have hremove : (x.remove e.id).field = x.field := by
    unfold OrderedIndex.remove
    split
    · rfl
    · exact (x.leave_rest _ _).2.2
  unfold OrderedIndex.put
  split
  · exact hremove
  · unfold OrderedIndex.add OrderedIndex.update
    split
    · split
      · exact (x.enter_rest _ _).2.2
      · rfl
    · split
      · split
        · exact (x.enter_rest _ _).2.2
        · rw [(OrderedIndex.enter_rest _ _ _).2.2, (x.leave_rest _ _).2.2]
      · exact hremove
  · split
    · rfl
    · exact hremove

theorem fieldValues_concat (field : String) (l : LogLine) :
    fieldValues field d (ls ++ [l]) =
      if l.visible d then Function.update (fieldValues field d ls) l.entry.id (l.entry.valueIn field)
      else fieldValues field d ls := by
  funext id
  unfold fieldValues latestData
  rw [filter_append]
  by_cases hv : l.visible d = true
  · rw [if_pos hv, filter_cons_of_pos hv, filter_nil, replay_concat]
    by_cases hid : id = l.entry.id
    · subst hid
      rw [update_self, show l.entry.id = l.id from rfl, apply_self]
      unfold Entry.valueIn
      split <;> rfl
    · have hne : l.id ≠ id := Ne.symm hid
      rw [update_of_ne hid, apply_of_ne hne]
  · rw [if_neg hv, filter_cons_of_neg hv, filter_nil, append_nil]

def Follows (d : Decisions) (ls : List LogLine) (x : OrderedIndex) : Prop :=
  Serves (fieldValues x.field d ls) x

theorem Follows.line (h : Follows d ls x) (fresh : Bool) (l : LogLine) :
    Follows d (ls ++ [l]) (if l.visible d then x.put fresh l.entry else x) := by
  unfold Follows
  split
  · next hv =>
    rw [put_field, fieldValues_concat, if_pos hv]
    exact Serves.put h fresh l.entry
  · next hv =>
    rw [fieldValues_concat, if_neg hv]
    exact h

theorem Follows.putAll (fresh : LogLine → Bool) (h : Follows d ls x)
    (hv : ∀ l ∈ ls', l.visible d = true) :
    Follows d (ls ++ ls') (ls'.foldl (fun x l => x.put (fresh l) l.entry) x) := by
  induction ls' generalizing ls x with
  | nil =>
    rw [append_nil]
    exact h
  | cons l ls' ih =>
    have hline := h.line (fresh l) l
    rw [if_pos (hv l (by simp))] at hline
    have := ih hline fun l hl => hv l (mem_cons_of_mem _ hl)
    rwa [append_assoc] at this

theorem Follows.replay (h : Follows d ls x) : Follows d (ls ++ ls') (x.replay ls' d) := by
  unfold OrderedIndex.replay
  induction ls' generalizing ls x with
  | nil =>
    rw [append_nil]
    exact h
  | cons l ls' ih =>
    have := ih (h.line false l)
    rwa [append_assoc] at this

theorem Follows.congr {d' : Decisions} (h : Follows d ls x)
    (hv : ∀ l ∈ ls, l.visible d' = l.visible d) : Follows d' ls x := by
  have hvalues : fieldValues x.field d' ls = fieldValues x.field d ls := by
    unfold fieldValues latestData
    rw [filter_congr hv]
  unfold Follows
  rw [hvalues]
  exact h

theorem foldl_place (kind : IndexKind) {keys : List String} {l : List OrderedKey}
    (hn : keys.Nodup) (hnew : ∀ k ∈ l, k.key ∉ keys) (ht : ∀ k ∈ l, Typed kind k)
    (ha : Ascends orderLessKey l) :
    (∀ k ∈ keys.foldl (fun l key => place orderLessKey l ⟨key, valForKind kind key⟩) l, Typed kind k) ∧
      Ascends orderLessKey
        (keys.foldl (fun l key => place orderLessKey l ⟨key, valForKind kind key⟩) l) ∧
      ∀ key, (∃ k ∈ keys.foldl (fun l key => place orderLessKey l ⟨key, valForKind kind key⟩) l,
        k.key = key) ↔ key ∈ keys ∨ ∃ k ∈ l, k.key = key := by
  induction keys generalizing l with
  | nil => exact ⟨ht, ha, fun key => by simp⟩
  | cons key keys ih =>
    obtain ⟨hkey, hn⟩ := nodup_cons.mp hn
    have habsent : (⟨key, valForKind kind key⟩ : OrderedKey) ∉ l := fun hmem =>
      hnew _ hmem (by simp)
    obtain ⟨htyped, hasc, hmem⟩ := ih (l := place orderLessKey l ⟨key, valForKind kind key⟩) hn
      (by
        intro k hk hin
        rcases mem_place.mp hk with rfl | hk
        · exact hkey hin
        · exact hnew k hk (mem_cons_of_mem _ hin))
      (by
        intro k hk
        rcases mem_place.mp hk with rfl | hk
        · rfl
        · exact ht k hk)
      (place_ascends (typed_strict kind) ht ha rfl habsent)
    refine ⟨htyped, hasc, fun key' => (hmem key').trans ?_⟩
    rw [mem_cons]
    constructor
    · rintro (hk | ⟨k, hk, rfl⟩)
      · exact Or.inl (Or.inr hk)
      · rcases mem_place.mp hk with rfl | hk
        · exact Or.inl (Or.inl rfl)
        · exact Or.inr ⟨k, hk, rfl⟩
    · rintro ((rfl | hk) | ⟨k, hk, rfl⟩)
      · exact Or.inr ⟨_, mem_place.mpr (Or.inl rfl), rfl⟩
      · exact Or.inl hk
      · exact Or.inr ⟨k, mem_place.mpr (Or.inr hk), rfl⟩

theorem sorted_built {keys : List String} (hnone : x.kind = .empty → x.entries = [])
    (hn : keys.Nodup) (hkeys : ∀ key, key ∈ keys ↔ x.hasBucket key = true)
    (hs : x.sorted = buildSorted keys x.kind) : x.Sorted := by
  by_cases hk : x.kind = .mixed ∨ x.kind = .empty
  · have hnil : x.sorted = [] := by
      rw [hs]
      exact if_pos hk
    refine ⟨hnone, fun hm key => ?_, by simp [hnil], by simp [hnil, Ascends]⟩
    rw [hasBucket_iff, hnone (hk.resolve_left hm), hnil]
    simp
  · have hbuilt := foldl_place x.kind (l := []) hn (by simp) (by simp) (by simp [Ascends])
    have heq : x.sorted =
        keys.foldl (fun l key => place orderLessKey l ⟨key, valForKind x.kind key⟩) [] := by
      rw [hs]
      exact if_neg hk
    rw [← heq] at hbuilt
    refine ⟨hnone, fun _ key => (hbuilt.2.2 key).trans ?_, hbuilt.1, hbuilt.2.1⟩
    rw [hkeys]
    simp

theorem mem_dedup_keys (x : OrderedIndex) (key : String) :
    key ∈ (x.entries.map Prod.fst).dedup ↔ x.hasBucket key = true := by
  rw [mem_dedup, hasBucket_iff]
  simp

theorem Follows.load (h : Follows d ls x) : Follows d ls x.load :=
  ⟨sorted_built h.none (nodup_dedup _) (mem_dedup_keys x) rfl, h.entries, h.kinds⟩

theorem foldl_merge (vs : List Value) :
    ((vs.map fun v => (valKind v).1).foldl mergeKind .empty = .empty → vs = []) ∧
      ∀ v ∈ vs, (vs.map fun v => (valKind v).1).foldl mergeKind .empty = .mixed ∨
        (vs.map fun v => (valKind v).1).foldl mergeKind .empty = (valKind v).1 := by
  induction vs using List.reverseRecOn with
  | nil => exact ⟨fun _ => rfl, by simp⟩
  | append_singleton vs w ih =>
    rw [map_append, foldl_append]
    show (mergeKind _ (valKind w).1 = _ → _) ∧
      ∀ v ∈ _, mergeKind _ (valKind w).1 = _ ∨ mergeKind _ (valKind w).1 = _
    revert ih
    generalize (vs.map fun v => (valKind v).1).foldl mergeKind .empty = kind
    rintro ⟨hnone, hknown⟩
    refine ⟨fun he => ?_, fun v hv => ?_⟩
    · obtain ⟨heq, -⟩ := merge_pure (by rw [he]; simp : mergeKind kind (valKind w).1 ≠ .mixed)
      exact absurd (heq.symm.trans he) (valKind_ne_empty w)
    · by_cases hm : mergeKind kind (valKind w).1 = .mixed
      · exact Or.inl hm
      obtain ⟨heq, hprev⟩ := merge_pure hm
      rcases mem_append.mp hv with hv | hv
      · rcases hprev with he | he
        · rw [hnone he] at hv
          cases hv
        · rcases hknown v hv with hx | hx
          · exact absurd (he.symm.trans hx) (valKind_ne_mixed w)
          · exact Or.inr (heq.trans (he.symm.trans hx))
      · cases mem_singleton.mp hv
        exact Or.inr heq

def found (field : String) (d : Decisions) (ls : List LogLine) : List (Nat × Value) :=
  (ls.map LogLine.id).dedup.filterMap fun id => (fieldValues field d ls id).map fun v => (id, v)

theorem mem_found {field : String} {id : Nat} {v : Value} :
    (id, v) ∈ found field d ls ↔ fieldValues field d ls id = some v := by
  unfold found
  rw [mem_filterMap]
  constructor
  · rintro ⟨i, -, hi⟩
    obtain ⟨w, hw, heq⟩ := map_eq_some_iff.mp hi
    cases heq
    exact hw
  · intro hv
    have hthere : (records d ls id).isSome = true := by
      obtain ⟨data, hdata, -⟩ := bind_eq_some_iff.mp hv
      rw [latestData_eq] at hdata
      obtain ⟨r, hr, -⟩ := map_eq_some_iff.mp hdata
      rw [hr]
      rfl
    obtain ⟨l, hl, hid⟩ := records_id hthere
    refine ⟨id, mem_dedup.mpr (hid ▸ mem_map_of_mem hl), ?_⟩
    rw [hv]
    rfl

theorem follows_rebuild (x : OrderedIndex) (ls : List LogLine) (d : Decisions) :
    Follows d ls (x.rebuild ls d) := by
  have hfound : ∀ id v, fieldValues x.field d ls id = some v →
      (id, v) ∈ (ls.map LogLine.id).dedup.filterMap fun id =>
        (fieldValues x.field d ls id).map fun v => (id, v) := fun id v => mem_found.mpr
  unfold Follows OrderedIndex.rebuild
  dsimp only
  revert hfound
  generalize ((ls.map LogLine.id).dedup.filterMap fun id =>
    (fieldValues x.field d ls id).map fun v => (id, v)) = found
  intro hfound
  have hkinds := foldl_merge (found.map Prod.snd)
  rw [List.map_map] at hkinds
  refine ⟨sorted_built ?_ (nodup_dedup _) (mem_dedup_keys _) rfl, fun id v hv => ?_, fun id v hv => ?_⟩
  · intro he
    have := hkinds.1 he
    rw [map_eq_nil_iff.mp this]
    rfl
  · exact mem_map.mpr ⟨(id, v), hfound id v hv, rfl⟩
  · exact hkinds.2 v (mem_map.mpr ⟨(id, v), hfound id v hv, rfl⟩)

theorem mem_lookup {key : String} {id : Nat} : id ∈ x.lookup key ↔ (key, id) ∈ x.entries := by
  unfold lookup
  rw [List.mem_map]
  constructor
  · rintro ⟨⟨k, i⟩, hmem, rfl⟩
    obtain ⟨hmem, hk⟩ := mem_filter.mp hmem
    cases (by simpa using hk : k = key)
    exact hmem
  · intro hmem
    exact ⟨(key, id), mem_filter.mpr ⟨hmem, by simp⟩, rfl⟩

theorem mem_range (h : x.Sorted) {q : Value} (hq : (valKind q).1 = x.kind) {op : QueryOp}
    {ks : List OrderedKey} (hr : x.range op (valKind q).2 = some ks) (re : String → String → Bool)
    (k : OrderedKey) : k ∈ ks ↔ k ∈ x.sorted ∧ op.test re k.val (valKind q).2 = true := by
  have habove : Splits (fun k => compareValues k.val (valKind q).2 == .gt) x.sorted := by
    refine h.ascends.imp_of_mem fun {a b} ha hb hab hp => ?_
    rw [beq_iff_eq] at hp ⊢
    exact (less_compare (h.typed a ha) (h.typed b hb) hab hq).1 hp
  have hleast : Splits (fun k => compareValues k.val (valKind q).2 != .lt) x.sorted := by
    refine h.ascends.imp_of_mem fun {a b} ha hb hab hp => ?_
    rw [bne_iff_ne] at hp ⊢
    exact (less_compare (h.typed a ha) (h.typed b hb) hab hq).2 hp
  unfold range at hr
  cases op with
  | gt =>
    cases hr
    exact mem_drop_search habove
  | gte =>
    cases hr
    exact mem_drop_search hleast
  | lt =>
    cases hr
    rw [mem_take_search hleast]
    simp [QueryOp.test]
  | lte =>
    cases hr
    rw [mem_take_search habove]
    simp [QueryOp.test]
  | eq | neq | contains | regex => cases hr

end

end OrderedIndex

def isInt : Value → Bool
  | .int _ => true
  | _ => false

def otherZero : Value → Value → Bool
  | .float a, .float b => a.isZero && b.isZero && a != b
  | _, _ => false

theorem filterValueTyped_json (value : String) : isInt (filterValueTyped value) = false := by
  unfold filterValueTyped
  split
  · next j _ => cases j <;> rfl
  · rfl

section

variable {v w : Value}

theorem asNumber_none (hv : isInt v = false) (h : (valKind v).1 = .string) : asNumber v = none := by
  cases v <;> simp_all [valKind, isInt, asNumber]

theorem equalValues_key (hv : isInt v = false) (hw : isInt w = false) (h : equalValues v w = true)
    (hz : otherZero v w = false) : toIndexKey v = toIndexKey w := by
  unfold equalValues at h
  cases v with
  | float a =>
    cases w with
    | float b =>
      have hcmp : a.cmp b = .eq := by simpa [asNumber] using h
      rcases Decimal.cmp_eq_eq.mp hcmp with rfl | ⟨ha, hb⟩
      · rfl
      · simp [otherZero, ha, hb] at hz
        rw [hz]
    | int n => cases hw
    | null | bool | str | list | map => simpa [asNumber] using h
  | int n => cases hv
  | null | bool | str | list | map => simpa [asNumber] using h

theorem compareValues_kind (hv : isInt v = false) (hw : isInt w = false)
    (h : (valKind v).1 = (valKind w).1) :
    compareValues (valKind v).2 (valKind w).2 = compareValues v w := by
  by_cases hk : (valKind v).1 = .numeric
  · have hw' := h.symm.trans hk
    cases v <;> cases w <;> simp_all [valKind]
  · have hstr : ∀ u : Value, (valKind u).1 ≠ .numeric → (valKind u).1 = .string := by
      intro u hu
      cases u <;> simp_all [valKind]
    have hsv := hstr v hk
    have hsw := hstr w (h ▸ hk)
    have htext : ∀ u : Value, (valKind u).1 = .string → (valKind u).2 = .str (toIndexKey u) := by
      intro u hu
      have := valKind_key u
      rw [hu] at this
      exact this
    rw [htext v hsv, htext w hsw]
    unfold compareValues
    rw [asNumber_none hv hsv, asNumber_none hw hsw]
    simp only [asNumber, toIndexKey_str]

end

section

variable {x : OrderedIndex} {m : Nat → Option Value} {f : FieldFilter} {re : String → String → Bool}
  {id : Nat} {v : Value}

/-- The candidates of a filter have every id whose value meets it, unless the value is the other
zero of an equality. -/
theorem OrderedIndex.Serves.mem_candidates (h : Serves m x) (hm : m id = some v)
    (hv : isInt v = false) (htest : f.op.test re v (filterValueTyped f.value) = true)
    (hz : f.op = .eq → otherZero v (filterValueTyped f.value) = false) {ids : List Nat}
    (hids : x.candidates f = some ids) : id ∈ ids := by
  have hjson := filterValueTyped_json f.value
  have hentry := h.entries id v hm
  have hrange : x.lookupRange f.op (filterValueTyped f.value) = some ids → id ∈ ids := by
    intro hr
    unfold lookupRange at hr
    by_cases he : x.kind = .empty
    · rw [h.none he] at hentry
      cases hentry
    rw [if_neg he] at hr
    obtain ⟨hmixed, hr⟩ := ite_none_left_eq_some.mp hr
    obtain ⟨hkind, hr⟩ := ite_none_left_eq_some.mp hr
    obtain ⟨ks, hks, rfl⟩ := map_eq_some_iff.mp hr
    have hq : (valKind (filterValueTyped f.value)).1 = x.kind := not_not.mp hkind
    have hvk : x.kind = (valKind v).1 := (h.kinds id v hm).resolve_left hmixed
    obtain ⟨k, hk, hkey⟩ := (h.keys hmixed (toIndexKey v)).mpr (hasBucket_iff.mpr ⟨id, hentry⟩)
    have hval : k.val = (valKind v).2 := by
      rw [h.typed k hk, hkey, hvk, valKind_key]
    have hcmp := compareValues_kind hv hjson (hvk.symm.trans hq.symm)
    have hin : k ∈ ks := by
      rw [mem_range h.toSorted hq hks re, hval]
      refine ⟨hk, ?_⟩
      unfold OrderedIndex.range at hks
      cases hop : f.op with
      | gt | gte | lt | lte =>
        rw [hop] at htest
        simpa only [QueryOp.test, hcmp] using htest
      | eq | neq | contains | regex =>
        rw [hop] at hks
        cases hks
    refine mem_flatMap.mpr ⟨k, hin, mem_lookup.mpr ?_⟩
    rw [hkey]
    exact hentry
  unfold OrderedIndex.candidates at hids
  cases hop : f.op with
  | eq =>
    rw [hop] at hids htest
    cases hids
    rw [mem_lookup, ← equalValues_key hv hjson htest (hz hop)]
    exact hentry
  | gt | gte | lt | lte =>
    rw [hop] at hids
    exact hrange (hop ▸ hids)
  | neq | contains | regex =>
    rw [hop] at hids
    cases hids

end

end Scriva
