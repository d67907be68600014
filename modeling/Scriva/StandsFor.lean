import Scriva.CompactRecords

namespace Scriva

open List

def plainData (enc : Option Encryptor) (data : Option Data) : Option (Option Data) :=
  match enc with
  | none => some data
  | some k => k.materialize data

structure View where
  data : Option (Option Data)
  rev : Nat
  expiresAt : Int
deriving DecidableEq, Repr

def Record.view (enc : Option Encryptor) (r : Record) : View :=
  { data := plainData enc r.data, rev := r.rev, expiresAt := r.expiresAt }

def visibleAt (enc : Option Encryptor) (now : Int) (r : Option Record) : Option View :=
  (r.filter fun r => !expired r.expiresAt now).map (Record.view enc)

variable {enc : Option Encryptor} {S A C X : List LogLine} {now : Int}

theorem SameData.plainData {r r' : Record} (h : SameData enc r r') :
    plainData enc r'.data = plainData enc r.data := by
  rcases h with ⟨h, -⟩ | ⟨k, plain, rfl, -, -, hr, hr'⟩
  · rw [h]
  · exact hr'.trans hr.symm

theorem visibleAt_later {later : Int} (h : now ≤ later) {r r' : Option Record}
    (he : visibleAt enc now r = visibleAt enc now r') :
    visibleAt enc later r = visibleAt enc later r' := by
  have key : ∀ r : Option Record, visibleAt enc later r =
      (visibleAt enc now r).filter fun v => !expired v.expiresAt later := by
    intro r
    cases r with
    | none => rfl
    | some r =>
      cases hn : expired r.expiresAt now with
      | true => simp [visibleAt, Option.filter, hn, expired_later h hn]
      | false => cases hl : expired r.expiresAt later <;> simp [visibleAt, Option.filter, hn, hl, Record.view]
  rw [key, key, he]

theorem revsAscendFrom_mono {a b : Nat} (h : b ≤ a) (hS : RevsAscendFrom a S) :
    RevsAscendFrom b S := by
  induction S generalizing a b with
  | nil => trivial
  | cons l S ih =>
    refine ⟨fun hop hb => ?_, ih (revStep_mono h l) hS.2⟩
    have := hS.1 hop (by omega)
    omega

theorem RevsAscend.stamped {Y : List LogLine} (h : RevsAscend Y) (ht : entombed Y = false) :
    RevsAscend (Y.filter fun l => !l.isPlain) := by
  induction Y using List.reverseRecOn with
  | nil => trivial
  | append_singleton Y l ih =>
    obtain ⟨hY, hl, -⟩ := revsAscendFrom_append.mp h
    rw [entombed_concat, Bool.or_eq_false_iff] at ht
    rw [filter_append]
    cases hp : l.isPlain with
    | true => simpa [hp] using ih hY ht.1
    | false =>
      rw [filter_singleton, hp]
      refine revsAscendFrom_append.mpr ⟨ih hY ht.1, fun hop hne => ?_, trivial⟩
      have hle := stamped_rev_le ht.1
      have := hl hop (by omega)
      omega

def anyStamped (X : List LogLine) : Bool :=
  X.any fun l => !l.isPlain

theorem anyStamped_append (X S : List LogLine) :
    anyStamped (X ++ S) = (anyStamped X || anyStamped S) :=
  any_append

theorem entombed_append_mono (hs : anyStamped C = true → anyStamped A = true)
    (ht : entombed C = true → entombed A = true) (S : List LogLine) (h : entombed (C ++ S) = true) :
    entombed (A ++ S) = true := by
  induction S using List.reverseRecOn with
  | nil =>
    rw [append_nil] at h ⊢
    exact ht h
  | append_singleton S l ih =>
    rw [← append_assoc, entombed_concat, Bool.or_eq_true] at h ⊢
    rcases h with h | h
    · exact Or.inl (ih h)
    · obtain ⟨hany, hl⟩ := Bool.and_eq_true_iff.mp h
      refine Or.inr (Bool.and_eq_true_iff.mpr ⟨?_, hl⟩)
      have hany : anyStamped (C ++ S) = true := hany
      have hgoal : anyStamped (A ++ S) = true := by
        rw [anyStamped_append, Bool.or_eq_true] at hany ⊢
        exact hany.imp_left hs
      exact hgoal

theorem entombed_append_left (S : List LogLine) (h : entombed A = true) :
    entombed (A ++ S) = true := by
  induction S using List.reverseRecOn with
  | nil => rwa [append_nil]
  | append_singleton S l ih => rw [← append_assoc, entombed_concat, ih, Bool.true_or]

theorem NotRecreated.left (h : NotRecreated (A ++ S)) : NotRecreated A := by
  rcases eq_nil_or_concat' S with rfl | ⟨S, s, rfl⟩
  · simpa using h
  · unfold NotRecreated at h ⊢
    rw [← append_assoc, dropLast_concat] at h
    rcases eq_nil_or_concat' A with rfl | ⟨A, a, rfl⟩
    · rfl
    · rw [dropLast_concat, Bool.eq_false_iff]
      intro hA
      rw [append_assoc, entombed_append_left _ hA] at h
      cases h

theorem entombed_stamped (Y : List LogLine) :
    entombed (Y.filter fun l => !l.isPlain) = false := by
  unfold entombed
  rw [any_eq_false]
  intro l hl
  have hmem : l ∈ Y.filter fun l => !l.isPlain := (dropWhile_sublist _).subset hl
  have := (mem_filter.mp hmem).2
  simp_all

theorem Compacted.tomb (h : Compacted enc now A C) :
    (anyStamped C = true → anyStamped A = true) ∧ (entombed C = true → entombed A = true) := by
  cases h with
  | absent => exact ⟨id, id⟩
  | dropped => exact ⟨(fun h => nomatch h), (fun h => nomatch h)⟩
  | @kept Y p q hm =>
    have hY : anyStamped (Y.filter fun l => !l.isPlain) = true → anyStamped Y = true := by
      intro h
      obtain ⟨l, hl, hst⟩ := any_eq_true.mp h
      exact any_eq_true.mpr ⟨l, (mem_filter.mp hl).1, hst⟩
    constructor
    · intro h
      rw [anyStamped_append, Bool.or_eq_true] at h ⊢
      refine h.imp hY fun hq => ?_
      simpa [anyStamped, hm.isPlain] using hq
    · intro h
      rw [entombed_concat, entombed_stamped, Bool.false_or, Bool.and_eq_true, hm.isPlain, hm.op] at h
      rw [entombed_concat, Bool.or_eq_true]
      exact Or.inr (Bool.and_eq_true_iff.mpr ⟨hY h.1, h.2⟩)

theorem Compacted.ascend (h : Compacted enc now A C) (ha : RevsAscend A) (hn : NotRecreated A) :
    RevsAscend C := by
  cases h with
  | absent => trivial
  | dropped => trivial
  | @kept Y p q hm =>
    have hY : entombed Y = false := by simpa [NotRecreated] using hn
    obtain ⟨hasc, hp, -⟩ := revsAscendFrom_append.mp ha
    refine revsAscendFrom_append.mpr ⟨RevsAscend.stamped hasc hY, fun hop hne => ?_, trivial⟩
    have hle := stamped_rev_le hY
    have := hp (hm.op ▸ hop) (by omega)
    rw [hm.rev]
    omega

theorem Compacted.later {later : Int} (h : Compacted enc now A C) (hle : now ≤ later) :
    Compacted enc later A C := by
  cases h with
  | absent => exact .absent
  | kept hm => exact .kept hm
  | dropped hplain hgone => exact .dropped hplain (hgone.imp_right (expired_later hle))

/-- A history that can stand for another: whatever is written next, a reader sees the same. -/
structure StandsFor (enc : Option Encryptor) (now : Int) (X O : List LogLine) : Prop where
  rev_le : O.foldl revStep 0 ≤ X.foldl revStep 0
  stamped : anyStamped O = true → anyStamped X = true
  tomb : entombed O = true → entombed X = true
  ascend : RevsAscend O
  notRecreated : NotRecreated O
  shows : visibleAt enc now (recordOf O) = visibleAt enc now (recordOf X)

theorem standsFor_self (enc : Option Encryptor) (now : Int) (ha : RevsAscend X)
    (hn : NotRecreated X) : StandsFor enc now X X :=
  ⟨le_refl _, id, id, ha, hn, rfl⟩

theorem StandsFor.later {later : Int} {O : List LogLine} (h : StandsFor enc now X O)
    (hle : now ≤ later) : StandsFor enc later X O :=
  { h with shows := visibleAt_later hle h.shows }

/-- The next line of an id outruns its revision and does not follow a tombstone behind a
transaction. -/
def Fits (X : List LogLine) (l : LogLine) : Prop :=
  (l.entry.op ≠ .delete → X.foldl revStep 0 ≠ 0 → X.foldl revStep 0 < l.entry.rev) ∧
    entombed X = false

theorem StandsFor.append {O : List LogLine} {l : LogLine} (h : StandsFor enc now X O)
    (hl : Fits X l) : StandsFor enc now (X ++ [l]) (O ++ [l]) := by
  obtain ⟨hrev, htomb⟩ := hl
  have hO : entombed O = false := by
    rw [Bool.eq_false_iff]
    intro he
    rw [h.tomb he] at htomb
    cases htomb
  have hstep : revStep (O.foldl revStep 0) l = revStep (X.foldl revStep 0) l :=
    revStep_forget h.rev_le hrev
  refine ⟨?_, ?_, entombed_append_mono h.stamped h.tomb [l], ?_, ?_, ?_⟩
  · rw [foldl_append, foldl_append]
    exact hstep.le
  · rw [anyStamped_append, anyStamped_append, Bool.or_eq_true, Bool.or_eq_true]
    exact Or.imp_left h.stamped
  · refine revsAscendFrom_append.mpr ⟨h.ascend, fun hop hne => ?_, trivial⟩
    have hle := h.rev_le
    have := hrev hop (by omega)
    omega
  · simpa [NotRecreated] using hO
  · rw [recordOf_concat, recordOf_concat, hstep]

theorem Compacted.shows (h : Compacted enc now A C) (hA : ∀ l ∈ A, l.Readable enc)
    (ha : RevsAscend (A ++ S)) (hn : NotRecreated A) :
    visibleAt enc now (recordOf (C ++ S)) = visibleAt enc now (recordOf (A ++ S)) := by
  cases hr : recordOf (A ++ S) with
  | none => rw [h.absent_stays S hr]
  | some r =>
    cases he : expired r.expiresAt now with
    | true =>
      cases hr' : recordOf (C ++ S) with
      | none => simp [visibleAt, Option.filter, he]
      | some r' => simp [visibleAt, Option.filter, he, h.deadline hr hr']
    | false =>
      obtain ⟨r', hr', hexp, hdata, hrev⟩ := h.unexpired hA S hr he
      have hview : r'.view enc = r.view enc := by
        simp only [Record.view, hdata.plainData, hrev ha hn, hexp]
      simp [visibleAt, Option.filter, hr', he, hexp, hview]

/-- Compacting a part of the output keeps what it stands for. -/
theorem StandsFor.compact (h : StandsFor enc now X (A ++ S)) (hc : Compacted enc now A C)
    (hA : ∀ l ∈ A, l.Readable enc) : StandsFor enc now X (C ++ S) := by
  have hn := h.notRecreated.left
  obtain ⟨hasc, hS⟩ := revsAscendFrom_append.mp h.ascend
  obtain ⟨hst, htomb⟩ := hc.tomb
  have hle := hc.rev_le hn
  refine ⟨?_, ?_, fun ht => h.tomb (entombed_append_mono hst htomb S ht), ?_, ?_, ?_⟩
  · refine le_trans ?_ h.rev_le
    rw [foldl_append, foldl_append]
    exact foldl_revStep_mono hle S
  · intro hany
    refine h.stamped ?_
    rw [anyStamped_append, Bool.or_eq_true] at hany ⊢
    exact hany.imp_left hst
  · exact revsAscendFrom_append.mpr ⟨hc.ascend hasc hn, revsAscendFrom_mono hle hS⟩
  · rcases eq_nil_or_concat' S with rfl | ⟨S, s, rfl⟩
    · rw [append_nil]
      cases hc with
      | absent => rfl
      | dropped => rfl
      | @kept Y p q hm =>
        unfold NotRecreated
        rw [dropLast_concat]
        exact entombed_stamped Y
    · have hnr := h.notRecreated
      unfold NotRecreated at hnr ⊢
      rw [← append_assoc, dropLast_concat] at hnr ⊢
      rw [Bool.eq_false_iff] at hnr ⊢
      exact fun ht => hnr (entombed_append_mono hst htomb S ht)
  · rw [hc.shows hA h.ascend hn, h.shows]

end Scriva
