import Scriva.Compacted
import Scriva.Lookup

namespace Scriva

open List

/-- From a revision on, every write of a live id carries a higher one than it replaces. -/
def RevsAscendFrom (r : Nat) : List LogLine → Prop
  | [] => True
  | l :: ls => (l.entry.op ≠ .delete → r ≠ 0 → r < l.entry.rev) ∧ RevsAscendFrom (revStep r l) ls

instance decidableRevsAscendFrom : ∀ (r : Nat) (ls : List LogLine), Decidable (RevsAscendFrom r ls)
  | _, [] => inferInstanceAs (Decidable True)
  | r, l :: ls =>
    have := decidableRevsAscendFrom (revStep r l) ls
    inferInstanceAs (Decidable (_ ∧ _))

abbrev RevsAscend (X : List LogLine) : Prop :=
  RevsAscendFrom 0 X

def entombed (X : List LogLine) : Bool :=
  (X.dropWhile LogLine.isPlain).any fun l => l.isPlain && l.entry.op == .delete

def NotRecreated (X : List LogLine) : Prop :=
  entombed X.dropLast = false

instance (X : List LogLine) : Decidable (NotRecreated X) :=
  inferInstanceAs (Decidable (_ = false))

def SameData (enc : Option Encryptor) (r r' : Record) : Prop :=
  (r'.data = r.data ∧ r'.epoch = r.epoch) ∨
    ∃ k plain, enc = some k ∧ r.epoch ≠ k.epoch ∧ r'.epoch = k.epoch ∧
      k.materialize r.data = some plain ∧ k.materialize r'.data = some plain

variable {a b rev : Nat} {l p : LogLine} {X S O : List LogLine} {enc : Option Encryptor} {now : Int}
  {r : Record}

theorem revStep_mono (h : a ≤ b) (l : LogLine) : revStep a l ≤ revStep b l := by
  unfold revStep nextRev
  split <;> omega

theorem foldl_revStep_mono (h : a ≤ b) (ls : List LogLine) :
    ls.foldl revStep a ≤ ls.foldl revStep b := by
  induction ls generalizing a b with
  | nil => exact h
  | cons l ls ih => exact ih (revStep_mono h l)

theorem revStep_forget (hab : a ≤ b) (hl : l.entry.op ≠ .delete → b ≠ 0 → b < l.entry.rev) :
    revStep a l = revStep b l := by
  unfold revStep nextRev
  split
  · rfl
  · next hop =>
    have := hl hop
    omega

theorem revStep_congr {q : LogLine} (hop : q.entry.op = p.entry.op)
    (hrev : q.entry.rev = p.entry.rev) (r : Nat) : revStep r q = revStep r p := by
  simp only [revStep, nextRev, hop, hrev]

theorem revsAscendFrom_append {r : Nat} :
    RevsAscendFrom r (X ++ S) ↔ RevsAscendFrom r X ∧ RevsAscendFrom (X.foldl revStep r) S := by
  induction X generalizing r with
  | nil => simp [RevsAscendFrom]
  | cons l X ih => simp only [cons_append, RevsAscendFrom, foldl_cons, ih, and_assoc]

theorem entombed_concat (Y : List LogLine) (l : LogLine) :
    entombed (Y ++ [l]) = (entombed Y ||
      (Y.any (fun s => !s.isPlain) && (l.isPlain && l.entry.op == .delete))) := by
  unfold entombed
  induction Y with
  | nil => cases hp : l.isPlain <;> simp [List.dropWhile, hp]
  | cons s Y ih =>
    cases hs : s.isPlain with
    | true => simpa [List.dropWhile, hs] using ih
    | false => simp [List.dropWhile, hs]

/-- Leaving out the plain lines of a history never raises its revision, if no plain delete
follows a stamped line. -/
theorem stamped_rev_le {Y : List LogLine} (h : entombed Y = false) :
    (Y.filter fun l => !l.isPlain).foldl revStep 0 ≤ Y.foldl revStep 0 := by
  induction Y using List.reverseRecOn with
  | nil => exact le_refl _
  | append_singleton Y l ih =>
    rw [entombed_concat, Bool.or_eq_false_iff] at h
    have ih := ih h.1
    rw [filter_append, foldl_append, foldl_append]
    cases hp : l.isPlain with
    | false => simpa [hp] using revStep_mono ih l
    | true =>
      simp only [hp, filter_singleton, Bool.not_true, foldl_nil, foldl_cons]
      by_cases hop : l.entry.op = .delete
      · have hplain : Y.filter (fun s => !s.isPlain) = [] := by
          have := h.2
          simp only [hp, hop, beq_self_eq_true, Bool.and_true, any_eq_false] at this
          exact filter_eq_nil_iff.mpr this
        simp [hplain]
      · refine ih.trans ?_
        simp only [revStep, hop, if_false, nextRev]
        omega

theorem NotRecreated.stamped_rev_le {Y : List LogLine} (h : NotRecreated (Y ++ [p])) :
    (Y.filter fun l => !l.isPlain).foldl revStep 0 ≤ Y.foldl revStep 0 :=
  Scriva.stamped_rev_le (by simpa [NotRecreated] using h)

theorem Compacted.rev_le (h : Compacted enc now X O) (hn : NotRecreated X) :
    O.foldl revStep 0 ≤ X.foldl revStep 0 := by
  cases h with
  | absent => exact le_refl _
  | @kept Y p q hm =>
    rw [foldl_append, foldl_append]
    simp only [foldl_cons, foldl_nil, revStep_congr hm.op hm.rev]
    exact revStep_mono hn.stamped_rev_le p
  | dropped => exact Nat.zero_le _

theorem suffix_rev (hle : O.foldl revStep 0 ≤ X.foldl revStep 0) (ha : RevsAscend (X ++ S))
    (hS : S ≠ []) : (O ++ S).foldl revStep 0 = (X ++ S).foldl revStep 0 := by
  cases S with
  | nil => exact absurd rfl hS
  | cons s S =>
    rw [foldl_append, foldl_append, foldl_cons, foldl_cons,
      revStep_forget hle (revsAscendFrom_append.mp ha).2.1]

theorem recordOf_concat (Y : List LogLine) (l : LogLine) :
    recordOf (Y ++ [l]) = l.recordAt (revStep (Y.foldl revStep 0) l) := by
  simp [recordOf]

theorem recordAt_some (h : l.recordAt rev = some r) :
    l.entry.op ≠ .delete ∧
      r = { data := l.entry.data, rev := rev, expiresAt := l.entry.expiresAt,
            epoch := l.entry.epoch } := by
  unfold LogLine.recordAt at h
  split at h
  · cases h
  · next hop =>
    cases h
    exact ⟨hop, rfl⟩

theorem recordAt_migrated {q : LogLine} (hm : Migrated enc p q) (hp : p.Readable enc)
    (h : p.recordAt rev = some r) (rev' : Nat) :
    ∃ r', q.recordAt rev' = some r' ∧ r'.rev = rev' ∧ r'.expiresAt = r.expiresAt ∧
      SameData enc r r' := by
  obtain ⟨hop, rfl⟩ := recordAt_some h
  refine ⟨_, if_neg (hm.op ▸ hop), rfl, hm.expiresAt, ?_⟩
  rcases hm.data with hsame | ⟨k, plain, henc, -, -, hne, hepoch, hmat, -⟩
  · exact Or.inl hsame
  · exact Or.inr ⟨k, plain, henc, hne, hepoch, hmat, ((hm.readable hp).2 k henc).trans hmat⟩

theorem recordAt_eq_none : l.recordAt rev = none ↔ l.entry.op = .delete := by
  unfold LogLine.recordAt
  split <;> simp_all

theorem Compacted.unexpired (h : Compacted enc now X O) (hX : ∀ l ∈ X, l.Readable enc)
    (S : List LogLine) (hr : recordOf (X ++ S) = some r)
    (hexp : expired r.expiresAt now = false) :
    ∃ r', recordOf (O ++ S) = some r' ∧ r'.expiresAt = r.expiresAt ∧ SameData enc r r' ∧
      (RevsAscend (X ++ S) → NotRecreated X → r'.rev = r.rev) := by
  rcases eq_nil_or_concat' S with rfl | ⟨S, s, rfl⟩
  · -- nothing newer: the record is the last line of the older part
    rw [append_nil] at hr ⊢
    cases h with
    | absent => cases hr
    | @kept Y p q hm =>
      rw [recordOf_concat] at hr
      obtain ⟨r', hr', hrev, he, hd⟩ := recordAt_migrated hm (hX p (by simp)) hr
        (revStep ((Y.filter fun l => !l.isPlain).foldl revStep 0) q)
      rw [recordOf_concat]
      refine ⟨r', hr', he, hd, fun ha hn => ?_⟩
      rw [append_nil] at ha
      have hasc := (revsAscendFrom_append.mp ha).2.1
      rw [hrev, (recordAt_some hr).2, revStep_congr hm.op hm.rev,
        revStep_forget hn.stamped_rev_le hasc]
    | @dropped Y p hplain hgone =>
      rw [recordOf_concat] at hr
      obtain ⟨hop, rfl⟩ := recordAt_some hr
      rcases hgone with hdel | hdead
      · exact absurd hdel hop
      · rw [hdead] at hexp
        cases hexp
  · -- a newer line is the last one on both sides
    rw [← append_assoc, recordOf_concat] at hr ⊢
    obtain ⟨hop, rfl⟩ := recordAt_some hr
    refine ⟨_, if_neg hop, rfl, Or.inl ⟨rfl, rfl⟩, fun ha hn => ?_⟩
    have hrev := suffix_rev (h.rev_le hn) ha (by simp)
    simpa [foldl_append] using hrev

theorem Compacted.absent_stays (h : Compacted enc now X O) (S : List LogLine)
    (hr : recordOf (X ++ S) = none) : recordOf (O ++ S) = none := by
  rcases eq_nil_or_concat' S with rfl | ⟨S, s, rfl⟩
  · rw [append_nil] at hr ⊢
    cases h with
    | absent => exact hr
    | @kept Y p q hm =>
      rw [recordOf_concat, recordAt_eq_none] at hr ⊢
      rw [hm.op, hr]
    | dropped => rfl
  · rw [← append_assoc, recordOf_concat, recordAt_eq_none] at hr ⊢
    exact hr

theorem Compacted.deadline (h : Compacted enc now X O) {r' : Record}
    (hr : recordOf (X ++ S) = some r) (hr' : recordOf (O ++ S) = some r') :
    r'.expiresAt = r.expiresAt := by
  rcases eq_nil_or_concat' S with rfl | ⟨S, s, rfl⟩
  · rw [append_nil] at hr hr'
    cases h with
    | absent => cases hr
    | @kept Y p q hm =>
      rw [recordOf_concat] at hr hr'
      rw [(recordAt_some hr).2, (recordAt_some hr').2]
      exact hm.expiresAt
    | dropped => cases hr'
  · rw [← append_assoc, recordOf_concat] at hr hr'
    rw [(recordAt_some hr).2, (recordAt_some hr').2]

end Scriva
