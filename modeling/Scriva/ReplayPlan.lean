import Scriva.Coverage
import Scriva.SecondaryIndex

namespace Scriva

open KeyedLog List

def replayPlan (m : Index) (plan : List (Segment × Nat)) (d : Decisions) : Index :=
  plan.foldl (fun m st => applyEntries m st.1 st.2 d) m

def SecondaryIndex.replayPlan (s : SecondaryIndex) (plan : List (Segment × Nat)) (d : Decisions) :
    SecondaryIndex :=
  plan.foldl (fun s st => s.replay st.1 st.2 d) s

def planned (plan : List (Segment × Nat)) : List Located :=
  plan.flatMap fun st => (locate st.1).filter fun x => st.2 ≤ x.offset

theorem replayPlan_eq (m : Index) (plan : List (Segment × Nat)) (d : Decisions) :
    replayPlan m plan d = m.replay d (planned plan) := by
  induction plan generalizing m with
  | nil => rfl
  | cons st plan ih =>
    have hcons : planned (st :: plan) =
        ((locate st.1).filter fun x => st.2 ≤ x.offset) ++ planned plan := rfl
    rw [hcons, replay_append, ← applyEntries_eq, ← ih]
    rfl

theorem scanFrom_lines (s : Segment) (start : Nat) :
    (scanFrom s start).map (fun p => p.2.toLogLine) =
      ((locate s).filter fun x => start ≤ x.offset).map Located.line := by
  unfold scanFrom locate
  rw [filter_map, map_map]
  rfl

theorem SecondaryIndex.replayPlan_spec (s : SecondaryIndex) (plan : List (Segment × Nat))
    (d : Decisions) :
    (s.replayPlan plan d).field = s.field ∧ (s.replayPlan plan d).unique = s.unique ∧
    (s.replayPlan plan d).reverse =
      bucketReplay s.field s.reverse d ((planned plan).map Located.line) ∧
    (s.Consistent → (s.replayPlan plan d).Consistent) := by
  induction plan generalizing s with
  | nil => exact ⟨rfl, rfl, rfl, id⟩
  | cons st plan ih =>
    obtain ⟨hf, hu, hr, hc⟩ := s.replay_spec st.1 st.2 d
    obtain ⟨hf', hu', hr', hc'⟩ := ih (s.replay st.1 st.2 d)
    refine ⟨hf'.trans hf, hu'.trans hu, hr'.trans ?_, fun h => hc' (hc h)⟩
    rw [hf, hr, scanFrom_lines, ← bucketReplay_append, ← map_append]
    rfl

theorem ascending_align {S0 S1 : List Segment} (h0 : Ascending S0) (h1 : Ascending S1)
    (hfound : ∀ a ∈ S0, ∃ b ∈ S1, b.num = a.num)
    (hnew : ∀ b ∈ S1, (∀ a ∈ S0, a.num ≠ b.num) → ∀ a ∈ S0, a.num < b.num) :
    ∃ C U, S1 = C ++ U ∧ List.Forall₂ (fun a b => b.num = a.num) S0 C ∧
      ∀ b ∈ U, ∀ a ∈ S0, a.num < b.num := by
  induction S0 generalizing S1 with
  | nil => exact ⟨[], S1, rfl, .nil, by simp⟩
  | cons a S0 ih =>
    obtain ⟨ha, hS0⟩ := pairwise_cons.mp h0
    obtain ⟨b', hb', hnum⟩ := hfound a (by simp)
    cases S1 with
    | nil => cases hb'
    | cons b S1 =>
      obtain ⟨hb, hS1⟩ := pairwise_cons.mp h1
      have hle : b.num ≤ b'.num := by
        rcases mem_cons.mp hb' with rfl | hb'
        · exact le_refl _
        · exact (hb b' hb').le
      -- the first segment present is the first one covered
      have hab : b.num = a.num := by
        by_contra hne
        have hnone : ∀ a' ∈ a :: S0, a'.num ≠ b.num := by
          intro a' ha' heq
          rcases mem_cons.mp ha' with rfl | ha'
          · exact hne heq.symm
          · have := ha a' ha'
            omega
        have := hnew b (by simp) hnone a (by simp)
        omega
      have hfound' : ∀ a' ∈ S0, ∃ c ∈ S1, c.num = a'.num := by
        intro a' ha'
        obtain ⟨c, hc, hcn⟩ := hfound a' (by simp [ha'])
        rcases mem_cons.mp hc with rfl | hc
        · have := ha a' ha'
          omega
        · exact ⟨c, hc, hcn⟩
      have hnew' : ∀ c ∈ S1, (∀ a' ∈ S0, a'.num ≠ c.num) → ∀ a' ∈ S0, a'.num < c.num := by
        intro c hc hnone a' ha'
        refine hnew c (by simp [hc]) (fun a'' ha'' => ?_) a' (by simp [ha'])
        rcases mem_cons.mp ha'' with rfl | ha''
        · have := hb c hc
          omega
        · exact hnone a'' ha''
      obtain ⟨C, U, rfl, hC, hU⟩ := ih hS0 hS1 hfound' hnew'
      refine ⟨b :: C, U, rfl, .cons hab hC, fun c hc a' ha' => ?_⟩
      rcases mem_cons.mp ha' with rfl | ha'
      · have := hb c (by simp [hc])
        omega
      · exact hU c hc a' ha'

theorem planned_fresh (segs : List Segment) :
    planned ((segs.filter fun s => 0 < s.size).map fun s => (s, 0)) = located segs := by
  induction segs with
  | nil => rfl
  | cons s segs ih =>
    have hcons : located (s :: segs) = locate s ++ located segs := rfl
    by_cases hs : 0 < s.size
    · rw [filter_cons_of_pos (by simpa using hs), map_cons, hcons, ← ih]
      simp [planned]
    · have hnil : s.lines = [] := by
        cases hl : s.lines with
        | nil => rfl
        | cons l ls =>
          have := l.len_pos
          simp only [Segment.size, sizeOf, hl, map_cons, sum_cons] at hs
          omega
      rw [filter_cons_of_neg (by simpa using hs), ih, hcons]
      simp [locate, hnil, withOffsets]

theorem planned_append (p q : List (Segment × Nat)) : planned (p ++ q) = planned p ++ planned q := by
  simp [planned]

theorem planned_grown {st : CoverState} {b : Segment} {size : Nat}
    (h : st.lastCovered = some (b, size)) :
    planned (grownPlan st) = (locate b).filter fun x => size ≤ x.offset := by
  unfold grownPlan
  rw [h]
  by_cases hlt : size < b.size
  · simp [hlt, planned]
  · simp only [hlt, if_false]
    refine (filter_eq_nil_iff.mpr fun x hx => ?_).symm
    obtain ⟨p, hp, rfl⟩ := mem_map.mp hx
    have hend : p.1 < 0 + b.size := (mem_withOffsets hp).2.2
    simp only [decide_eq_true_eq]
    omega

/-- Only the newest covered segment may have grown: its new end is all that the covered segments
hold beyond the old ones. -/
theorem located_grown {S0 C : List Segment} {top : Nat} (h0 : Ascending S0)
    (hC : List.Forall₂ (fun a b => b.num = a.num) S0 C) (htop : ∀ a ∈ S0, a.num ≤ top)
    (hgrow : ∀ a ∈ S0, ∀ b ∈ C, b.num = a.num → ∃ t, b.lines = a.lines ++ t ∧ (t ≠ [] → a.num = top))
    {a b : Segment} (ha : a ∈ S0) (hb : b ∈ C) (hatop : a.num = top) (hbtop : b.num = top) :
    located C = located S0 ++ (locate b).filter fun x => a.size ≤ x.offset := by
  induction hC with
  | nil => cases ha
  | @cons a0 b0 S0 C hab hC ih =>
    obtain ⟨ha0, hS0⟩ := pairwise_cons.mp h0
    obtain ⟨t, ht, htgrow⟩ := hgrow a0 (by simp) b0 (by simp) hab
    have hloc : ∀ (s : Segment) segs, located (s :: segs) = locate s ++ located segs :=
      fun _ _ => rfl
    cases hC with
    | nil =>
      cases mem_singleton.mp ha
      cases mem_singleton.mp hb
      show locate b ++ [] = locate a ++ [] ++ _
      rw [append_nil, append_nil]
      exact locate_tail hab ht
    | @cons a1 b1 S0 C hab1 hC =>
      have hlt := ha0 a1 (by simp)
      have hle := htop a1 (by simp)
      -- an earlier segment is below the top, so it is as it was
      have hsame : b0 = a0 := by
        have hnil : t = [] := by
          by_contra hne
          have := htgrow hne
          omega
        subst hnil
        cases a0
        cases b0
        simp_all
      have ha' : a ∈ a1 :: S0 := by
        rcases mem_cons.mp ha with rfl | ha
        · omega
        · exact ha
      have hb' : b ∈ b1 :: C := by
        rcases mem_cons.mp hb with rfl | hb
        · omega
        · exact hb
      rw [hloc, hloc a0, hsame, append_assoc,
        ← ih hS0 (fun s hs => htop s (by simp [hs]))
          (fun s hs c hc => hgrow s (by simp [hs]) c (by simp [hc])) ha' hb']

end Scriva
