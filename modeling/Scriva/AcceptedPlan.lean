import Scriva.ReplayPlan
import Scriva.Lib.Traverse

namespace Scriva

open List Option

section Accepted

variable {H : Type} [DecidableEq H] {sha : List Line → H}

theorem planReplayFor_some {all : List Segment} {cov : List (SegmentCoverage H)} {n : Nat}
    {d : Decisions} {epoch : String} {plan : List (Segment × Nat)}
    (h : planReplayFor sha all true cov n d epoch = some plan) :
    ∃ st rest, CoverInv all cov st ∧ (∀ cv ∈ cov, coverageHolds sha all st.lastCovered d epoch cv) ∧
      uncoveredPlan st all = some rest ∧ plan = grownPlan st ++ rest := by
  unfold planReplayFor at h
  rw [if_neg (by simp), ite_none_left_eq_some] at h
  obtain ⟨st, hst, h⟩ := bind_eq_some_iff.mp h.2
  obtain ⟨hall, h⟩ := ite_none_right_eq_some.mp h
  obtain ⟨rest, hrest, h⟩ := bind_eq_some_iff.mp h
  cases h
  have hi := (coverInv_init all).run hst
  exact ⟨st, rest, by simpa using hi, by simpa using hall, hrest, rfl⟩

theorem coverageHolds_some {all : List Segment} {last : Option (Segment × Nat)} {d : Decisions}
    {epoch : String} {cv : SegmentCoverage H} {seg : Segment}
    (hseg : findSegment all cv.segment = some seg)
    (h : coverageHolds sha all last d epoch cv = true) :
    decisionsHold seg cv d epoch = true ∧
    (cv.size < seg.size → last.map (·.1.num) = some seg.num) ∧
    prefixChecksum sha seg cv.size = some cv.checksum := by
  unfold coverageHolds at h
  rw [hseg] at h
  simp only [Bool.and_eq_true, beq_iff_eq] at h
  obtain ⟨⟨hdec, hgrow⟩, hsum⟩ := h
  refine ⟨hdec, fun hlt => ?_, hsum⟩
  by_contra hne
  simp [hlt, hne] at hgrow

omit [DecidableEq H] in
theorem capture_prefix (hsha : Function.Injective sha) {a b : Segment} {d : Decisions}
    {epoch : String}
    (h : prefixChecksum sha b (captureCoverage sha a d epoch).size =
      some (captureCoverage sha a d epoch).checksum) : ∃ t, b.lines = a.lines ++ t := by
  obtain ⟨pre, hpre, heq⟩ := map_eq_some_iff.mp h
  obtain ⟨t, ht, -⟩ := linesUpTo_some hpre
  cases hsha heq
  exact ⟨t, ht⟩

variable {S0 S1 : List Segment} {d0 d1 : Decisions} {epoch0 epoch1 : String} {n : Nat}
  {plan : List (Segment × Nat)}

/-- A line of a covered segment that was not visible at the snapshot, where the segment holds an
applied transaction: the coverage test does not ask about it again. -/
def withheld (S0 : List Segment) (d0 : Decisions) (x : Located) : Bool :=
  S0.any fun s => decide (x ∈ locate s) && !(appliedTxids d0 s.lines).isEmpty && !x.visible d0

def kept (S0 : List Segment) (d0 d1 : Decisions) (x : Located) : Bool :=
  x.visible d1 && !withheld S0 d0 x

section Hash

variable (hsha : Function.Injective sha)
include hsha

theorem accepted_segment {st : CoverState}
    (hi : CoverInv S1 (snapshotCoverage sha S0 d0 epoch0) st)
    (hall : ∀ cv ∈ snapshotCoverage sha S0 d0 epoch0,
      coverageHolds sha S1 st.lastCovered d1 epoch1 cv = true) {a : Segment} (ha : a ∈ S0) :
    ∃ b ∈ S1, b.num = a.num ∧
      decisionsHold b (captureCoverage sha a d0 epoch0) d1 epoch1 = true ∧
      ∃ t, b.lines = a.lines ++ t ∧ (t ≠ [] → a.num = st.maxCovered) := by
  have hcv : captureCoverage sha a d0 epoch0 ∈ snapshotCoverage sha S0 d0 epoch0 :=
    capture_mem sha ha d0 epoch0
  obtain ⟨b, hb, -⟩ := hi.found _ hcv
  obtain ⟨hmem, hnum⟩ := findSegment_some hb
  obtain ⟨hdec, hgrow, hsum⟩ := coverageHolds_some hb (hall _ hcv)
  obtain ⟨t, ht⟩ := capture_prefix hsha hsum
  refine ⟨b, hmem, hnum, hdec, t, ht, fun hne => ?_⟩
  have hlt : a.size < b.size := by
    cases t with
    | nil => exact absurd rfl hne
    | cons l ls =>
      have := l.len_pos
      simp only [Segment.size, sizeOf, ht, map_append, sum_append, map_cons,
        sum_cons]
      omega
  rcases hi.last with ⟨hnil, -⟩ | ⟨cv, hcv', seg, hmax, hfind, hlast⟩
  · rw [hnil] at hcv
    cases hcv
  · have := hgrow hlt
    rw [hlast] at this
    have hseg : seg.num = b.num := by simpa using this
    have := (findSegment_some hfind).2
    have hna : b.num = a.num := hnum
    omega

theorem planReplayFor_located (h0 : Ascending S0)
    (h1 : Ascending S1)
    (hplan : planReplayFor sha S1 true (snapshotCoverage sha S0 d0 epoch0) n d1 epoch1 = some plan) :
    located S1 = located S0 ++ planned plan := by
  obtain ⟨st, rest, hi, hall, hrest, rfl⟩ := planReplayFor_some hplan
  obtain ⟨hnew, rfl⟩ := uncoveredPlan_some hrest
  have hcov : ∀ k, k ∈ st.covered ↔ ∃ a ∈ S0, a.num = k := by
    intro k
    rw [hi.covered]
    constructor
    · rintro ⟨cv, hcv, rfl⟩
      obtain ⟨a, ha, rfl⟩ := (mem_snapshotCoverage sha).mp hcv
      exact ⟨a, ha, rfl⟩
    · rintro ⟨a, ha, rfl⟩
      exact ⟨_, capture_mem sha ha d0 epoch0, rfl⟩
  have hmax : ∀ a ∈ S0, a.num ≤ st.maxCovered := fun a ha =>
    hi.le_max _ (capture_mem sha ha d0 epoch0)
  obtain ⟨C, U, rfl, hC, hU⟩ := ascending_align h0 h1
    (fun a ha => by
      obtain ⟨b, hb, hnum, -⟩ := accepted_segment hsha hi hall ha
      exact ⟨b, hb, hnum⟩)
    (fun b hb hnone a ha => by
      have := hnew b hb (fun hmem => by
        obtain ⟨a', ha', heq⟩ := (hcov _).mp hmem
        exact hnone a' ha' heq)
      have := hmax a ha
      omega)
  have hcovC : ∀ c ∈ C, c.num ∈ st.covered := by
    intro c hc
    obtain ⟨a, ha, hnum⟩ := Traverse.forall₂_mem hC hc
    exact (hcov _).mpr ⟨a, ha, hnum.symm⟩
  have hnotU : ∀ u ∈ U, u.num ∉ st.covered := by
    intro u hu hmem
    obtain ⟨a, ha, hnum⟩ := (hcov _).mp hmem
    have := hU u hu a ha
    omega
  have hfilter : (C ++ U).filter (fun s => s.num ∉ st.covered) = U := by
    rw [filter_append, filter_eq_nil_iff.mpr (by simpa using hcovC),
      filter_eq_self.mpr (by simpa using hnotU), nil_append]
  rw [hfilter, planned_append, planned_fresh, ← append_assoc, located_append]
  congr 1
  rcases hi.last with ⟨hnil, hst⟩ | ⟨cv, hcv, b, hmaxcv, hfind, hlast⟩
  · have hS0 : S0 = [] := by
      refine eq_nil_iff_forall_not_mem.mpr fun a ha => ?_
      have hmem := capture_mem sha ha d0 epoch0
      rw [hnil] at hmem
      cases hmem
    subst hS0 hst
    cases hC
    rfl
  · obtain ⟨a, ha, rfl⟩ := (mem_snapshotCoverage sha).mp hcv
    obtain ⟨hb, hnum⟩ := findSegment_some hfind
    have hbC : b ∈ C := by
      rcases mem_append.mp hb with hb | hb
      · exact hb
      · exact absurd ((hcov _).mpr ⟨a, ha, hnum.symm⟩) (hnotU b hb)
    rw [planned_grown hlast]
    refine located_grown h0 hC hmax (fun a' ha' b' hb' hnum' => ?_) ha hbC hmaxcv
      (hnum.trans hmaxcv)
    obtain ⟨b'', hb'', hnum'', -, ht⟩ := accepted_segment hsha hi hall ha'
    rw [ascending_inj h1 (mem_append_left U hb') hb'' (hnum'.trans hnum''.symm)]
    exact ht

theorem accepted_visible
    (hplan : planReplayFor sha S1 true (snapshotCoverage sha S0 d0 epoch0) n d1 epoch1 = some plan)
    {x : Located} (hx : x ∈ located S0) (hv : x.visible d1 = true) :
    x.visible d0 = true ∨ withheld S0 d0 x = true := by
  by_contra hno
  obtain ⟨hv0, hw⟩ := not_or.mp hno
  obtain ⟨st, rest, hi, hall, -, -⟩ := planReplayFor_some hplan
  obtain ⟨a, ha, hxa, -⟩ := located_seg hx
  obtain ⟨b, -, -, hdec, t, ht, -⟩ := accepted_segment hsha hi hall ha
  have hempty : (appliedTxids d0 a.lines).isEmpty = true := by
    by_contra hne
    exact hw (any_eq_true.mpr ⟨a, ha, by simp [hxa, hne, hv0]⟩)
  obtain ⟨p, hp, rfl⟩ := mem_map.mp hxa
  have hplain : p.2.isPlain = false := by
    by_contra hpl
    exact hv0 (LogLine.visible_of_isPlain (by simpa using hpl) d0)
  have hsome : d1.isSome = true := by
    cases d1 with
    | some f => rfl
    | none => exact absurd (LogLine.isPlain_of_visible_nil hv) (by simpa using hplain)
  have hcommitted : hasCommittedStamped b a.size d1 = true := by
    refine any_eq_true.mpr ⟨p, ?_, ?_⟩
    · rw [ht, withOffsets_append]
      exact mem_append_left _ hp
    · have hlt : p.1 < 0 + a.size := (mem_withOffsets hp).2.2
      have hv' : p.2.visible d1 = true := hv
      simp [hplain, hv']
      omega
  have hcap : (captureCoverage sha a d0 epoch0).xtxApplied = appliedTxids d0 a.lines := rfl
  have hcapsize : (captureCoverage sha a d0 epoch0).size = a.size := rfl
  simp [decisionsHold, hcap, hcapsize, hempty, hsome, hcommitted] at hdec

theorem kept_lines (h0 : Ascending S0) (h1 : Ascending S1)
    (hd : d1.Extends d0)
    (hplan : planReplayFor sha S1 true (snapshotCoverage sha S0 d0 epoch0) n d1 epoch1 = some plan) :
    (located S0).filter (·.visible d0) ++ (planned plan).filter (·.visible d1) =
      (located S1).filter (kept S0 d0 d1) := by
  have hloc := planReplayFor_located hsha h0 h1 hplan
  have hnodup : (located S0 ++ planned plan).Nodup := hloc ▸ (located_places_nodup h1).of_map
  rw [hloc, filter_append]
  congr 1
  · refine filter_congr fun x hx => ?_
    cases hv0 : x.visible d0 with
    | true =>
      have hv1 : x.visible d1 = true := LogLine.visible_extends hd hv0
      simp [kept, hv1, withheld, hv0]
    | false =>
      cases hv1 : x.visible d1 with
      | false => simp [kept, hv1]
      | true =>
        rcases accepted_visible hsha hplan hx hv1 with h | hw
        · rw [hv0] at h
          cases h
        · simp [kept, hw]
  · refine filter_congr fun x hx => ?_
    have hw : withheld S0 d0 x = false := by
      rw [Bool.eq_false_iff]
      intro hw
      obtain ⟨s, hs, hxs⟩ := any_eq_true.mp hw
      simp only [Bool.and_eq_true, decide_eq_true_eq] at hxs
      exact disjoint_of_nodup_append hnodup (mem_flatMap.mpr ⟨s, hs, hxs.1.1⟩) hx
    simp [kept, hw]

end Hash

end Accepted

end Scriva
