import Scriva.Index
import Mathlib.Data.List.Dedup

namespace Scriva

open List Option

/-- What a persisted index says about a segment it was built from. The segment's name stands
as its number. -/
structure SegmentCoverage (H : Type) where
  segment : Nat
  size : Nat
  checksum : H
  xtxApplied : List String
  xtxEpoch : String
deriving DecidableEq, Repr

def segmentName (n : Nat) : String :=
  String.ofList ("seg_".toList ++ Rfc3339.pad 6 n ++ ".ndjson".toList)

/-- The lines in the first `size` bytes; none when the cut falls inside a line, or the file is
shorter. -/
def linesUpTo (size : Nat) : List Line → Option (List Line)
  | [] => if size = 0 then some [] else none
  | l :: ls =>
    if size = 0 then some []
    else if l.len ≤ size then (linesUpTo (size - l.len) ls).map (l :: ·)
    else none

/-- The transactions whose lines are visible in a segment, each once, in text order. -/
def appliedTxids (d : Decisions) (ls : List Line) : List String :=
  (ls.filterMap fun l => l.tx.bind fun tx =>
    if tx.t ≠ "" ∧ entryVisible (some tx) d = true then some tx.t else none).dedup.insertionSort
      (· ≤ ·)

def hasCommittedStamped (s : Segment) (size : Nat) (d : Decisions) : Bool :=
  (withOffsets 0 s.lines).any fun p =>
    p.1 < size && !p.2.isPlain && p.2.visible d

section Checksum

-- SHA-256 of the file's first bytes; a digest of complete lines never equals one of a torn prefix
variable {H : Type} [DecidableEq H] (sha : List Line → H)

def prefixChecksum (s : Segment) (size : Nat) : Option H :=
  (linesUpTo size s.lines).map sha

def captureCoverage (s : Segment) (d : Decisions) (epoch : String) : SegmentCoverage H :=
  let txids := appliedTxids d s.lines
  { segment := s.num
    size := s.size
    checksum := sha s.lines
    xtxApplied := txids
    xtxEpoch := if txids.isEmpty then "" else epoch }

/-- The coverage `Snapshot` records next to the index entries. -/
def snapshotCoverage (segs : List Segment) (d : Decisions) (epoch : String) :
    List (SegmentCoverage H) :=
  (segs.map fun s => captureCoverage sha s d epoch).insertionSort
    fun a b => segmentName a.segment ≤ segmentName b.segment

/-- What the first loop over the coverage keeps: the numbers seen, the highest one, and the
segment it belongs to with its covered size. -/
structure CoverState where
  covered : List Nat
  maxCovered : Nat
  lastCovered : Option (Segment × Nat)

def CoverState.init : CoverState :=
  { covered := [], maxCovered := 0, lastCovered := none }

def coverStep (all : List Segment) (st : CoverState) (cv : SegmentCoverage H) :
    Option CoverState :=
  match findSegment all cv.segment with
  | none => none
  | some seg =>
    if cv.segment ∈ st.covered then none
    else if seg.size < cv.size then none
    else if st.maxCovered ≤ cv.segment then
      some { covered := cv.segment :: st.covered, maxCovered := cv.segment,
             lastCovered := some (seg, cv.size) }
    else some { st with covered := cv.segment :: st.covered }

/-- The transactions a covered prefix was built with are still committed, under the same
journal; a prefix built without any has none committed now. -/
def decisionsHold (seg : Segment) (cv : SegmentCoverage H) (d : Decisions) (epoch : String) :
    Bool :=
  if cv.xtxApplied.isEmpty then
    !(d.isSome && hasCommittedStamped seg cv.size d)
  else
    d.isSome && cv.xtxApplied.all (fun t => d.get t == some .commit || d.get t == some .retireCommit)
      && (epoch == "" || cv.xtxEpoch == "" || cv.xtxEpoch == epoch)

def coverageHolds (all : List Segment) (last : Option (Segment × Nat)) (d : Decisions)
    (epoch : String) (cv : SegmentCoverage H) : Bool :=
  match findSegment all cv.segment with
  | none => false
  | some seg =>
    decisionsHold seg cv d epoch
      && !(cv.size < seg.size && last.map (·.1.num) != some seg.num)
      && prefixChecksum sha seg cv.size == some cv.checksum

/-- The uncovered segments, each from its start; none when one is older than a covered one. -/
def uncoveredPlan (st : CoverState) : List Segment → Option (List (Segment × Nat))
  | [] => some []
  | s :: segs =>
    if s.num ∈ st.covered then uncoveredPlan st segs
    else if s.num ≤ st.maxCovered then none
    else (uncoveredPlan st segs).map fun plan => if 0 < s.size then (s, 0) :: plan else plan

def grownPlan (st : CoverState) : List (Segment × Nat) :=
  match st.lastCovered with
  | some (seg, size) => if size < seg.size then [(seg, size)] else []
  | none => []

def planReplayFor (all : List Segment) (known : Bool) (cov : List (SegmentCoverage H))
    (nEntries : Nat) (d : Decisions) (epoch : String) : Option (List (Segment × Nat)) :=
  if !known then none
  else if cov.isEmpty && 0 < nEntries then none
  else do
    let st ← cov.foldlM (coverStep all) .init
    if cov.all (coverageHolds sha all st.lastCovered d epoch) then
      let rest ← uncoveredPlan st all
      return grownPlan st ++ rest
    else none

variable {segs : List Segment} {st : CoverState}

omit [DecidableEq H] in
theorem mem_snapshotCoverage {d : Decisions} {epoch : String} {cv : SegmentCoverage H} :
    cv ∈ snapshotCoverage sha segs d epoch ↔ ∃ s ∈ segs, captureCoverage sha s d epoch = cv := by
  simp [snapshotCoverage]

omit [DecidableEq H] in
theorem capture_mem {s : Segment} (hs : s ∈ segs) (d : Decisions) (epoch : String) :
    captureCoverage sha s d epoch ∈ snapshotCoverage sha segs d epoch :=
  (mem_snapshotCoverage sha).mpr ⟨s, hs, rfl⟩

structure CoverInv (all : List Segment) (seen : List (SegmentCoverage H)) (st : CoverState) :
    Prop where
  covered : ∀ n, n ∈ st.covered ↔ ∃ cv ∈ seen, cv.segment = n
  found : ∀ cv ∈ seen, ∃ seg, findSegment all cv.segment = some seg ∧ cv.size ≤ seg.size
  le_max : ∀ cv ∈ seen, cv.segment ≤ st.maxCovered
  last : (seen = [] ∧ st = .init) ∨ ∃ cv ∈ seen, ∃ seg, cv.segment = st.maxCovered ∧
    findSegment all cv.segment = some seg ∧ st.lastCovered = some (seg, cv.size)

omit [DecidableEq H] in
theorem CoverInv.step {all : List Segment} {seen : List (SegmentCoverage H)} {st' : CoverState}
    {cv : SegmentCoverage H} (hi : CoverInv all seen st) (h : coverStep all st cv = some st') :
    CoverInv all (seen ++ [cv]) st' := by
  unfold coverStep at h
  split at h
  · cases h
  · next seg hseg =>
    have hcovered : ∀ n, n ∈ cv.segment :: st.covered ↔ ∃ c ∈ seen ++ [cv], c.segment = n := by
      intro n
      simp only [mem_cons, hi.covered, mem_append, not_mem_nil, or_false]
      grind
    have hfound : cv.size ≤ seg.size → ∀ c ∈ seen ++ [cv],
        ∃ seg, findSegment all c.segment = some seg ∧ c.size ≤ seg.size := by
      intro hsize c hc
      rcases mem_append.mp hc with hc | hc
      · exact hi.found c hc
      · cases mem_singleton.mp hc
        exact ⟨seg, hseg, hsize⟩
    split_ifs at h with hrep hsize hmax
    · cases h
      refine ⟨hcovered, hfound (Nat.not_lt.mp hsize), fun c hc => ?_, Or.inr ?_⟩
      · rcases mem_append.mp hc with hc | hc
        · exact (hi.le_max c hc).trans hmax
        · cases mem_singleton.mp hc
          exact le_refl _
      · exact ⟨cv, by simp, seg, rfl, hseg, rfl⟩
    · cases h
      refine ⟨hcovered, hfound (Nat.not_lt.mp hsize), fun c hc => ?_, Or.inr ?_⟩
      · rcases mem_append.mp hc with hc | hc
        · exact hi.le_max c hc
        · cases mem_singleton.mp hc
          simp only
          omega
      · rcases hi.last with ⟨-, rfl⟩ | ⟨c, hc, seg', h1, h2, h3⟩
        · simp [CoverState.init] at hmax
        · exact ⟨c, by simp [hc], seg', h1, h2, h3⟩

omit [DecidableEq H] in
theorem CoverInv.run {all : List Segment} {seen cov : List (SegmentCoverage H)} {st' : CoverState}
    (hi : CoverInv all seen st) (h : cov.foldlM (coverStep all) st = some st') :
    CoverInv all (seen ++ cov) st' := by
  induction cov generalizing seen st with
  | nil =>
    cases h
    simpa using hi
  | cons cv cov ih =>
    obtain ⟨st₁, h₁, h₂⟩ := bind_eq_some_iff.mp h
    simpa using ih (hi.step h₁) h₂

omit [DecidableEq H] in
theorem coverInv_init (all : List Segment) :
    CoverInv all ([] : List (SegmentCoverage H)) .init :=
  ⟨by simp [CoverState.init], by simp, by simp, Or.inl ⟨rfl, rfl⟩⟩

theorem linesUpTo_some {size : Nat} {ls pre : List Line} (h : linesUpTo size ls = some pre) :
    ∃ post, ls = pre ++ post ∧ sizeOf pre = size := by
  induction ls generalizing size pre with
  | nil =>
    simp only [linesUpTo, ite_none_right_eq_some, Option.some.injEq] at h
    exact ⟨[], by simp [← h.2], by simp [← h.2, sizeOf, h.1]⟩
  | cons l ls ih =>
    simp only [linesUpTo] at h
    split_ifs at h with h0 hl
    · cases h
      exact ⟨l :: ls, rfl, by simp [sizeOf, h0]⟩
    · obtain ⟨pre', hpre, rfl⟩ := map_eq_some_iff.mp h
      obtain ⟨post, rfl, hsize⟩ := ih hpre
      refine ⟨post, rfl, ?_⟩
      simp only [sizeOf, map_cons, sum_cons] at hsize ⊢
      omega

theorem uncoveredPlan_some {plan : List (Segment × Nat)} (h : uncoveredPlan st segs = some plan) :
    (∀ s ∈ segs, s.num ∉ st.covered → st.maxCovered < s.num) ∧
    plan = ((segs.filter fun s => s.num ∉ st.covered).filter fun s => 0 < s.size).map
      fun s => (s, 0) := by
  induction segs generalizing plan with
  | nil =>
    cases h
    exact ⟨by simp, rfl⟩
  | cons s segs ih =>
    rw [uncoveredPlan] at h
    by_cases hc : s.num ∈ st.covered
    · rw [if_pos hc] at h
      obtain ⟨hlt, hplan⟩ := ih h
      refine ⟨fun s' hs' hn => ?_, by simp [hc, hplan]⟩
      rcases mem_cons.mp hs' with rfl | hs'
      · exact absurd hc hn
      · exact hlt s' hs' hn
    · rw [if_neg hc, ite_none_left_eq_some] at h
      obtain ⟨hm, h⟩ := h
      obtain ⟨plan', hplan', rfl⟩ := map_eq_some_iff.mp h
      obtain ⟨hlt, rfl⟩ := ih hplan'
      refine ⟨fun s' hs' hn => ?_, ?_⟩
      · rcases mem_cons.mp hs' with rfl | hs'
        · omega
        · exact hlt s' hs' hn
      · by_cases hsize : 0 < s.size <;> simp [hc, hsize]

end Checksum

end Scriva
