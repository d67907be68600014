import Scriva.StoreIds

namespace Scriva

open KeyedLog List Option

section

variable {x : Store} {s t : Collection} {ls : List Line} {chs : List Change}

structure LeftRun (s : Collection) (ls : List Line) (chs : List Change) (t : Collection) : Prop where
  carry : Carry ls chs
  sealed : t.sealed = s.sealed
  active : t.active = { s.active with lines := s.active.lines ++ ls }
  segSeq : t.segSeq = s.segSeq
  idSeq : t.idSeq = s.idSeq
  index : t.index = s.index
  get : ∀ u, t.decisions.get u = s.decisions.get u
  hidden : ∀ l ∈ ls, l.toLogLine.visible t.decisions = false

variable {d : Decisions} {l : LogLine} {saved : Option Nat} {kept : Nat}

theorem visible_of_get {d' : Decisions} (h : ∀ u, d'.get u = d.get u) (l : LogLine) :
    l.visible d' = l.visible d := by
  unfold LogLine.visible entryVisible
  cases l.tx with
  | none => rfl
  | some tx => simp only [h]

theorem undecided_of_get {d' : Decisions} (h : ∀ u, d'.get u = d.get u) (l : LogLine) :
    l.undecided d' = l.undecided d := by
  rw [undecided_eq, undecided_eq]
  cases l.tx with
  | none => rfl
  | some tx => simp only [elim_some, h]

theorem leaveRun_left {cfg : Config} {txid : String} {ops : List XTxOp} {r : Readings}
    (h : s.leaveRun cfg txid ops r = some t) (now : Int) :
    (ops.map XTxOp.id).Nodup ∧ ∃ ls chs, List.Forall₂ (XTxChange cfg s r) ops chs ∧
      LeftRun s ls chs { t with now := now } := by
  unfold Collection.leaveRun at h
  obtain ⟨hnodup, h⟩ := guard_bind.mp h
  obtain ⟨hnew, h⟩ := guard_bind.mp h
  obtain ⟨chs, hchs, h⟩ := bind_eq_some_iff.mp h
  obtain ⟨-, rfl⟩ := guard_some h
  have hget : ∀ u, Decisions.get (some (s.decisions.getD fun _ => none)) u = s.decisions.get u := by
    intro u
    cases hd : s.decisions <;> rfl
  refine ⟨of_decide_eq_true hnodup, _, chs, (Traverse.forall₂_of_mapM_some hchs).imp fun _ _ => xtxChange_spec,
    runLines_carry cfg (some txid) chs, rfl, rfl, rfl, rfl, rfl, hget, fun l hl => ?_⟩
  have htx := runLines_tx hl
  obtain ⟨tx, htx, ht⟩ := map_eq_some_iff.mp htx
  unfold Collection.newTxID at hnew
  simp only [Bool.and_eq_true, bne_iff_ne, ne_eq, beq_iff_eq] at hnew
  show LogLine.visible (some (s.decisions.getD fun _ => none)) l.toLogLine = false
  simp [LogLine.visible, entryVisible, htx, ht, hget, hnew.1.1, hnew.1.2]

theorem LeftRun.log (h : LeftRun s ls chs t) : t.log = s.log ++ ls.map Line.toLogLine := by
  simp [Collection.log, Collection.segments, logOf, h.sealed, h.active]

theorem LeftRun.records (h : LeftRun s ls chs t) :
    records t.decisions t.log = records s.decisions s.log := by
  have hnone : (ls.map Line.toLogLine).filter (·.visible t.decisions) = [] := by
    refine filter_eq_nil_iff.mpr fun l hl => ?_
    obtain ⟨a, ha, rfl⟩ := mem_map.mp hl
    simp [h.hidden a ha]
  rw [h.log, records_append, hnone]
  exact records_congr fun l _ => visible_of_get h.get l

theorem Tracks.numbered (ht : Tracks s)
    (hnums : t.segments.map Segment.num = s.segments.map Segment.num) (hseq : t.segSeq = s.segSeq) :
    Ascending t.segments ∧ ∀ g ∈ t.segments, g.num ≤ t.segSeq := by
  refine ⟨?_, fun g hg => ?_⟩
  · have hp := pairwise_map.mpr ht.ascending
    rw [← hnums] at hp
    exact pairwise_map.mp hp
  · have hmem := mem_map_of_mem (f := Segment.num) hg
    rw [hnums] at hmem
    obtain ⟨g', hg', heq⟩ := mem_map.mp hmem
    rw [← heq, hseq]
    exact ht.nums g' hg'

theorem LeftRun.tracks (h : LeftRun s ls chs t) (ht : Tracks s) : Tracks t := by
  have hnums : t.segments.map Segment.num = s.segments.map Segment.num := by
    simp [Collection.segments, h.sealed, h.active]
  obtain ⟨hasc, hle⟩ := ht.numbered hnums h.segSeq
  refine ⟨hasc, hle, fun id => ?_, fun id hid => ?_⟩
  · rw [h.index, h.records]
    exact ht.deadlines id
  · rw [h.index] at hid
    rw [h.idSeq]
    exact ht.bounded id hid

theorem IdInv.leftRun (hi : IdInv x) (hl : LeftRun x.col ls chs t)
    (hids : ∀ l ∈ ls, l.entry.id ≤ x.col.idSeq) (keep : Nat → Bool) :
    IdInv { x with col := t, reserved := x.reserved.filter keep } := by
  have hcount : ∀ l : LogLine, l.Counts t.decisions ↔ l.Counts x.col.decisions := by
    intro l
    unfold LogLine.Counts
    rw [visible_of_get hl.get, undecided_of_get hl.get]
  refine ⟨hl.tracks hi.tracks, fun id hid => ?_, fun l hmem hc => ?_, fun l hmem hv => ?_,
    fun n hn l hmem hc => ?_, fun n hn id hid => ?_, fun id hid => ?_⟩
  · exact hl.idSeq ▸ hi.used_le id hid
  · show l.id ≤ t.idSeq
    rw [hl.idSeq]
    rcases mem_extended hl.log hmem with hmem | ⟨a, ha, rfl⟩
    · exact hi.lines_le l hmem ((hcount l).mp hc)
    · exact hids a ha
  · rcases mem_extended hl.log hmem with hmem | ⟨a, ha, rfl⟩
    · exact hi.shown_used l hmem ((visible_of_get hl.get l).symm.trans hv)
    · have hv : a.toLogLine.visible t.decisions = true := hv
      rw [hl.hidden a ha] at hv
      cases hv
  · have hmem : l ∈ logOf t.sealed := hmem
    rw [hl.sealed] at hmem
    exact hi.sealed_saved n hn l hmem ((hcount l).mp hc)
  · rcases hi.used_saved n hn id hid with hle | ⟨l, hmem, hv, hlid⟩
    · exact Or.inl hle
    · refine Or.inr ⟨l, ?_, (visible_of_get hl.get _).trans hv, hlid⟩
      show l ∈ t.active.lines
      rw [hl.active]
      exact mem_append_left _ hmem
  · have hle := hi.reserved_le id (mem_filter.mp hid).1
    exact ⟨hl.idSeq ▸ hle.1, hle.2⟩

theorem le_maxID {ms : List LogLine} (h : l ∈ ms) : l.id ≤ maxID ms :=
  (le_foldl_max _ 0).2 l.id (mem_map_of_mem h)

theorem le_tailMaxID {segs : List Segment} {g : Segment} (hl : l ∈ g.scanned)
    (hv : l.visible d = true) : l.id ≤ tailMaxID d (segs ++ [g]) := by
  induction segs with
  | nil => exact le_maxID (mem_filter.mpr ⟨hl, hv⟩)
  | cons h segs ih =>
    have hany : ((segs ++ [g]).any fun g => g.scanned.any (·.visible d)) = true :=
      any_eq_true.mpr ⟨g, by simp, any_eq_true.mpr ⟨l, hl, hv⟩⟩
    rw [cons_append, tailMaxID, if_pos hany]
    exact ih

theorem le_restoredCounter {segs : List Segment} {g : Segment} (hg : g ∈ segs) (hl : l ∈ g.scanned)
    (hv : l.visible d = true) : l.id ≤ restoredCounter none d segs :=
  (le_maxID (mem_filter.mpr ⟨mem_flatMap.mpr ⟨g, hg, hl⟩, hv⟩)).trans (le_max_right _ _)

/-- If every line decodes, a scan reads the segment to its end. -/
theorem scanned_of_decodes (h : s.decodes = true) {g : Segment} (hg : g ∈ s.segments) :
    g.scanned = g.lines.map Line.toLogLine := by
  refine takeWhile_eq_self_iff.mpr fun l hl => ?_
  exact all_eq_true.mp h l (mem_flatMap.mpr ⟨g, hg, hl⟩)

/-- What an open finds: the sealed segments, the lines of the active one that are left and were not
cut off, and no line without a decision. -/
structure Recovered (s : Collection) (saved : Option Nat) (kept : Nat) (t : Collection) : Prop where
  sealed : t.sealed = s.sealed
  num : t.active.num = s.active.num
  segSeq : t.segSeq = s.segSeq
  lines : t.active.lines <+: s.active.lines.take kept
  keeps : ∀ l ∈ s.active.lines.take kept, l.toLogLine.visible t.decisions = true →
    l ∈ t.active.lines
  later : t.decisions.Extends s.decisions
  decided : ∀ l ∈ t.log, l.undecided t.decisions = false
  counter : t.idSeq = restoredCounter saved t.decisions t.segments
  index : t.index = Index.rebuild t.segments t.decisions

theorem recover_spec {committed : String → Bool} {now : Int}
    (ht : s.recover saved kept committed now = t)
    (hopen : ¬(t.decisions.isNone && t.log.any (!·.isPlain)) = true) :
    Recovered s saved kept t := by
  have hd : t.decisions = s.decisions.resolve
      (logOf (s.sealed ++ [{ s.active with lines := s.active.lines.take kept }])) committed := by
    rw [← ht]
    rfl
  have hactive : t.active.lines =
      trimTail t.decisions (logOf s.sealed) (s.active.lines.take kept) := by
    rw [← ht]
    rfl
  have hsealed : t.sealed = s.sealed := by
    rw [← ht]
    rfl
  have hlines : t.active.lines <+: s.active.lines.take kept := by
    rw [hactive]
    exact trimTail_front _ _ _
  refine ⟨hsealed, by rw [← ht]; rfl, by rw [← ht]; rfl, hlines, fun l hl hv => ?_, ?_,
    fun l hl => ?_, by rw [← ht]; rfl, by rw [← ht]; rfl⟩
  · rw [hactive]
    exact mem_trimTail hl hv
  · rw [hd]
    exact resolve_extends _ _ _
  · by_cases hnone : t.decisions = none
    · -- without a journal a stamped line stops the open
      have hplain : l.isPlain = true := by
        by_contra hp
        exact hopen (by simpa [hnone] using ⟨l, hl, by simpa using hp⟩)
      cases hu : l.undecided t.decisions with
      | false => rfl
      | true => simp [(LogLine.undecided_not_visible hu).2] at hplain
    · have hmem : l ∈ logOf (s.sealed ++
          [{ s.active with lines := s.active.lines.take kept }]) := by
        rw [logOf_append]
        rcases mem_log hl with hl | ⟨a, ha, rfl⟩
        · exact mem_append_left _ (hsealed ▸ hl)
        · refine mem_append_right _ (mem_flatMap.mpr ⟨_, mem_singleton_self _, ?_⟩)
          exact mem_map_of_mem (hlines.subset ha)
      rw [hd] at hnone ⊢
      exact resolve_decided (isSome_iff_ne_none.mpr hnone) hmem

theorem Recovered.counted (h : Recovered s saved kept t) (hl : l ∈ t.log)
    (hc : l.Counts t.decisions) : l.visible t.decisions = true ∧ l.Counts s.decisions := by
  have hv : l.visible t.decisions = true := by
    rcases hc with hv | hu
    · exact hv
    · rw [h.decided l hl] at hu
      cases hu
  exact ⟨hv, LogLine.visible_or_undecided h.later hv⟩

theorem Recovered.visible_le (h : Recovered s saved kept t) (hdec : t.decodes = true)
    (hsaved : ∀ n ∈ saved, ∀ l ∈ logOf s.sealed, l.Counts s.decisions → l.id ≤ n) (hl : l ∈ t.log)
    (hv : l.visible t.decisions = true) : l.id ≤ t.idSeq := by
  rw [h.counter]
  cases saved with
  | none =>
    obtain ⟨g, hg, hl⟩ := mem_flatMap.mp hl
    rw [← scanned_of_decodes hdec hg] at hl
    exact le_restoredCounter hg hl hv
  | some n =>
    rcases mem_log hl with hs | ⟨a, ha, rfl⟩
    · rw [h.sealed] at hs
      exact (hsaved n rfl l hs (h.counted hl (Or.inl hv)).2).trans (le_max_left _ _)
    · have ha : a.toLogLine ∈ t.active.scanned := by
        rw [scanned_of_decodes hdec (by simp [Collection.segments])]
        exact mem_map_of_mem ha
      exact (le_tailMaxID ha hv).trans (le_max_right _ _)

theorem Recovered.tracks (h : Recovered s saved kept t) (ht : Tracks s)
    (hle : ∀ l ∈ t.log, l.visible t.decisions = true → l.id ≤ t.idSeq) : Tracks t := by
  have hnums : t.segments.map Segment.num = s.segments.map Segment.num := by
    simp [Collection.segments, h.sealed, h.num]
  obtain ⟨hasc, hnums⟩ := ht.numbered hnums h.segSeq
  have hr : Tracks t.rebuilt := by
    refine rebuilt_tracks hasc hnums fun id hid => ?_
    obtain ⟨l, hl, hv, rfl⟩ := records_visible hid
    exact hle l hl hv
  have heq : { t.rebuilt with sidxs := t.sidxs } = t := by
    unfold Collection.rebuilt
    rw [← h.index]
  rw [← heq]
  exact hr.frame (le_refl _) t.sidxs t.now

/-- The ids used so far stay below the counter of the next process: no line above the saved counter
is lost, and without a saved one the highest id still shows. -/
def CrashSound (x : Store) (kept : Nat) : Prop :=
  match x.saved with
  | some n => ∀ l ∈ x.col.active.lines.drop kept, l.toLogLine.visible x.col.decisions = true →
      l.entry.id ≤ n
  | none => ∀ id ∈ x.used, ∃ l ∈ logOf x.col.sealed ++ (x.col.active.lines.take kept).map Line.toLogLine,
      l.visible x.col.decisions = true ∧ id ≤ l.id

theorem IdInv.used_recovered (hi : IdInv x) (h : Recovered x.col x.saved kept t)
    (hdec : t.decodes = true) (hs : CrashSound x kept) {id : Nat} (hid : id ∈ x.used) : id ≤ t.idSeq := by
  have hshown : ∀ l ∈ x.col.active.lines.take kept, l.toLogLine.visible x.col.decisions = true →
      l.toLogLine ∈ t.log ∧ l.toLogLine.visible t.decisions = true := by
    intro l hl hv
    have hv := LogLine.visible_extends h.later hv
    exact ⟨active_mem_log (h.keeps l hl hv), hv⟩
  have hle : ∀ l ∈ t.log, l.visible t.decisions = true → l.id ≤ t.idSeq :=
    fun l hl hv => h.visible_le hdec hi.sealed_saved hl hv
  unfold CrashSound at hs
  cases hsaved : x.saved with
  | none =>
    rw [hsaved] at hs
    obtain ⟨l, hl, hv, hid⟩ := hs id hid
    rcases mem_append.mp hl with hl | hl
    · rw [← h.sealed] at hl
      exact hid.trans (hle l (sealed_mem_log hl) (LogLine.visible_extends h.later hv))
    · obtain ⟨a, ha, rfl⟩ := mem_map.mp hl
      obtain ⟨hmem, hv⟩ := hshown a ha hv
      exact hid.trans (hle _ hmem hv)
  | some n =>
    rw [hsaved] at hs
    have hn : n ≤ t.idSeq := by
      rw [h.counter, hsaved]
      exact le_max_left _ _
    rcases hi.used_saved n hsaved id hid with hid | ⟨l, hl, hv, rfl⟩
    · exact hid.trans hn
    · rw [← take_append_drop kept x.col.active.lines] at hl
      rcases mem_append.mp hl with hl | hl
      · obtain ⟨hmem, hv⟩ := hshown l hl hv
        exact hle _ hmem hv
      · exact (hs l hl hv).trans hn

theorem IdInv.recovered (hi : IdInv x) (h : Recovered x.col x.saved kept t)
    (hdec : t.decodes = true) (hs : CrashSound x kept) :
    IdInv { x with col := t, reserved := []
                   used := x.used ++ (t.log.filter (·.visible t.decisions)).map LogLine.id } := by
  have hshown : ∀ l ∈ t.log, l.visible t.decisions = true → l.id ≤ t.idSeq :=
    fun l hl hv => h.visible_le hdec hi.sealed_saved hl hv
  have hsealed : ∀ n ∈ x.saved, ∀ l ∈ logOf t.sealed, l.Counts t.decisions → l.id ≤ n := by
    intro n hn l hl hc
    have hcount := (h.counted (sealed_mem_log hl) hc).2
    rw [h.sealed] at hl
    exact hi.sealed_saved n hn l hl hcount
  refine ⟨h.tracks hi.tracks hshown, fun id hid => ?_, fun l hl hc => ?_, fun l hl hv => ?_,
    hsealed, fun n hn id hid => ?_, by simp⟩
  · rcases mem_append.mp hid with hid | hid
    · exact hi.used_recovered h hdec hs hid
    · obtain ⟨l, hl, rfl⟩ := mem_map.mp hid
      exact hshown l (mem_filter.mp hl).1 (mem_filter.mp hl).2
  · exact hshown l hl (h.counted hl hc).1
  · exact mem_append_right _ (mem_map_of_mem (mem_filter.mpr ⟨hl, hv⟩))
  · rcases mem_append.mp hid with hid | hid
    · rcases hi.used_saved n hn id hid with hid | ⟨l, hl, hv, rfl⟩
      · exact Or.inl hid
      · rw [← take_append_drop kept x.col.active.lines] at hl
        rcases mem_append.mp hl with hl | hl
        · have hv := LogLine.visible_extends h.later hv
          exact Or.inr ⟨l, h.keeps l hl hv, hv, rfl⟩
        · unfold CrashSound at hs
          rw [hn] at hs
          exact Or.inl (hs l hl hv)
    · obtain ⟨l, hl, rfl⟩ := mem_map.mp hid
      obtain ⟨hl, hv⟩ := mem_filter.mp hl
      rcases mem_log hl with hl | ⟨a, ha, rfl⟩
      · exact Or.inl (hsealed n hn l hl (Or.inl hv))
      · exact Or.inr ⟨a, ha, hv, rfl⟩

end

end Scriva
