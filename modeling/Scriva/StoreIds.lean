import Scriva.Store
import Scriva.KeptLines

namespace Scriva

open KeyedLog List

def LogLine.Counts (d : Decisions) (l : LogLine) : Prop :=
  l.visible d = true ∨ l.undecided d = true

/-- Every id of the log that counts is at most the counter, and at most the saved counter unless
its line is in the active segment. -/
structure IdInv (x : Store) : Prop where
  tracks : Tracks x.col
  used_le : ∀ id ∈ x.used, id ≤ x.col.idSeq
  lines_le : ∀ l ∈ x.col.log, l.Counts x.col.decisions → l.id ≤ x.col.idSeq
  shown_used : ∀ l ∈ x.col.log, l.visible x.col.decisions = true → l.id ∈ x.used
  sealed_saved : ∀ n ∈ x.saved, ∀ l ∈ logOf x.col.sealed, l.Counts x.col.decisions → l.id ≤ n
  used_saved : ∀ n ∈ x.saved, ∀ id ∈ x.used, id ≤ n ∨
    ∃ l ∈ x.col.active.lines, l.toLogLine.visible x.col.decisions = true ∧ l.entry.id = id
  reserved_le : ∀ id ∈ x.reserved, id ≤ x.col.idSeq ∧ id ∉ x.used

section

variable {x : Store} {s t : Collection} {ls : List Line} {chs : List Change}

theorem Decides.counts (h : Decides s t) {l : LogLine} (hl : l ∈ s.log) :
    l.Counts t.decisions ↔ l.Counts s.decisions := by
  unfold LogLine.Counts
  rw [h.visible hl, h.undecided hl]

theorem sealed_mem_log {l : LogLine} (h : l ∈ logOf s.sealed) : l ∈ s.log := by
  rw [Collection.log, Collection.segments, logOf_append]
  exact mem_append_left _ h

theorem active_mem_log {l : Line} (h : l ∈ s.active.lines) : l.toLogLine ∈ s.log := by
  rw [Collection.log, Collection.segments, logOf_append]
  refine mem_append_right _ (mem_flatMap.mpr ⟨s.active, by simp, ?_⟩)
  exact mem_map_of_mem h

theorem mem_log {l : LogLine} (h : l ∈ s.log) :
    l ∈ logOf s.sealed ∨ ∃ a ∈ s.active.lines, a.toLogLine = l := by
  rw [Collection.log, Collection.segments, logOf_append] at h
  rcases mem_append.mp h with h | h
  · exact Or.inl h
  · obtain ⟨g, hg, hl⟩ := mem_flatMap.mp h
    cases mem_singleton.mp hg
    obtain ⟨a, ha, rfl⟩ := mem_map.mp hl
    exact Or.inr ⟨a, ha, rfl⟩

/-- A line of a log that has been extended is an old one or one of those written. -/
theorem mem_extended {l : LogLine} (hlog : t.log = s.log ++ ls.map Line.toLogLine) (h : l ∈ t.log) :
    l ∈ s.log ∨ ∃ a ∈ ls, a.toLogLine = l := by
  rw [hlog] at h
  exact (mem_append.mp h).imp_right mem_map.mp

/-- The ids that a write does not use stay reserved. -/
theorem reserved_left {n : Nat} (h : ∀ id ∈ x.reserved, id ≤ n ∧ id ∉ x.used) {n' : Nat}
    (hn : n ≤ n') {ids : List Nat} :
    ∀ id ∈ x.reserved.filter (!ids.contains ·), id ≤ n' ∧ id ∉ x.used ++ ids := by
  intro id hid
  obtain ⟨hid, hnot⟩ := mem_filter.mp hid
  obtain ⟨hle, hun⟩ := h id hid
  refine ⟨hle.trans hn, fun hin => ?_⟩
  rcases mem_append.mp hin with hin | hin
  · exact hun hin
  · simp [hin] at hnot

theorem indexed_visible (h : Tracks s) {id : Nat} (hid : (s.index id).isSome = true) :
    ∃ l ∈ s.log, l.visible s.decisions = true ∧ l.id = id :=
  records_visible ((h.present id).symm.trans hid)

theorem Carry.ids (h : Carry ls chs) :
    ls.map (fun l => l.entry.id) = (chs.map Change.entry).map Entry.id := by
  induction h with
  | nil => rfl
  | @cons l ch ls chs hl _ ih =>
    rw [map_cons, ih, hl]
    rfl

theorem Carry.id_le (hc : Carry ls chs) {n : Nat} (h : ∀ ch ∈ chs, ch.entry.id ≤ n) :
    ∀ l ∈ ls, l.entry.id ≤ n := by
  intro l hl
  have hmem := mem_map_of_mem (f := fun l : Line => l.entry.id) hl
  rw [hc.ids, map_map] at hmem
  obtain ⟨ch, hch, heq⟩ := mem_map.mp hmem
  exact heq.symm.trans_le (h ch hch)

theorem Carry.insertIDs (h : Carry ls chs) :
    insertIDs ls = insertedIDs (chs.map Change.entry) := by
  induction h with
  | nil => rfl
  | @cons l ch ls chs hl _ ih =>
    unfold Scriva.insertIDs insertedIDs at ih ⊢
    cases hop : ch.entry.op <;> simp [hl, Entry.persisted, hop, ih]

theorem Appended.newLines (h : Appended s ls chs t) : newLines s t = ls := by
  simp [Scriva.newLines, h.active]

theorem IdInv.appended (hi : IdInv x) (ha : Appended x.col ls chs t)
    (hids : ∀ ch ∈ chs, ch.entry.id ≤ t.idSeq) :
    IdInv { x with col := t
                   reserved := x.reserved.filter (!(ls.map fun l => l.entry.id).contains ·)
                   used := x.used ++ ls.map fun l => l.entry.id } := by
  have hnew : ∀ l ∈ ls, l.entry.id ≤ t.idSeq := ha.carry.id_le hids
  have hmem : ∀ l ∈ ls, l.entry.id ∈ x.used ++ ls.map fun l => l.entry.id :=
    fun l hl => mem_append_right _ (mem_map_of_mem hl)
  refine ⟨(ha.wrote.tracks hi.tracks ⟨ha.counter, fun _ => hids⟩).frame (le_refl _) t.sidxs t.now,
    fun id hid => ?_, fun l hl hc => ?_, fun l hl hv => ?_, fun n hn l hl hc => ?_,
    fun n hn id hid => ?_, reserved_left hi.reserved_le ha.counter⟩
  · rcases mem_append.mp hid with hid | hid
    · exact (hi.used_le id hid).trans ha.counter
    · obtain ⟨l, hl, rfl⟩ := mem_map.mp hid
      exact hnew l hl
  · rcases mem_extended ha.log hl with hl | ⟨a, ha, rfl⟩
    · exact (hi.lines_le l hl ((ha.decides.counts hl).mp hc)).trans ha.counter
    · exact hnew a ha
  · rcases mem_extended ha.log hl with hl | ⟨a, ha, rfl⟩
    · exact mem_append_left _ (hi.shown_used l hl ((ha.decides.visible hl).symm.trans hv))
    · exact hmem a ha
  · have hl : l ∈ logOf t.sealed := hl
    rw [ha.sealed] at hl
    exact hi.sealed_saved n hn l hl ((ha.decides.counts (sealed_mem_log hl)).mp hc)
  · have hlines : t.active.lines = x.col.active.lines ++ ls := by rw [ha.active]
    rcases mem_append.mp hid with hid | hid
    · rcases hi.used_saved n hn id hid with hle | ⟨l, hl, hv, hlid⟩
      · exact Or.inl hle
      · refine Or.inr ⟨l, ?_, (ha.decides.visible (active_mem_log hl)).trans hv, hlid⟩
        show l ∈ t.active.lines
        rw [hlines]
        exact mem_append_left _ hl
    · obtain ⟨l, hl, rfl⟩ := mem_map.mp hid
      refine Or.inr ⟨l, ?_, ha.visible l hl, rfl⟩
      show l ∈ t.active.lines
      rw [hlines]
      exact mem_append_right _ hl

theorem newLines_self (h : t.active = s.active) : newLines s t = [] := by
  simp [newLines, h]

section Compact

variable {cfg : Config} {k : Nat} {at_ : Int}

theorem compact_newLines (h : s.compact cfg k at_ = some t) : newLines s t = [] := by
  obtain ⟨segs, -, rfl, -⟩ := compact_spec h
  exact newLines_self rfl

theorem compact_lines (h : s.compact cfg k at_ = some t) :
    ∀ l ∈ t.log, ∃ p ∈ s.log, p.id = l.id ∧ p.entry.op = l.entry.op ∧ p.entry.rev = l.entry.rev ∧
      (l.Counts s.decisions → p.Counts s.decisions) ∧
      (l.visible s.decisions = true → p.visible s.decisions = true) := by
  obtain ⟨segs, hsegs, -, hlog⟩ := compact_spec h
  intro l hl
  rw [hlog] at hl
  rw [log_split s k]
  rcases mem_append.mp hl with hl | hl
  · obtain ⟨p, hp, hid, hop, hrev, hcount, hvis⟩ := mem_compactSegments hsegs hl
    exact ⟨p, mem_append_left _ hp, hid, hop, hrev, fun _ => hcount, hvis⟩
  · exact ⟨l, mem_append_right _ hl, rfl, rfl, rfl, id, id⟩

theorem IdInv.compact (hi : IdInv x) (h : x.col.compact cfg k at_ = some t) :
    IdInv { x with col := t } := by
  have htracks := hi.tracks.compact h
  have hlog := compact_lines h
  obtain ⟨segs, hsegs, rfl, -⟩ := compact_spec h
  refine ⟨htracks, hi.used_le, fun l hl hc => ?_, fun l hl hv => ?_, fun n hn l hl hc => ?_,
    hi.used_saved, hi.reserved_le⟩
  · obtain ⟨p, hp, hid, -, -, hcount, -⟩ := hlog l hl
    exact hid ▸ hi.lines_le p hp (hcount hc)
  · obtain ⟨p, hp, hid, -, -, -, hvis⟩ := hlog l hl
    exact hid ▸ hi.shown_used p hp (hvis hv)
  · have hsaved := hi.sealed_saved n hn
    rw [← take_append_drop k x.col.sealed, logOf_append] at hsaved
    have hl : l ∈ logOf (segs ++ x.col.sealed.drop k) := hl
    rw [logOf_append] at hl
    rcases mem_append.mp hl with hl | hl
    · obtain ⟨p, hp, hid, -, -, hcount, -⟩ := mem_compactSegments hsegs hl
      exact hid ▸ hsaved p (mem_append_left _ hp) hcount
    · exact hsaved l (mem_append_right _ hl) hc

end Compact

end

end Scriva
