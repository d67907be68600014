import Scriva.BatchSpecs
import Scriva.CompactRecords

namespace Scriva

open KeyedLog List Option Function

def IndexEntry.stat (e : IndexEntry) : Nat × Int × Nat :=
  (e.rev, e.expiresAt, e.epoch)

def Record.stat (r : Record) : Nat × Int × Nat :=
  (r.rev, r.expiresAt, r.epoch)

def statAct (l : LogLine) (old : Option (Nat × Int × Nat)) : Option (Nat × Int × Nat) :=
  if l.entry.op = .delete then none
  else some (nextRev (old.elim 0 Prod.fst) l.entry, l.entry.expiresAt, l.entry.epoch)

theorem rebuild_stat {segs : List Segment} (h : Ascending segs) (d : Decisions) (id : Nat) :
    (Index.rebuild segs d id).map IndexEntry.stat = (records d (logOf segs) id).map Record.stat := by
  have hrec : (records d (logOf segs) id).bind (fun r => some r.stat) =
      replay LogLine.id statAct (fun _ => none) ((logOf segs).filter (·.visible d)) id := by
    refine replay_bind (fun l _ v => ?_) _ id
    unfold Record.act statAct
    cases v <;> cases hop : l.entry.op <;> simp [Record.stat, nextRev]
  have hidx : (Index.rebuild segs d id).bind (fun e => some e.stat) =
      replay Located.id (fun x => statAct x.line) (fun _ => none)
        ((located segs).filter (·.visible d)) id := by
    rw [rebuild_eq h]
    refine replay_bind (fun x _ v => ?_) _ id
    unfold IndexEntry.act statAct
    cases v <;> cases hop : x.line.entry.op <;> simp [IndexEntry.stat, nextRev]
  rw [← visible_located, replay_map_actions] at hrec
  rw [Option.map_eq_bind, Option.map_eq_bind]
  exact hidx.trans hrec.symm

theorem rebuild_deadline {segs : List Segment} (h : Ascending segs) (d : Decisions) (id : Nat) :
    (Index.rebuild segs d id).map IndexEntry.expiresAt =
      (records d (logOf segs) id).map Record.expiresAt := by
  have hstat := congrArg (Option.map fun t : Nat × Int × Nat => t.2.1) (rebuild_stat h d id)
  rw [Option.map_map, Option.map_map] at hstat
  exact hstat

/-- The segments are in order, the counters ahead of them, and the index in memory has the records
of the log with their deadlines. -/
structure Tracks (s : Collection) : Prop where
  ascending : Ascending s.segments
  nums : ∀ g ∈ s.segments, g.num ≤ s.segSeq
  deadlines : ∀ id, (s.index id).map IndexEntry.expiresAt =
    (records s.decisions s.log id).map Record.expiresAt
  bounded : Bounded s

theorem Tracks.present {s : Collection} (h : Tracks s) (id : Nat) :
    (s.index id).isSome = (records s.decisions s.log id).isSome := by
  have := congrArg Option.isSome (h.deadlines id)
  simpa using this

section Wrote

variable {s s' : Collection} {ls : List Line} {chs : List Change}

theorem Wrote.segments (h : Wrote s ls chs s') :
    s'.segments = s.sealed ++ [{ s.active with lines := s.active.lines ++ ls }] := by
  rw [Collection.segments, h.sealed, h.active]

theorem Wrote.ascending (h : Wrote s ls chs s') (ha : Ascending s.segments) :
    Ascending s'.segments := by
  obtain ⟨hsealed, -, hlt⟩ := pairwise_append.mp ha
  rw [h.segments]
  refine pairwise_append.mpr ⟨hsealed, pairwise_singleton _ _, fun a ha b hb => ?_⟩
  cases mem_singleton.mp hb
  exact hlt a ha s.active (by simp)

theorem Wrote.nums (h : Wrote s ls chs s') (hn : ∀ g ∈ s.segments, g.num ≤ s.segSeq) :
    ∀ g ∈ s'.segments, g.num ≤ s'.segSeq := by
  intro g hg
  rw [h.segments] at hg
  rw [h.segSeq]
  rcases mem_append.mp hg with hg | hg
  · exact hn g (mem_append_left _ hg)
  · cases mem_singleton.mp hg
    exact hn s.active (mem_append_right _ (by simp))

theorem Wrote.records (h : Wrote s ls chs s') :
    records s'.decisions s'.log =
      replay LogLine.id (fun l => Record.act l.entry) (records s.decisions s.log)
        (ls.map Line.toLogLine) := by
  have hall : (ls.map Line.toLogLine).filter (·.visible s'.decisions) = ls.map Line.toLogLine := by
    refine filter_eq_self.mpr fun l hl => ?_
    obtain ⟨line, hline, rfl⟩ := mem_map.mp hl
    exact h.visible line hline
  rw [h.log, records_append, hall, records_congr h.before]

theorem put_eq (m : Index) (seg off : Nat) (e : Entry) :
    m.put seg off e = Function.update m e.id (if e.op = .delete then none else
      some { seg := seg, offset := off, rev := e.rev, expiresAt := e.expiresAt,
             epoch := e.epoch }) := by
  unfold Index.put
  cases e.op <;> rfl

/-- What the line of a change does to the records. -/
theorem apply_stored (R : Records) {l : Line} {ch : Change} (hl : l.entry = ch.entry.persisted) :
    apply LogLine.id (fun l => Record.act l.entry) R l.toLogLine =
      Function.update R ch.entry.id (Record.act ch.entry.persisted (R ch.entry.id)) := by
  have hid : l.toLogLine.id = ch.entry.id := by rw [LogLine.id, hl]; rfl
  funext id
  rw [apply, hid, hl]
  by_cases hk : id = ch.entry.id
  · subst hk
    simp
  · simp [hk, Ne.symm hk]

theorem put_deadline {m : Index} {R : Records}
    (h : ∀ id, (m id).map IndexEntry.expiresAt = (R id).map Record.expiresAt) (num off : Nat)
    {l : Line} {ch : Change} (hl : l.entry = ch.entry.persisted) (id : Nat) :
    (m.put num off ch.entry id).map IndexEntry.expiresAt =
      (apply LogLine.id (fun l => Record.act l.entry) R l.toLogLine id).map Record.expiresAt := by
  rw [put_eq, apply_stored R hl]
  by_cases hk : id = ch.entry.id
  · subst hk
    cases hop : ch.entry.op <;> simp [Record.act, Entry.persisted, hop]
  · rw [update_of_ne hk, update_of_ne hk, h id]

theorem putRun_deadline (hc : Carry ls chs) {m : Index} {R : Records}
    (h : ∀ id, (m id).map IndexEntry.expiresAt = (R id).map Record.expiresAt) (num off : Nat)
    (id : Nat) :
    (m.putRun num off ls chs id).map IndexEntry.expiresAt =
      (replay LogLine.id (fun l => Record.act l.entry) R (ls.map Line.toLogLine) id).map
        Record.expiresAt := by
  induction hc generalizing m R off with
  | nil => exact h id
  | cons hl _ ih =>
    rw [putRun_cons, map_cons, KeyedLog.replay_cons]
    exact ih (fun id => put_deadline h num off hl id) _

theorem putRun_present (hc : Carry ls chs) {m : Index} (num off : Nat) {id : Nat}
    (h : (m.putRun num off ls chs id).isSome = true) :
    (m id).isSome = true ∨ ∃ ch ∈ chs, ch.entry.id = id := by
  induction hc generalizing m off with
  | nil => exact Or.inl h
  | @cons l ch ls chs _ _ ih =>
    rw [putRun_cons] at h
    rcases ih _ h with h | ⟨ch', hch', hid⟩
    · by_cases hk : ch.entry.id = id
      · exact Or.inr ⟨ch, by simp, hk⟩
      · refine Or.inl ?_
        rwa [put_eq, update_of_ne (Ne.symm hk)] at h
    · exact Or.inr ⟨ch', by simp [hch'], hid⟩

theorem Wrote.tracks (h : Wrote s ls chs s') (ht : Tracks s) (hc : Counts s chs s') : Tracks s' := by
  refine ⟨h.ascending ht.ascending, h.nums ht.nums, fun id => ?_, fun id hid => ?_⟩
  · rw [h.index, h.records]
    exact putRun_deadline h.carry ht.deadlines _ _ id
  · rw [h.index] at hid
    rcases putRun_present h.carry _ _ hid with hid | ⟨ch, hch, rfl⟩
    · exact (ht.bounded id hid).trans hc.1
    · exact hc.2 ht.bounded ch hch

end Wrote

section Batch

variable {cfg : Config} {s s' : Collection} {ls : List Line}

def InsertsNew (present : Nat → Bool) : List TxOp → Prop
  | [] => True
  | op :: ops => (op.kind = .insert → present op.id = false) ∧
      InsertsNew (Function.update present op.id (op.kind != .delete)) ops

instance decidableInsertsNew : ∀ present ops, Decidable (InsertsNew present ops)
  | _, [] => inferInstanceAs (Decidable True)
  | present, op :: ops =>
    have := decidableInsertsNew (Function.update present op.id (op.kind != .delete)) ops
    inferInstanceAs (Decidable (_ ∧ InsertsNew _ ops))

def indexed (s : Collection) (id : Nat) : Bool :=
  (s.index id).isSome

/-- The inserts of a batch name ids that are free on its route; a legacy batch, which leaves the
counter alone, inserts ids that the counter has handed out. -/
def Collection.InsertsUnused (s : Collection) (ops : List TxOp) : Prop :=
  if s.routeAtomic ops.length then ∀ op ∈ ops, op.kind = .insert → s.index op.id = none
  else InsertsNew (indexed s) ops ∧ ∀ op ∈ ops, op.kind = .insert → op.id ≤ s.idSeq

instance (s : Collection) (ops : List TxOp) : Decidable (s.InsertsUnused ops) :=
  inferInstanceAs (Decidable (if s.routeAtomic ops.length then _ else _))

theorem keepKeyOf_kind (s : Collection) (op : TxOp) :
    (s.keepKeyOf op).kind = op.kind ∧ (s.keepKeyOf op).id = op.id := by
  unfold Collection.keepKeyOf
  split <;> exact ⟨rfl, rfl⟩

variable {present : Nat → Bool} {ops : List TxOp} {chs : List Change}

theorem insertsNew_keepKey (s : Collection) (h : InsertsNew present ops) :
    InsertsNew present (ops.map s.keepKeyOf) := by
  induction ops generalizing present with
  | nil => trivial
  | cons op ops ih =>
    obtain ⟨hkind, hid⟩ := keepKeyOf_kind s op
    refine ⟨?_, ?_⟩
    · rw [hkind, hid]
      exact h.1
    · rw [hkind, hid]
      exact ih h.2

theorem insertsNew_of_nodup (hn : (ops.map TxOp.id).Nodup) (h : ∀ op ∈ ops, present op.id = false) :
    InsertsNew present ops := by
  induction ops generalizing present with
  | nil => trivial
  | cons op ops ih =>
    obtain ⟨hnot, hn⟩ := nodup_cons.mp hn
    refine ⟨fun _ => h op (by simp), ih hn fun o ho => ?_⟩
    have hne : o.id ≠ op.id := fun heq => hnot (heq ▸ mem_map_of_mem ho)
    rw [update_of_ne hne]
    exact h o (by simp [ho])

def AddsNew (present : Nat → Bool) : List Change → Prop
  | [] => True
  | ch :: chs => (ch.entry.op ≠ .delete → ch.fresh = true → present ch.entry.id = false) ∧
      AddsNew (Function.update present ch.entry.id (ch.entry.op != .delete)) chs

instance decidableAddsNew : ∀ present chs, Decidable (AddsNew present chs)
  | _, [] => inferInstanceAs (Decidable True)
  | present, ch :: chs =>
    have := decidableAddsNew
      (Function.update present ch.entry.id (ch.entry.op != .delete)) chs
    inferInstanceAs (Decidable (_ ∧ AddsNew _ chs))

theorem addsNew_of_nodup (hn : ((chs.map Change.entry).map Entry.id).Nodup)
    (h : ∀ ch ∈ chs, ch.entry.op ≠ .delete → ch.fresh = true → present ch.entry.id = false) :
    AddsNew present chs := by
  induction chs generalizing present with
  | nil => trivial
  | cons ch chs ih =>
    obtain ⟨hnot, hn⟩ := nodup_cons.mp hn
    refine ⟨h ch (by simp), ih hn fun c hc => ?_⟩
    have hne : c.entry.id ≠ ch.entry.id := fun heq =>
      hnot (heq ▸ mem_map_of_mem (mem_map_of_mem hc))
    rw [Function.update_of_ne hne]
    exact h c (by simp [hc])

theorem addsNew_known (h : ∀ ch ∈ chs, ch.fresh = false) : AddsNew present chs := by
  induction chs generalizing present with
  | nil => trivial
  | cons ch chs ih =>
    exact ⟨fun _ hf => by simp [h ch] at hf, ih fun c hc => h c (by simp [hc])⟩

theorem addsNew_told (h : List.Forall₂ (Tells cfg) (ops.map TxOp.event) chs)
    (hnew : InsertsNew present ops) : AddsNew present chs := by
  induction ops generalizing present chs with
  | nil =>
    cases h
    trivial
  | cons op ops ih =>
    obtain ⟨ch, chs, htell, htold, rfl⟩ := List.forall₂_cons_left_iff.mp h
    have hid : ch.entry.id = op.id := htell.id.symm
    have hop : ch.entry.op = op.kind := htell.op.symm
    refine ⟨fun _ hfresh => ?_, ?_⟩
    · rw [htell.fresh] at hfresh
      rw [hid]
      exact hnew.1 (beq_iff_eq.mp hfresh)
    · rw [hid, hop]
      exact ih htold hnew.2

theorem insertOps_ids (s : Collection) (records : List (Option Data)) (ts : Rfc3339.Time) :
    (insertOps s records ts).map TxOp.id = List.range' (s.idSeq + 1) records.length := by
  have hids : (insertOps s records ts).map TxOp.id =
      (records.zipIdx.map Prod.snd).map fun i => s.idSeq + 1 + i := by
    rw [insertOps, List.map_map, List.map_map]
    rfl
  rw [hids, zipIdx_map_snd, map_add_range', Nat.add_zero]

theorem insertOps_fresh (h : Bounded s) {records : List (Option Data)} {ts : Rfc3339.Time}
    {op : TxOp} (hop : op ∈ insertOps s records ts) :
    indexed s op.id = false ∧ op.id ≤ s.idSeq + records.length ∧ op.kind = .insert := by
  have hmem := mem_map_of_mem (f := TxOp.id) hop
  rw [insertOps_ids, mem_range'_1] at hmem
  refine ⟨?_, by omega, ?_⟩
  · rw [Bool.eq_false_iff]
    intro hin
    have := h op.id hin
    omega
  · obtain ⟨p, -, rfl⟩ := mem_map.mp hop
    rfl

theorem insertOps_new (h : Bounded s) {records : List (Option Data)} {ts : Rfc3339.Time} :
    InsertsNew (indexed s) (insertOps s records ts) := by
  refine insertsNew_of_nodup ?_ fun op hop => (insertOps_fresh h hop).1
  rw [insertOps_ids]
  exact nodup_range'

end Batch

section Upkeep

variable {s s' : Collection}

theorem logOf_append (xs ys : List Segment) : logOf (xs ++ ys) = logOf xs ++ logOf ys := by
  simp [logOf]

theorem Tracks.frame (h : Tracks s) {n : Nat} (hn : s.idSeq ≤ n) (xs : List SecondaryIndex)
    (now : Int) : Tracks { s with idSeq := n, sidxs := xs, now := now } :=
  ⟨h.ascending, h.nums, h.deadlines, fun id hid => (h.bounded id hid).trans hn⟩

theorem ensureIndex_eq (s : Collection) (field : String) (unique : Bool) :
    ∃ xs, s.ensureIndex field unique = { s with sidxs := xs } := by
  unfold Collection.ensureIndex
  split
  · exact ⟨s.sidxs, rfl⟩
  · exact ⟨_, rfl⟩

theorem ensureKeyIndexFor_eq (s : Collection) (es : List Entry) :
    ∃ xs, s.ensureKeyIndexFor es = { s with sidxs := xs } := by
  unfold Collection.ensureKeyIndexFor
  split
  · exact ensureIndex_eq s keyField true
  · exact ⟨s.sidxs, rfl⟩

theorem Tracks.ensureIndex (h : Tracks s) (field : String) (unique : Bool) :
    Tracks (s.ensureIndex field unique) := by
  obtain ⟨xs, hxs⟩ := ensureIndex_eq s field unique
  rw [hxs]
  exact h.frame (le_refl _) xs s.now

theorem Tracks.decide (h : Tracks s) {txid : String} (hnew : s.newTxID txid = true)
    (v : Verdict) : Tracks { s with decisions := s.decisions.set txid v } := by
  refine ⟨h.ascending, h.nums, fun id => ?_, h.bounded⟩
  have hrec : records (s.decisions.set txid v) s.log = records s.decisions s.log :=
    records_congr fun l hl => visible_set hnew v hl
  show _ = (records (s.decisions.set txid v) s.log id).map _
  rw [hrec]
  exact h.deadlines id

theorem rotateSegment_log (s : Collection) : s.rotateSegment.log = s.log := by
  simp [Collection.rotateSegment, Collection.log, Collection.segments, logOf]

theorem Tracks.rotate (h : Tracks s) : Tracks s.rotateSegment := by
  refine ⟨?_, fun g hg => ?_, fun id => ?_, h.bounded⟩
  · refine pairwise_append.mpr ⟨h.ascending, pairwise_singleton _ _, fun a ha b hb => ?_⟩
    cases mem_singleton.mp hb
    exact Nat.lt_succ_of_le (h.nums a ha)
  · rcases mem_append.mp hg with hg | hg
    · exact (h.nums g hg).trans (Nat.le_succ _)
    · cases mem_singleton.mp hg
      exact le_refl _
  · rw [rotateSegment_log]
    exact h.deadlines id

theorem rebuilt_tracks (ha : Ascending s.segments) (hn : ∀ g ∈ s.segments, g.num ≤ s.segSeq)
    (hb : ∀ id, (records s.decisions s.log id).isSome = true → id ≤ s.idSeq) :
    Tracks s.rebuilt := by
  refine ⟨ha, hn, fun id => rebuild_deadline ha s.decisions id, fun id hid => hb id ?_⟩
  have hdead := congrArg Option.isSome (rebuild_deadline ha s.decisions id)
  rw [isSome_map, isSome_map] at hdead
  exact hdead.symm.trans hid

theorem compact_absent {c : Encoding} {enc : Option Encryptor} {maxSize : Nat}
    {older older' newer : List Segment} {d : Decisions} {now : Int}
    (h : compactSegments c enc maxSize older d now = some older') {id : Nat}
    (hnone : records d (logOf (older ++ newer)) id = none) :
    records d (logOf (older' ++ newer)) id = none := by
  rw [logOf_append, records_eq_recordOf, ofId_append] at hnone ⊢
  rw [(compactSegments_log h).1]
  exact (resolved_compacted enc d (logOf older) now id).absent_stays _ hnone

theorem segments_split (s : Collection) (k : Nat) :
    s.segments = s.sealed.take k ++ (s.sealed.drop k ++ [s.active]) := by
  rw [← append_assoc, take_append_drop]
  rfl

theorem log_split (s : Collection) (k : Nat) :
    s.log = logOf (s.sealed.take k) ++ logOf (s.sealed.drop k ++ [s.active]) := by
  rw [← logOf_append, ← segments_split]
  rfl

section Compact

variable {cfg : Config} {k : Nat} {at_ : Int}

theorem compact_spec (h : s.compact cfg k at_ = some s') :
    ∃ segs, compactSegments cfg.encoding cfg.enc cfg.segmentMaxSize (s.sealed.take k) s.decisions
        at_ = some segs ∧
      s' = Collection.rebuilt { s with sealed := segs ++ s.sealed.drop k } ∧
      s'.log = logOf segs ++ logOf (s.sealed.drop k ++ [s.active]) := by
  obtain ⟨-, h⟩ := guard_bind.mp h
  obtain ⟨segs, hsegs, h⟩ := bind_eq_some_iff.mp h
  cases h
  refine ⟨segs, hsegs, rfl, ?_⟩
  rw [← logOf_append, ← append_assoc]
  rfl

theorem compact_nums (h : s.compact cfg k at_ = some s') :
    s'.segSeq = s.segSeq ∧ s'.index = Index.rebuild s'.segments s'.decisions ∧
      (s'.segments.map Segment.num).Sublist (s.segments.map Segment.num) := by
  obtain ⟨segs, hsegs, rfl, -⟩ := compact_spec h
  refine ⟨rfl, rfl, ?_⟩
  show ((segs ++ s.sealed.drop k ++ [s.active]).map Segment.num).Sublist _
  simp only [segments_split s k, append_assoc, map_append]
  exact (compactSegments_log hsegs).2.append_right _

theorem ascending_nums {segs segs' : List Segment} (ha : Ascending segs)
    (h : (segs'.map Segment.num).Sublist (segs.map Segment.num)) : Ascending segs' :=
  pairwise_map.mp ((pairwise_map.mpr ha).sublist h)

theorem nums_le {segs segs' : List Segment} {n : Nat} (hn : ∀ g ∈ segs, g.num ≤ n)
    (h : (segs'.map Segment.num).Sublist (segs.map Segment.num)) : ∀ g ∈ segs', g.num ≤ n := by
  intro g hg
  obtain ⟨g', hg', hnum⟩ := mem_map.mp (h.subset (mem_map_of_mem hg))
  exact hnum ▸ hn g' hg'

theorem Tracks.compact (h : Tracks s) (hs : s.compact cfg k at_ = some s') : Tracks s' := by
  obtain ⟨-, -, hnums⟩ := compact_nums hs
  obtain ⟨segs, hsegs, rfl, hlog⟩ := compact_spec hs
  refine rebuilt_tracks (ascending_nums h.ascending hnums) (nums_le h.nums hnums) fun id hid => ?_
  refine h.bounded id ?_
  rw [h.present, isSome_iff_ne_none]
  intro hnone
  rw [log_split s k, ← logOf_append] at hnone
  have habs := compact_absent hsegs hnone
  rw [logOf_append, ← hlog] at habs
  exact isSome_iff_ne_none.mp hid habs

end Compact

theorem records_visible {d : Decisions} {ls : List LogLine} {id : Nat}
    (h : (records d ls id).isSome = true) : ∃ l ∈ ls, l.visible d = true ∧ l.id = id := by
  rw [(records_eq d ls id).1] at h
  cases hl : lastVisible d id ls with
  | none => simp [hl] at h
  | some l =>
    obtain ⟨hmem, hp⟩ := lastOf_some hl
    have hp := Bool.and_eq_true_iff.mp hp
    exact ⟨l, hmem, hp.2, by simpa using hp.1⟩

theorem records_id {d : Decisions} {ls : List LogLine} {id : Nat}
    (h : (records d ls id).isSome = true) : ∃ l ∈ ls, l.id = id := by
  obtain ⟨l, hl, -, hid⟩ := records_visible h
  exact ⟨l, hl, hid⟩

theorem Tracks.reopen (h : Tracks s) {idSeq : Nat} {now : Int}
    (hs : s.reopen idSeq now = some s') : Tracks s' := by
  unfold Collection.reopen at hs
  obtain ⟨hids, rfl⟩ := guard_some hs
  refine rebuilt_tracks h.ascending h.nums fun id hid => ?_
  obtain ⟨l, hl, rfl⟩ := records_id hid
  have hmem : l.id ∈ s.ids := mem_dedup.mpr (mem_map_of_mem hl)
  simpa using all_eq_true.mp hids l.id hmem

end Upkeep

end Scriva
