import Scriva.HistoryInvariant
import Scriva.IdRuns

namespace Scriva

open List Option

def Collection.Clean (s : Collection) (id : Nat) : Prop :=
  ∀ l ∈ s.log, l.id = id → l.visible s.decisions = true

def Collection.Unused (s : Collection) (id : Nat) : Prop :=
  id ≤ s.idSeq ∧ ∀ l ∈ s.log, l.id ≠ id

def Collection.Continues (s : Collection) (e : Entry) : Prop :=
  match e.op with
  | .delete => True
  | .insert => ∀ l ∈ s.log, l.id ≠ e.id
  | .update => if (s.index e.id).isSome then s.Clean e.id else ∀ l ∈ s.log, l.id ≠ e.id

/-- Updates name ids without hidden lines and inserts ids without lines, and a batch does not go on
with an id that it deletes or inserts; replicated writes continue the log; a pass finds no line
undecided. -/
def CollectionOp.HistSound (s : Collection) (op : CollectionOp) : Prop :=
  (∀ id ∈ op.updated s, s.Clean id) ∧ (∀ id ∈ op.supplied, s.Unused id) ∧
  op.staged.Pairwise Follows ∧
  (∀ e ∈ op.carried.filter fun e => !s.applied e, s.Continues e) ∧
  ((op.carried.filter fun e => !s.applied e).map Entry.id).Nodup ∧
  match op with
  | .compact k _ => ∀ l ∈ logOf (s.sealed.take k), l.undecided s.decisions = false
  | _ => True

/-- The active segment behind a crash that leaves its first lines. -/
def Store.left (x : Store) (kept : Nat) : Segment :=
  { x.col.active with lines := x.col.active.lines.take kept }

/-- The next process will hand out ids above this one: it is below the saved counter, or a scan
finds it in the active segment, or below some id that shows if the counter is not readable. -/
def Store.Remembers (x : Store) (kept : Nat) (id : Nat) : Prop :=
  match x.saved with
  | some n => id ≤ n ∨ ∃ l ∈ (x.left kept).scanned, l.visible x.col.decisions = true ∧ id ≤ l.id
  | none => ∃ g ∈ x.col.sealed ++ [x.left kept], ∃ l ∈ g.scanned,
      l.visible x.col.decisions = true ∧ id ≤ l.id

def StoreOp.HistSound (x : Store) : StoreOp → Prop
  | .write op => op.HistSound x.col
  | .leaveRun _ ops _ => (∀ op ∈ ops, op.op = .insert → x.col.Unused op.id) ∧
      ∀ op ∈ ops, op.op = .update → x.col.Clean op.id
  | .crash kept _ _ =>
      ∀ l ∈ logOf x.col.sealed ++ (x.col.active.lines.take kept).map Line.toLogLine,
        x.Remembers kept l.id
  | _ => True

section

variable {cfg : Config} {x y : Store} {s t : Collection} {ls : List Line} {chs : List Change}

theorem Recovered.remembered {kept id : Nat} (h : Recovered x.col x.saved kept t)
    (hr : x.Remembers kept id) : id ≤ t.idSeq := by
  have hactive : ∀ l ∈ (x.left kept).scanned, l.visible x.col.decisions = true →
      l ∈ t.active.scanned ∧ l.visible t.decisions = true := by
    intro l hl hv
    have hv := LogLine.visible_extends h.later hv
    have hpre : (x.left kept).scanned <+: _ := takeWhile_prefix _
    obtain ⟨a, ha, rfl⟩ := mem_map.mp (hpre.subset hl)
    exact ⟨KeyedLog.mem_takeWhile_front (h.lines.map _) hl (mem_map_of_mem (h.keeps a ha hv)), hv⟩
  rw [h.counter]
  unfold Store.Remembers at hr
  cases hsaved : x.saved with
  | some n =>
    rw [hsaved] at hr
    rcases hr with hle | ⟨l, hl, hv, hle⟩
    · exact hle.trans (le_max_left _ _)
    · obtain ⟨hl, hv⟩ := hactive l hl hv
      exact hle.trans ((le_tailMaxID hl hv).trans (le_max_right _ _))
  | none =>
    rw [hsaved] at hr
    obtain ⟨g, hg, l, hl, hv, hle⟩ := hr
    rcases Runs.mem_concat hg with hg | rfl
    · rw [← h.sealed] at hg
      exact hle.trans (le_restoredCounter (mem_append_left _ hg) hl
        (LogLine.visible_extends h.later hv))
    · obtain ⟨hl, hv⟩ := hactive l hl hv
      exact hle.trans (le_restoredCounter (by simp [Collection.segments]) hl hv)

theorem follows_of_nodup (h : ((chs.map Change.entry).map Entry.id).Nodup) :
    (chs.map Change.sort).Pairwise Follows := by
  rw [List.map_map] at h
  refine pairwise_map.mpr ((pairwise_map.mp h).imp fun hne heq => absurd heq hne)

theorem Collection.Clean.shown {id : Nat} (hc : s.Clean id) {p : LogLine} (hp : p ∈ s.log)
    (hid : p.id = id) : p ∈ s.log.filter (·.visible s.decisions) :=
  mem_filter.mpr ⟨hp, hc p hp hid⟩

theorem HistInv.locally {op : CollectionOp} (hi : HistInv s) (hok : op.HistSound s)
    (hw : WritesLocally cfg op s ls chs t) : HistInv t := by
  obtain ⟨hupd, hins, hstaged, -⟩ := hok
  have hfol : (chs.map Change.sort).Pairwise Follows := by
    rcases hw.ordered with hnodup | heq
    · exact follows_of_nodup hnodup
    · rw [heq]
      exact hstaged
  refine hi.appended hw.toAppended (fun ch hch => ?_) (orderly_append hw.carry hi.orderly
    hi.covered (fun p hp => (mem_filter.mp hp).1)
    (hw.entries.imp fun _ _ he => he.advances) (fun ch hch hop p hp heq => ?_)
    (fun ch hch hop => ⟨Or.inl ?_, fun p hp heq => ?_⟩) hfol)
  · rcases hw.reached hi.tracks.bounded ch hch with hle | hgiven
    · exact hle
    · exact (hins _ hgiven).1.trans hw.counter
  · have hmem : ch.entry.id ∈ insertedIDs (chs.map Change.entry) :=
      mem_map_of_mem (mem_filter.mpr ⟨mem_map_of_mem hch, by simp [hop]⟩)
    rcases hw.entries.inserted hmem with hgt | hgiven
    · have hle := hi.lines_le p hp
      omega
    · exact (hins _ hgiven).2 p hp heq
  · have hsome := hw.targets ch hch (by simp [hop])
    simpa [revs] using hsome
  · exact (hupd _ (hw.aimed hch hop)).shown hp heq

theorem advances_of_unapplied {e : Entry} (h : s.applied e = false) : Advances (revs s.index) e := by
  intro hop rev hrev
  obtain ⟨cur, hcur, rfl⟩ := map_eq_some_iff.mp hrev
  unfold Collection.applied at h
  rw [hop, hcur] at h
  simpa using h

theorem HistInv.replicated {op : CollectionOp} (hi : HistInv s) (hok : op.HistSound s)
    (ha : Appended s ls chs t)
    (hes : chs.map Change.entry = op.carried.filter fun e => !s.applied e)
    (hids : ∀ ch ∈ chs, ch.entry.id ≤ t.idSeq) : HistInv t := by
  obtain ⟨-, -, -, hcont, hnodup, -⟩ := hok
  rw [← hes] at hcont hnodup
  have hadv : ∀ e ∈ chs.map Change.entry, Advances (revs s.index) e := by
    intro e he
    rw [hes] at he
    exact advances_of_unapplied (by simpa using (mem_filter.mp he).2)
  refine hi.appended ha hids (orderly_append ha.wrote.carry hi.orderly hi.covered
    (fun p hp => (mem_filter.mp hp).1)
    (along_of_nodup Advances.congr hnodup (fun _ _ => rfl) hadv) (fun ch hch hop => ?_)
    (fun ch hch hop => ?_) (follows_of_nodup hnodup))
  · have hc := hcont _ (mem_map_of_mem hch)
    unfold Collection.Continues at hc
    rw [hop] at hc
    exact hc
  · have hc := hcont _ (mem_map_of_mem hch)
    unfold Collection.Continues at hc
    rw [hop] at hc
    by_cases hsome : (s.index ch.entry.id).isSome = true
    · have hc : s.Clean ch.entry.id := by simpa [hsome] using hc
      exact ⟨Or.inl (by simpa [revs] using hsome), fun p hp heq => hc.shown hp heq⟩
    · have hc : ∀ l ∈ s.log, l.id ≠ ch.entry.id := by simpa [hsome] using hc
      exact ⟨Or.inr hc, fun p hp heq => absurd heq (hc p hp)⟩

theorem HistInv.leaveRun {txid : String} {ops : List XTxOp} {r : Readings} (hi : HistInv s)
    (hins : ∀ op ∈ ops, op.op = .insert → s.Unused op.id)
    (hupd : ∀ op ∈ ops, op.op = .update → s.Clean op.id)
    (h : s.during r (s.leaveRun cfg txid ops r) = some t) : HistInv t := by
  obtain ⟨-, u, hu, rfl⟩ := during_some h
  obtain ⟨hnodup, ls, chs, hchs, hl⟩ := leaveRun_left hu r.late
  have hnodup : ((chs.map Change.entry).map Entry.id).Nodup := xtxRun_ids hchs ▸ hnodup
  have hspec : ∀ ch ∈ chs, ∃ op ∈ ops, XTxChange cfg s r op ch := fun ch hch => Traverse.forall₂_mem hchs hch
  have hadv : ∀ e ∈ chs.map Change.entry, Advances (revs s.index) e := by
    intro e he hop rev hrev
    obtain ⟨ch, hch, rfl⟩ := mem_map.mp he
    obtain ⟨op, -, hx⟩ := hspec ch hch
    obtain ⟨loc, hloc, -, hnext, -⟩ := hx.target (by simp [← hx.op, hop])
    rw [revs, hx.id, hloc] at hrev
    have hrev := Option.some.inj hrev
    omega
  refine hi.leftRun hl (fun ch hch => ?_) (orderly_append hl.carry hi.orderly hi.covered
    (fun p hp => (mem_filter.mp hp).1)
    (along_of_nodup Advances.congr hnodup (fun _ _ => rfl) hadv) (fun ch hch hop => ?_)
    (fun ch hch hop => ⟨Or.inl ?_, fun p hp heq => ?_⟩) (follows_of_nodup hnodup))
  · obtain ⟨op, hmem, hx⟩ := hspec ch hch
    rw [hx.id]
    by_cases hk : op.op = .insert
    · exact (hins op hmem hk).1
    · obtain ⟨loc, hloc, -⟩ := hx.target hk
      exact hi.tracks.bounded op.id (by simp [hloc])
  · obtain ⟨op, hmem, hx⟩ := hspec ch hch
    rw [hx.id]
    exact (hins op hmem (hx.op.symm.trans hop)).2
  · obtain ⟨op, -, hx⟩ := hspec ch hch
    obtain ⟨loc, hloc, -⟩ := hx.target (by simp [← hx.op, hop])
    simp [revs, hx.id, hloc]
  · obtain ⟨op, hmem, hx⟩ := hspec ch hch
    rw [hx.id] at heq
    exact (hupd op hmem (hx.op.symm.trans hop)).shown hp heq

theorem HistInv.write {op : CollectionOp} (hi : HistInv s) (hok : op.HistSound s)
    (hup : op.isUpkeep = false) (h : s.step cfg op = some t) : HistInv t := by
  rcases op.kinds with hk | hk | hk | hk | ⟨k, at_, rfl⟩
  · rw [hup] at hk
    cases hk
  · obtain ⟨ls, chs, hw⟩ := step_locally hk h
    exact hi.locally hok hw
  · obtain ⟨ls, ha, -, hids⟩ := step_replicated hk h
    exact hi.replicated hok ha (replChanges_entries _ _) (hids hi.tracks.bounded)
  · have ha := step_still hk h
    exact hi.appended ha (by simp) (by simpa using hi.orderly)
  · exact hi.compact hok.2.2.2.2.2 h

theorem hist_step {op : StoreOp} (hi : HistInv x.col) (hok : op.HistSound x)
    (h : x.step cfg op = some y) : HistInv y.col := by
  cases op with
  | reserveID =>
    cases h
    exact ⟨hi.tracks.frame (Nat.le_succ _) x.col.sidxs x.col.now, hi.orderly,
      fun l hl => (hi.lines_le l hl).trans (Nat.le_succ _), hi.covered⟩
  | write op =>
    obtain ⟨hup, h⟩ := ite_none_left_eq_some.mp h
    obtain ⟨t, ht, rfl⟩ := map_eq_some_iff.mp h
    exact hi.write hok (by simpa using hup) ht
  | leaveRun txid ops r =>
    obtain ⟨t, ht, rfl⟩ := map_eq_some_iff.mp h
    exact hi.leaveRun hok.1 hok.2 ht
  | rotate metaWritten =>
    cases h
    exact hi.rotate
  | writeMeta | loseMeta =>
    cases h
    exact hi
  | crash kept committed now =>
    obtain ⟨hopen, rfl⟩ := Runs.barred h
    have hr := recover_spec rfl hopen
    exact hi.recovered hr fun l hl => hr.remembered (hok l (hr.log_sublist.subset hl))

theorem Store.Created.histInv (h : x.Created) : HistInv x.col := by
  refine ⟨h.opened.indexInv.tracks, ?_, by simp [h.empty], ?_⟩
  · rw [h.empty]
    exact List.Pairwise.nil
  · rw [h.empty]
    exact fun l hl => by cases hl

end

instance (s : Collection) (id : Nat) : Decidable (s.Clean id) :=
  inferInstanceAs (Decidable (∀ l ∈ s.log, _))

instance (s : Collection) (id : Nat) : Decidable (s.Unused id) :=
  inferInstanceAs (Decidable (_ ∧ ∀ l ∈ s.log, _))

instance (s : Collection) (e : Entry) : Decidable (s.Continues e) := by
  unfold Collection.Continues
  cases e.op <;> infer_instance

instance (a b : Nat × Op) : Decidable (Follows a b) :=
  inferInstanceAs (Decidable (_ → _))

instance (s : Collection) (op : CollectionOp) : Decidable (op.HistSound s) := by
  unfold CollectionOp.HistSound
  cases op <;> infer_instance

instance (x : Store) (kept id : Nat) : Decidable (x.Remembers kept id) := by
  unfold Store.Remembers
  cases x.saved <;> infer_instance

instance (x : Store) (op : StoreOp) : Decidable (op.HistSound x) := by
  unfold StoreOp.HistSound
  cases op <;> infer_instance

end Scriva
