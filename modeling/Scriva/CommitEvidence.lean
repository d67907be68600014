import Scriva.KeptLines
import Scriva.Store

namespace Scriva

open List Option

def stampedRun (t : String) (ls : List LogLine) : List LogLine :=
  ls.filter fun l => l.stampedBy t

structure XTxOpRef where
  id : Nat
  op : Op
  rev : Nat
deriving DecidableEq, Repr

def LogLine.ref (l : LogLine) : XTxOpRef :=
  { id := l.entry.id, op := l.entry.op, rev := l.entry.rev }

structure RunEvidence where
  complete : Bool
  n : Nat
  digest : String
deriving DecidableEq, Repr

/-- What the scan of `recoverCoordinator` makes of the lines of a transaction: they are complete if
they carry the places 0 to n - 1 in order. -/
def runEvidence (partDigest : List XTxOpRef → String) (t : String) (ls : List LogLine) :
    Option RunEvidence :=
  let run := stampedRun t ls
  (run.head?.bind LogLine.tx).map fun first =>
    { complete := run.length == first.n && run.zipIdx.all fun p =>
        p.1.tx.elim false fun tx => tx.i == p.2 && tx.n == first.n
      n := run.length
      digest := partDigest (run.map LogLine.ref) }

def acceptsRun (n : Nat) (digest : String) (ev : Option RunEvidence) : Bool :=
  ev.elim false fun ev => ev.complete && ev.n == n && ev.digest == digest

/-- The segments of a collection, the decision table, what a pass under way has made of the segments
it saw, and the lines that have been written to the segments behind the active one. -/
structure Archive where
  sealed : List Segment
  active : Segment
  segSeq : Nat
  decisions : Decisions
  pass : Option (Nat × List Segment)
  past : List LogLine

inductive ArchiveAct where
  | append (ls : List Line)
  | rollback (n : Nat)
  | decide (t : String) (v : Verdict)
  | rotate
  | resolve (enc : Option Encryptor) (maxSize : Nat) (now : Int)
  | swap
  | abandon

def Archive.log (a : Archive) : List LogLine :=
  logOf a.sealed ++ a.active.lines.map Line.toLogLine

def Archive.written (a : Archive) : List LogLine :=
  a.past ++ a.active.lines.map Line.toLogLine

/-- Writers append plain lines, or the runs of transactions that are not decided yet; a run that is
given up is cut off again. A pass reads the sealed segments first and puts its output in their place
later; every pass may have another encryptor, so that a migration is a pass. -/
def Archive.step (c : Encoding) (a : Archive) : ArchiveAct → Option Archive
  | .append ls =>
    if ls.all fun l => l.isPlain || l.undecided a.decisions then
      some { a with active := { a.active with lines := a.active.lines ++ ls } }
    else none
  | .rollback n =>
    if (a.active.lines.drop n).all fun l => !l.toLogLine.visible a.decisions then
      some { a with active := { a.active with lines := a.active.lines.take n } }
    else none
  | .decide t v =>
    if a.decisions.get t = none then
      some { a with decisions := a.decisions.set t v }
    else none
  | .rotate =>
    some { a with sealed := a.sealed ++ [a.active], active := { num := a.segSeq + 1, lines := [] }
                  segSeq := a.segSeq + 1, past := a.written }
  | .resolve enc maxSize now =>
    if a.pass.isNone then
      (compactSegments c enc maxSize a.sealed a.decisions now).map fun out =>
        { a with pass := some (a.sealed.length, out) }
    else none
  | .swap => a.pass.map fun p => { a with sealed := p.2 ++ a.sealed.drop p.1, pass := none }
  | .abandon => some { a with pass := none }

structure Archive.Found (a : Archive) : Prop where
  pass : a.pass = none
  past : a.past = logOf a.sealed

def Standing (d : Decisions) (t : String) : Prop :=
  d.get t ≠ some .abort ∧ d.get t ≠ some .retireAbort

structure Rewrites (p l : LogLine) : Prop where
  id : l.entry.id = p.entry.id
  op : l.entry.op = p.entry.op
  ts : l.entry.ts = p.entry.ts
  rev : l.entry.rev = p.entry.rev
  expiresAt : l.entry.expiresAt = p.entry.expiresAt

theorem Rewrites.refl (l : LogLine) : Rewrites l l :=
  ⟨rfl, rfl, rfl, rfl, rfl⟩

theorem Rewrites.trans {a b c : LogLine} (h : Rewrites a b) (h' : Rewrites b c) : Rewrites a c :=
  ⟨h'.id.trans h.id, h'.op.trans h.op, h'.ts.trans h.ts, h'.rev.trans h.rev,
    h'.expiresAt.trans h.expiresAt⟩

theorem stampedRun_append (t : String) (xs ys : List LogLine) :
    stampedRun t (xs ++ ys) = stampedRun t xs ++ stampedRun t ys :=
  filter_append ..

variable {d : Decisions} {xs ys : List LogLine}

theorem isEvidence_standing {t : String} (ht : t ≠ "") (hs : Standing d t) {l : LogLine}
    (h : l.stampedBy t = true) : isEvidence d l = true := by
  unfold LogLine.stampedBy at h
  unfold isEvidence LogLine.isPlain LogLine.visible entryVisible LogLine.undecided
  cases htx : l.tx with
  | none =>
    rw [htx] at h
    cases h
  | some tx =>
    rw [htx] at h
    have htt : tx.t = t := beq_iff_eq.mp h
    dsimp only
    rw [htt]
    cases hget : d.get t with
    | none => simp [ht]
    | some v =>
      cases v with
      | commit => simp [ht]
      | retireCommit => simp [ht]
      | abort => exact absurd hget hs.1
      | retireAbort => exact absurd hget hs.2

section Pass

variable {c : Encoding} {enc : Option Encryptor} {maxSize : Nat} {segs out : List Segment}
  {d : Decisions} {now : Int}

theorem compactSegments_run {t : String} (ht : t ≠ "") (hs : Standing d t)
    (h : compactSegments c enc maxSize segs d now = some out) :
    stampedRun t (logOf out) = stampedRun t (logOf segs) := by
  rw [(compactSegments_log h).1]
  unfold resolveLines
  rw [map_append, stampedRun_append, resolveScan_evidence]
  have hplain : stampedRun t ((resolvePlain (logOf segs) d now).map (migrate enc)) = [] := by
    refine filter_eq_nil_iff.mpr fun l hl => ?_
    obtain ⟨q, hq, rfl⟩ := mem_map.mp hl
    obtain ⟨p, -, -, rfl⟩ := mem_resolvePlain hq
    have htx := (migrate_spec enc ⟨p.entry, none⟩).2
    simp [LogLine.stampedBy, htx]
  have hsame : ((logOf segs).filter (isEvidence d)).map (migrate enc) =
      (logOf segs).filter (isEvidence d) := by
    refine (map_congr_left fun l hl => ?_).trans (map_id _)
    have hev := (mem_filter.mp hl).2
    exact migrate_stamped enc (by simpa using (Bool.and_eq_true_iff.mp hev).1)
  rw [hplain, append_nil, hsame]
  unfold stampedRun
  rw [List.filter_filter]
  refine filter_congr fun l _ => ?_
  by_cases hst : l.stampedBy t = true
  · rw [hst, isEvidence_standing ht hs hst]
    rfl
  · rw [Bool.not_eq_true] at hst
    rw [hst]
    rfl

theorem migrate_rewrites (enc : Option Encryptor) (l : LogLine) : Rewrites l (migrate enc l) := by
  obtain ⟨hm, -⟩ := migrate_spec enc l
  refine ⟨hm.id, hm.op, ?_, hm.rev, hm.expiresAt⟩
  unfold migrate reencryptLine
  cases enc with
  | none => rfl
  | some k =>
    dsimp only
    split
    · rfl
    · cases k.reencrypt l.entry.data <;> rfl

theorem compactSegments_origin (h : compactSegments c enc maxSize segs d now = some out)
    {l : LogLine} (hl : l ∈ logOf out) :
    (l.isPlain = true → ∃ p ∈ logOf segs, p.isPlain = true ∧ Rewrites p l) ∧
      (l.isPlain = false → l ∈ logOf segs) := by
  rw [(compactSegments_log h).1] at hl
  obtain ⟨q, hq, rfl⟩ := mem_map.mp hl
  have hplain : (migrate enc q).isPlain = q.isPlain := by
    unfold LogLine.isPlain
    rw [(migrate_spec enc q).2]
  rw [hplain]
  unfold resolveLines at hq
  rcases mem_append.mp hq with hq | hq
  · rw [resolveScan_evidence] at hq
    obtain ⟨hq, hev⟩ := mem_filter.mp hq
    have hst : q.isPlain = false := by simpa using (Bool.and_eq_true_iff.mp hev).1
    rw [migrate_stamped enc hst]
    exact ⟨fun hp => absurd (hst.symm.trans hp) (by decide), fun _ => hq⟩
  · obtain ⟨p, hlast, hp, rfl⟩ := mem_resolvePlain hq
    refine ⟨fun _ => ⟨p, (KeyedLog.lastOf_some hlast).1, hp, ?_⟩, nofun⟩
    have hrw := migrate_rewrites enc ⟨p.entry, none⟩
    exact ⟨hrw.id, hrw.op, hrw.ts, hrw.rev, hrw.expiresAt⟩

end Pass

/-- One list of lines holds the same runs as another, and nothing plain that is not from it. -/
structure Keeps (d : Decisions) (old new : List LogLine) : Prop where
  run : ∀ t, t ≠ "" → Standing d t → stampedRun t new = stampedRun t old
  plain : ∀ l ∈ new, l.isPlain = true → ∃ p ∈ old, p.isPlain = true ∧ Rewrites p l
  stamped : ∀ l ∈ new, l.isPlain = false → l ∈ old

theorem Keeps.refl (d : Decisions) (ls : List LogLine) : Keeps d ls ls :=
  ⟨fun _ _ _ => rfl, fun l hl hp => ⟨l, hl, hp, Rewrites.refl l⟩, fun _ hl _ => hl⟩

theorem Keeps.trans {zs : List LogLine} (h : Keeps d xs ys) (h' : Keeps d ys zs) :
    Keeps d xs zs := by
  refine ⟨fun t ht hs => (h'.run t ht hs).trans (h.run t ht hs), fun l hl hp => ?_,
    fun l hl hp => h.stamped l (h'.stamped l hl hp) hp⟩
  obtain ⟨p, hpin, hpp, hpl⟩ := h'.plain l hl hp
  obtain ⟨q, hq, hqp, hqq⟩ := h.plain p hpin hpp
  exact ⟨q, hq, hqp, hqq.trans hpl⟩

theorem Keeps.append (h : Keeps d xs ys) (more : List LogLine) :
    Keeps d (xs ++ more) (ys ++ more) := by
  refine ⟨fun t ht hs => ?_, fun l hl hp => ?_, fun l hl hp => ?_⟩
  · rw [stampedRun_append, stampedRun_append, h.run t ht hs]
  · rcases mem_append.mp hl with hl | hl
    · obtain ⟨p, hpin, hpp, hpl⟩ := h.plain l hl hp
      exact ⟨p, mem_append_left _ hpin, hpp, hpl⟩
    · exact ⟨l, mem_append_right _ hl, hp, Rewrites.refl l⟩
  · rcases mem_append.mp hl with hl | hl
    · exact mem_append_left _ (h.stamped l hl hp)
    · exact mem_append_right _ hl

theorem Keeps.later {d' : Decisions} (h : Keeps d xs ys) (hd : ∀ t, Standing d' t → Standing d t) :
    Keeps d' xs ys :=
  ⟨fun t ht hs => h.run t ht (hd t hs), h.plain, h.stamped⟩

/-- The sealed segments keep what was written to them; the output of a pass keeps what it saw. -/
structure Archive.Inv (a : Archive) : Prop where
  sealed : Keeps a.decisions a.past (logOf a.sealed)
  pass : ∀ k out, a.pass = some (k, out) →
    Keeps a.decisions (logOf (a.sealed.take k)) (logOf out) ∧ k ≤ a.sealed.length

theorem Archive.Found.inv {a : Archive} (h : a.Found) : a.Inv := by
  refine ⟨?_, fun k out hp => ?_⟩
  · rw [h.past]
    exact Keeps.refl _ _
  · rw [h.pass] at hp
    cases hp

section

variable {c : Encoding} {a a' : Archive}

theorem logOf_concat (segs : List Segment) (s : Segment) :
    logOf (segs ++ [s]) = logOf segs ++ s.lines.map Line.toLogLine := by
  simp [logOf]

theorem standing_update {d : Decisions} {t : String} {v : Verdict} (hnone : d.get t = none) {u : String}
    (h : Standing (d.set t v) u) : Standing d u := by
  unfold Standing at h ⊢
  rw [get_set] at h
  by_cases hu : u = t
  · subst hu
    rw [hnone]
    exact ⟨by simp, by simp⟩
  · rwa [if_neg hu] at h

theorem archive_step {act : ArchiveAct} (hi : a.Inv) (h : a.step c act = some a') : a'.Inv := by
  cases act with
  | append ls | rollback n =>
    obtain ⟨-, rfl⟩ := Runs.guarded h
    exact ⟨hi.sealed, hi.pass⟩
  | decide t v =>
    obtain ⟨hnone, rfl⟩ := Runs.guarded h
    refine ⟨hi.sealed.later fun _ => standing_update hnone, fun k out hp => ?_⟩
    obtain ⟨hk, hle⟩ := hi.pass k out hp
    exact ⟨hk.later fun _ => standing_update hnone, hle⟩
  | rotate =>
    cases h
    refine ⟨?_, fun k out hp => ?_⟩
    · show Keeps a.decisions (a.past ++ a.active.lines.map Line.toLogLine)
        (logOf (a.sealed ++ [a.active]))
      rw [logOf_concat]
      exact hi.sealed.append _
    · obtain ⟨hk, hle⟩ := hi.pass k out hp
      refine ⟨?_, hle.trans (by simp)⟩
      dsimp only
      rw [take_append_of_le_length hle]
      exact hk
  | resolve enc maxSize now =>
    obtain ⟨-, h⟩ := ite_none_right_eq_some.mp h
    obtain ⟨out, hout, rfl⟩ := map_eq_some_iff.mp h
    refine ⟨hi.sealed, fun k out' hp => ?_⟩
    cases hp
    dsimp only
    rw [take_length]
    exact ⟨⟨fun t ht hs => compactSegments_run ht hs hout,
      fun l hl => (compactSegments_origin hout hl).1,
      fun l hl => (compactSegments_origin hout hl).2⟩, le_refl _⟩
  | swap =>
    obtain ⟨⟨k, out⟩, hp, rfl⟩ := map_eq_some_iff.mp h
    obtain ⟨hk, -⟩ := hi.pass k out hp
    refine ⟨hi.sealed.trans ?_, nofun⟩
    have hsplit : logOf a.sealed = logOf (a.sealed.take k) ++ logOf (a.sealed.drop k) := by
      rw [← logOf_append, take_append_drop]
    dsimp only
    rw [hsplit, logOf_append]
    exact hk.append _
  | abandon =>
    cases h
    exact ⟨hi.sealed, nofun⟩

theorem Archive.Inv.keeps (hi : a.Inv) : Keeps a.decisions a.written a.log :=
  hi.sealed.append _

theorem committed_written {t : String} (ht : t ≠ "") (hc : a.decisions.get t = some .commit)
    {act : ArchiveAct} (h : a.step c act = some a') :
    a'.decisions.get t = some .commit ∧ stampedRun t a'.written = stampedRun t a.written := by
  have hseen : ∀ l : LogLine, l.stampedBy t = true →
      l.visible a.decisions = true ∧ l.undecided a.decisions = false ∧ l.isPlain = false := by
    intro l hl
    unfold LogLine.stampedBy at hl
    unfold LogLine.visible entryVisible LogLine.undecided LogLine.isPlain
    cases htx : l.tx with
    | none =>
      rw [htx] at hl
      cases hl
    | some tx =>
      rw [htx] at hl
      have htt : tx.t = t := beq_iff_eq.mp hl
      simp [htt, hc, ht]
  cases act with
  | append ls =>
    obtain ⟨hall, rfl⟩ := Runs.guarded h
    refine ⟨hc, ?_⟩
    have hnone : stampedRun t (ls.map Line.toLogLine) = [] := by
      refine filter_eq_nil_iff.mpr fun l hl hst => ?_
      obtain ⟨line, hline, rfl⟩ := mem_map.mp hl
      obtain ⟨-, hund, hpl⟩ := hseen _ hst
      have hok := all_eq_true.mp hall line hline
      rw [hund, hpl] at hok
      cases hok
    show stampedRun t (a.past ++ (a.active.lines ++ ls).map Line.toLogLine) = _
    rw [map_append, ← append_assoc, stampedRun_append, hnone, append_nil]
    rfl
  | rollback n =>
    obtain ⟨hall, rfl⟩ := Runs.guarded h
    refine ⟨hc, ?_⟩
    have hnone : stampedRun t ((a.active.lines.drop n).map Line.toLogLine) = [] := by
      refine filter_eq_nil_iff.mpr fun l hl hst => ?_
      obtain ⟨line, hline, rfl⟩ := mem_map.mp hl
      have hok := all_eq_true.mp hall line hline
      rw [(hseen _ hst).1] at hok
      cases hok
    have hsplit : a.written = a.past ++ (a.active.lines.take n).map Line.toLogLine ++
        (a.active.lines.drop n).map Line.toLogLine := by
      rw [append_assoc, ← map_append, take_append_drop]
      rfl
    rw [hsplit, stampedRun_append, hnone, append_nil]
    rfl
  | decide u v =>
    obtain ⟨hnone, rfl⟩ := Runs.guarded h
    refine ⟨?_, rfl⟩
    dsimp only
    rw [get_set]
    split
    case isTrue heq =>
      rw [← heq, hc] at hnone
      cases hnone
    case isFalse => exact hc
  | rotate =>
    cases h
    refine ⟨hc, ?_⟩
    show stampedRun t (a.written ++ []) = _
    rw [append_nil]
  | resolve enc maxSize now =>
    obtain ⟨-, h⟩ := ite_none_right_eq_some.mp h
    obtain ⟨out, -, rfl⟩ := map_eq_some_iff.mp h
    exact ⟨hc, rfl⟩
  | swap =>
    obtain ⟨p, -, rfl⟩ := map_eq_some_iff.mp h
    exact ⟨hc, rfl⟩
  | abandon =>
    cases h
    exact ⟨hc, rfl⟩

end

/-- From the moment a transaction is committed on, its run in this collection stays as it was
written, line by line and in order, through all passes, so recovery finds the same evidence; and no
pass makes a plain line of a stamped one. -/
theorem evidence_kept (c : Encoding) {start : Archive} (hstart : start.Found) {a b : Archive}
    (ha : Runs.Reaches (Archive.step c) (fun _ _ => True) start a)
    (hb : Runs.Reaches (Archive.step c) (fun _ _ => True) a b) :
    (∀ t, t ≠ "" → a.decisions.get t = some .commit →
      stampedRun t b.log = stampedRun t a.written ∧
      ∀ partDigest n digest, acceptsRun n digest (runEvidence partDigest t a.written) = true →
        acceptsRun n digest (runEvidence partDigest t b.log) = true) ∧
    (∀ l ∈ b.log, l.isPlain = true → ∃ p ∈ b.written, p.isPlain = true ∧ Rewrites p l) ∧
    (∀ l ∈ b.log, l.isPlain = false → l ∈ b.written) := by
  have hia := ha.invariant hstart.inv fun hi _ hs => archive_step hi hs
  have hib := hb.invariant hia fun hi _ hs => archive_step hi hs
  refine ⟨fun t ht hc => ?_, hib.keeps.plain, hib.keeps.stamped⟩
  obtain ⟨hcb, hwritten⟩ : b.decisions.get t = some .commit ∧
      stampedRun t b.written = stampedRun t a.written := by
    induction hb with
    | refl => exact ⟨hc, rfl⟩
    | step hb _ hs ih =>
      obtain ⟨hc, hw⟩ := ih (hb.invariant hia fun hi _ hs => archive_step hi hs)
      obtain ⟨hc', hw'⟩ := committed_written ht hc hs
      exact ⟨hc', hw'.trans hw⟩
  have hstands : Standing b.decisions t := by
    unfold Standing
    rw [hcb]
    exact ⟨by simp, by simp⟩
  have hrun := (hib.keeps.run t ht hstands).trans hwritten
  refine ⟨hrun, fun partDigest n digest hok => ?_⟩
  unfold runEvidence at hok ⊢
  rw [hrun]
  exact hok

def emptyArchive : Archive :=
  { sealed := [], active := { num := 1, lines := [] }, segSeq := 1
    decisions := some fun _ => none, pass := none, past := [] }

def archiveLine (id rev : Nat) (tx : Option TxStamp) : Line :=
  byteLines.line
    { entry := { id := id, op := .update, ts := Rfc3339.zeroTime, rev := rev, data := none, epoch := 0
                 expiresAt := 0 }
      tx := tx }

def committedRun : List ArchiveAct :=
  [.append [archiveLine 1 1 none],
   .append [archiveLine 1 2 (some ⟨"t", 0, 2⟩), archiveLine 2 1 (some ⟨"t", 1, 2⟩)], .rotate,
   .resolve none 10 0, .decide "t" .commit]

def laterPasses : List ArchiveAct :=
  [.append [archiveLine 1 3 none], .swap, .rotate, .resolve none 10 0, .swap]

def sizeDigest (refs : List XTxOpRef) : String :=
  if refs.length = 2 then "two" else "other"

theorem evidence_kept_sample : ∃ a b,
    Runs.run (Archive.step byteLines) emptyArchive committedRun = some a ∧
    Runs.run (Archive.step byteLines) a laterPasses = some b ∧
    acceptsRun 2 "two" (runEvidence sizeDigest "t" b.log) = true := by
  obtain ⟨a, ha, hr, hc, hok, hmeets, hsome⟩ := Runs.reached (Archive.step byteLines) (fun _ _ => True)
    emptyArchive committedRun (fun a => a.decisions.get "t" = some .commit ∧
      acceptsRun 2 "two" (runEvidence sizeDigest "t" a.written) = true ∧
        Runs.Meets (Archive.step byteLines) (fun _ _ => True) a laterPasses ∧
          (Runs.run (Archive.step byteLines) a laterPasses).isSome) (by decide +kernel)
  obtain ⟨b, hb⟩ := isSome_iff_exists.mp hsome
  have hkept := (evidence_kept byteLines ⟨rfl, rfl⟩ hr (Runs.reaches_run hb hmeets .refl)).1 "t"
    (by decide) hc
  exact ⟨a, b, ha, hb, hkept.2 sizeDigest 2 "two" hok⟩

end Scriva
