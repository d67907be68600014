import Scriva.Resolve

namespace Scriva

open KeyedLog

def UnexpiredAt (d : Decisions) (now : Int) (ls : List LogLine) (id : Nat) : Prop :=
  ∀ r, records d ls id = some r → expired r.expiresAt now = false

/-- Behind the last plain line of the id, unless a committed run overtakes it, the later table
commits no line that changes what the plain line says. -/
def NoLateCommit (d d' : Decisions) (ls : List LogLine) (id : Nat) : Prop :=
  ∀ pre p post, ls = pre ++ p :: post → p.id = id → p.isPlain = true →
    (∀ l ∈ post, l.id = id → l.isPlain = false ∧ l.visible d = false) →
    ∀ u, lastVisible d' id post = some u → u.live = p.live

variable {d : Decisions} {id : Nat}

theorem settles_eq_false {l : LogLine} :
    settles d id l = false ↔ (l.id = id → l.isPlain = false ∧ l.visible d = false) := by
  by_cases h : l.id = id <;> simp [settles, h]

theorem settles_last {pre post : List LogLine} {p : LogLine} (hp : settles d id p = true)
    (hpost : ∀ l ∈ post, settles d id l = false) :
    lastOf (settles d id) (pre ++ p :: post) = some p := by
  rw [lastOf_append, lastOf_cons, lastOf_eq_none.mpr hpost, if_pos hp]
  rfl

section PlainLast

variable {d d' : Decisions} {pre post : List LogLine} {p : LogLine}

theorem latest_plain (hp : p.isPlain = true) (hpost : ∀ l ∈ post, settles d p.id l = false) :
    (resolveScan d (pre ++ p :: post)).latest p.id = some p.entry := by
  rw [resolveScan_latest, settles_last (by simp [settles, hp]) hpost]
  simp [Option.filter, hp]

theorem live_original (hp : p.isPlain = true) :
    (records d' (pre ++ p :: post) p.id).map Record.live =
      ((lastVisible d' p.id post).or (some p)).bind LogLine.live := by
  rw [records_live, lastVisible_append, lastVisible_cons_plain d' hp]
  cases lastVisible d' p.id post <;> rfl

theorem lastVisible_plain (hp : p.isPlain = true)
    (hpost : ∀ l ∈ post, settles d p.id l = false) :
    lastVisible d p.id (pre ++ p :: post) = some p := by
  have hnone : lastVisible d p.id post = none := by
    refine lastOf_eq_none.mpr fun l hl => ?_
    have hl := settles_eq_false.mp (hpost l hl)
    by_cases hid : l.id = p.id
    · simp [(hl hid).2]
    · simp [hid]
  rw [lastVisible_append, lastVisible_cons_plain d hp, hnone]
  rfl

end PlainLast

theorem noEvidence_stamped {d' : Decisions} (hd : d'.Extends d) {ls : List LogLine}
    (h : (resolveScan d ls).hasEvidence id = false) :
    lastOf (fun l => l.id == id && l.visible d' && !l.isPlain) ls = none := by
  rw [resolveScan_hasEvidence] at h
  rw [lastOf_eq_none]
  intro l hl
  have hev := List.any_eq_false.mp h l hl
  cases hv : l.visible d' with
  | false => simp
  | true =>
    rcases l.visible_or_undecided hd hv with h | h
    · by_cases hid : l.id = id <;> simp_all [isEvidence]
    · by_cases hid : l.id = id <;> simp_all [isEvidence]

section PlainLast

variable {d d' : Decisions} {pre post : List LogLine} {p : LogLine}

theorem live_resolved (hd : d'.Extends d) {now : Int} (hp : p.isPlain = true)
    (hpost : ∀ l ∈ post, settles d p.id l = false)
    (hexp : UnexpiredAt d now (pre ++ p :: post) p.id) :
    (records d' (resolveLines (pre ++ p :: post) d now) p.id).map Record.live = p.live := by
  rw [records_live, resolveLines_lastVisible hd, latest_plain hp hpost]
  cases hs : survives (resolveScan d (pre ++ p :: post)) now p.entry with
  | true => simp [Option.filter, hs, LogLine.live]
  | false =>
    obtain ⟨hno, hdrop⟩ := Bool.or_eq_false_iff.mp hs
    have hno : (resolveScan d (pre ++ p :: post)).hasEvidence p.id = false := hno
    rw [noEvidence_stamped hd hno]
    simp only [Option.filter, hs, Bool.false_eq_true, if_false, Option.map_none, Option.none_or,
      Option.bind_none]
    cases hop : p.entry.op with
    | delete => simp [LogLine.live, hop]
    | insert | update =>
      have hex : expired p.entry.expiresAt now = true := by simpa [hop] using hdrop
      have hlive := records_live d (pre ++ p :: post) p.id
      rw [lastVisible_plain hp hpost, Option.bind_some, LogLine.live, hop,
        Option.map_eq_some_iff] at hlive
      obtain ⟨r, hr, hrl⟩ := hlive
      have hdl : r.expiresAt = p.entry.expiresAt := congrArg Prod.snd hrl
      have := hexp r hr
      rw [hdl, hex] at this
      cases this

end PlainLast

theorem resolveLines_lastVisible_overtaken {d' : Decisions} (hd : d'.Extends d) {ls : List LogLine}
    (now : Int) (h : ∀ p, lastOf (settles d id) ls = some p → p.isPlain = false) :
    lastVisible d' id (resolveLines ls d now) = lastVisible d' id ls := by
  have hlat : (resolveScan d ls).latest id = none := by
    rw [resolveScan_latest]
    cases hl : lastOf (settles d id) ls with
    | none => rfl
    | some p => simp [Option.filter, h p hl]
  have hstamped : ∀ post : List LogLine, (∀ l ∈ post, settles d id l = false) →
      lastOf (fun l => l.id == id && l.visible d' && !l.isPlain) post =
        lastVisible d' id post := by
    intro post hpost
    refine lastOf_congr fun l hl => ?_
    by_cases hid : l.id = id
    · simp [(settles_eq_false.mp (hpost l hl) hid).1]
    · simp [hid]
  rw [resolveLines_lastVisible hd, hlat]
  cases hl : lastOf (settles d id) ls with
  | none => exact hstamped ls (lastOf_eq_none.mp hl)
  | some c =>
    obtain ⟨pre, post, rfl, hc, hpost⟩ := lastOf_split hl
    have hplain := h c hl
    have hcid : c.id = id := by simpa using (Bool.and_eq_true_iff.mp hc).1
    have hcv : c.visible d' = true := by
      have := (Bool.and_eq_true_iff.mp hc).2
      rw [hplain, Bool.false_or] at this
      exact c.visible_extends hd this
    rw [lastVisible, Option.filter_none, Option.map_none, Option.none_or, lastOf_append,
      lastOf_append, lastOf_cons, lastOf_cons, hstamped post hpost, lastVisible]
    simp [hcid, hcv, hplain]

/-- Compaction keeps the live data and deadline of an unexpired id under a later table exactly when
no late commit follows the id's surviving plain line. -/
theorem resolveCompactEntries_live_iff (segs : List Segment) (d d' : Decisions)
    (hd : d'.Extends d) (now : Int) (id : Nat) (hexp : UnexpiredAt d now (logOf segs) id) :
    (records d' (resolveCompactEntries segs d now) id).map Record.live =
        (records d' (logOf segs) id).map Record.live ↔
      NoLateCommit d d' (logOf segs) id := by
  unfold resolveCompactEntries
  generalize logOf segs = ls at hexp ⊢
  constructor
  · intro heq pre p post hls hid hp hpost u hu
    subst hls hid
    have hpost' : ∀ l ∈ post, settles d p.id l = false := fun l hl =>
      settles_eq_false.mpr (hpost l hl)
    rw [live_resolved hd hp hpost' hexp, live_original hp, hu] at heq
    exact heq.symm
  · intro hcond
    by_cases h : ∀ p, lastOf (settles d id) ls = some p → p.isPlain = false
    · rw [records_live, records_live, resolveLines_lastVisible_overtaken hd now h]
    · push Not at h
      obtain ⟨p, hl, hp⟩ := h
      obtain ⟨pre, post, rfl, hs, hpost⟩ := lastOf_split hl
      have hid : p.id = id := by simpa using (Bool.and_eq_true_iff.mp hs).1
      have hp : p.isPlain = true := by simpa using hp
      subst hid
      rw [live_resolved hd hp hpost hexp, live_original hp]
      cases hu : lastVisible d' p.id post with
      | none => rfl
      | some u =>
        exact (hcond pre p post rfl rfl hp (fun l hl => settles_eq_false.mp (hpost l hl)) u hu).symm

def flagLine (op : Op) (rev : Nat) (flag : Bool) (tx : Option TxStamp) : Line :=
  { entry := { id := 1, op := op, ts := Rfc3339.zeroTime, rev := rev,
               data := some [("flag", .bool flag)], epoch := 0, expiresAt := 0 }
    tx := tx, len := 1, len_pos := Nat.one_pos }

def openRunSegment : Segment :=
  { num := 1, lines := [flagLine .insert 1 true none, flagLine .update 2 false (some ⟨"t", 0, 1⟩)] }

def noDecisions : Decisions := some fun _ => none

def commitAll : Decisions := some fun _ => some .commit

def abortAll : Decisions := some fun _ => some .abort

theorem extends_noDecisions (d : Decisions) : d.Extends noDecisions := by
  intro t v h; cases h

theorem openRunSegment_unexpired : UnexpiredAt noDecisions 0 (logOf [openRunSegment]) 1 := by
  intro r hr
  have h : records noDecisions (logOf [openRunSegment]) 1 =
      some ⟨some [("flag", .bool true)], 1, 0, 0⟩ := by decide
  cases hr.symm.trans h
  rfl

/-- If the open run aborts, the pass has kept the record. -/
theorem resolveCompactEntries_live_abort :
    (records abortAll (resolveCompactEntries [openRunSegment] noDecisions 0) 1).map Record.live =
      (records abortAll (logOf [openRunSegment]) 1).map Record.live := by
  refine (resolveCompactEntries_live_iff [openRunSegment] noDecisions abortAll
    (extends_noDecisions _) 0 1 openRunSegment_unexpired).mpr ?_
  intro pre p post hls _ _ hpost u hu
  obtain ⟨hmem, hu⟩ := lastOf_some hu
  obtain ⟨hid, hv⟩ := Bool.and_eq_true_iff.mp hu
  have hall : ∀ l ∈ logOf [openRunSegment], l.visible abortAll = true → l.isPlain = true := by
    decide
  have hplain := hall u (by rw [hls]; simp [hmem]) hv
  rw [(hpost u hmem (by simpa using hid)).1] at hplain
  cases hplain

/-- If it commits, the plain insert written behind the run hides the committed update. -/
theorem resolveCompactEntries_hides_commit :
    Decisions.Extends commitAll noDecisions ∧
    UnexpiredAt noDecisions 0 (logOf [openRunSegment]) 1 ∧
    (records commitAll (resolveCompactEntries [openRunSegment] noDecisions 0) 1).map Record.live =
      some (some [("flag", .bool true)], 0) ∧
    (records commitAll (logOf [openRunSegment]) 1).map Record.live =
      some (some [("flag", .bool false)], 0) :=
  ⟨extends_noDecisions _, openRunSegment_unexpired, by decide, by decide⟩

end Scriva
