import Scriva.HistoryRuns

namespace Scriva

open KeyedLog List Option Function

def Store.Writes (x y : Store) (id : Nat) : Prop :=
  ∃ l ∈ newLines x.col y.col, l.entry.id = id

/-- No replicated writes; the ids a caller names for inserts were reserved and not used; a batch
does not go on with an id that it deletes or inserts; every transaction has an outcome; and an open
finds all that a shutdown left. -/
def StoreOp.RevSound (x : Store) : StoreOp → Prop
  | .write op => op.isReplicated = false ∧ (∀ id ∈ op.supplied, id ∈ x.reserved) ∧
      op.staged.Pairwise Follows
  | .leaveRun .. => False
  | .crash kept _ _ => x.saved = some x.col.idSeq ∧ x.col.active.lines.length ≤ kept
  | _ => True

instance : ∀ (x : Store) (op : StoreOp), Decidable (op.RevSound x) := by
  rintro x (_ | _ | _ | _ | _ | _ | _) <;> dsimp only [StoreOp.RevSound] <;> infer_instance

def Attained (m : Nat → Option Nat) (ls : List LogLine) : Prop :=
  ∀ id rev, m id = some rev → ∃ l ∈ ls, l.id = id ∧ l.entry.rev = rev

/-- The log is orderly and shows all its lines, the revisions in memory are those of its lines, and
reserved ids are not used. -/
structure RevInv (x : Store) : Prop where
  hist : HistInv x.col
  shown : ∀ l ∈ x.col.log, l.visible x.col.decisions = true
  attained : Attained (revs x.col.index) x.col.log
  positive : ∀ l ∈ x.col.log, l.entry.op ≠ .delete → 0 < l.entry.rev
  logged : ∀ l ∈ x.col.log, l.id ∈ x.used
  used_le : ∀ id ∈ x.used, id ≤ x.col.idSeq
  reserved_le : ∀ id ∈ x.reserved, id ≤ x.col.idSeq ∧ id ∉ x.used

section

variable {cfg : Config} {x y : Store} {s t : Collection} {ls : List Line} {chs : List Change}
  {m : Nat → Option Nat} {given : List Nat} {top : Nat}

theorem revs_putRun (hc : Carry ls chs) (m : Index) (num off : Nat) :
    revs (m.putRun num off ls chs) = (chs.map Change.entry).foldl moved (revs m) := by
  induction hc generalizing m off with
  | nil => rfl
  | @cons l ch ls chs _ _ ih => rw [putRun_cons, ih, revs_put, map_cons, foldl_cons]

theorem Attained.concat {shown : List LogLine} (h : Attained m shown) {l : LogLine} {v : Option Nat}
    (hv : ∀ rev, v = some rev → l.entry.rev = rev) :
    Attained (Function.update m l.id v) (shown ++ [l]) := by
  intro id rev hrev
  by_cases hid : id = l.id
  · subst hid
    rw [update_self] at hrev
    exact ⟨l, by simp, rfl, hv rev hrev⟩
  · rw [update_of_ne hid] at hrev
    obtain ⟨p, hp, hpid, hprev⟩ := h id rev hrev
    exact ⟨p, mem_append_left _ hp, hpid, hprev⟩

variable {d : Decisions} {es : List Entry} {id rev k n : Nat} {l : LogLine} {op : CollectionOp}
  {at_ : Int}

theorem attained_rebuild {segs : List Segment} (ha : Ascending segs) (d : Decisions)
    (ho : Orderly (logOf segs))
    (hpos : ∀ l ∈ logOf segs, l.entry.op ≠ .delete → 0 < l.entry.rev) :
    Attained (revs (Index.rebuild segs d)) (logOf segs) := by
  have hatt := rebuild_keeps (P := fun m => Attained (revs m)) ha d ho (fun x hx m shown h hs => ?_)
    nofun
  · intro id rev hrev
    obtain ⟨l, hl, hid, hrev⟩ := hatt id rev hrev
    exact ⟨l, (mem_filter.mp hl).1, hid, hrev⟩
  rw [revs_applyOne]
  refine h.concat fun rev hrev => ?_
  obtain ⟨hop, hrev⟩ := ite_none_left_eq_some.mp hrev
  -- the revision before is on an earlier line, which this one goes beyond
  have hbelow : (m x.line.entry.id).elim 0 IndexEntry.rev < x.line.entry.rev := by
    cases hm : m x.line.entry.id with
    | none => exact hpos x.line (mem_located hx) hop
    | some cur =>
      obtain ⟨p, hp, hpid, hprev⟩ := h x.line.entry.id cur.rev (by simp [revs, hm])
      obtain ⟨-, -, hlt⟩ := (hs p hp hpid).resolve_left hop
      simp only [elim_some]
      omega
  rw [← Option.some.inj hrev, nextRev]
  omega

theorem LocalEntries.positive (h : LocalEntries given top m es) :
    ∀ e ∈ es, e.op ≠ .delete → 0 < e.rev := by
  induction es generalizing m with
  | nil => simp
  | cons e es ih =>
    intro e' he' hop
    rcases mem_cons.mp he' with rfl | he'
    · have h := h.1
      unfold LocalEntry at h
      cases hk : e'.op with
      | insert =>
        rw [hk] at h
        omega
      | update =>
        rw [hk] at h
        have h : e'.rev = (m e'.id).elim 1 (· + 1) := h
        cases hm : m e'.id <;> rw [hm] at h <;> simp at h <;> omega
      | delete => exact absurd hk hop
    · exact ih h.2 e' he' hop

theorem moved_absent (hm : m id = none) (h : ∀ e ∈ es, e.id = id → e.op = .delete) :
    es.foldl moved m id = none := by
  induction es generalizing m with
  | nil => exact hm
  | cons e es ih =>
    refine ih ?_ fun e' he' => h e' (by simp [he'])
    by_cases hid : e.id = id
    · subst hid
      simp [moved, h e (by simp) rfl]
    · rw [moved, update_of_ne (Ne.symm hid)]
      exact hm

theorem LocalEntries.rise (h : LocalEntries given top m es)
    (hfol : (es.map fun e => (e.id, e.op)).Pairwise Follows)
    (hnew : ∀ e ∈ es, e.id = id → e.op ≠ .insert) (hm : m id = some rev) :
    ∀ rev', es.foldl moved m id = some rev' →
      rev ≤ rev' ∧ ((∃ e ∈ es, e.id = id) → rev < rev') := by
  induction es generalizing m rev with
  | nil =>
    intro rev' hrev'
    have heq : rev = rev' := Option.some.inj (hm.symm.trans hrev')
    exact ⟨heq.le, by simp⟩
  | cons e es ih =>
    rw [map_cons, pairwise_cons] at hfol
    have hnew' : ∀ e' ∈ es, e'.id = id → e'.op ≠ .insert := fun e' he' => hnew e' (by simp [he'])
    intro rev' hrev'
    rw [foldl_cons] at hrev'
    by_cases hid : e.id = id
    · cases hop : e.op with
      | insert => exact absurd hop (hnew e (by simp) hid)
      | delete =>
        have hgone : es.foldl moved (moved m e) id = none := by
          refine moved_absent (by simp [moved, hid, hop]) fun e' he' hid' => ?_
          exact (hfol.1 (e'.id, e'.op) (mem_map_of_mem he') (hid.trans hid'.symm)).2 hop
        rw [hgone] at hrev'
        cases hrev'
      | update =>
        have hnext : moved m e id = some (rev + 1) := by
          have h := h.1
          unfold LocalEntry at h
          rw [hop] at h
          have h : e.rev = (m e.id).elim 1 (· + 1) := h
          rw [hid, hm] at h
          simp [moved, hid, hop, h]
        obtain ⟨hle, -⟩ := ih h.2 hfol.2 hnew' hnext rev' hrev'
        exact ⟨by omega, fun _ => by omega⟩
    · have hsame : moved m e id = some rev := by
        rw [moved, update_of_ne (Ne.symm hid)]
        exact hm
      obtain ⟨hle, hlt⟩ := ih h.2 hfol.2 hnew' hsame rev' hrev'
      refine ⟨hle, fun hex => hlt ?_⟩
      obtain ⟨e', he', hid'⟩ := hex
      rcases mem_cons.mp he' with rfl | he'
      · exact absurd hid' hid
      · exact ⟨e', he', hid'⟩

theorem visible_decided (h : l.visible d = true) : l.undecided d = false := by
  by_contra hu
  have hnot := (LogLine.undecided_not_visible (by simpa using hu)).1
  rw [h] at hnot
  cases hnot

theorem carried_nil (h : op.isReplicated = false) : op.carried = [] := by
  cases op <;> first | rfl | cases h

theorem RevInv.histSound (hi : RevInv x) {op : StoreOp} (hok : op.RevSound x) : op.HistSound x := by
  cases op with
  | write op =>
    obtain ⟨hrepl, hsupplied, hstaged⟩ := hok
    have hclean : ∀ id, x.col.Clean id := fun id l hl _ => hi.shown l hl
    refine ⟨fun id _ => hclean id, fun id hid => ?_, hstaged, ?_, ?_, ?_⟩
    · obtain ⟨hle, hunused⟩ := hi.reserved_le id (hsupplied id hid)
      exact ⟨hle, fun l hl heq => hunused (heq ▸ hi.logged l hl)⟩
    · simp [carried_nil hrepl]
    · simp [carried_nil hrepl]
    · cases op with
      | compact k at_ =>
        intro l hl
        refine visible_decided (hi.shown l (sealed_mem_log ?_))
        rw [← take_append_drop k x.col.sealed, logOf_append]
        exact mem_append_left _ hl
      | _ => trivial
  | leaveRun => exact hok.elim
  | crash kept committed now =>
    intro l hl
    have hmem : l ∈ x.col.log := by
      rcases mem_append.mp hl with hl | hl
      · exact sealed_mem_log hl
      · obtain ⟨a, ha, rfl⟩ := mem_map.mp hl
        exact active_mem_log (mem_of_mem_take ha)
    rw [Store.Remembers, hok.1]
    exact Or.inl (hi.hist.lines_le l hmem)
  | _ => trivial

theorem RevInv.appended (hi : RevInv x) (ha : Appended x.col ls chs t) (ht : HistInv t)
    (hpos : ∀ e ∈ chs.map Change.entry, e.op ≠ .delete → 0 < e.rev) :
    RevInv { x with col := t
                    reserved := x.reserved.filter (!(ls.map fun l => l.entry.id).contains ·)
                    used := x.used ++ ls.map fun l => l.entry.id } := by
  have hlog := ha.log
  have hnew : ∀ a ∈ ls, a.toLogLine ∈ t.log := by
    intro a ha
    rw [hlog]
    exact mem_append_right _ (mem_map_of_mem ha)
  refine ⟨ht, fun l hl => ?_, ?_, fun l hl hop => ?_, fun l hl => ?_, fun id hid => ?_,
    reserved_left hi.reserved_le ha.counter⟩
  · rcases mem_extended hlog hl with hl | ⟨a, hmem, rfl⟩
    · exact (ha.decides.visible hl).trans (hi.shown l hl)
    · exact ha.visible a hmem
  · show Attained (revs t.index) t.log
    rw [hlog, ha.index]
    refine putRun_keeps (fun h hl _ => ?_) ha.carry hi.attained (hlog ▸ ht.orderly) _ _
    rw [moved_line hl]
    exact h.concat fun rev hrev => Option.some.inj (ite_none_left_eq_some.mp hrev).2
  · rcases mem_extended hlog hl with hl | ⟨a, hmem, rfl⟩
    · exact hi.positive l hl hop
    · have hcarry : List.Forall₂ (fun ch l => l.entry = ch.entry.persisted) chs ls :=
        List.Forall₂.flip ha.carry
      obtain ⟨ch, hch, heq⟩ := Traverse.forall₂_mem hcarry hmem
      have hentry : a.toLogLine.entry = ch.entry.persisted := heq
      rw [hentry] at hop ⊢
      exact hpos ch.entry (mem_map_of_mem hch) hop
  · rcases mem_extended hlog hl with hl | ⟨a, hmem, rfl⟩
    · exact mem_append_left _ (hi.logged l hl)
    · exact mem_append_right _ (mem_map_of_mem hmem)
  · rcases mem_append.mp hid with hid | hid
    · exact (hi.used_le id hid).trans ha.counter
    · obtain ⟨a, hmem, rfl⟩ := mem_map.mp hid
      exact ht.lines_le _ (hnew a hmem)

theorem compactSegments_shown {c : Encoding} {enc : Option Encryptor} {maxSize : Nat}
    {segs segs' : List Segment} {now : Int}
    (h : compactSegments c enc maxSize segs d now = some segs')
    (hall : ∀ p ∈ logOf segs, p.visible d = true) : ∀ l ∈ logOf segs', l.visible d = true := by
  intro l hl
  rw [(compactSegments_log h).1] at hl
  obtain ⟨q, hq, rfl⟩ := mem_map.mp hl
  have hvis : q.visible d = true := by
    unfold resolveLines at hq
    rw [resolveScan_evidence] at hq
    rcases mem_append.mp hq with hq | hq
    · exact hall q (mem_filter.mp hq).1
    · obtain ⟨p, -, -, rfl⟩ := mem_resolvePlain hq
      rfl
  rw [LogLine.visible, (migrate_spec enc q).2]
  exact hvis

theorem RevInv.compact (hi : RevInv x) (ht : HistInv t) (h : x.col.compact cfg k at_ = some t) :
    RevInv { x with col := t } := by
  have hlines := compact_lines h
  have hpos : ∀ l ∈ t.log, l.entry.op ≠ .delete → 0 < l.entry.rev := by
    intro l hl hop
    obtain ⟨p, hp, -, hpop, hprev, -⟩ := hlines l hl
    exact hprev ▸ hi.positive p hp (hpop ▸ hop)
  obtain ⟨segs, hsegs, rfl, hlog⟩ := compact_spec h
  refine ⟨ht, fun l hl => ?_, ?_, hpos, fun l hl => ?_, hi.used_le, hi.reserved_le⟩
  · have hall := hi.shown
    rw [log_split x.col k] at hall
    rw [hlog] at hl
    rcases mem_append.mp hl with hl | hl
    · exact compactSegments_shown hsegs (fun p hp => hall p (mem_append_left _ hp)) l hl
    · exact hall l (mem_append_right _ hl)
  · exact attained_rebuild ht.tracks.ascending _ ht.orderly hpos
  · obtain ⟨p, hp, hid, -⟩ := hlines l hl
    exact hid ▸ hi.logged p hp

theorem trimTail_shown {older : List LogLine} {lines : List Line}
    (h : ∀ l ∈ lines, l.toLogLine.visible d = true) : trimTail d older lines = lines := by
  unfold trimTail
  split
  · rfl
  · next tx htx =>
    split
    · next hcut =>
      obtain ⟨l, hlast, hltx⟩ := bind_eq_some_iff.mp htx
      have hv := h l (mem_of_getLast? hlast)
      simp [LogLine.visible, entryVisible, hltx, hcut.1, hcut.2.1] at hv
    · rfl

theorem recover_segments (hall : ∀ l ∈ s.log, l.visible s.decisions = true) (saved : Option Nat)
    {kept : Nat} (hk : s.active.lines.length ≤ kept) (committed : String → Bool) (now : Int) :
    (s.recover saved kept committed now).active = s.active ∧
      (s.recover saved kept committed now).log = s.log ∧
      (s.recover saved kept committed now).decisions.Extends s.decisions := by
  have htake : s.active.lines.take kept = s.active.lines := take_of_length_le hk
  have hext := resolve_extends s.decisions
    (logOf (s.sealed ++ [{ s.active with lines := s.active.lines.take kept }])) committed
  have hlines : (s.recover saved kept committed now).active.lines = s.active.lines := by
    show trimTail _ _ (s.active.lines.take kept) = _
    rw [htake]
    refine trimTail_shown fun l hl => ?_
    rw [htake] at hext
    exact LogLine.visible_extends hext (hall _ (active_mem_log hl))
  have hactive : (s.recover saved kept committed now).active = s.active := by
    show { s.active with lines := (s.recover saved kept committed now).active.lines } = _
    rw [hlines]
  refine ⟨hactive, ?_, hext⟩
  rw [Collection.log, Collection.segments, hactive]
  rfl

theorem rev_step {op : StoreOp} (hi : RevInv x) (hok : op.RevSound x)
    (h : x.step cfg op = some y) : RevInv y := by
  have hist : HistInv y.col := hist_step hi.hist (hi.histSound hok) h
  cases op with
  | reserveID =>
    cases h
    refine ⟨hist, hi.shown, hi.attained, hi.positive, hi.logged,
      fun id hid => (hi.used_le id hid).trans (Nat.le_succ _), fun id hid => ?_⟩
    rcases Runs.mem_concat hid with hid | rfl
    · obtain ⟨hle, hun⟩ := hi.reserved_le id hid
      exact ⟨hle.trans (Nat.le_succ _), hun⟩
    · refine ⟨le_refl _, fun hused => ?_⟩
      have hle := hi.used_le _ hused
      omega
  | write op =>
    obtain ⟨hup, h⟩ := ite_none_left_eq_some.mp h
    obtain ⟨t, ht, rfl⟩ := map_eq_some_iff.mp h
    rcases op.kinds with hk | hk | hk | hk | ⟨k, at_, rfl⟩
    · exact absurd hk hup
    · obtain ⟨ls, chs, hw⟩ := step_locally hk ht
      simp only [hw.newLines]
      exact hi.appended hw.toAppended hist hw.entries.positive
    · rw [hok.1] at hk
      cases hk
    · have ha := step_still hk ht
      simp only [ha.newLines]
      exact hi.appended ha hist (by simp)
    · simp only [compact_newLines ht]
      simpa using hi.compact hist ht
  | leaveRun => exact hok.elim
  | rotate metaWritten =>
    cases h
    have hlog := rotateSegment_log x.col
    refine ⟨hist, fun l hl => hi.shown l (hlog ▸ hl), ?_, fun l hl => hi.positive l (hlog ▸ hl),
      fun l hl => hi.logged l (hlog ▸ hl), hi.used_le, hi.reserved_le⟩
    show Attained (revs x.col.index) x.col.rotateSegment.log
    rw [hlog]
    exact hi.attained
  | writeMeta | loseMeta =>
    cases h
    exact ⟨hi.hist, hi.shown, hi.attained, hi.positive, hi.logged, hi.used_le, hi.reserved_le⟩
  | crash kept committed now =>
    obtain ⟨-, rfl⟩ := Runs.barred h
    obtain ⟨-, hlog, hext⟩ := recover_segments hi.shown x.saved hok.2 committed now
    have hseq : x.col.idSeq ≤ (x.col.recover x.saved kept committed now).idSeq := by
      show _ ≤ restoredCounter x.saved _ _
      rw [hok.1]
      exact le_max_left _ _
    have hpos : ∀ l ∈ (x.col.recover x.saved kept committed now).log,
        l.entry.op ≠ .delete → 0 < l.entry.rev := fun l hl => hi.positive l (hlog ▸ hl)
    refine ⟨hist, fun l hl => ?_, ?_, hpos, fun l hl => ?_, fun id hid => ?_, by simp⟩
    · exact LogLine.visible_extends hext (hi.shown l (hlog ▸ hl))
    · exact attained_rebuild hist.tracks.ascending _ hist.orderly hpos
    · exact mem_append_left _ (hi.logged l (hlog ▸ hl))
    · rcases mem_append.mp hid with hid | hid
      · exact (hi.used_le id hid).trans hseq
      · obtain ⟨l, hl, rfl⟩ := mem_map.mp hid
        have hmem := (mem_filter.mp hl).1
        exact (hi.used_le _ (hi.logged l (hlog ▸ hmem))).trans hseq

theorem Store.Created.revInv (h : x.Created) : RevInv x := by
  have hnone : ∀ l ∈ x.col.log, False := by simp [h.empty]
  refine ⟨h.histInv, fun l hl => (hnone l hl).elim, fun id rev hrev => ?_,
    fun l hl => (hnone l hl).elim, fun l hl => (hnone l hl).elim, by simp [h.unused.2],
    by simp [h.unused.1]⟩
  have hsome : (x.col.index id).isSome = true := by
    obtain ⟨e, he, -⟩ := map_eq_some_iff.mp hrev
    simp [he]
  obtain ⟨l, hl, -⟩ := indexed_visible h.histInv.tracks hsome
  exact (hnone l hl).elim

/-- The record has been used, and its revision is at least `n` while it is there. -/
def Store.Floor (x : Store) (id n : Nat) : Prop :=
  id ∈ x.used ∧ ∀ rev, revs x.col.index id = some rev → n ≤ rev

theorem RevInv.line_le (hi : RevInv x) (hrev : revs x.col.index id = some rev) (hl : l ∈ x.col.log)
    (hid : l.id = id) : l.entry.op ≠ .delete ∧ l.entry.rev ≤ rev :=
  hi.hist.covered l (mem_filter.mpr ⟨hl, hi.shown l hl⟩) rev (hid ▸ hrev)

theorem revs_isSome {m : Index} : (revs m id).isSome = (m id).isSome := by
  simp [revs]

/-- The line with the revision in memory is the last of its record. -/
theorem RevInv.no_later (hi : RevInv x) (hrev : revs x.col.index id = some rev)
    {older newer : List LogLine} (hlog : x.col.log = older ++ newer) (hl : l ∈ older)
    (hid : l.id = id) (hlrev : l.entry.rev = rev) : ∀ p ∈ newer, p.id ≠ id := by
  intro p hp hpid
  have ho := hi.hist.orderly
  rw [hlog] at ho
  have hsucc := (pairwise_append.mp ho).2.2 l hl p hp (hid.trans hpid.symm)
  obtain ⟨hop, hle⟩ := hi.line_le hrev (hlog ▸ mem_append_right _ hp) hpid
  obtain ⟨-, -, hlt⟩ := hsucc.resolve_left hop
  omega

theorem RevInv.compact_rev (hi : RevInv x) (ht : RevInv { x with col := t })
    (h : x.col.compact cfg k at_ = some t) {rev' : Nat} (hrev' : revs t.index id = some rev') :
    ∃ rev, revs x.col.index id = some rev ∧ rev ≤ rev' := by
  have hthere : (t.index id).isSome = true := by
    rw [← revs_isSome, hrev']
    rfl
  obtain ⟨segs, hsegs, ht', hlog⟩ := compact_spec h
  have hd : t.decisions = x.col.decisions := by
    rw [ht']
    rfl
  have hsplit := log_split x.col k
  have hsome : (revs x.col.index id).isSome = true := by
    rw [revs_isSome, hi.hist.tracks.present, isSome_iff_ne_none]
    intro hnone
    rw [hsplit, ← logOf_append] at hnone
    have habs := compact_absent hsegs hnone
    rw [ht.hist.tracks.present, hlog, hd, ← logOf_append, habs] at hthere
    cases hthere
  obtain ⟨rev, hrev⟩ := isSome_iff_exists.mp hsome
  refine ⟨rev, hrev, ?_⟩
  have hcov : ∀ l ∈ t.log, l.id = id → l.entry.rev ≤ rev' :=
    fun l hl hid => (ht.line_le hrev' hl hid).2
  obtain ⟨l, hl, hid, hlrev⟩ := hi.attained id rev hrev
  rw [hsplit] at hl
  rcases mem_append.mp hl with hl | hl
  · have hlater := hi.no_later hrev hsplit hl hid hlrev
    have hmem : l ∈ ofId x.col.decisions id (logOf (x.col.sealed.take k)) := by
      refine mem_filter.mpr ⟨hl, ?_⟩
      simp [hid, hi.shown l (hsplit ▸ mem_append_left _ hl)]
    have hc := resolved_compacted cfg.enc x.col.decisions (logOf (x.col.sealed.take k)) at_ id
    rw [← (compactSegments_log hsegs).1] at hc
    have hof : ∀ q ∈ ofId x.col.decisions id (logOf segs), q ∈ t.log ∧ q.id = id := by
      intro q hq
      obtain ⟨hq, hp⟩ := mem_filter.mp hq
      rw [hlog]
      exact ⟨mem_append_left _ hq, by simpa using (Bool.and_eq_true_iff.mp hp).1⟩
    generalize hX : ofId x.col.decisions id (logOf (x.col.sealed.take k)) = X at hmem hc
    generalize hO : ofId x.col.decisions id (logOf segs) = O at hof hc
    cases hc with
    | absent => cases hmem
    | @kept Y p q hm =>
      obtain ⟨hq, hqid⟩ := hof q (by simp)
      have hle := hcov q hq hqid
      rw [hm.rev] at hle
      rcases Runs.mem_concat hmem with hmem | rfl
      · have hold : Orderly (Y ++ [p]) := by
          have ho := hi.hist.orderly
          rw [hsplit] at ho
          rw [← hX]
          exact (pairwise_append.mp ho).1.sublist filter_sublist
        have hp : p ∈ x.col.log ∧ p.id = id := by
          have hp : p ∈ ofId x.col.decisions id (logOf (x.col.sealed.take k)) := by simp [hX]
          obtain ⟨hp, hpid⟩ := mem_filter.mp hp
          rw [hsplit]
          exact ⟨mem_append_left _ hp, by simpa using (Bool.and_eq_true_iff.mp hpid).1⟩
        obtain ⟨hop, -⟩ := hi.line_le hrev hp.1 hp.2
        obtain ⟨-, -, hlt⟩ :=
          (orderly_succeeds hold l hmem (hid.trans hp.2.symm)).resolve_left hop
        omega
      · omega
    | dropped =>
      -- nothing of the record is left
      obtain ⟨p, hp, hv, hpid⟩ := indexed_visible ht.hist.tracks hthere
      have hp : p ∈ t.log := hp
      rw [hlog] at hp
      rcases mem_append.mp hp with hp | hp
      · have hnil : p ∈ ofId x.col.decisions id (logOf segs) := by
          refine mem_filter.mpr ⟨hp, ?_⟩
          have hv : p.visible t.decisions = true := hv
          rw [hd] at hv
          simp [hpid, hv]
        rw [hO] at hnil
        cases hnil
      · exact absurd hpid (hlater p hp)
  · have hle := hcov l (hlog ▸ mem_append_right _ hl) hid
    omega

theorem Appended.writes {x y : Store} (h : Appended x.col ls chs y.col) :
    x.Writes y id ↔ ∃ e ∈ chs.map Change.entry, e.id = id := by
  have hids : (∃ l ∈ ls, l.entry.id = id) ↔ id ∈ ls.map fun l => l.entry.id := by simp
  rw [Store.Writes, h.newLines, hids, h.carry.ids]
  simp

theorem not_writes (h : newLines x.col y.col = []) : ¬ x.Writes y id := by
  rintro ⟨l, hl, -⟩
  rw [h] at hl
  cases hl

theorem Store.Floor.quiet (hf : x.Floor id n) (hused : x.used ⊆ y.used)
    (hlines : newLines x.col y.col = []) (hrev : ∀ rev', revs y.col.index id = some rev' →
      ∃ rev, revs x.col.index id = some rev ∧ rev ≤ rev') :
    y.Floor id n ∧ (x.Writes y id → y.Floor id (n + 1)) := by
  refine ⟨⟨hused hf.1, fun rev' hrev' => ?_⟩, fun hw => absurd hw (not_writes hlines)⟩
  obtain ⟨rev, hrev, hle⟩ := hrev rev' hrev'
  exact (hf.2 rev hrev).trans hle

theorem RevInv.not_inserted (hi : RevInv x) (hid : id ∈ x.used)
    (hsupplied : ∀ id ∈ op.supplied, id ∈ x.reserved) (hw : WritesLocally cfg op x.col ls chs t) :
    ∀ e ∈ chs.map Change.entry, e.id = id → e.op ≠ .insert := by
  intro e he heq hop
  have hmem : id ∈ insertedIDs (chs.map Change.entry) :=
    mem_map.mpr ⟨e, mem_filter.mpr ⟨he, by simp [hop]⟩, heq⟩
  rcases hw.entries.inserted hmem with hgt | hgiven
  · have hle := hi.used_le id hid
    omega
  · exact (hi.reserved_le id (hsupplied id hgiven)).2 hid

theorem WritesLocally.follows (hw : WritesLocally cfg op s ls chs t)
    (hstaged : op.staged.Pairwise Follows) :
    ((chs.map Change.entry).map fun e => (e.id, e.op)).Pairwise Follows := by
  have hfol : (chs.map Change.sort).Pairwise Follows := by
    rcases hw.ordered with hnodup | heq
    · exact follows_of_nodup hnodup
    · rw [heq]
      exact hstaged
  rw [List.map_map]
  exact hfol

theorem Store.Floor.locally (hf : x.Floor id n) (hi : RevInv x)
    (hsupplied : ∀ id ∈ op.supplied, id ∈ x.reserved) (hstaged : op.staged.Pairwise Follows)
    (hw : WritesLocally cfg op x.col ls chs y.col) (hused : x.used ⊆ y.used) :
    y.Floor id n ∧ (x.Writes y id → y.Floor id (n + 1)) := by
  have hindex : revs y.col.index = (chs.map Change.entry).foldl moved (revs x.col.index) := by
    rw [hw.index, revs_putRun hw.carry]
  have hnew := hi.not_inserted hf.1 hsupplied hw
  rw [hw.toAppended.writes]
  cases hrev : revs x.col.index id with
  | none =>
    -- a record that is not there is not written
    have hnone : ∀ e ∈ chs.map Change.entry, e.id ≠ id := by
      intro e he heq
      obtain ⟨ch, hch, rfl⟩ := mem_map.mp he
      have hthere := hw.targets ch hch (hnew _ he heq)
      rw [heq, ← revs_isSome, hrev] at hthere
      cases hthere
    have habs : revs y.col.index id = none := by
      rw [hindex]
      exact moved_absent hrev fun e he heq => absurd heq (hnone e he)
    refine ⟨⟨hused hf.1, by simp [habs]⟩, fun hex => ?_⟩
    obtain ⟨e, he, heq⟩ := hex
    exact absurd heq (hnone e he)
  | some rev =>
    have hle := hf.2 rev hrev
    have hrise := hw.entries.rise (hw.follows hstaged) hnew hrev
    rw [← hindex] at hrise
    refine ⟨⟨hused hf.1, fun rev' hrev' => ?_⟩, fun hex => ⟨hused hf.1, fun rev' hrev' => ?_⟩⟩
    · exact hle.trans (hrise rev' hrev').1
    · have hlt := (hrise rev' hrev').2 hex
      omega

/-- A revision does not fall, and a write makes it rise. -/
theorem floor_step {op : StoreOp} (hf : x.Floor id n) (hi : RevInv x) (hok : op.RevSound x)
    (h : x.step cfg op = some y) : y.Floor id n ∧ (x.Writes y id → y.Floor id (n + 1)) := by
  have hnext : RevInv y := rev_step hi hok h
  have hsame : ∀ {m : Index}, m = x.col.index → ∀ rev', revs m id = some rev' →
      ∃ rev, revs x.col.index id = some rev ∧ rev ≤ rev' :=
    fun hm rev' hrev' => ⟨rev', hm ▸ hrev', le_refl _⟩
  cases op with
  | reserveID =>
    cases h
    exact hf.quiet (List.Subset.refl _) (newLines_self rfl) (hsame rfl)
  | write op =>
    obtain ⟨hup, h⟩ := ite_none_left_eq_some.mp h
    obtain ⟨t, ht, rfl⟩ := map_eq_some_iff.mp h
    have hused : x.used ⊆ x.used ++ (newLines x.col t).map fun l => l.entry.id :=
      subset_append_left _ _
    rcases op.kinds with hk | hk | hk | hk | ⟨k, at_, rfl⟩
    · exact absurd hk hup
    · obtain ⟨ls, chs, hw⟩ := step_locally hk ht
      exact hf.locally hi hok.2.1 hok.2.2 hw hused
    · rw [hok.1] at hk
      cases hk
    · have ha := step_still hk ht
      exact hf.quiet hused ha.newLines (hsame ha.index)
    · have hlines := compact_newLines ht
      refine hf.quiet hused hlines fun rev' hrev' => hi.compact_rev ?_ ht hrev'
      simpa [hlines] using hnext
  | leaveRun => exact hok.elim
  | rotate metaWritten =>
    cases h
    exact hf.quiet (List.Subset.refl _) (by simp [newLines, Collection.rotateSegment]) (hsame rfl)
  | writeMeta | loseMeta =>
    cases h
    exact hf.quiet (List.Subset.refl _) (newLines_self rfl) (hsame rfl)
  | crash kept committed now =>
    obtain ⟨-, rfl⟩ := Runs.barred h
    obtain ⟨hactive, hlog, hext⟩ := recover_segments hi.shown x.saved hok.2 committed now
    refine hf.quiet (subset_append_left _ _) (newLines_self hactive) fun rev' hrev' => ?_
    -- the records are those of before, and the last line of each is still there
    have hrecords : records (x.col.recover x.saved kept committed now).decisions
        (x.col.recover x.saved kept committed now).log = records x.col.decisions x.col.log := by
      rw [hlog]
      refine records_congr fun l hl => ?_
      rw [hi.shown l hl]
      exact LogLine.visible_extends hext (hi.shown l hl)
    have hsome : (revs x.col.index id).isSome = true := by
      have hthere := congrArg Option.isSome hrev'
      rw [revs_isSome, hnext.hist.tracks.present, hrecords] at hthere
      rw [revs_isSome, hi.hist.tracks.present]
      exact hthere
    obtain ⟨rev, hrev⟩ := isSome_iff_exists.mp hsome
    obtain ⟨l, hl, hid, rfl⟩ := hi.attained id rev hrev
    exact ⟨_, hrev, (hnext.line_le hrev' (hlog ▸ hl) hid).2⟩

end

end Scriva
