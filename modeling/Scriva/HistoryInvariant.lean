import Scriva.Integrity
import Scriva.StoreRecovery

namespace Scriva

open KeyedLog List Option Function

/-- Of an id that has a revision, every line is no delete and carries at most that revision. -/
def Covered (m : Nat → Option Nat) (ls : List LogLine) : Prop :=
  ∀ l ∈ ls, ∀ rev, m l.id = some rev → l.entry.op ≠ .delete ∧ l.entry.rev ≤ rev

def Advances (m : Nat → Option Nat) (e : Entry) : Prop :=
  e.op = .update → ∀ rev, m e.id = some rev → rev < e.rev

/-- Behind an entry of its id comes no insert, and behind a delete nothing but deletes. -/
def Follows (a b : Nat × Op) : Prop :=
  a.1 = b.1 → b.2 ≠ .insert ∧ (a.2 = .delete → b.2 = .delete)

section

variable {s t : Collection} {ls : List Line} {chs : List Change} {m : Nat → Option Nat}
  {shown all : List LogLine} {given : List Nat} {top : Nat}

theorem Covered.concat (h : Covered m shown) {l : LogLine} {v : Option Nat}
    (hv : ∀ rev, v = some rev → l.entry.op ≠ .delete ∧ l.entry.rev ≤ rev)
    (hs : ∀ p ∈ shown, p.id = l.id → l.entry.Succeeds p.entry) :
    Covered (Function.update m l.id v) (shown ++ [l]) := by
  intro p hp rev hrev
  rcases Runs.mem_concat hp with hp | rfl
  · by_cases hid : p.id = l.id
    · rw [hid, update_self] at hrev
      obtain ⟨hop, hle⟩ := hv rev hrev
      obtain ⟨hpop, -, hlt⟩ := (hs p hp hid).resolve_left hop
      exact ⟨hpop, by omega⟩
    · rw [update_of_ne hid] at hrev
      exact h p hp rev hrev
  · rw [update_self] at hrev
    exact hv rev hrev

theorem moved_line {l : Line} {ch : Change} (hl : l.entry = ch.entry.persisted) :
    moved m ch.entry = Function.update m l.toLogLine.id
      (if l.toLogLine.entry.op = .delete then none else some l.toLogLine.entry.rev) := by
  rw [LogLine.id, show l.toLogLine.entry = ch.entry.persisted from hl]
  rfl

theorem Covered.moved (h : Covered m shown) {l : Line} {ch : Change}
    (hl : l.entry = ch.entry.persisted)
    (hs : ∀ p ∈ shown, p.id = l.toLogLine.id → l.entry.Succeeds p.entry) :
    Covered (moved m ch.entry) (shown ++ [l.toLogLine]) := by
  rw [moved_line hl]
  refine h.concat (fun rev hrev => ?_) hs
  obtain ⟨hop, hrev⟩ := ite_none_left_eq_some.mp hrev
  exact ⟨hop, (Option.some.inj hrev).le⟩

theorem orderly_succeeds {xs ys : List LogLine} {l : LogLine} (h : Orderly (xs ++ l :: ys)) :
    ∀ p ∈ xs, p.id = l.id → l.entry.Succeeds p.entry :=
  fun p hp => (pairwise_append.mp h).2.2 p hp l (by simp)

theorem putRun_keeps {P : (Nat → Option Nat) → List LogLine → Prop}
    (hstep : ∀ {m shown} {l : Line} {ch : Change}, P m shown → l.entry = ch.entry.persisted →
      (∀ p ∈ shown, p.id = l.toLogLine.id → l.entry.Succeeds p.entry) →
      P (moved m ch.entry) (shown ++ [l.toLogLine]))
    (hc : Carry ls chs) {m : Index} (h : P (revs m) shown)
    (ho : Orderly (shown ++ ls.map Line.toLogLine)) (num off : Nat) :
    P (revs (m.putRun num off ls chs)) (shown ++ ls.map Line.toLogLine) := by
  induction hc generalizing m off shown with
  | nil =>
    rw [map_nil, append_nil]
    exact h
  | @cons l ch ls chs hl _ ih =>
    have hsplit : shown ++ (l :: ls).map Line.toLogLine =
        (shown ++ [l.toLogLine]) ++ ls.map Line.toLogLine := by simp
    rw [putRun_cons, hsplit]
    refine ih ?_ (hsplit ▸ ho) _
    rw [revs_put]
    exact hstep h hl (orderly_succeeds ho)

theorem revs_applyOne (m : Index) (seg off : Nat) (e : Entry) :
    revs (applyOne m seg off e) = Function.update (revs m) e.id
      (if e.op = .delete then none else some (nextRev ((m e.id).elim 0 IndexEntry.rev) e)) := by
  funext id
  unfold applyOne revs
  by_cases hid : id = e.id
  · subst hid
    cases e.op <;> simp
  · cases e.op <;> simp [update_of_ne hid]

theorem replay_keeps {P : Index → List LogLine → Prop} {d : Decisions} {xs : List Located}
    {m : Index} (hstep : ∀ x ∈ xs, ∀ {m shown}, P m shown →
      (∀ p ∈ shown, p.id = x.line.id → x.line.entry.Succeeds p.entry) →
      P (applyOne m x.seg x.offset x.line.entry) (shown ++ [x.line]))
    (h : P m shown) (ho : Orderly (shown ++ (xs.filter (·.visible d)).map Located.line)) :
    P (m.replay d xs) (shown ++ (xs.filter (·.visible d)).map Located.line) := by
  induction xs generalizing m shown with
  | nil =>
    rw [filter_nil, map_nil, append_nil]
    exact h
  | cons x xs ih =>
    rw [replay_cons]
    by_cases hv : x.visible d = true
    · rw [filter_cons_of_pos hv, map_cons] at ho ⊢
      have hsplit : shown ++ x.line :: (xs.filter (·.visible d)).map Located.line =
          (shown ++ [x.line]) ++ (xs.filter (·.visible d)).map Located.line := by simp
      rw [if_pos hv, hsplit]
      exact ih (fun y hy => hstep y (mem_cons_of_mem _ hy))
        (hstep x mem_cons_self h (orderly_succeeds ho)) (hsplit ▸ ho)
    · rw [filter_cons_of_neg hv] at ho ⊢
      rw [if_neg hv]
      exact ih (fun y hy => hstep y (mem_cons_of_mem _ hy)) h ho

theorem rebuild_keeps {P : Index → List LogLine → Prop} {segs : List Segment} (ha : Ascending segs)
    (d : Decisions) (ho : Orderly (logOf segs))
    (hstep : ∀ x ∈ located segs, ∀ {m shown}, P m shown →
      (∀ p ∈ shown, p.id = x.line.id → x.line.entry.Succeeds p.entry) →
      P (applyOne m x.seg x.offset x.line.entry) (shown ++ [x.line])) (h : P .empty []) :
    P (Index.rebuild segs d) ((logOf segs).filter (·.visible d)) := by
  rw [rebuild_eq ha, ← visible_located]
  refine replay_keeps hstep h ?_
  rw [nil_append, visible_located]
  exact ho.sublist filter_sublist

theorem covered_rebuild {segs : List Segment} (ha : Ascending segs) (d : Decisions)
    (ho : Orderly (logOf segs)) :
    Covered (revs (Index.rebuild segs d)) ((logOf segs).filter (·.visible d)) := by
  refine rebuild_keeps (P := fun m => Covered (revs m)) ha d ho (fun x _ m shown h hs => ?_) nofun
  rw [revs_applyOne]
  refine h.concat (fun rev hrev => ?_) hs
  obtain ⟨hop, hrev⟩ := ite_none_left_eq_some.mp hrev
  have hle : x.line.entry.rev ≤ rev := by
    rw [← Option.some.inj hrev]
    exact le_max_right _ _
  exact ⟨hop, hle⟩

theorem LocalEntry.advances {e : Entry} (h : LocalEntry given top m e) : Advances m e := by
  intro hop rev hrev
  unfold LocalEntry at h
  rw [hop] at h
  have h : e.rev = (m e.id).elim 1 (· + 1) := h
  rw [hrev, elim_some] at h
  omega

theorem Advances.congr {m' : Nat → Option Nat} {e : Entry} (hm : m' e.id = m e.id)
    (h : Advances m e) : Advances m' e := by
  intro hop rev hrev
  exact h hop rev (hm ▸ hrev)

theorem orderly_append (hc : Carry ls chs) (ho : Orderly all) (hcov : Covered m shown)
    (hsub : ∀ p ∈ shown, p ∈ all)
    (hadv : Along Advances m (chs.map Change.entry))
    (hins : ∀ ch ∈ chs, ch.entry.op = .insert → ∀ p ∈ all, p.id ≠ ch.entry.id)
    (hupd : ∀ ch ∈ chs, ch.entry.op = .update →
      ((m ch.entry.id).isSome = true ∨ ∀ p ∈ all, p.id ≠ ch.entry.id) ∧
        ∀ p ∈ all, p.id = ch.entry.id → p ∈ shown)
    (hfol : (chs.map Change.sort).Pairwise Follows) :
    Orderly (all ++ ls.map Line.toLogLine) := by
  induction hc generalizing all shown m with
  | nil => simpa using ho
  | @cons l ch ls chs hl _ ih =>
    have hid : l.toLogLine.id = ch.entry.id := by rw [LogLine.id, hl]; rfl
    have hsucc : ∀ p ∈ all, p.id = l.toLogLine.id → l.entry.Succeeds p.entry := by
      intro p hp heq
      rw [hid] at heq
      cases hop : ch.entry.op with
      | delete => exact Or.inl (by rw [hl]; exact hop)
      | insert => exact absurd heq (hins ch (by simp) hop p hp)
      | update =>
        obtain ⟨hthere, hshown⟩ := hupd ch (by simp) hop
        have hsome := hthere.resolve_right fun hnone => hnone p hp heq
        obtain ⟨rev, hrev⟩ := isSome_iff_exists.mp hsome
        obtain ⟨hpop, hle⟩ := hcov p (hshown p hp heq) rev (heq ▸ hrev)
        have hlt := hadv.1 hop rev hrev
        rw [hl]
        exact Or.inr ⟨hpop, hop, by simpa [Entry.persisted] using hle.trans_lt hlt⟩
    have hfol := pairwise_cons.mp hfol
    have hbehind : ∀ ch' ∈ chs, ch.entry.id = ch'.entry.id →
        ch'.entry.op ≠ .insert ∧ (ch.entry.op = .delete → ch'.entry.op = .delete) :=
      fun ch' hch' heq => hfol.1 ch'.sort (mem_map_of_mem hch') heq
    have hnext : Orderly (all ++ [l.toLogLine]) := by
      refine pairwise_append.mpr ⟨ho, pairwise_singleton _ _, fun p hp l' hl' => ?_⟩
      cases mem_singleton.mp hl'
      exact hsucc p hp
    have hout : ∀ ch' ∈ chs, ch.entry.id ≠ ch'.entry.id → (∀ p ∈ all, p.id ≠ ch'.entry.id) →
        ∀ p ∈ all ++ [l.toLogLine], p.id ≠ ch'.entry.id := by
      intro ch' _ hne hall p hp
      rcases Runs.mem_concat hp with hp | rfl
      · exact hall p hp
      · rwa [hid]
    have hrest := ih hnext (hcov.moved hl fun p hp => hsucc p (hsub p hp)) (fun p hp => ?_) hadv.2
      (fun ch' hch' hop => ?_) (fun ch' hch' hop => ⟨?_, fun p hp heq => ?_⟩) hfol.2
    · simpa using hrest
    · rcases mem_append.mp hp with hp | hp
      · exact mem_append_left _ (hsub p hp)
      · exact mem_append_right _ hp
    · have hne : ch.entry.id ≠ ch'.entry.id := fun heq => (hbehind ch' hch' heq).1 hop
      exact hout ch' hch' hne (hins ch' (by simp [hch']) hop)
    · by_cases heq : ch'.entry.id = ch.entry.id
      · have hdel : ch.entry.op ≠ .delete := by
          intro hdel
          rw [(hbehind ch' hch' heq.symm).2 hdel] at hop
          cases hop
        exact Or.inl (by simp [Scriva.moved, heq, hdel])
      · rw [Scriva.moved, update_of_ne heq]
        refine (hupd ch' (by simp [hch']) hop).1.imp id fun hall => ?_
        exact hout ch' hch' (Ne.symm heq) hall
    · rcases mem_append.mp hp with hp | hp
      · exact mem_append_left _ ((hupd ch' (by simp [hch']) hop).2 p hp heq)
      · exact mem_append_right _ hp

/-- The log is orderly and below the counter, and the revisions in memory cover what shows. -/
structure HistInv (s : Collection) : Prop where
  tracks : Tracks s
  orderly : Orderly s.log
  lines_le : ∀ l ∈ s.log, l.id ≤ s.idSeq
  covered : Covered (revs s.index) (s.log.filter (·.visible s.decisions))

/-- Lines that succeed the log's keep it orderly. -/
theorem HistInv.appended (hi : HistInv s) (ha : Appended s ls chs t)
    (hids : ∀ ch ∈ chs, ch.entry.id ≤ t.idSeq)
    (ho : Orderly (s.log ++ ls.map Line.toLogLine)) : HistInv t := by
  have hlog := ha.log
  have hshown : t.log.filter (·.visible t.decisions) =
      s.log.filter (·.visible s.decisions) ++ ls.map Line.toLogLine := by
    rw [hlog, filter_append, filter_congr fun l hl => ha.decides.visible hl]
    congr 1
    refine filter_eq_self.mpr fun l hl => ?_
    obtain ⟨a, hmem, rfl⟩ := mem_map.mp hl
    exact ha.visible a hmem
  refine ⟨(ha.wrote.tracks hi.tracks ⟨ha.counter, fun _ => hids⟩).frame (le_refl _) t.sidxs t.now, ?_,
    fun l hl => ?_, ?_⟩
  · rw [hlog]
    exact ho
  · rcases mem_extended hlog hl with hl | ⟨a, hmem, rfl⟩
    · exact (hi.lines_le l hl).trans ha.counter
    · exact ha.carry.id_le hids a hmem
  · rw [hshown, ha.index]
    exact putRun_keeps (fun h hl hs => h.moved hl hs) ha.carry hi.covered
      (ho.sublist (filter_sublist.append_right _)) _ _

theorem HistInv.leftRun (hi : HistInv s) (hl : LeftRun s ls chs t)
    (hids : ∀ ch ∈ chs, ch.entry.id ≤ s.idSeq)
    (ho : Orderly (s.log ++ ls.map Line.toLogLine)) : HistInv t := by
  have hshown : t.log.filter (·.visible t.decisions) = s.log.filter (·.visible s.decisions) := by
    have hnone : (ls.map Line.toLogLine).filter (·.visible t.decisions) = [] := by
      refine filter_eq_nil_iff.mpr fun l hmem => ?_
      obtain ⟨a, ha, rfl⟩ := mem_map.mp hmem
      simp [hl.hidden a ha]
    rw [hl.log, filter_append, hnone, append_nil]
    exact filter_congr fun l _ => visible_of_get hl.get l
  refine ⟨hl.tracks hi.tracks, ?_, fun l hmem => ?_, ?_⟩
  · rw [hl.log]
    exact ho
  · rw [hl.idSeq]
    rcases mem_extended hl.log hmem with hmem | ⟨a, ha, rfl⟩
    · exact hi.lines_le l hmem
    · exact hl.carry.id_le hids a ha
  · rw [hshown, hl.index]
    exact hi.covered

theorem Entry.Succeeds.of_eq {e e' p p' : Entry} (h : e.Succeeds p) (hop : e'.op = e.op)
    (hrev : e'.rev = e.rev) (hpop : p'.op = p.op) (hprev : p'.rev = p.rev) : e'.Succeeds p' := by
  unfold Entry.Succeeds at h ⊢
  rw [hop, hrev, hpop, hprev]
  exact h

theorem orderly_compact {c : Encoding} {enc : Option Encryptor} {maxSize : Nat}
    {older older' : List Segment} {d : Decisions} {now : Int} {newer : List LogLine}
    (h : compactSegments c enc maxSize older d now = some older')
    (ho : Orderly (logOf older ++ newer))
    (hd : ∀ l ∈ logOf older, l.undecided d = false) : Orderly (logOf older' ++ newer) := by
  obtain ⟨hold, hnew, hcross⟩ := pairwise_append.mp ho
  refine pairwise_append.mpr ⟨?_, hnew, fun l hl b hb heq => ?_⟩
  · rw [(compactSegments_log h).1]
    refine pairwise_map.mpr ?_
    refine (resolveLines_pairwise (P := fun p e => e.Succeeds p) hold hd now).imp
      fun {a b} hab heq => ?_
    obtain ⟨ha, -⟩ := migrate_spec enc a
    obtain ⟨hb, -⟩ := migrate_spec enc b
    have hids : a.id = b.id := by
      rwa [ha.id, hb.id] at heq
    exact (hab hids).of_eq hb.op hb.rev ha.op ha.rev
  · obtain ⟨p, hp, hid, hop, hrev, -⟩ := mem_compactSegments h hl
    exact (hcross p hp b hb (hid.trans heq)).of_eq rfl rfl hop.symm hrev.symm

theorem HistInv.compact {cfg : Config} {k : Nat} {at_ : Int} (hi : HistInv s)
    (hd : ∀ l ∈ logOf (s.sealed.take k), l.undecided s.decisions = false)
    (h : s.compact cfg k at_ = some t) : HistInv t := by
  have htracks := hi.tracks.compact h
  have hlines := compact_lines h
  obtain ⟨segs, hsegs, rfl, hlog⟩ := compact_spec h
  have ho : Orderly (Collection.rebuilt { s with sealed := segs ++ s.sealed.drop k }).log := by
    rw [hlog]
    exact orderly_compact hsegs (log_split s k ▸ hi.orderly) hd
  refine ⟨htracks, ho, fun l hl => ?_, covered_rebuild htracks.ascending s.decisions ho⟩
  obtain ⟨p, hp, hid, -⟩ := hlines l hl
  exact hid ▸ hi.lines_le p hp

theorem Recovered.log_sublist {saved : Option Nat} {kept : Nat} (h : Recovered s saved kept t) :
    t.log.Sublist (logOf s.sealed ++ (s.active.lines.take kept).map Line.toLogLine) := by
  have hlog : t.log = logOf s.sealed ++ t.active.lines.map Line.toLogLine := by
    simp [Collection.log, Collection.segments, logOf, h.sealed]
  rw [hlog]
  exact (h.lines.sublist.map _).append_left _

theorem HistInv.recovered {saved : Option Nat} {kept : Nat} (hi : HistInv s)
    (h : Recovered s saved kept t) (hle : ∀ l ∈ t.log, l.id ≤ t.idSeq) : HistInv t := by
  have hlog : s.log = logOf s.sealed ++ s.active.lines.map Line.toLogLine := by
    simp [Collection.log, Collection.segments, logOf]
  have ho : Orderly t.log := by
    refine hi.orderly.sublist (h.log_sublist.trans ?_)
    rw [hlog]
    exact ((take_sublist _ _).map _).append_left _
  have htracks := h.tracks hi.tracks fun l hl _ => hle l hl
  refine ⟨htracks, ho, hle, ?_⟩
  rw [h.index]
  exact covered_rebuild htracks.ascending t.decisions ho

theorem HistInv.rotate (hi : HistInv s) : HistInv s.rotateSegment := by
  have hlog := rotateSegment_log s
  refine ⟨hi.tracks.rotate, hlog ▸ hi.orderly, fun l hl => hi.lines_le l (hlog ▸ hl), ?_⟩
  rw [hlog]
  exact hi.covered

end

end Scriva
