import Scriva.ScanPlaces

namespace Scriva.Scanning

open List Option

inductive Job where
  | segments (rest : List (Nat × Nat))
  | candidates (rest : List Nat)
deriving DecidableEq

structure Scanner where
  view : ScanView
  keep : Data → Bool
  job : Job
  out : List ScanResult
  failed : Option ScanErr

/-- A collection, the texts between the newlines of its segment files, what stands behind the last
newline of the active one, and a scan. -/
structure World where
  col : Collection
  files : Nat → List (List Char)
  torn : List Char
  scan : Option Scanner

/-- The texts of a file have the bytes of the lines it is taken for, and decode to them if they
decode at all. -/
def backs : List (List Char) → List Line → Bool
  | [], [] => true
  | text :: texts, l :: ls =>
    !text.isEmpty && lineBytes text == l.len &&
      (match decodeLine text with
        | .ok found => decide (found = l.toLogLine)
        | .error _ => true) && backs texts ls
  | _, _ => false

def World.texts (w : World) (num : Nat) : List (List Char) :=
  w.files num ++ if num = w.col.active.num ∧ w.torn ≠ [] then [w.torn] else []

def World.content (w : World) (num : Nat) : Content :=
  contentFrom 0 (w.texts num)

def Scanner.start (s : Collection) (ids : Option (List Nat)) (keep : Data → Bool) : Scanner :=
  { view := s.captureView s.now ids
    keep := keep
    job := match ids with
      | none => .segments (s.segments.map fun g => (g.num, g.size))
      | some ids => .candidates (ids.insertionSort (· ≤ ·))
    out := []
    failed := none }

def Scanner.advance (content : Nat → Content) (sc : Scanner) : Option Scanner :=
  if sc.failed.isSome then none
  else match sc.job with
    | .segments [] | .candidates [] => none
    | .segments ((seg, stop) :: rest) =>
      match sc.view.scanSegment content sc.keep seg stop (content seg) with
      | .ok found => some { sc with job := .segments rest, out := sc.out ++ found }
      | .error err => some { sc with failed := some err }
    | .candidates (id :: rest) =>
      match sc.view.visitCandidate content sc.keep id with
      | .ok found => some { sc with job := .candidates rest, out := sc.out ++ found.toList }
      | .error err => some { sc with failed := some err }

/-- An operation leaves the texts of the files; `tear` is a write of which only a part is in the
file, being made or given up. -/
inductive Act where
  | op (o : CollectionOp) (files : Nat → List (List Char))
  | tear (part : List Char)
  | capture (ids : Option (List Nat)) (keep : Data → Bool)
  | read

def CollectionOp.isCompact : CollectionOp → Bool
  | .compact .. => true
  | _ => false

def CollectionOp.isReopen : CollectionOp → Bool
  | .reopen .. => true
  | _ => false

def World.writes (w : World) (o : CollectionOp) (files : Nat → List (List Char)) (t : Collection) :
    Bool :=
  t.segments.all (fun g => backs (files g.num) g.lines) &&
    (CollectionOp.isCompact o ||
      w.col.segments.all fun g => (w.files g.num).isPrefixOf (files g.num))

def World.step (cfg : Config) (w : World) : Act → Option World
  | .op o files =>
    if w.scan.isSome && CollectionOp.isCompact o then some w
    else if w.scan.isSome && CollectionOp.isReopen o then none
    else do
      let t ← w.col.step cfg o
      guard (w.writes o files t)
      return { w with col := t, files := files, torn := [] }
  | .tear part => if part.contains '\n' then none else some { w with torn := part }
  | .capture ids keep =>
    if w.scan.isSome then none
    else some { w with scan := some (Scanner.start w.col ids keep) }
  | .read => do
    let sc ← w.scan
    let sc ← sc.advance w.content
    return { w with scan := some sc }

def Scanner.finished (sc : Scanner) : Prop :=
  sc.failed.isSome = true ∨ sc.job = .segments [] ∨ sc.job = .candidates []

instance (sc : Scanner) : Decidable sc.finished :=
  inferInstanceAs (Decidable (_ ∨ _))

def Job.left : Job → Nat
  | .segments rest => rest.length
  | .candidates rest => rest.length

def Job.reading : Job → Option (Nat × Nat)
  | .segments (q :: _) => some q
  | _ => none

/-- A scan reads where every line before the captured ends decodes, and so does what stands behind
the captured end of the segment it reads, if anything. -/
def Act.ReadSound (w : World) : Act → Prop
  | .read => ∀ sc ∈ w.scan,
      (∀ q ∈ sc.view.segs, ∀ p ∈ w.content q.1, p.1 < q.2 → p.2.isOk = true) ∧
      ∀ q ∈ sc.job.reading, ∀ p ∈ (w.content q.1).find? (fun p => q.2 ≤ p.1), p.2.isOk = true
  | _ => True

/-- The records of a collection that the index describes, unexpired and kept by the filter; an
index-served scan looks at its candidates. -/
def Described (s : Collection) (ids : Option (List Nat)) (keep : Data → Bool) (r : ScanResult) :
    Prop :=
  (∀ l ∈ ids, r.id ∈ l) ∧ ∃ loc e, s.index r.id = some loc ∧ expired loc.expiresAt s.now = false ∧
    readEntry s.segments loc = some e ∧ keep (e.data.getD []) = true ∧
    r = { id := r.id, rev := loc.rev, data := e.data, ts := e.ts }

section

variable {cfg : Config} {s : Collection} {w w' : World} {keep : Data → Bool} {ls : List Line}
  {texts : List (List Char)} {off : Nat}

theorem contentFrom_append (off : Nat) (xs ys : List (List Char)) :
    contentFrom off (xs ++ ys) =
      contentFrom off xs ++ contentFrom (off + (xs.map lineBytes).sum) ys := by
  induction xs generalizing off with
  | nil => rfl
  | cons x xs ih =>
    have hsum : ((x :: xs).map lineBytes).sum = lineBytes x + (xs.map lineBytes).sum := by simp
    rw [cons_append, contentFrom, contentFrom, ih, ih, hsum, ← Nat.add_assoc]
    split
    · next hx =>
      have hx : x = [] := List.isEmpty_iff.mp hx
      subst hx
      rfl
    · rfl

def yielded (off : Nat) (ls : List Line) : Content :=
  (withOffsets off ls).map fun p => (p.1, .ok p.2.toLogLine)

theorem backs_cons {text : List Char} {l : Line} (h : backs (text :: texts) (l :: ls) = true) :
    text.isEmpty = false ∧ lineBytes text = l.len ∧
      (∀ found, decodeLine text = .ok found → found = l.toLogLine) ∧ backs texts ls = true := by
  unfold backs at h
  simp only [Bool.and_eq_true, Bool.not_eq_true', beq_iff_eq] at h
  obtain ⟨⟨⟨hempty, hlen⟩, hdec⟩, hrest⟩ := h
  refine ⟨hempty, hlen, fun found hfound => ?_, hrest⟩
  rw [hfound] at hdec
  exact of_decide_eq_true hdec

theorem backs_sizes (h : backs texts ls = true) : (texts.map lineBytes).sum = sizeOf ls := by
  induction texts generalizing ls with
  | nil =>
    cases ls with
    | nil => rfl
    | cons l ls => cases h
  | cons text texts ih =>
    cases ls with
    | nil => cases h
    | cons l ls =>
      obtain ⟨-, hlen, -, hrest⟩ := backs_cons h
      simp [hlen, ih hrest, sizeOf]

theorem backs_content (h : backs texts ls = true)
    (hok : ∀ p ∈ contentFrom off texts, p.2.isOk = true) :
    contentFrom off texts = yielded off ls := by
  induction texts generalizing off ls with
  | nil =>
    cases ls with
    | nil => rfl
    | cons l ls => cases h
  | cons text texts ih =>
    cases ls with
    | nil => cases h
    | cons l ls =>
      obtain ⟨hempty, hlen, hdec, hrest⟩ := backs_cons h
      rw [contentFrom, hempty, if_neg (by simp)] at hok ⊢
      have hfirst : decodeLine text = .ok l.toLogLine := by
        have hok := hok (off, decodeLine text) (by simp)
        cases hd : decodeLine text with
        | error err =>
          rw [hd] at hok
          cases hok
        | ok found => rw [hdec found hd]
      rw [hlen] at hok ⊢
      rw [hfirst, ih hrest fun p hp => hok p (mem_cons_of_mem _ hp)]
      rfl

theorem contentFrom_le {p : Nat × Except WireErr LogLine} (h : p ∈ contentFrom off texts) :
    off ≤ p.1 := by
  induction texts generalizing off with
  | nil => cases h
  | cons text texts ih =>
    rw [contentFrom] at h
    split at h
    · have := ih h
      omega
    · rcases mem_cons.mp h with rfl | h
      · exact le_refl _
      · have := ih h
        omega

theorem contentFrom_lt {p : Nat × Except WireErr LogLine} (h : p ∈ contentFrom off texts) :
    p.1 < off + (texts.map lineBytes).sum := by
  induction texts generalizing off with
  | nil => cases h
  | cons text texts ih =>
    have hsum : ((text :: texts).map lineBytes).sum = lineBytes text + (texts.map lineBytes).sum := by
      simp
    have hpos : 0 < lineBytes text := Nat.succ_pos _
    rw [contentFrom] at h
    split at h
    · next hx =>
      have hx : text = [] := List.isEmpty_iff.mp hx
      subst hx
      have hone : lineBytes [] = 1 := rfl
      have := ih h
      omega
    · rcases mem_cons.mp h with rfl | h
      · show off < _
        omega
      · have := ih h
        omega

theorem readAt_yielded {p : Nat × Line} (h : p ∈ withOffsets 0 ls) (behind : Content) :
    readAt (yielded 0 ls ++ behind) p.1 = some p.2.entry := by
  have hmem : (p.1, Except.ok p.2.toLogLine) ∈ yielded 0 ls :=
    mem_map.mpr ⟨p, h, rfl⟩
  unfold readAt
  rw [List.find?_append]
  cases hf : (yielded 0 ls).find? (fun q => q.1 == p.1) with
  | none =>
    have := List.find?_eq_none.mp hf _ hmem
    simp at this
  | some q =>
    obtain ⟨q', hq', rfl⟩ := mem_map.mp (mem_of_find?_eq_some hf)
    have hoff : q'.1 = p.1 := by simpa using List.find?_some hf
    -- offsets rise along a file, so no two lines start at one
    have heq : q' = p := by
      have hn : ((withOffsets 0 ls).map Prod.fst).Nodup :=
        pairwise_map.mpr ((withOffsets_pairwise 0 ls).imp fun hlt => hlt.ne)
      exact inj_on_of_nodup_map hn hq' h hoff
    rw [heq]
    rfl

def emit (s : Collection) (keep : Data → Bool) (x : Located) : Option ScanResult :=
  (s.index x.id).bind fun loc =>
    if (x.seg = loc.seg ∧ x.offset = loc.offset) ∧ x.line.entry.op ≠ .delete ∧
        expired loc.expiresAt s.now = false ∧ keep (x.line.entry.data.getD []) = true then
      some { id := x.id, rev := loc.rev, data := x.line.entry.data, ts := x.line.entry.ts }
    else none

def emitID (s : Collection) (keep : Data → Bool) (id : Nat) : Option ScanResult :=
  (s.index id).bind fun loc => (readEntry s.segments loc).bind fun e =>
    if expired loc.expiresAt s.now = false ∧ keep (e.data.getD []) = true then
      some { id := id, rev := loc.rev, data := e.data, ts := e.ts }
    else none

def Yields (s : Collection) (content : Nat → Content) : Prop :=
  ∀ g ∈ s.segments, ∃ behind, content g.num = yielded 0 g.lines ++ behind

theorem target_eq (ha : Addressed s) {content : Nat → Content} (hy : Yields s content)
    (view : ScanView) (hsegs : view.segs = s.segments.map fun g => (g.num, g.size)) {id : Nat}
    {loc : IndexEntry} (hloc : s.index id = some loc) :
    ∃ e, readEntry s.segments loc = some e ∧ view.target content loc = some e ∧ e.id = id := by
  obtain ⟨x, hx, hseg, hoff, hid, -⟩ := ha.sited id loc hloc
  have hread := readEntry_at ha.ascending hx hseg hoff
  refine ⟨x.line.entry, hread, ?_, hid⟩
  obtain ⟨g, hg, hxg, hnum⟩ := located_seg hx
  obtain ⟨p, hp, rfl⟩ := mem_map.mp hxg
  obtain ⟨behind, hbehind⟩ := hy g hg
  have hmem : loc.seg ∈ view.segs.map Prod.fst := by
    rw [hsegs, List.map_map, ← hseg]
    exact mem_map.mpr ⟨g, hg, rfl⟩
  unfold ScanView.target
  rw [if_pos hmem, ← hseg, ← hoff]
  show readAt (content g.num) p.1 = _
  rw [hbehind]
  exact readAt_yielded hp behind

theorem visit_read (keep : Data → Bool) {content : Nat → Content}
    (hread : ∀ id loc, s.index id = some loc → ∃ e,
      (s.captureView s.now none).target content loc = some e ∧ e.id = id) (x : Located) :
    (s.captureView s.now none).visit content keep x.seg x.offset x.line.entry =
      .ok (emit s keep x) := by
  unfold ScanView.visit emit
  have hlocs : (s.captureView s.now none).locs x.line.entry.id = s.index x.line.entry.id := rfl
  have hid : x.id = x.line.entry.id := rfl
  rw [hlocs, hid]
  cases hloc : s.index x.line.entry.id with
  | none => rfl
  | some loc =>
    simp only [bind_some]
    by_cases hplace : x.seg = loc.seg ∧ x.offset = loc.offset
    · have hhere : ¬ (loc.seg ≠ x.seg ∨ loc.offset ≠ x.offset) := by
        rw [hplace.1, hplace.2]
        simp
      rw [if_neg hhere]
      show (if x.line.entry.op = .delete ∨ expired loc.expiresAt s.now = true then _ else _) = _
      by_cases hop : x.line.entry.op = .delete
      · simp [hop]
      · cases hexp : expired loc.expiresAt s.now with
        | true => simp
        | false => cases hk : keep (x.line.entry.data.getD []) <;> simp [hop, hplace]
    · have haway : loc.seg ≠ x.seg ∨ loc.offset ≠ x.offset := by
        by_contra hsame
        push Not at hsame
        exact hplace ⟨hsame.1.symm, hsame.2.symm⟩
      obtain ⟨e, htarget, he⟩ := hread _ _ hloc
      rw [if_pos haway, htarget]
      simp [he, hplace]

theorem visit_eq (keep : Data → Bool) (ha : Addressed s) {content : Nat → Content}
    (hy : Yields s content) (x : Located) :
    (s.captureView s.now none).visit content keep x.seg x.offset x.line.entry =
      .ok (emit s keep x) :=
  visit_read keep (fun _ _ hloc =>
    (target_eq ha hy (s.captureView s.now none) rfl hloc).imp fun _ h => h.2) x

theorem scanSegment_eq (keep : Data → Bool) (ha : Addressed s) {content : Nat → Content}
    (hy : Yields s content) (num start : Nat) (ls : List Line) {behind : Content}
    (hbehind : ∀ p ∈ behind.head?, start + sizeOf ls ≤ p.1 ∧ p.2.isOk = true) :
    (s.captureView s.now none).scanSegment content keep num (start + sizeOf ls)
        (yielded start ls ++ behind) =
      .ok (((withOffsets start ls).map fun p => ⟨num, p.1, p.2.toLogLine⟩).filterMap
        (emit s keep)) := by
  induction ls generalizing start with
  | nil =>
    cases behind with
    | nil => rfl
    | cons p rest =>
      obtain ⟨off, found⟩ := p
      obtain ⟨hle, hok⟩ := hbehind (off, found) rfl
      have hle : start + sizeOf [] ≤ off := hle
      cases found with
      | error err => cases hok
      | ok l =>
        show ScanView.scanSegment _ _ _ _ _ ((off, .ok l) :: rest) = _
        rw [ScanView.scanSegment, if_pos hle]
        rfl
  | cons l ls ih =>
    have hsize : sizeOf (l :: ls) = l.len + sizeOf ls := by simp [sizeOf]
    have hpos := l.len_pos
    have hmore := ih (start + l.len) (by
      intro p hp
      obtain ⟨hle, hok⟩ := hbehind p hp
      exact ⟨by omega, hok⟩)
    rw [Nat.add_assoc, ← hsize] at hmore
    have hvisit := visit_eq keep ha hy ⟨num, start, l.toLogLine⟩
    show ScanView.scanSegment _ _ _ _ _
      ((start, .ok l.toLogLine) :: (yielded (start + l.len) ls ++ behind)) = _
    rw [ScanView.scanSegment, if_neg (by omega), hvisit, hmore, withOffsets, map_cons,
      filterMap_cons]
    cases emit s keep ⟨num, start, l.toLogLine⟩ <;> rfl

theorem visitCandidate_read (keep : Data → Bool) {content : Nat → Content} {ids : List Nat} {id : Nat}
    (hid : id ∈ ids) (hread : ∀ loc, s.index id = some loc → ∃ e, readEntry s.segments loc = some e ∧
      (s.captureView s.now (some ids)).target content loc = some e ∧ e.id = id) :
    (s.captureView s.now (some ids)).visitCandidate content keep id = .ok (emitID s keep id) := by
  unfold ScanView.visitCandidate emitID
  have hlocs : (s.captureView s.now (some ids)).locs id = s.index id := if_pos hid
  rw [hlocs]
  cases hloc : s.index id with
  | none => rfl
  | some loc =>
    obtain ⟨e, hread, htarget, he⟩ := hread loc hloc
    simp only [bind_some, hread, htarget]
    show (if expired loc.expiresAt s.now = true then _ else _) = _
    cases hexp : expired loc.expiresAt s.now with
    | true => simp
    | false => cases hk : keep (e.data.getD []) <;> simp [he]

theorem visitCandidate_eq (keep : Data → Bool) (ha : Addressed s) {content : Nat → Content}
    (hy : Yields s content) {ids : List Nat} {id : Nat} (hid : id ∈ ids) :
    (s.captureView s.now (some ids)).visitCandidate content keep id = .ok (emitID s keep id) :=
  visitCandidate_read keep hid fun _ hloc =>
    target_eq ha hy (s.captureView s.now (some ids)) rfl hloc

/-- The index points at lines of its records, and the files hold the lines of the segments. -/
structure WorldInv (w : World) : Prop where
  addressed : Addressed w.col
  backed : ∀ g ∈ w.col.segments, backs (w.files g.num) g.lines = true

def Progress (s : Collection) (ids : Option (List Nat)) (keep : Data → Bool) (sc : Scanner) :
    Prop :=
  match ids with
  | none => ∃ done rest, s.segments = done ++ rest ∧
      sc.job = .segments (rest.map fun g => (g.num, g.size)) ∧
      sc.out = (located done).filterMap (emit s keep)
  | some l => ∃ done rest, l.insertionSort (· ≤ ·) = done ++ rest ∧ sc.job = .candidates rest ∧
      sc.out = done.filterMap (emitID s keep)

/-- Since a scan captured a collection, its files have only grown, and the scan is under way. -/
structure Frozen (start : World) (ids : Option (List Nat)) (keep : Data → Bool) (w : World) :
    Prop where
  kept : ∀ g ∈ start.col.segments, g.num ∈ w.col.segments.map Segment.num
  grown : ∀ g ∈ start.col.segments, start.files g.num <+: w.files g.num
  scan : ∃ sc, w.scan = some sc ∧ sc.view = start.col.captureView start.col.now ids ∧
    sc.keep = keep ∧ sc.failed = none ∧ Progress start.col ids keep sc

theorem step_op {o : CollectionOp} {files : Nat → List (List Char)}
    (hs : w.step cfg (.op o files) = some w') :
    w' = w ∨ ∃ t, w.col.step cfg o = some t ∧ w.writes o files t = true ∧
      (w.scan.isSome = true →
        CollectionOp.isCompact o = false ∧ CollectionOp.isReopen o = false) ∧
      w' = { w with col := t, files := files, torn := [] } := by
  change (if w.scan.isSome && CollectionOp.isCompact o then some w
    else if w.scan.isSome && CollectionOp.isReopen o then none
    else (w.col.step cfg o).bind fun t => guard (w.writes o files t) >>= fun _ =>
      pure { w with col := t, files := files, torn := [] }) = some w' at hs
  by_cases hpass : (w.scan.isSome && CollectionOp.isCompact o) = true
  · rw [if_pos hpass] at hs
    cases hs
    exact Or.inl rfl
  · rw [if_neg hpass] at hs
    obtain ⟨hopen, hs⟩ := ite_none_left_eq_some.mp hs
    obtain ⟨t, ht, hs⟩ := bind_eq_some_iff.mp hs
    obtain ⟨hw, rfl⟩ := guard_some hs
    refine Or.inr ⟨t, ht, hw, fun hscan => ?_, rfl⟩
    rw [hscan, Bool.true_and] at hpass hopen
    exact ⟨by simpa using hpass, by simpa using hopen⟩

theorem step_worldInv {a : Act} (h : WorldInv w) (hs : w.step cfg a = some w') : WorldInv w' := by
  cases a with
  | op o files =>
    rcases step_op hs with rfl | ⟨t, ht, hw, -, rfl⟩
    · exact h
    · have hback := (Bool.and_eq_true_iff.mp hw).1
      exact ⟨step_addressed h.addressed ht, fun g hg => all_eq_true.mp hback g hg⟩
  | tear part | capture ids keep =>
    obtain ⟨-, rfl⟩ := Runs.barred hs
    exact ⟨h.addressed, h.backed⟩
  | read =>
    obtain ⟨sc, -, hs⟩ := bind_eq_some_iff.mp hs
    obtain ⟨sc', -, hs⟩ := bind_eq_some_iff.mp hs
    cases hs
    exact ⟨h.addressed, h.backed⟩

section

variable {start : World} {ids : Option (List Nat)}

theorem Frozen.content (h : Frozen start ids keep w) (hb : WorldInv start) {g : Segment}
    (hg : g ∈ start.col.segments)
    (hok : ∀ p ∈ w.content g.num, p.1 < g.size → p.2.isOk = true) :
    ∃ behind, w.content g.num = yielded 0 g.lines ++ behind ∧ ∀ p ∈ behind, g.size ≤ p.1 := by
  obtain ⟨more, hmore⟩ := h.grown g hg
  have hback := hb.backed g hg
  have hsum : ((start.files g.num).map lineBytes).sum = g.size := backs_sizes hback
  obtain ⟨tail, htail⟩ : ∃ tail, w.texts g.num = start.files g.num ++ tail := by
    refine ⟨more ++ if g.num = w.col.active.num ∧ w.torn ≠ [] then [w.torn] else [], ?_⟩
    rw [World.texts, ← hmore, append_assoc]
  have hcontent : w.content g.num =
      contentFrom 0 (start.files g.num) ++ contentFrom g.size tail := by
    rw [World.content, htail, contentFrom_append, hsum, Nat.zero_add]
  refine ⟨contentFrom g.size tail, ?_, fun p hp => contentFrom_le hp⟩
  rw [hcontent, backs_content hback]
  intro p hp
  refine hok p (by rw [hcontent]; exact mem_append_left _ hp) ?_
  have hlt := contentFrom_lt hp
  omega

theorem Frozen.yields (h : Frozen start ids keep w) (hb : WorldInv start)
    (hok : Act.ReadSound w .read) : Yields start.col w.content := by
  intro g hg
  obtain ⟨sc, hsc, hview, -⟩ := h.scan
  have hread := (hok sc hsc).1 (g.num, g.size)
    (by rw [hview]; exact mem_map.mpr ⟨g, hg, rfl⟩)
  obtain ⟨behind, hbehind, -⟩ := h.content hb hg hread
  exact ⟨behind, hbehind⟩

theorem find_behind {front behind : Content} {stop : Nat} (hf : ∀ p ∈ front, p.1 < stop)
    (hb : ∀ p ∈ behind, stop ≤ p.1) :
    (front ++ behind).find? (fun p => decide (stop ≤ p.1)) = behind.head? := by
  have hfront : front.find? (fun p => decide (stop ≤ p.1)) = none := by
    rw [List.find?_eq_none]
    intro p hp
    have := hf p hp
    simpa using this
  rw [List.find?_append, hfront, Option.none_or]
  cases behind with
  | nil => rfl
  | cons p rest => simp [hb p (by simp)]

theorem Frozen.readSegment (h : Frozen start none keep w) (hb : WorldInv start)
    (hok : Act.ReadSound w .read) {sc : Scanner} (hsc : w.scan = some sc) {g : Segment}
    (hg : g ∈ start.col.segments) {rest : List (Nat × Nat)}
    (hjob : sc.job = .segments ((g.num, g.size) :: rest)) :
    (start.col.captureView start.col.now none).scanSegment w.content keep g.num g.size
        (w.content g.num) = .ok ((locate g).filterMap (emit start.col keep)) := by
  obtain ⟨sc', hsc', hview, -⟩ := h.scan
  cases hsc.symm.trans hsc'
  have hread := hok sc hsc
  obtain ⟨behind, hbehind, hle⟩ := h.content hb hg (hread.1 (g.num, g.size)
    (by rw [hview]; exact mem_map.mpr ⟨g, hg, rfl⟩))
  have hfront : ∀ p ∈ yielded 0 g.lines, p.1 < g.size := by
    intro p hp
    obtain ⟨q, hq, rfl⟩ := mem_map.mp hp
    have hlt : q.1 < 0 + sizeOf g.lines := (mem_withOffsets hq).2.2
    rw [Nat.zero_add] at hlt
    exact hlt
  have hnext := hread.2 (g.num, g.size) (by rw [hjob]; rfl)
  simp only [hbehind, find_behind hfront hle] at hnext
  have hseg := scanSegment_eq keep hb.addressed (h.yields hb hok) g.num 0 g.lines (by
      intro p hp
      rw [Nat.zero_add]
      exact ⟨hle p (mem_of_mem_head? hp), hnext p hp⟩)
  rw [Nat.zero_add] at hseg
  rw [hbehind]
  exact hseg

theorem step_nums {o : CollectionOp} {t : Collection} (hpass : CollectionOp.isCompact o = false)
    (hopen : CollectionOp.isReopen o = false) (h : s.step cfg o = some t) {num : Nat}
    (hnum : num ∈ s.segments.map Segment.num) : num ∈ t.segments.map Segment.num := by
  by_cases hop : o.relays = false
  · obtain ⟨ls, chs, he⟩ := step_appended hop h
    rw [he.nums_eq]
    exact hnum
  · cases o with
    | rotate =>
      cases h
      show num ∈ (s.segments ++ _).map Segment.num
      rw [map_append]
      exact mem_append_left _ hnum
    | compact => cases hpass
    | reopen => cases hopen
    | _ => exact absurd rfl hop

theorem frozen_step {a : Act} (hb : WorldInv start) (h : Frozen start ids keep w)
    (hok : a.ReadSound w) (hs : w.step cfg a = some w') : Frozen start ids keep w' := by
  obtain ⟨sc, hsc, hview, hkeep, hfailed, hprog⟩ := h.scan
  have hsome : w.scan.isSome = true := by simp [hsc]
  cases a with
  | op o files =>
    rcases step_op hs with rfl | ⟨t, ht, hw, hleased, rfl⟩
    · exact h
    · obtain ⟨hpass, hopen⟩ := hleased hsome
      have hmore := (Bool.and_eq_true_iff.mp hw).2
      rw [hpass, Bool.false_or] at hmore
      refine ⟨fun g hg => step_nums hpass hopen ht (h.kept g hg), fun g hg => ?_, sc, hsc, hview,
        hkeep, hfailed, hprog⟩
      obtain ⟨g', hg', hnum⟩ := mem_map.mp (h.kept g hg)
      have happ := isPrefixOf_iff_prefix.mp (all_eq_true.mp hmore g' hg')
      rw [hnum] at happ
      exact (h.grown g hg).trans happ
  | tear part =>
    obtain ⟨-, rfl⟩ := Runs.barred hs
    exact ⟨h.kept, h.grown, h.scan⟩
  | capture ids keep =>
    obtain ⟨hnone, -⟩ := ite_none_left_eq_some.mp hs
    exact absurd hsome hnone
  | read =>
    obtain ⟨sc', hsc', hs⟩ := bind_eq_some_iff.mp hs
    obtain ⟨next, hnext, hs⟩ := bind_eq_some_iff.mp hs
    cases hs
    cases hsc.symm.trans hsc'
    refine ⟨h.kept, h.grown, next, rfl, ?_⟩
    unfold Scanner.advance at hnext
    rw [hfailed, if_neg (by simp)] at hnext
    cases ids with
    | none =>
      obtain ⟨done, rest, hsegs, hjob, hout⟩ := hprog
      cases rest with
      | nil =>
        rw [hjob] at hnext
        cases hnext
      | cons g rest =>
        have hg : g ∈ start.col.segments := by rw [hsegs]; simp
        have hread := h.readSegment hb hok hsc hg hjob
        rw [hjob] at hnext
        simp only [map_cons, hview, hkeep, hread] at hnext
        cases hnext
        refine ⟨rfl, rfl, rfl, done ++ [g], rest, by simp [hsegs], rfl, ?_⟩
        rw [hout, located_append, filterMap_append]
        simp [located]
    | some l =>
      obtain ⟨done, rest, hids, hjob, hout⟩ := hprog
      cases rest with
      | nil =>
        rw [hjob] at hnext
        cases hnext
      | cons id rest =>
        have hid : id ∈ l := by
          rw [← mem_insertionSort (· ≤ ·), hids]
          simp
        have hread := visitCandidate_eq keep hb.addressed (h.yields hb hok) hid
        rw [hjob] at hnext
        simp only [hview, hkeep, hread] at hnext
        cases hnext
        refine ⟨rfl, rfl, rfl, done ++ [id], rest, by simp [hids], rfl, ?_⟩
        rw [hout, filterMap_append]
        cases hem : emitID start.col keep id <;> simp [hem]

end

theorem emit_some {x : Located} {r : ScanResult} : emit s keep x = some r ↔
    ∃ loc, s.index x.id = some loc ∧ (x.seg = loc.seg ∧ x.offset = loc.offset) ∧
      x.line.entry.op ≠ .delete ∧ expired loc.expiresAt s.now = false ∧
      keep (x.line.entry.data.getD []) = true ∧
      r = { id := x.id, rev := loc.rev, data := x.line.entry.data, ts := x.line.entry.ts } := by
  unfold emit
  rw [bind_eq_some_iff]
  simp only [ite_none_right_eq_some, Option.some.injEq, and_assoc, eq_comm (b := r)]

theorem mem_segments (ha : Addressed s) (r : ScanResult) :
    r ∈ (located s.segments).filterMap (emit s keep) ↔ Described s none keep r := by
  rw [mem_filterMap]
  constructor
  · rintro ⟨x, hx, hr⟩
    obtain ⟨loc, hloc, ⟨hseg, hoff⟩, -, hexp, hk, rfl⟩ := emit_some.mp hr
    have hread := readEntry_at ha.ascending hx hseg hoff
    exact ⟨nofun, loc, x.line.entry, hloc, hexp, hread, hk, rfl⟩
  · rintro ⟨-, loc, e, hloc, hexp, hread, hk, hr⟩
    obtain ⟨x, hx, hseg, hoff, hid, hop⟩ := ha.sited r.id loc hloc
    have hfound := readEntry_at ha.ascending hx hseg hoff
    cases hread.symm.trans hfound
    refine ⟨x, hx, emit_some.mpr ⟨loc, hid ▸ hloc, ⟨hseg, hoff⟩, hop, hexp, hk, ?_⟩⟩
    rw [hr, hid]

theorem segments_nodup (ha : Addressed s) :
    (((located s.segments).filterMap (emit s keep)).map ScanResult.id).Nodup := by
  rw [List.Nodup, pairwise_map]
  refine List.Pairwise.filterMap (emit s keep) ?_ (located_pairwise ha.ascending)
  intro x y hbefore r hr r' hr' heq
  obtain ⟨loc, hloc, hplace, -, -, -, rfl⟩ := emit_some.mp hr
  obtain ⟨loc', hloc', hplace', -, -, -, rfl⟩ := emit_some.mp hr'
  have heq : x.id = y.id := heq
  rw [heq] at hloc
  cases hloc.symm.trans hloc'
  rcases hbefore with hlt | ⟨-, hlt⟩ <;> omega

theorem emitID_some {id : Nat} {r : ScanResult} (hr : emitID s keep id = some r) : r.id = id := by
  unfold emitID at hr
  obtain ⟨loc, -, hr⟩ := bind_eq_some_iff.mp hr
  obtain ⟨e, -, hr⟩ := bind_eq_some_iff.mp hr
  obtain ⟨-, rfl⟩ := Runs.guarded hr
  rfl

theorem mem_candidates {l : List Nat} (r : ScanResult) :
    r ∈ (l.insertionSort (· ≤ ·)).filterMap (emitID s keep) ↔ Described s (some l) keep r := by
  rw [mem_filterMap]
  constructor
  · rintro ⟨id, hid, hr⟩
    cases emitID_some hr
    obtain ⟨loc, hloc, hr⟩ := bind_eq_some_iff.mp hr
    obtain ⟨e, he, hr⟩ := bind_eq_some_iff.mp hr
    obtain ⟨⟨hexp, hk⟩, hr⟩ := ite_none_right_eq_some.mp hr
    refine ⟨fun l' hl' => ?_, loc, e, hloc, hexp, he, hk, (Option.some.inj hr).symm⟩
    cases hl'
    exact (mem_insertionSort _).mp hid
  · rintro ⟨hids, loc, e, hloc, hexp, hread, hk, hr⟩
    refine ⟨r.id, (mem_insertionSort _).mpr (hids l rfl), ?_⟩
    rw [hr]
    simp [emitID, hloc, hread, hexp, hk]

theorem candidates_nodup {l : List Nat} (hl : l.Nodup) :
    (((l.insertionSort (· ≤ ·)).filterMap (emitID s keep)).map ScanResult.id).Nodup := by
  have hsorted : (l.insertionSort (· ≤ ·)).Nodup := (perm_insertionSort _ l).nodup_iff.mpr hl
  rw [List.Nodup, pairwise_map]
  refine List.Pairwise.filterMap (emitID s keep) ?_ hsorted
  intro a b hne r hr r' hr' heq
  rw [emitID_some hr, emitID_some hr'] at heq
  exact hne heq

def Exact (s : Collection) (ids : Option (List Nat)) (keep : Data → Bool) (sc : Scanner) : Prop :=
  sc.failed = none ∧ (∀ r, r ∈ sc.out ↔ Described s ids keep r) ∧
    ((∀ l ∈ ids, l.Nodup) → (sc.out.map ScanResult.id).Nodup)

theorem progress_exact {ids : Option (List Nat)} (ha : Addressed s) {sc : Scanner}
    (hp : Progress s ids keep sc) (hf : sc.failed = none) (hdone : sc.finished) :
    Exact s ids keep sc := by
  have hempty : sc.job = .segments [] ∨ sc.job = .candidates [] :=
    hdone.resolve_left (by simp [hf])
  cases ids with
  | none =>
    obtain ⟨done, rest, hsegs, hjob, hout⟩ := hp
    have hrest : rest = [] := by
      rw [hjob] at hempty
      simpa using hempty
    rw [hrest, append_nil] at hsegs
    rw [← hsegs] at hout
    exact ⟨hf, fun r => by rw [hout]; exact mem_segments ha r,
      fun _ => by rw [hout]; exact segments_nodup ha⟩
  | some l =>
    obtain ⟨done, rest, hids, hjob, hout⟩ := hp
    have hrest : rest = [] := by
      rw [hjob] at hempty
      simpa using hempty
    rw [hrest, append_nil] at hids
    rw [← hids] at hout
    exact ⟨hf, fun r => by rw [hout]; exact mem_candidates r,
      fun hl => by rw [hout]; exact candidates_nodup (hl l rfl)⟩

theorem read_on {start : World} {ids : Option (List Nat)} (hb : WorldInv start)
    (h : Frozen start ids keep w) (hok : Act.ReadSound w .read) {sc : Scanner}
    (hsc : w.scan = some sc) (hmore : ¬ sc.finished) :
    ∃ next, w.step cfg .read = some { w with scan := some next } ∧ next.job.left + 1 = sc.job.left := by
  obtain ⟨sc', hsc', hview, hkeep, hfailed, hprog⟩ := h.scan
  cases hsc.symm.trans hsc'
  have hstep : ∀ next, sc.advance w.content = some next →
      w.step cfg .read = some { w with scan := some next } := by
    intro next hnext
    show (w.scan.bind fun sc => (sc.advance w.content).bind fun sc =>
      pure { w with scan := some sc }) = _
    rw [hsc, bind_some, hnext]
    rfl
  unfold Scanner.advance at hstep
  rw [hfailed, if_neg (by simp)] at hstep
  cases ids with
  | none =>
    obtain ⟨done, rest, hsegs, hjob, hout⟩ := hprog
    cases rest with
    | nil => exact absurd (Or.inr (Or.inl hjob)) hmore
    | cons g rest =>
      have hg : g ∈ start.col.segments := by rw [hsegs]; simp
      have hread := h.readSegment hb hok hsc hg hjob
      rw [hjob] at hstep ⊢
      simp only [map_cons, hview, hkeep, hread] at hstep
      exact ⟨_, hstep _ rfl, by simp [Job.left]⟩
  | some l =>
    obtain ⟨done, rest, hids, hjob, hout⟩ := hprog
    cases rest with
    | nil => exact absurd (Or.inr (Or.inr hjob)) hmore
    | cons id rest =>
      have hid : id ∈ l := by
        rw [← mem_insertionSort (· ≤ ·), hids]
        simp
      have hread := visitCandidate_eq keep hb.addressed (h.yields hb hok) hid
      rw [hjob] at hstep ⊢
      simp only [hview, hkeep, hread] at hstep
      exact ⟨_, hstep _ rfl, by simp [Job.left]⟩

structure World.Opened (w : World) : Prop where
  col : w.col.Opened
  files : ∀ g ∈ w.col.segments, backs (w.files g.num) g.lines = true
  scan : w.scan = none

/-- Whatever the writers do behind a scan: while its reads are sound it does not fail, it comes to
its end, and it returns what the index described when it began. -/
theorem scan_frozen {start : World} {ids : Option (List Nat)} {w₀ : World} (hs : start.Opened)
    (hr : Runs.Reaches (World.step cfg) (fun _ _ => True) start w)
    (hc : w.step cfg (.capture ids keep) = some w₀)
    (hr' : Runs.Reaches (World.step cfg) (fun w a => a.ReadSound w) w₀ w') :
    ∃ sc, w'.scan = some sc ∧ sc.failed = none ∧ (sc.finished → Exact w.col ids keep sc) ∧
      (¬ sc.finished → Act.ReadSound w' .read → ∃ next,
        w'.step cfg .read = some { w' with scan := some next } ∧ next.job.left + 1 = sc.job.left) := by
  have hb₀ : WorldInv start := ⟨hs.col.addressed, hs.files⟩
  have hb : WorldInv w := hr.invariant hb₀ fun hi _ h => step_worldInv hi h
  obtain ⟨-, hc⟩ := ite_none_left_eq_some.mp hc
  cases hc
  have hbegin : Frozen w ids keep { w with scan := some (Scanner.start w.col ids keep) } := by
    refine ⟨fun g hg => mem_map_of_mem hg, fun g _ => prefix_refl _, _, rfl, rfl, rfl, rfl,
      ?_⟩
    cases ids with
    | none => exact ⟨[], w.col.segments, rfl, rfl, rfl⟩
    | some l => exact ⟨[], l.insertionSort (· ≤ ·), rfl, rfl, rfl⟩
  have hfrozen : Frozen w ids keep w' := hr'.invariant hbegin fun hi hok h => frozen_step hb hi hok h
  obtain ⟨sc, hsc, -, -, hfailed, hprog⟩ := hfrozen.scan
  exact ⟨sc, hsc, hfailed, progress_exact hb.addressed hprog hfailed,
    fun hmore hok => read_on hb hfrozen hok hsc hmore⟩

end

instance : ∀ (w : World) (a : Act), Decidable (a.ReadSound w)
  | w, .read => inferInstanceAs (Decidable (∀ sc ∈ w.scan, _ ∧ _))
  | _, .op _ _ | _, .tear _ | _, .capture _ _ => inferInstanceAs (Decidable True)

def wireText (l : LogLine) : List Char :=
  let text := match l.tx with
    | none => encode l.entry
    | some tx => encodeStamped (l.entry.stamped tx)
  (text.toOption.getD []).dropLast

def wireLines : Encoding :=
  { len := fun l => lineBytes (wireText l), len_pos := fun _ => Nat.succ_pos _ }

def wireConfig : Config :=
  { plainConfig with encoding := wireLines }

def emptyWorld : World :=
  { col := emptyCollection, files := fun _ => [], torn := [], scan := none }

theorem emptyWorld_opened : emptyWorld.Opened :=
  ⟨emptyCollection_opened, by decide, rfl⟩

def insertText (n : Nat) : List Char :=
  wireText ⟨{ id := n, op := .insert, ts := Rfc3339.zeroTime, rev := 1, data := some [("n", .null)],
              epoch := 0, expiresAt := 0 }, none⟩

def insertNth (n : Nat) : Act :=
  .op (.insert (some [("n", .null)]) 0 (readingsAt n)) fun _ => (List.range' 1 n).map insertText

theorem scan_frozen_sample : ∃ w w₀ w' sc,
    Runs.run (World.step wireConfig) emptyWorld [insertNth 1] = some w ∧
      w.step wireConfig (.capture none fun _ => true) = some w₀ ∧
      Runs.run (World.step wireConfig) w₀ [insertNth 2, .read] = some w' ∧ w'.scan = some sc ∧
      sc.out.length = 1 ∧ Exact w.col none (fun _ => true) sc := by
  obtain ⟨w, hw, hr, w₀, hw₀, hmeets, w', hw', sc, hsc, hdone, hlen⟩ := Runs.reached
    (World.step wireConfig) (fun _ _ => True) emptyWorld [insertNth 1] (fun w =>
      ∃ w₀ ∈ w.step wireConfig (.capture none fun _ => true),
        Runs.Meets (World.step wireConfig) (fun w a => a.ReadSound w) w₀ [insertNth 2, .read] ∧
          ∃ w' ∈ Runs.run (World.step wireConfig) w₀ [insertNth 2, .read],
            ∃ sc ∈ w'.scan, sc.finished ∧ sc.out.length = 1) (by decide +kernel)
  obtain ⟨sc', hsc', -, hexact, -⟩ := scan_frozen emptyWorld_opened hr hw₀
    (Runs.reaches_run hw' hmeets .refl)
  cases hsc.symm.trans hsc'
  exact ⟨w, w₀, w', sc, hw, hw₀, hw', hsc, hlen, hexact hdone⟩

/-- A scan that reads while a line behind its captured end is being written fails to decode it. -/
theorem scan_fails_on_part :
    ((Runs.run (World.step wireConfig) emptyWorld
      [insertNth 1, .capture none fun _ => true, .tear ((insertText 2).take 9), .read]).bind fun w =>
        w.scan.bind Scanner.failed) = some (.decode .decode) := by
  decide +kernel

end Scriva.Scanning
