import Scriva.OrderedView
import Scriva.ScanRuns
import Scriva.HeldRecords
import Scriva.Reads

namespace Scriva.Scanning

open List Option

structure Latest (s : Collection) : Prop extends Addressed s where
  place : ∀ id, (s.index id).map IndexEntry.place =
    (Index.rebuild s.segments s.decisions id).map IndexEntry.place

section

variable {cfg : Config} {s t : Collection}

theorem Latest.rebuilt (h : Addressed t) (hindex : t.index = Index.rebuild t.segments t.decisions) :
    Latest t :=
  ⟨h, fun id => by rw [hindex]⟩

theorem step_latest {o : CollectionOp} (h : Latest s) (hs : s.step cfg o = some t) : Latest t := by
  have ha := step_addressed h.toAddressed hs
  by_cases hop : o.relays = false
  · obtain ⟨ls, chs, he⟩ := step_appended hop hs
    have hw := he.wrote
    refine ⟨ha, fun id => ?_⟩
    have hrebuild := hw.rebuild h.ascending
    rw [he.index]
    show _ = (Index.rebuild t.segments t.decisions id).map _
    refine (putRun_place he.carry he.visible h.place _ _ id).trans ?_
    exact congrArg (Option.map IndexEntry.place) (congrFun hrebuild id).symm
  · cases o with
    | rotate =>
      cases hs
      refine ⟨ha, fun id => ?_⟩
      rw [rebuild_eq ha.ascending, rotate_located, ← rebuild_eq h.ascending]
      exact h.place id
    | compact k at_ => exact .rebuilt ha (compact_nums hs).2.1
    | reopen idSeq now =>
      refine .rebuilt ha ?_
      obtain ⟨-, rfl⟩ := guard_some hs
      rfl
    | _ => exact absurd rfl hop

theorem Latest.record (h : Latest s) {id : Nat} {loc : IndexEntry} (hloc : s.index id = some loc)
    {e : Entry} (he : readEntry s.segments loc = some e) :
    ∃ r, records s.decisions s.log id = some r ∧ r.data = e.data ∧ r.expiresAt = loc.expiresAt := by
  have hplace := h.place id
  rw [hloc] at hplace
  obtain ⟨ix, hix, heq⟩ := map_eq_some_iff.mp hplace.symm
  simp only [IndexEntry.place, Prod.mk.injEq] at heq
  obtain ⟨hseg, hoff, hexp, -⟩ := heq
  have hread : readEntry s.segments ix = some e := by
    rw [← he]
    unfold readEntry
    rw [hseg, hoff]
  have hlook := lookup_eq_records h.ascending s.decisions id
  unfold lookup at hlook
  rw [hix, bind_some, hread] at hlook
  exact ⟨_, hlook.symm, rfl, hexp⟩

end

instance instLawfulBEqPlace : LawfulBEq (Nat × Nat) := inferInstance

/-- What reading a segment file yields, if the lines at the places `bad` are damaged. A line whose
text does not say its data fails its checksum as well. -/
def contentOf (s : Collection) (bad : List (Nat × Nat)) (num : Nat) : Content :=
  (findSegment s.segments num).elim [] fun g => (locate g).map fun x =>
    (x.offset, if x.line.decodes = true ∧ (x.seg, x.offset) ∉ bad then .ok x.line
      else .error .corruptEntry)

def fullScan (s : Collection) (bad : List (Nat × Nat)) (keep : Data → Bool) :
    Except ScanErr (List ScanResult) := do
  let parts ← s.segments.mapM fun g => (s.captureView s.now none).scanSegment (contentOf s bad) keep
    g.num g.size (contentOf s bad g.num)
  return parts.flatten

def candidateScan (s : Collection) (bad : List (Nat × Nat)) (ids : List Nat) (keep : Data → Bool) :
    Except ScanErr (List ScanResult) := do
  let parts ← (ids.insertionSort (· ≤ ·)).mapM fun id =>
    (s.captureView s.now (some ids)).visitCandidate (contentOf s bad) keep id
  return parts.reduceOption

def find (re : String → String → Bool) (s : Collection) (x : OrderedIndex) (f : FieldFilter) :
    Except ScanErr (List ScanResult) :=
  match x.candidates f with
  | some ids => candidateScan s [] ids (f.matches re)
  | none => fullScan s [] (f.matches re)

section

variable {s : Collection}

theorem contentOf_eq (ha : Addressed s) (hdec : s.decodes = true) {g : Segment}
    (hg : g ∈ s.segments) : contentOf s [] g.num = yielded 0 g.lines := by
  have hok : ∀ x ∈ locate g, x.line.decodes = true := fun x hx =>
    all_eq_true.mp hdec x.line (mem_located (mem_flatMap.mpr ⟨g, hg, hx⟩))
  unfold contentOf
  rw [findSegment_of_mem ha.ascending hg, Option.elim_some, locate, List.map_map]
  refine map_congr_left fun p hp => ?_
  simp [hok _ (mem_map_of_mem hp)]

theorem contentOf_yields (ha : Addressed s) (hdec : s.decodes = true) : Yields s (contentOf s []) :=
  fun g hg => ⟨[], by rw [contentOf_eq ha hdec hg, append_nil]⟩

theorem fullScan_eq (keep : Data → Bool) (ha : Addressed s) (hdec : s.decodes = true) :
    fullScan s [] keep = .ok ((located s.segments).filterMap (emit s keep)) := by
  have hseg : ∀ g ∈ s.segments, (s.captureView s.now none).scanSegment (contentOf s []) keep g.num
      g.size (contentOf s [] g.num) = .ok ((locate g).filterMap (emit s keep)) := by
    intro g hg
    have := scanSegment_eq keep ha (contentOf_yields ha hdec) g.num 0 g.lines
      (nofun : ∀ p ∈ ([] : Content).head?, _)
    rw [append_nil, Nat.zero_add] at this
    rw [contentOf_eq ha hdec hg]
    exact this
  unfold fullScan
  rw [Traverse.mapM_eq_pure hseg]
  show Except.ok _ = _
  rw [located, filterMap_flatMap, flatMap_def]

theorem candidateScan_eq (keep : Data → Bool) (ha : Addressed s) (hdec : s.decodes = true)
    (ids : List Nat) : candidateScan s [] ids keep =
      .ok ((ids.insertionSort (· ≤ ·)).filterMap (emitID s keep)) := by
  have hid : ∀ id ∈ ids.insertionSort (· ≤ ·),
      (s.captureView s.now (some ids)).visitCandidate (contentOf s []) keep id =
        .ok (emitID s keep id) := fun id hid =>
    visitCandidate_eq keep ha (contentOf_yields ha hdec) ((mem_insertionSort _).mp hid)
  unfold candidateScan
  rw [Traverse.mapM_eq_pure hid]
  show Except.ok (List.filterMap id _) = _
  rw [filterMap_map]
  rfl

end

/-- A collection with the ordered indexes it keeps in memory, and index files with the lines they
cover. -/
structure Shelf where
  col : Collection
  views : List OrderedIndex
  saved : List (OrderedIndex × List LogLine)

inductive ShelfAct where
  | op (o : CollectionOp)
  | persist (field : String)

/-- What an index takes a new line's id for: a local write goes by the operation, a replicated one by
the ids it finds. -/
def isFresh (s : Collection) (o : CollectionOp) (l : LogLine) : Bool :=
  if o.isReplicated then (s.index l.id).isNone else l.entry.op == .insert

def builtView (s : Collection) (x : SecondaryIndex) : OrderedIndex :=
  (OrderedIndex.new x.field x.unique).rebuild s.log s.decisions

/-- The ordered index behind an operation. A pass builds it anew, and so does an open that has no
file for it; every other operation brings the lines it wrote, whose data are JSON values. -/
def Shelf.viewAfter (w : Shelf) (o : CollectionOp) (t : Collection) (x : SecondaryIndex) :
    OrderedIndex :=
  match o with
  | .compact .. => builtView t x
  | .reopen .. =>
    match w.saved.find? (·.1.field == x.field) with
    | some (y, ls) => y.load.replay (t.log.drop ls.length) t.decisions
    | none => builtView t x
  | _ =>
    (t.log.drop w.col.log.length).foldl (fun y l => y.put (isFresh w.col o l) l.entry)
      ((w.views.find? (·.field == x.field)).getD (builtView w.col x))

def Shelf.step (cfg : Config) (w : Shelf) : ShelfAct → Option Shelf
  | .op o => (w.col.step cfg o).map fun t =>
      { col := t
        views := t.sidxs.map (w.viewAfter o t)
        saved := w.saved.filter fun p => p.2.isPrefixOf t.log }
  | .persist field => (w.views.find? (·.field == field)).map fun x =>
      { w with saved := (x, w.col.log) :: w.saved.filter (·.1.field != field) }

structure Shelf.Opened (w : Shelf) : Prop where
  col : w.col.Opened
  views : w.views = w.col.sidxs.map (builtView w.col)
  saved : w.saved = []

/-- A stored value that meets a filter but is not under a key the index looks at: the key index
holds strings only, and an equality looks for one of two zeros. -/
def missed (f : FieldFilter) (v : Value) : Bool :=
  !acceptsIn f.field v || f.op == .eq && otherZero v (filterValueTyped f.value)

section

variable {cfg : Config} {s t : Collection} {w w' : Shelf}

structure ShelfInv (w : Shelf) : Prop where
  latest : Latest w.col
  views : ∀ x ∈ w.views, x.Follows w.col.decisions w.col.log
  saved : ∀ p ∈ w.saved, p.2 <+: w.col.log ∧ p.1.Follows w.col.decisions p.2

theorem builtView_follows (s : Collection) (x : SecondaryIndex) :
    (builtView s x).Follows s.decisions s.log :=
  OrderedIndex.follows_rebuild _ _ _

theorem step_before {o : CollectionOp} (hs : s.step cfg o = some t) :
    ∀ l ∈ s.log, l.visible t.decisions = l.visible s.decisions := by
  by_cases hop : o.relays = false
  · obtain ⟨ls, chs, he⟩ := step_appended hop hs
    exact fun _ => he.decides.visible
  · cases o with
    | rotate =>
      cases hs
      exact fun _ _ => rfl
    | compact k at_ =>
      obtain ⟨segs, -, rfl, -⟩ := compact_spec hs
      exact fun _ _ => rfl
    | reopen idSeq now =>
      obtain ⟨-, rfl⟩ := guard_some hs
      exact fun _ _ => rfl
    | _ => exact absurd rfl hop

theorem step_grows {o : CollectionOp} (hpass : CollectionOp.isCompact o = false)
    (hopen : CollectionOp.isReopen o = false) (hs : s.step cfg o = some t) :
    ∃ ls, t.log = s.log ++ ls ∧ ∀ l ∈ ls, l.visible t.decisions = true := by
  by_cases hop : o.relays = false
  · obtain ⟨ls, chs, he⟩ := step_appended hop hs
    refine ⟨_, he.log, fun l hl => ?_⟩
    obtain ⟨line, hline, rfl⟩ := mem_map.mp hl
    exact he.visible line hline
  · cases o with
    | rotate =>
      cases hs
      exact ⟨[], by rw [rotateSegment_log, append_nil], by simp⟩
    | compact => cases hpass
    | reopen => cases hopen
    | _ => exact absurd rfl hop

theorem ShelfInv.viewAfter (h : ShelfInv w) {o : CollectionOp} (hs : w.col.step cfg o = some t)
    (x : SecondaryIndex) : (w.viewAfter o t x).Follows t.decisions t.log := by
  by_cases hpass : CollectionOp.isCompact o = true
  · cases o with
    | compact => exact builtView_follows t x
    | _ => cases hpass
  by_cases hopen : CollectionOp.isReopen o = true
  · cases o with
    | reopen idSeq now =>
      have hsame : t.log = w.col.log ∧ t.decisions = w.col.decisions := by
        obtain ⟨-, rfl⟩ := guard_some hs
        exact ⟨rfl, rfl⟩
      show OrderedIndex.Follows _ _ (match w.saved.find? (·.1.field == x.field) with
        | some (y, ls) => y.load.replay (t.log.drop ls.length) t.decisions
        | none => builtView t x)
      cases hf : w.saved.find? (·.1.field == x.field) with
      | none => exact builtView_follows t x
      | some p =>
        obtain ⟨⟨rest, hrest⟩, hp⟩ := h.saved p (mem_of_find?_eq_some hf)
        have hdrop : t.log.drop p.2.length = rest := by
          rw [hsame.1, ← hrest, drop_left]
        show (p.1.load.replay (t.log.drop p.2.length) t.decisions).Follows _ _
        rw [hdrop, hsame.1, hsame.2, ← hrest]
        exact hp.load.replay
    | _ => cases hopen
  have hview : w.viewAfter o t x =
      (t.log.drop w.col.log.length).foldl (fun y l => y.put (isFresh w.col o l) l.entry)
        ((w.views.find? (·.field == x.field)).getD (builtView w.col x)) := by
    cases o with
    | compact => exact absurd rfl hpass
    | reopen => exact absurd rfl hopen
    | _ => rfl
  have hbase : ((w.views.find? (·.field == x.field)).getD (builtView w.col x)).Follows
      w.col.decisions w.col.log := by
    cases hf : w.views.find? (·.field == x.field) with
    | none => exact builtView_follows w.col x
    | some y => exact h.views y (mem_of_find?_eq_some hf)
  obtain ⟨ls, hlog, hv⟩ := step_grows (by simpa using hpass) (by simpa using hopen) hs
  rw [hview, hlog, drop_left]
  exact (hbase.congr (step_before hs)).putAll _ hv

theorem step_shelfInv {a : ShelfAct} (h : ShelfInv w) (hs : w.step cfg a = some w') :
    ShelfInv w' := by
  cases a with
  | op o =>
    obtain ⟨t, ht, rfl⟩ := map_eq_some_iff.mp hs
    refine ⟨step_latest h.latest ht, fun x hx => ?_, fun p hp => ?_⟩
    · obtain ⟨y, -, rfl⟩ := mem_map.mp hx
      exact h.viewAfter ht y
    · obtain ⟨hp, hprefix⟩ := mem_filter.mp hp
      obtain ⟨hsub, hfollows⟩ := h.saved p hp
      exact ⟨List.isPrefixOf_iff_prefix.mp hprefix,
        hfollows.congr fun l hl => step_before ht l (hsub.subset hl)⟩
  | persist field =>
    obtain ⟨x, hx, rfl⟩ := map_eq_some_iff.mp hs
    refine ⟨h.latest, h.views, fun p hp => ?_⟩
    rcases mem_cons.mp hp with rfl | hp
    · exact ⟨prefix_refl _, h.views x (mem_of_find?_eq_some hx)⟩
    · exact h.saved p (mem_filter.mp hp).1

theorem Shelf.Opened.inv (h : w.Opened) : ShelfInv w := by
  refine ⟨.rebuilt h.col.addressed h.col.index, fun x hx => ?_, fun p hp => ?_⟩
  · rw [h.views] at hx
    obtain ⟨y, -, rfl⟩ := mem_map.mp hx
    exact builtView_follows w.col y
  · rw [h.saved] at hp
    cases hp

theorem ShelfInv.described (h : ShelfInv w) {x : OrderedIndex} (hx : x ∈ w.views) {f : FieldFilter}
    (hf : f.field = x.field) {re : String → String → Bool}
    (hjson : ∀ id r v, records w.col.decisions w.col.log id = some r →
      (r.data.getD []).get f.field = some v → isInt v = false)
    (hfound : ∀ id r v, records w.col.decisions w.col.log id = some r →
      expired r.expiresAt w.col.now = false → (r.data.getD []).get f.field = some v →
      f.op.test re v (filterValueTyped f.value) = true → missed f v = false)
    {ids : List Nat} (hids : x.candidates f = some ids) (r : ScanResult) :
    Described w.col (some ids) (f.matches re) r ↔ Described w.col none (f.matches re) r := by
  refine ⟨fun hd => ⟨nofun, hd.2⟩, fun hd => ⟨fun l hl => ?_, hd.2⟩⟩
  cases hl
  obtain ⟨-, loc, e, hloc, hexp, hread, hk, -⟩ := hd
  obtain ⟨q, hq, hdata, hqexp⟩ := h.latest.record hloc hread
  unfold FieldFilter.matches at hk
  cases hv : (e.data.getD []).get f.field with
  | none =>
    rw [hv] at hk
    cases hk
  | some v =>
    rw [hv] at hk
    rw [← hdata] at hv
    rw [← hqexp] at hexp
    have hnot := hfound r.id q v hq hexp hv hk
    unfold missed at hnot
    rw [Bool.or_eq_false_iff, Bool.not_eq_false', Bool.and_eq_false_iff] at hnot
    have hvalue : fieldValues x.field w.col.decisions w.col.log r.id = some v := by
      unfold fieldValues acceptedValue
      rw [latestData_eq, hq, ← hf]
      show ((q.data.getD []).get f.field).filter _ = _
      rw [hv, filter_some, if_pos hnot.1]
    refine (h.views x hx).mem_candidates hvalue (hjson r.id q v hq hv) hk (fun hop => ?_) hids
    rcases hnot.2 with hne | hz
    · rw [hop] at hne
      cases hne
    · exact hz

/-- In every state that a run leads to and in which every line decodes, a filter on an indexed field
returns what a full scan returns, if no stored value that meets it is one the index misses. -/
theorem served_as_scanned {start : Shelf} (hs : start.Opened)
    (hr : Runs.Reaches (Shelf.step cfg) (fun _ _ => True) start w) (hdec : w.col.decodes = true)
    {x : OrderedIndex} (hx : x ∈ w.views) {f : FieldFilter} (hf : f.field = x.field) (re : String → String → Bool)
    (hjson : ∀ id r v, records w.col.decisions w.col.log id = some r →
      (r.data.getD []).get f.field = some v → isInt v = false)
    (hfound : ∀ id r v, records w.col.decisions w.col.log id = some r →
      expired r.expiresAt w.col.now = false → (r.data.getD []).get f.field = some v →
      f.op.test re v (filterValueTyped f.value) = true → missed f v = false) :
    ∃ full served, fullScan w.col [] (f.matches re) = .ok full ∧ find re w.col x f = .ok served ∧
      ∀ r, r ∈ served ↔ r ∈ full := by
  have hinv : ShelfInv w := hr.invariant hs.inv fun hi _ h => step_shelfInv hi h
  have ha := hinv.latest.toAddressed
  have hfull := fullScan_eq (f.matches re) ha hdec
  unfold find
  cases hids : x.candidates f with
  | none => exact ⟨_, _, hfull, hfull, fun _ => Iff.rfl⟩
  | some ids =>
    refine ⟨_, _, hfull, candidateScan_eq (f.matches re) ha hdec ids, fun r => ?_⟩
    rw [mem_segments ha r, mem_candidates r]
    exact hinv.described hx hf hjson hfound hids r

end

def emptyShelf : Shelf :=
  { col := emptyCollection, views := [], saved := [] }

theorem emptyShelf_opened : emptyShelf.Opened :=
  ⟨emptyCollection_opened, rfl, rfl⟩

def numbered (n : Nat) (v : Value) : ShelfAct :=
  .op (.insert (some [("n", v)]) 0 (readingsAt n))

def number (neg : Bool) (text : String) : Value :=
  .float { (JsonText.litParts text.toList).toDecimal with neg := neg }

def Shelf.clear (w : Shelf) (f : FieldFilter) : Bool :=
  w.col.ids.all fun id => (records w.col.decisions w.col.log id).all fun r =>
    ((r.data.getD []).get f.field).all fun v => !isInt v && !missed f v

theorem clear_spec {w : Shelf} {f : FieldFilter} (h : w.clear f = true) {id : Nat} {r : Record}
    {v : Value} (hr : records w.col.decisions w.col.log id = some r)
    (hv : (r.data.getD []).get f.field = some v) : isInt v = false ∧ missed f v = false := by
  obtain ⟨l, hl, hid⟩ := records_id (by rw [hr]; rfl)
  have hmem : id ∈ w.col.ids := mem_dedup.mpr (hid ▸ mem_map_of_mem hl)
  have hall := all_eq_true.mp h id hmem
  rw [hr, Option.all_some, hv, Option.all_some] at hall
  simpa using hall

def numberedRun : List ShelfAct :=
  [.op (.ensureIndex "n" false), numbered 1 (number false "1.5"), .persist "n",
    numbered 2 (number true "20"), .op (.reopen 2 2)]

theorem served_as_scanned_sample : ∃ w x full served,
    Runs.run (Shelf.step plainConfig) emptyShelf numberedRun = some w ∧ w.views.head? = some x ∧
      x.candidates ⟨"n", .lt, "1"⟩ = some [2] ∧
      fullScan w.col [] (FieldFilter.matches (fun _ _ => false) ⟨"n", .lt, "1"⟩) = .ok full ∧
      find (fun _ _ => false) w.col x ⟨"n", .lt, "1"⟩ = .ok served ∧ ∀ r, r ∈ served ↔ r ∈ full := by
  obtain ⟨w, hw, hr, hdec, x, hx, hfield, hclear, hids⟩ := Runs.reached (Shelf.step plainConfig)
    (fun _ _ => True) emptyShelf numberedRun (fun w => w.col.decodes = true ∧
      ∃ x ∈ w.views.head?, x.field = "n" ∧ w.clear ⟨"n", .lt, "1"⟩ = true ∧
      x.candidates ⟨"n", .lt, "1"⟩ = some [2]) (by decide +kernel)
  obtain ⟨full, served, hfull, hserved, hsame⟩ := served_as_scanned (f := ⟨"n", .lt, "1"⟩)
    emptyShelf_opened hr hdec (mem_of_mem_head? hx) hfield.symm (fun _ _ => false)
    (fun _ _ _ hr hv => (clear_spec hclear hr hv).1)
    (fun _ _ _ hr _ hv _ => (clear_spec hclear hr hv).2)
  exact ⟨w, x, full, served, hw, hx, hids, hfull, hserved, hsame⟩

def foundIDs (acts : List ShelfAct) (f : FieldFilter) : Option (List Nat × List Nat) :=
  (Runs.run (Shelf.step plainConfig) emptyShelf acts).bind fun w =>
    w.views.head?.bind fun x => do
      let full ← (fullScan w.col [] (f.matches fun _ _ => false)).toOption
      let served ← (find (fun _ _ => false) w.col x f).toOption
      return (full.map ScanResult.id, served.map ScanResult.id)

/-- An equality with zero misses a negative zero in an index, and the key index has no number. -/
theorem served_misses_zero :
    foundIDs [.op (.ensureIndex "n" false), numbered 1 (number true "0")] ⟨"n", .eq, "0"⟩ =
        some ([1], []) ∧
      foundIDs [.op (.ensureIndex keyField true),
        .op (.applyEntry (replicated .insert 1 1 [(keyField, number false "5")]) (readingsAt 1))]
        ⟨keyField, .eq, "5"⟩ = some ([1], []) := by
  decide +kernel

end Scriva.Scanning
