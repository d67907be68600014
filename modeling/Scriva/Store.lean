import Scriva.IndexRuns

namespace Scriva

open List Option

/-- The lines of a transaction that ends with an unknown outcome stay, undecided and unindexed. -/
def Collection.leaveRun (cfg : Config) (s : Collection) (txid : String) (ops : List XTxOp)
    (r : Readings) : Option Collection := do
  guard (decide (ops.map XTxOp.id).Nodup)
  guard (s.newTxID txid)
  let chs ← ops.mapM (s.xtxChange cfg r)
  guard (s.txCheckUnique r.late [] (ops.map (XTxOp.claim r.ts)))
  return { s.append (runLines cfg (some txid) chs) with
           decisions := some (s.decisions.getD fun _ => none) }

def LogLine.stampedBy (t : String) (l : LogLine) : Bool :=
  l.tx.elim false fun tx => tx.t == t

/-- An undecided transaction that left lines is committed if its record reached the journal, and
presumed aborted otherwise. -/
def Decisions.resolve (d : Decisions) (ls : List LogLine) (committed : String → Bool) : Decisions :=
  d.map fun f t => (f t).or
    (if t != "" && ls.any (·.stampedBy t) then some (if committed t then .commit else .abort)
     else none)

/-- An aborted run at the end of the active segment, whose lines stand together, is cut off. -/
def trimTail (d : Decisions) (older : List LogLine) (lines : List Line) : List Line :=
  match lines.getLast?.bind fun l => l.tx with
  | none => lines
  | some tx =>
    if tx.t ≠ "" ∧ d.get tx.t = some .abort ∧ older.any (·.stampedBy tx.t) = false then
      lines.rdropWhile fun l => l.stampedBy tx.t
    else lines

def maxID (ls : List LogLine) : Nat :=
  (ls.map LogLine.id).foldl max 0

/-- What `load` reads of a segment for its counter: a scan ends at the first line that does not
decode, and its error is ignored. -/
def Segment.scanned (g : Segment) : List LogLine :=
  (g.lines.map Line.toLogLine).takeWhile LogLine.decodes

/-- The highest id that shows in the newest segment in which one does. -/
def tailMaxID (d : Decisions) : List Segment → Nat
  | [] => 0
  | g :: newer =>
    if newer.any fun g => g.scanned.any (·.visible d) then tailMaxID d newer
    else maxID (g.scanned.filter (·.visible d))

/-- The id counter of `load`: the saved one or the tail's, or without a readable `meta.json` the
highest id that is indexed or shows. -/
def restoredCounter (saved : Option Nat) (d : Decisions) (segs : List Segment) : Nat :=
  match saved with
  | some n => max n (tailMaxID d segs)
  | none => max (maxID ((logOf segs).filter fun l => (Index.rebuild segs d l.id).isSome))
      (maxID ((segs.flatMap Segment.scanned).filter (·.visible d)))

/-- The collection behind a crash that leaves the first lines of the active segment, once the next
process has opened it. -/
def Collection.recover (s : Collection) (saved : Option Nat) (kept : Nat)
    (committed : String → Bool) (now : Int) : Collection :=
  let lines := s.active.lines.take kept
  let d := s.decisions.resolve (logOf (s.sealed ++ [{ s.active with lines := lines }])) committed
  let active := { s.active with lines := trimTail d (logOf s.sealed) lines }
  Collection.rebuilt { s with
    active := active
    decisions := d
    idSeq := restoredCounter saved d (s.sealed ++ [active])
    now := now }

/-- A collection with its `meta.json`, beside the ids that were reserved and not used yet and the
ids of all lines that took effect. -/
structure Store where
  col : Collection
  saved : Option Nat
  reserved : List Nat
  used : List Nat

inductive StoreOp where
  | reserveID
  | write (op : CollectionOp)
  | leaveRun (txid : String) (ops : List XTxOp) (r : Readings)
  | rotate (metaWritten : Bool)
  | writeMeta
  | loseMeta
  | crash (kept : Nat) (committed : String → Bool) (now : Int)

def newLines (s t : Collection) : List Line :=
  t.active.lines.drop s.active.lines.length

def insertIDs (ls : List Line) : List Nat :=
  (ls.filter fun l => l.entry.op == .insert).map fun l => l.entry.id

def Store.step (cfg : Config) (x : Store) : StoreOp → Option Store
  | .reserveID =>
    some { x with col := { x.col with idSeq := x.col.idSeq + 1 }
                  reserved := x.reserved ++ [x.col.idSeq + 1] }
  | .write op =>
    if op.isUpkeep then none
    else (x.col.step cfg op).map fun t =>
      let ids := (newLines x.col t).map fun l => l.entry.id
      { x with col := t, reserved := x.reserved.filter (!ids.contains ·), used := x.used ++ ids }
  | .leaveRun txid ops r =>
    (x.col.during r (x.col.leaveRun cfg txid ops r)).map fun t =>
      { x with col := t, reserved := x.reserved.filter (!(ops.map XTxOp.id).contains ·) }
  | .rotate metaWritten =>
    some { x with col := x.col.rotateSegment
                  saved := if metaWritten then some x.col.idSeq else x.saved }
  | .writeMeta => some { x with saved := some x.col.idSeq }
  | .loseMeta => some { x with saved := none }
  | .crash kept committed now =>
    let t := x.col.recover x.saved kept committed now
    -- stamped lines without a journal are refused
    if t.decisions.isNone && t.log.any (!·.isPlain) then none
    else some { x with col := t, reserved := []
                       used := x.used ++ (t.log.filter (·.visible t.decisions)).map LogLine.id }

/-- The step leaves no line behind that does not decode. -/
def StoreOp.Decodes (cfg : Config) (x : Store) (op : StoreOp) : Prop :=
  ∀ y ∈ x.step cfg op, y.col.decodes = true

instance (cfg : Config) (x : Store) (op : StoreOp) : Decidable (op.Decodes cfg x) :=
  inferInstanceAs (Decidable (∀ y ∈ x.step cfg op, _))

section

variable {s t : Collection} {d d' : Decisions}

theorem undecided_eq (d : Decisions) (l : LogLine) :
    l.undecided d = l.tx.elim false fun tx => tx.t != "" && d.get tx.t == none := by
  unfold LogLine.undecided
  cases l.tx <;> rfl

theorem Decides.undecided (h : Decides s t) {l : LogLine} (hl : l ∈ s.log) :
    l.undecided t.decisions = l.undecided s.decisions := by
  rcases h with h | ⟨txid, v, hnew, h⟩
  · rw [h]
  · rw [h, undecided_eq, undecided_eq]
    unfold Collection.newTxID at hnew
    simp only [Bool.and_eq_true, List.all_eq_true] at hnew
    have hne := hnew.2 l hl
    cases htx : l.tx with
    | none => rfl
    | some tx =>
      rw [htx] at hne
      have hne : tx.t ≠ txid := by simpa using hne
      simp only [elim_some, get_set, if_neg hne]

theorem resolve_extends (d : Decisions) (ls : List LogLine) (committed : String → Bool) :
    (d.resolve ls committed).Extends d := by
  intro t v h
  obtain ⟨f, hd, hf⟩ := bind_eq_some_iff.mp h
  simp [Decisions.resolve, Decisions.get, hd, hf]

theorem resolve_decided {ls : List LogLine} {committed : String → Bool}
    (hd : (d.resolve ls committed).isSome = true) {l : LogLine} (hl : l ∈ ls) :
    l.undecided (d.resolve ls committed) = false := by
  rw [undecided_eq]
  cases htx : l.tx with
  | none => rfl
  | some tx =>
    rw [elim_some]
    by_cases ht : tx.t = ""
    · simp [ht]
    · obtain ⟨f, hf⟩ : ∃ f, d = some f := by
        cases d with
        | none => cases hd
        | some f => exact ⟨f, rfl⟩
      have hmem : ∃ x ∈ ls, x.stampedBy tx.t = true :=
        ⟨l, hl, by simp [LogLine.stampedBy, htx]⟩
      subst hf
      cases hv : f tx.t <;> simp [Decisions.resolve, Decisions.get, hv, ht, hmem]

theorem trimTail_front (d : Decisions) (older : List LogLine) (lines : List Line) :
    trimTail d older lines <+: lines := by
  unfold trimTail
  split
  · exact prefix_refl _
  · split
    · exact rdropWhile_prefix _ _
    · exact prefix_refl _

theorem mem_trimTail {older : List LogLine} {lines : List Line} {l : Line} (hl : l ∈ lines)
    (hv : l.toLogLine.visible d = true) : l ∈ trimTail d older lines := by
  unfold trimTail
  split
  · exact hl
  · next tx _ =>
    split
    · next hcut =>
      have hsplit : lines.rdropWhile (fun l => l.stampedBy tx.t) ++
          lines.rtakeWhile (fun l => l.stampedBy tx.t) = lines := rdropWhile_append_rtakeWhile
      rw [← hsplit] at hl
      rcases mem_append.mp hl with hl | hl
      · exact hl
      · have hst := mem_rtakeWhile_imp hl
        unfold LogLine.stampedBy at hst
        cases htx : l.tx with
        | none => simp [htx] at hst
        | some tx' =>
          have heq : tx'.t = tx.t := by simpa [htx] using hst
          simp [LogLine.visible, entryVisible, htx, heq, hcut.1, hcut.2.1] at hv
    · exact hl

end

end Scriva
