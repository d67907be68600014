import Scriva.Integrity
import Scriva.ServedScans
import Scriva.SidxRuns

namespace Scriva.Counting

open Scanning

inductive Filter where
  | matchAll
  | field (f : FieldFilter)
  | and (fs : List Filter)
  | or (fs : List Filter)

mutual

def Filter.matches (re : String → String → Bool) : Filter → Data → Bool
  | .matchAll, _ => true
  | .field f, record => f.matches re record
  | .and fs, record => matchAnd re fs record
  | .or fs, record => matchOr re fs record

def matchAnd (re : String → String → Bool) : List Filter → Data → Bool
  | [], _ => true
  | f :: fs, record => f.matches re record && matchAnd re fs record

def matchOr (re : String → String → Bool) : List Filter → Data → Bool
  | [], _ => false
  | f :: fs, record => f.matches re record || matchOr re fs record

end

mutual

def Filter.encryptedField (cfg : Config) : Filter → Option String
  | .matchAll => none
  | .field f => if cfg.isEncryptedField f.field then some f.field else none
  | .and fs => firstEncrypted cfg fs
  | .or fs => firstEncrypted cfg fs

def firstEncrypted (cfg : Config) : List Filter → Option String
  | [] => none
  | f :: fs => (f.encryptedField cfg).or (firstEncrypted cfg fs)

end

/-- A collection with the hint whether its records may expire, and the places of the lines whose text
is damaged. Such a line stands in the log as one of a transaction nobody decided, which no index
takes in. -/
structure Counted where
  up : Bool
  col : Collection
  mayExpire : Bool
  damaged : List (Nat × Nat)

inductive QueryErr where
  | fieldEncrypted (field : String)
  | scan (err : ScanErr)
  | decrypt (id : Nat)
deriving DecidableEq

/-- `finalizeRecord`, without a projection. -/
def finalizeRecord (cfg : Config) (r : ScanResult) : Except QueryErr ScanResult :=
  match cfg.enc with
  | none => .ok r
  | some k =>
    match k.materialize r.data with
    | none => .error (.decrypt r.id)
    | some data => .ok { r with data := data }

/-- `indexLookupRaw`. -/
def bucket (s : Collection) (f : FieldFilter) : Option (List Nat) :=
  (s.sidx f.field).map fun x =>
    s.ids.filter fun id => x.buckets (toIndexKey (filterValueTyped f.value)) id

section

variable (cfg : Config) (re : String → String → Bool)
  -- What the order of an index answers to a range.
  (ranges : Collection → FieldFilter → Option (List Nat))

def indexCandidates (s : Collection) : Filter → Option (List Nat)
  | .field f =>
    match f.op with
    | .eq => bucket s f
    | .gt | .gte | .lt | .lte => ranges s f
    | _ => none
  | _ => none

def Counted.forEachMatch (w : Counted) (f : Filter) : Except QueryErr (List ScanResult) :=
  match f.encryptedField cfg with
  | some field => .error (.fieldEncrypted field)
  | none =>
    match indexCandidates ranges w.col f with
    | some ids => (candidateScan w.col w.damaged ids (f.matches re)).mapError .scan
    | none => (fullScan w.col w.damaged (f.matches re)).mapError .scan

/-- `Scan`: every record, in natural order. -/
def Counted.scan (w : Counted) (f : Option Filter) : Except QueryErr (List ScanResult) := do
  let rows ← w.forEachMatch cfg re ranges (f.getD .matchAll)
  rows.mapM (finalizeRecord cfg)

end

/-- A line whose `index.Set` tells of a deadline. -/
def sets (l : LogLine) : Bool :=
  l.entry.op != .delete && l.entry.expiresAt != 0

/-- `noteExpiringLocked` finds a deadline. -/
def holdsDeadline (s : Collection) : Bool :=
  s.ids.any fun id => (s.index id).elim false fun loc => loc.expiresAt != 0

/-- How an open comes to its index: from a file it trusts, from a rebuild over files without a
blocking finding, or from what it could salvage. -/
inductive Recovery where
  | file
  | rebuild
  | tolerant
deriving DecidableEq

inductive Act where
  | op (o : CollectionOp)
  | close
  | damage (sealed : List Segment) (active : Segment) (bad : List (Nat × Nat))
  | reopen (idSeq : Nat) (now : Int) (how : Recovery) (loaded : Bool)

def standing (segs : List Segment) (d : Decisions) (bad : List (Nat × Nat)) : Bool :=
  bad.all fun p => (located segs).any fun x => decide ((x.seg, x.offset) = p) && !x.visible d

def fieldsOf (s : Collection) : List String :=
  s.sidxs.map SecondaryIndex.field

/-- A pass over damaged files: it fails if it meets a damaged line itself, and otherwise swaps the
files and then fails to rebuild the indexes. -/
def Counted.brokenPass (cfg : Config) (w : Counted) (k : Nat) (at_ : Int) : Option Counted :=
  if w.damaged.any fun p => decide (p.1 ∈ (w.col.sealed.take k).map Segment.num) then none
  else (compactSegments cfg.encoding cfg.enc cfg.segmentMaxSize (w.col.sealed.take k)
    w.col.decisions at_).map fun segs =>
      { w with col := { w.col with sealed := segs ++ w.col.sealed.drop k } }

/-- An operation of the open collection. A new index is built from every line. -/
def Counted.serve (cfg : Config) (w : Counted) (o : CollectionOp) : Option Counted := do
  let t ← w.col.step cfg o
  guard (w.damaged = [] ∨ fieldsOf t ⊆ fieldsOf w.col)
  return { w with
    col := t
    mayExpire := w.mayExpire ||
      if CollectionOp.isCompact o then holdsDeadline t else (t.log.drop w.col.log.length).any sets }

/-- `loaded` says that the index file, trusted or not, held a deadline when it was loaded. A
tolerant rebuild does not look for deadlines. -/
def Counted.step (hash : Option Data → Nat) (cfg : Config) (w : Counted) : Act → Option Counted
  | .op o =>
    if w.up = false ∨ CollectionOp.isReopen o = true then none
    else
      match o with
      | .compact k at_ => if w.damaged ≠ [] then w.brokenPass cfg k at_ else w.serve cfg o
      | _ => w.serve cfg o
  | .close => if w.up then some { w with up := false } else none
  | .damage sealed active bad =>
    if w.up = false ∧ Ascending (sealed ++ [active]) ∧
        standing (sealed ++ [active]) w.col.decisions bad = true then
      some { w with col := { w.col with sealed := sealed, active := active, segSeq := active.num },
                    damaged := bad }
    else none
  | .reopen idSeq now how loaded => do
    guard (w.up = false)
    let t ← w.col.reopen idSeq now
    let clean := decide (w.damaged = []) && integrityGate hash t.segments
    guard (how = .rebuild → clean = true)
    guard (how = .tolerant → clean = false)
    return { w with up := true, col := t,
                    mayExpire := loaded || (decide (how ≠ .tolerant) && holdsDeadline t) }

/-- The secondary indexes follow their lines, every line of the files decodes, and a tolerant open
finds no deadline that it would have to look for. -/
def Act.Sound (cfg : Config) (w : Counted) : Act → Prop
  | .op o => o.SidxSound cfg true w.col ∧ o.Decodes cfg w.col
  | .damage sealed active bad => bad = [] ∧ (logOf (sealed ++ [active])).all LogLine.decodes = true
  | .reopen _ _ .tolerant loaded => loaded = true ∨ holdsDeadline w.col.rebuilt = false
  | _ => True

end Scriva.Counting
