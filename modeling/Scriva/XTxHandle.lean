import Scriva.Reads
import Scriva.Revisions

namespace Scriva.Serial

structure DocKey where
  col : String
  id : Nat
deriving DecidableEq, Repr

/-- What a handle has seen of a stored document. `version` and `content` are for the proofs: the
place the document was at, and the line there once it was read. -/
structure Observation where
  present : Bool
  rev : Nat
  write : Bool
  version : Option IndexEntry
  content : Option Entry
deriving DecidableEq

/-- A transaction handle: its staged writes in order, what it has observed, and what its reads have
returned, absence as nothing. -/
structure XTx where
  parts : List String
  writes : List (DocKey × XTxOp)
  observed : List (DocKey × Observation)
  returned : List (DocKey × Option RecordView)

def XTx.new (parts : List String) : XTx :=
  { parts := parts, writes := [], observed := [], returned := [] }

def XTx.staged (x : XTx) (k : DocKey) : Option XTxOp :=
  (x.writes.find? fun w => w.1 == k).map Prod.snd

def XTx.seen (x : XTx) (k : DocKey) : Option Observation :=
  (x.observed.find? fun o => o.1 == k).map Prod.snd

def XTx.note (x : XTx) (k : DocKey) (obs : Observation) : XTx :=
  { x with observed := (k, obs) :: x.observed.filter fun o => o.1 != k }

def XTx.restage (x : XTx) (k : DocKey) (op : XTxOp) : XTx :=
  { x with writes := x.writes.map fun w => if w.1 == k then (k, op) else w }

def observation (s : Collection) (id : Nat) (now : Int) : Observation :=
  let live := s.liveEntry id now
  { present := live.isSome, rev := live.elim 0 IndexEntry.rev, write := false, version := live,
    content := none }

def XTx.observe (x : XTx) (s : Collection) (now : Int) (k : DocKey) : XTx × Observation :=
  match x.seen k with
  | some obs => (x, obs)
  | none => (x.note k (observation s k.id now), observation s k.id now)

def XTx.insert (x : XTx) (k : DocKey) (data : Option Data) (expiresAt : Int) : Option XTx := do
  guard (!hasKey data)
  return { x with writes := x.writes ++ [(k, { op := .insert, id := k.id, data := data,
                                               expectedRev := 0, expiresAt := expiresAt })] }

/-- An operation on a document that the handle has written folds into the write. -/
def XTx.stageOver (x : XTx) (k : DocKey) (w op : XTxOp) : XTx :=
  match w.op with
  | .delete => x
  | .insert =>
    if op.expectedRev ≠ 0 then x
    else if op.op = .delete then { x with writes := x.writes.filter fun w => w.1 != k }
    else x.restage k { w with data := op.data
                              expiresAt := if op.expiresAt = 0 then w.expiresAt
                                           else op.expiresAt }
  | .update =>
    if op.expectedRev ≠ 0 ∧ op.expectedRev ≠ w.expectedRev then x
    else x.restage k { w with op := op.op, data := op.data, expiresAt := op.expiresAt }

def XTx.stageStored (x : XTx) (k : DocKey) (obs : Observation) (op : XTxOp) : XTx :=
  if obs.present = false then x
  else if op.expectedRev ≠ 0 ∧ op.expectedRev ≠ obs.rev then x
  else
    { x.note k { obs with write := true } with
      writes := x.writes ++ [(k, { op with id := k.id, expectedRev := obs.rev })] }

/-- `Stage` of an update or a delete. What it refuses it may have observed. -/
def XTx.stage (x : XTx) (s : Collection) (now : Int) (k : DocKey) (op : XTxOp) : Option XTx := do
  guard (op.op ≠ .insert ∧ (op.op = .update → hasKey op.data = false))
  let op : XTxOp := { op with data := if op.op = .delete then none else op.data }
  match x.staged k with
  | some w => return x.stageOver k w op
  | none =>
    let (x, obs) := x.observe s now k
    return x.stageStored k obs op

def stagedView (k : DocKey) (w : XTxOp) : Option RecordView :=
  if w.op = .delete then none
  else some { id := k.id, key := keyOf w.data, rev := w.expectedRev, ts := Rfc3339.zeroTime,
              data := w.data }

/-- `getIfPresent`: a document that is there and cannot be read is an error. -/
def getIfPresent (cfg : Config) (s : Collection) (id : Nat) (now : Int) :
    Option (Option RecordView) :=
  if (s.liveEntry id now).isSome then (s.get cfg id now).map some else some none

/-- `Get` sees the handle's own writes first; a document that has changed since it was observed is
a conflict. -/
def XTx.get (cfg : Config) (x : XTx) (s : Collection) (now : Int) (k : DocKey) : Option XTx := do
  match x.staged k with
  | some w => return { x with returned := x.returned ++ [(k, stagedView k w)] }
  | none =>
    let found ← getIfPresent cfg s k.id now
    let obs := observation s k.id now
    let prev := (x.seen k).getD obs
    guard (prev.present = obs.present ∧ prev.rev = obs.rev)
    let x := x.note k { prev with content := obs.version.bind (readEntry s.segments) }
    return { x with returned := x.returned ++ [(k, found)] }

inductive Call where
  | get (k : DocKey)
  | insert (k : DocKey) (data : Option Data) (expiresAt : Int)
  | stage (k : DocKey) (op : XTxOp)

def Call.doc : Call → DocKey
  | .get k | .insert k _ _ | .stage k _ => k

def Call.isInsert : Call → Bool
  | .insert .. => true
  | _ => false

def XTx.call (cfg : Config) (s : Collection) (now : Int) (x : XTx) (c : Call) : Option XTx := do
  guard (c.doc.col ∈ x.parts)
  match c with
  | .get k => x.get cfg s now k
  | .insert k data expiresAt => x.insert k data expiresAt
  | .stage k op => x.stage s now k op

def serially (cfg : String → Config) (cols : String → Collection) (now : Int) (x : XTx)
    (cs : List Call) : Option XTx :=
  cs.foldlM (fun x c => x.call (cfg c.doc.col) (cols c.doc.col) now c) x

structure Handle where
  tx : XTx
  calls : List Call
  isOpen : Bool

structure Db where
  cols : String → Store
  handles : List Handle

def Db.clock (db : Db) (wall : Int) (c : String) : Int :=
  max wall (db.cols c).col.now

def XTx.participants (x : XTx) : List String :=
  (x.writes.map fun w => w.1.col).dedup

def XTx.readCols (x : XTx) : List String :=
  (x.observed.map fun o => o.1.col).dedup

/-- The one instant of a commit: of the participants' clocks, or if nothing is written of those of
the collections read. -/
def Db.ttlNow (db : Db) (wall : Int) (x : XTx) : Int :=
  (if x.writes.isEmpty then x.readCols else x.participants).foldl
    (fun now c => max now (db.clock wall c)) 0

def Db.validate (db : Db) (x : XTx) (now : Int) : Bool :=
  x.observed.all fun o =>
    let live := (db.cols o.1.col).col.liveEntry o.1.id now
    live.isSome == o.2.present && live.elim 0 IndexEntry.rev == o.2.rev

def XTx.opsOf (x : XTx) (c : String) : List XTxOp :=
  (x.writes.filter fun w => w.1.col == c).map Prod.snd

def commitPart (cfg : String → Config) (txid : String) (x : XTx) (r : Readings)
    (cols : String → Store) (c : String) : Option (String → Store) :=
  ((cols c).step (cfg c) (.write (.commitXTx txid (x.opsOf c) r))).map (Function.update cols c)

inductive Act where
  /-- A write or batch outside handles, or upkeep, on one collection. -/
  | col (c : String) (op : StoreOp)
  | begin (parts : List String)
  | call (h : Nat) (c : Call) (wall : Int)
  | commit (h : Nat) (txid : String) (wall : Int) (r : Readings)
  | finish (h : Nat)

def Db.commit (cfg : String → Config) (db : Db) (x : XTx) (txid : String) (wall : Int)
    (r : Readings) : Option (String → Store) := do
  let now := db.ttlNow wall x
  guard (db.validate x now)
  x.participants.foldlM (commitPart cfg txid x { r with early := now }) db.cols

def Db.step (cfg : String → Config) (db : Db) : Act → Option Db
  | .col c op => ((db.cols c).step (cfg c) op).map fun y =>
    { db with cols := Function.update db.cols c y }
  | .begin parts =>
    some { db with handles := db.handles ++ [{ tx := XTx.new parts, calls := [], isOpen := true }] }
  | .call h c wall => do
    let o ← db.handles[h]?
    guard o.isOpen
    let x := db.cols c.doc.col
    let now := db.clock wall c.doc.col
    guard (c.isInsert = true → c.doc.id = x.col.idSeq + 1)
    let y ← x.step (cfg c.doc.col) (if c.isInsert then .reserveID else .write (.tick now))
    let tx ← o.tx.call (cfg c.doc.col) x.col now c
    return { cols := Function.update db.cols c.doc.col y
             handles := db.handles.set h { o with tx := tx, calls := o.calls ++ [c] } }
  | .commit h txid wall r => do
    let o ← db.handles[h]?
    guard o.isOpen
    let cols ← db.commit cfg o.tx txid wall r
    return { cols := cols, handles := db.handles.set h { o with isOpen := false } }
  | .finish h =>
    db.handles[h]?.map fun o =>
      { db with handles := db.handles.set h { o with isOpen := false } }

end Scriva.Serial
