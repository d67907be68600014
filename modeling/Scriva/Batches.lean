import Scriva.Writes

namespace Scriva

/-- One operation of a legacy batch, with the indexes as the operations before have left them. -/
def Collection.commitTxOp (cfg : Config) (exp : Int) (s : Collection) (op : TxOp) :
    Option Collection := do
  match op.kind with
  | .insert =>
    let e ← sealEntryData cfg { id := op.id, op := .insert, ts := op.ts, rev := 1, data := op.data,
                                epoch := 0, expiresAt := exp }
    return s.put cfg { entry := e, data := op.data, fresh := true }
  | .update =>
    let cur := s.index op.id
    let e ← sealEntryData cfg { id := op.id, op := .update, ts := op.ts,
                                rev := cur.elim 1 fun c => c.rev + 1, data := op.data, epoch := 0,
                                expiresAt := cur.elim 0 IndexEntry.expiresAt }
    return s.put cfg { entry := e, data := op.data, fresh := false }
  | .delete => return s.put cfg { entry := deleteEntry op.id op.ts, data := none, fresh := false }

def Collection.keepKeyOf (s : Collection) (op : TxOp) : TxOp :=
  if op.kind = .update then { op with data := s.preserveReserved op.id op.data } else op

def Collection.commitTxLegacy (cfg : Config) (s : Collection) (ops : List TxOp) (r : Readings) :
    Option Collection := do
  guard (ops.all fun op => op.kind == .insert || (s.index op.id).isSome)
  guard (s.txCheckUnique r.late [] ops)
  (ops.map s.keepKeyOf).foldlM (commitTxOp cfg (resolveInsertExpiryAt cfg 0 r.early)) s

/-- The records of an `InsertMany`, under the next ids. -/
def insertOps (s : Collection) (records : List (Option Data)) (ts : Rfc3339.Time) : List TxOp :=
  records.zipIdx.map fun p => { kind := .insert, id := s.idSeq + 1 + p.2, data := p.1, ts := ts }

def Collection.insertManyLegacy (cfg : Config) (s : Collection) (records : List (Option Data))
    (exp : Int) (r : Readings) : Option Collection := do
  let ops := insertOps s records r.ts
  guard (s.txCheckUnique r.late [] ops)
  ops.foldlM (commitTxOp cfg exp) { s with idSeq := s.idSeq + records.length }

/-- One operation of a transaction; zero stands for no expected revision and for no deadline. -/
structure XTxOp where
  op : Op
  id : Nat
  data : Option Data
  expectedRev : Nat
  expiresAt : Int

/-- A run seals data only where there is some, and stamps the epoch on every line. -/
def sealRunEntry (cfg : Config) (e : Entry) : Option Entry :=
  match cfg.enc with
  | none => some e
  | some k =>
    (if e.data.isSome then k.encrypt e.data else some none).map fun stored =>
      { e with data := stored, epoch := k.epoch }

/-- The line of an operation, from the record as it stands before the transaction. -/
def Collection.xtxChange (cfg : Config) (s : Collection) (r : Readings) (op : XTxOp) :
    Option Change := do
  match op.op with
  | .insert =>
    let exp := if op.expiresAt = 0 then resolveInsertExpiryAt cfg 0 r.early else op.expiresAt
    let e ← sealRunEntry cfg { id := op.id, op := .insert, ts := r.ts, rev := 1, data := op.data,
                               epoch := 0, expiresAt := exp }
    return { entry := e, data := op.data, fresh := true }
  | .update =>
    let loc ← s.index op.id
    guard (!expired loc.expiresAt r.early)
    guard (op.expectedRev == 0 || loc.rev == op.expectedRev)
    let data := s.preserveReserved op.id op.data
    let exp := if op.expiresAt = 0 then loc.expiresAt else op.expiresAt
    let e ← sealRunEntry cfg { id := op.id, op := .update, ts := r.ts, rev := loc.rev + 1,
                               data := data, epoch := 0, expiresAt := exp }
    return { entry := e, data := data, fresh := false }
  | .delete =>
    let loc ← s.index op.id
    guard (!expired loc.expiresAt r.early)
    guard (op.expectedRev == 0 || loc.rev == op.expectedRev)
    let e ← sealRunEntry cfg { id := op.id, op := .delete, ts := r.ts, rev := loc.rev + 1,
                               data := none, epoch := 0, expiresAt := 0 }
    return { entry := e, data := none, fresh := false }

/-- The claims of a transaction are those of the caller's data. -/
def XTxOp.claim (ts : Rfc3339.Time) (op : XTxOp) : TxOp :=
  { kind := op.op, id := op.id, data := if op.op = .delete then none else op.data, ts := ts }

def Decisions.set (d : Decisions) (t : String) (v : Verdict) : Decisions :=
  some (Function.update (d.getD fun _ => none) t (some v))

/-- What `allocateTxID` guarantees: no decision and no line names the id. -/
def Collection.newTxID (s : Collection) (txid : String) : Bool :=
  txid != "" && s.decisions.get txid == none &&
    s.log.all fun l => l.tx.elim true fun tx => tx.t != txid

def maxInsertID (ops : List XTxOp) : Nat :=
  ((ops.filter fun op => op.op == .insert).map XTxOp.id).foldl max 0

def Collection.commitXTx (cfg : Config) (s : Collection) (txid : String) (ops : List XTxOp)
    (r : Readings) : Option Collection := do
  guard (decide (ops.map XTxOp.id).Nodup)
  guard (s.newTxID txid)
  let chs ← ops.mapM (s.xtxChange cfg r)
  guard (s.txCheckUnique r.late [] (ops.map (XTxOp.claim r.ts)))
  let s' := { s with decisions := s.decisions.set txid .commit }.commitRun cfg (some txid) chs
  return { s' with idSeq := max s.idSeq (maxInsertID ops) }

end Scriva
