import Scriva.Collection

namespace Scriva

def Collection.live (s : Collection) (id : Nat) (now : Int) : Bool :=
  (s.index id).elim false fun e => !expired e.expiresAt now

def Collection.sidxConflict (s : Collection) (x : SecondaryIndex) (key : String) (id : Nat)
    (now : Int) : Bool :=
  s.ids.any fun other => other != id && x.buckets key other && s.live other now

def Collection.claims (s : Collection) (data : Option Data) : List (SecondaryIndex × String) :=
  s.sidxs.filterMap fun x =>
    if x.unique then (bucketKey x.field data).map fun key => (x, key) else none

def Collection.sidxCheckUnique (s : Collection) (id : Nat) (data : Option Data) (now : Int) :
    Bool :=
  (s.claims data).all fun p => !s.sidxConflict p.1 p.2 id now

structure TxOp where
  kind : Op
  id : Nat
  data : Option Data
  ts : Rfc3339.Time

/-- `claimed` holds what earlier operations of the batch have claimed: field, key and id. -/
def Collection.txCheckUnique (s : Collection) (now : Int) :
    List (String × String × Nat) → List TxOp → Bool
  | _, [] => true
  | claimed, op :: ops =>
    if op.kind = .delete then s.txCheckUnique now claimed ops
    else
      let mine := s.claims op.data
      mine.all (fun p => !s.sidxConflict p.1 p.2 op.id now &&
        claimed.all fun q => !(q.1 == p.1.field && q.2.1 == p.2) || q.2.2 == op.id) &&
      s.txCheckUnique now (mine.map (fun p => (p.1.field, p.2, op.id)) ++ claimed) ops

def hasKey (data : Option Data) : Bool :=
  ((data.getD []).get keyField).isSome

def stampKey (data : Option Data) (key : String) : Option Data :=
  some ((data.getD []).set keyField (.str key))

def Collection.sidx (s : Collection) (field : String) : Option SecondaryIndex :=
  s.sidxs.find? fun x => x.field == field

def Collection.reservedKey (s : Collection) (id : Nat) (data : Option Data) : Option String :=
  if hasKey data then none else (s.sidx keyField).bind fun x => x.reverse id

def keepKey (key : Option String) (data : Option Data) : Option Data :=
  key.elim data (stampKey data)

def Collection.preserveReserved (s : Collection) (id : Nat) (data : Option Data) : Option Data :=
  keepKey (s.reservedKey id data) data

def Collection.keyConflict (s : Collection) : Bool :=
  (s.sidx keyField).elim false fun x =>
    (s.log.filterMap fun l => bucketKey keyField l.entry.data).any fun key =>
      2 ≤ (s.ids.filter (x.buckets key)).length

def Collection.indexLookup (s : Collection) (key : String) (now : Int) : List Nat :=
  (s.sidx keyField).elim [] fun x => s.ids.filter fun id => x.buckets key id && s.live id now

/-- Whether a scan of the segments reads every line. -/
def Collection.decodes (s : Collection) : Bool :=
  s.log.all LogLine.decodes

/-- An index is there, or the scan that builds it does not fail. -/
def Collection.buildable (s : Collection) (field : String) : Bool :=
  (s.sidx field).isSome || s.decodes

/-- An index that exists already stays as it is, whatever `unique` says; one that can be built is
added. -/
def Collection.ensureIndex (s : Collection) (field : String) (unique : Bool) : Collection :=
  if (s.sidx field).isSome then s
  else { s with sidxs := s.sidxs ++
    [(SecondaryIndex.empty field unique).rebuild s.segments s.decisions] }

def Collection.dropIndex (s : Collection) (field : String) : Option Collection :=
  if (s.sidx field).isSome then
    some { s with sidxs := s.sidxs.filter fun x => x.field != field }
  else none

section Single

variable (cfg : Config) (s : Collection)

def Collection.insert (data : Option Data) (expiresAt : Int) (r : Readings) : Option Collection := do
  let e ← sealEntryData cfg { id := s.idSeq + 1, op := .insert, ts := r.ts, rev := 1, data := data,
                              epoch := 0, expiresAt := expiresAt }
  guard (s.sidxCheckUnique e.id data r.late)
  return { s.put cfg { entry := e, data := data, fresh := true } with idSeq := s.idSeq + 1 }

def Collection.insertWithExpiry (data : Option Data) (explicit : Int) (r : Readings) :
    Option Collection := do
  guard (!hasKey data)
  s.insert cfg data (resolveInsertExpiryAt cfg explicit r.early) r

def Collection.insertWithKey (key : String) (data : Option Data) (r : Readings) :
    Option Collection := do
  guard (!hasKey data)
  guard (s.buildable keyField)
  let s := s.ensureIndex keyField true
  guard (!s.keyConflict)
  s.insert cfg (stampKey data key) (resolveInsertExpiryAt cfg 0 r.early) r

/-- Uniqueness is asked of the caller's data: a key that is kept is no new claim. -/
def Collection.update (id : Nat) (data : Option Data) (expiresAt : Option Int) (r : Readings) :
    Option Collection := do
  let e ← sealEntryData cfg { id := id, op := .update, ts := r.ts, rev := 0, data := data,
                              epoch := 0, expiresAt := 0 }
  let cur ← s.index id
  let key := s.reservedKey id data
  guard (s.sidxCheckUnique id data r.late)
  let e := { e with data := keepKey key e.data, rev := cur.rev + 1,
                    expiresAt := expiresAt.getD cur.expiresAt }
  return s.put cfg { entry := e, data := keepKey key data, fresh := false }

def Collection.updateByID (id : Nat) (data : Option Data) (r : Readings) : Option Collection := do
  guard (!hasKey data)
  s.update cfg id data none r

def Collection.updateWithExpiry (id : Nat) (data : Option Data) (explicit : Int) (r : Readings) :
    Option Collection := do
  guard (!hasKey data)
  s.update cfg id data (some (resolveInsertExpiryAt cfg explicit r.early)) r

def deleteEntry (id : Nat) (ts : Rfc3339.Time) : Entry :=
  { id := id, op := .delete, ts := ts, rev := 0, data := none, epoch := 0, expiresAt := 0 }

def Collection.delete (id : Nat) (r : Readings) : Option Collection := do
  let _ ← s.index id
  return s.put cfg { entry := deleteEntry id r.ts, data := none, fresh := false }

def Collection.resolveKey (key : String) (r : Readings) : Option Nat := do
  guard (!s.keyConflict)
  (s.indexLookup key r.early).head?

def Collection.updateByKey (key : String) (data : Option Data) (r : Readings) :
    Option Collection := do
  guard (!hasKey data)
  let id ← s.resolveKey key r
  s.update cfg id (stampKey data key) none r

def Collection.deleteByKey (key : String) (r : Readings) : Option Collection := do
  let id ← s.resolveKey key r
  s.delete cfg id r

/-- Replaces the record of the key, which keeps its deadline, or inserts one. -/
def Collection.upsert (key : String) (data : Option Data) (r : Readings) : Option Collection := do
  guard (!hasKey data)
  guard (s.buildable keyField)
  let s := s.ensureIndex keyField true
  guard (!s.keyConflict)
  let stamped := stampKey data key
  let found := (s.indexLookup key r.early).head?.bind fun id => (s.index id).map fun cur => (id, cur)
  match found with
  | some (id, cur) =>
    guard (s.sidxCheckUnique id stamped r.late)
    let e ← sealEntryData cfg { id := id, op := .update, ts := r.ts, rev := cur.rev + 1,
                                data := stamped, epoch := 0, expiresAt := cur.expiresAt }
    return s.put cfg { entry := e, data := stamped, fresh := false }
  | none => s.insert cfg stamped (resolveInsertExpiryAt cfg 0 r.mid) r

/-- `UpdateIfRev` and `UpdateIfMatch`: `ok` looks at the current data and revision. -/
def Collection.compareAndSwap (key : String) (data : Option Data)
    (ok : Option Data → Nat → Bool) (r : Readings) : Option Collection := do
  guard (!hasKey data)
  guard (!s.keyConflict)
  let id ← (s.indexLookup key r.early).head?
  let loc ← s.index id
  let cur ← readEntry s.segments loc
  guard (cur.id == id)
  let curData ← cfg.enc.elim (some cur.data) fun k => k.materialize cur.data
  guard (ok curData loc.rev)
  let stamped := stampKey data key
  guard (s.sidxCheckUnique id stamped r.late)
  let e ← sealEntryData cfg { id := id, op := .update, ts := r.ts, rev := loc.rev + 1,
                              data := stamped, epoch := 0, expiresAt := loc.expiresAt }
  return s.put cfg { entry := e, data := stamped, fresh := false }

end Single

end Scriva
