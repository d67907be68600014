import Scriva.Batches

namespace Scriva

/-- A batch of two or more runs as a transaction once the database has a journal. -/
def Collection.routeAtomic (s : Collection) (n : Nat) : Bool :=
  2 ≤ n && s.decisions.isSome

def Collection.commitTx (cfg : Config) (s : Collection) (txid : String) (ops : List TxOp)
    (r : Readings) : Option Collection :=
  if s.routeAtomic ops.length then
    s.commitXTx cfg txid (ops.map fun op =>
      { op := op.kind, id := op.id, data := op.data, expectedRev := 0, expiresAt := 0 }) r
  else s.commitTxLegacy cfg ops r

def Collection.insertMany (cfg : Config) (s : Collection) (txid : String)
    (records : List (Option Data)) (explicit : Int) (r : Readings) : Option Collection := do
  guard (records.all fun data => !hasKey data)
  let exp := resolveInsertExpiryAt cfg explicit r.early
  if s.routeAtomic records.length then
    Collection.commitXTx cfg { s with idSeq := s.idSeq + records.length } txid
      ((insertOps s records r.ts).map fun op =>
        { op := .insert, id := op.id, data := op.data, expectedRev := 0, expiresAt := exp }) r
  else s.insertManyLegacy cfg records exp r

def Collection.applied (s : Collection) (e : Entry) : Bool :=
  match e.op with
  | .delete => (s.index e.id).isNone
  | _ => (s.index e.id).elim false fun cur => decide (e.rev ≤ cur.rev)

/-- Another unexpired record, not rewritten by the same apply, holds the entry's key. -/
def Collection.replKeyConflict (s : Collection) (e : Entry) (touched : List Nat) (now : Int) :
    Bool :=
  match e.op, (e.data.getD []).get keyField with
  | .delete, _ => false
  | _, some (.str key) => (s.indexLookup key now).any fun id => id != e.id && !touched.contains id
  | _, _ => false

def Collection.ensureKeyIndexFor (s : Collection) (es : List Entry) : Collection :=
  if es.any fun e => hasKey e.data then s.ensureIndex keyField true else s

/-- The key index that the entries ask for can be had. -/
def Collection.keyIndexReady (s : Collection) (es : List Entry) : Bool :=
  !(es.any fun e => hasKey e.data) || s.buildable keyField

def Collection.applyEntry (cfg : Config) (s : Collection) (e : Entry) (r : Readings) :
    Option Collection := do
  guard (s.keyIndexReady [e])
  let s := s.ensureKeyIndexFor [e]
  if s.applied e then return s
  guard (!s.replKeyConflict e [] r.early)
  let s' := s.put cfg { entry := e, data := e.data, fresh := (s.index e.id).isNone }
  return { s' with idSeq := max s.idSeq e.id }

def claimedTwice : List (String × Nat) → List Entry → Bool
  | _, [] => false
  | claimed, e :: es =>
    match e.op, (e.data.getD []).get keyField with
    | .delete, _ => claimedTwice claimed es
    | _, some (.str key) =>
      claimed.any (fun c => c.1 == key && c.2 != e.id) || claimedTwice ((key, e.id) :: claimed) es
    | _, _ => claimedTwice claimed es

/-- The entries of an envelope for this collection; what is there already is left out, by the
indexes as they stand before the apply. -/
def Collection.applyReplicatedTx (cfg : Config) (s : Collection) (txid : String)
    (es : List Entry) (r : Readings) : Option Collection := do
  guard (s.keyIndexReady es)
  let s := s.ensureKeyIndexFor es
  let specs := es.filter fun e => !s.applied e
  guard (s.newTxID txid)
  guard (specs.all fun e => !s.replKeyConflict e (specs.map Entry.id) r.early)
  guard (!claimedTwice [] specs)
  let chs := specs.map fun e => { entry := e, data := e.data, fresh := (s.index e.id).isNone }
  let s' := { s with decisions := s.decisions.set txid .commit }.commitRun cfg (some txid) chs
  return { s' with idSeq := (specs.map Entry.id).foldl max s.idSeq }

/-- Tombstones for expired records; a pass that stops early takes some of them. -/
def Collection.reapExpired (cfg : Config) (s : Collection) (ids : List Nat) (r : Readings) :
    Option Collection := do
  guard (decide ids.Nodup)
  guard (ids.all fun id => (s.index id).elim false fun e => expired e.expiresAt r.early)
  return s.commitRun cfg none
    (ids.map fun id => { entry := deleteEntry id r.ts, data := none, fresh := false })

def Collection.rotateSegment (s : Collection) : Collection :=
  { s with sealed := s.segments, active := { num := s.segSeq + 1, lines := [] },
           segSeq := s.segSeq + 1 }

/-- The indexes as an open finds them, or a pass leaves them: built from the segments. -/
def Collection.rebuilt (s : Collection) : Collection :=
  { s with index := Index.rebuild s.segments s.decisions,
           sidxs := s.sidxs.map fun x => x.rebuild s.segments s.decisions }

/-- The swap of a pass over the oldest segments, whose lines it read at an earlier instant. -/
def Collection.compact (cfg : Config) (s : Collection) (k : Nat) (at_ : Int) :
    Option Collection := do
  guard (decide (at_ ≤ s.now))
  let segs ← compactSegments cfg.encoding cfg.enc cfg.segmentMaxSize (s.sealed.take k)
    s.decisions at_
  return Collection.rebuilt { s with sealed := segs ++ s.sealed.drop k }

/-- A new process. Its counter is above every id of the log; its clock starts anew. -/
def Collection.reopen (s : Collection) (idSeq : Nat) (now : Int) : Option Collection := do
  guard (s.ids.all fun id => decide (id ≤ idSeq))
  return Collection.rebuilt { s with idSeq := idSeq, now := now }

inductive CollectionOp where
  | tick (later : Int)
  | reserveID
  | insert (data : Option Data) (explicit : Int) (r : Readings)
  | insertWithKey (key : String) (data : Option Data) (r : Readings)
  | update (id : Nat) (data : Option Data) (r : Readings)
  | updateWithExpiry (id : Nat) (data : Option Data) (explicit : Int) (r : Readings)
  | delete (id : Nat) (r : Readings)
  | updateByKey (key : String) (data : Option Data) (r : Readings)
  | deleteByKey (key : String) (r : Readings)
  | upsert (key : String) (data : Option Data) (r : Readings)
  | compareAndSwap (key : String) (data : Option Data) (ok : Option Data → Nat → Bool)
      (r : Readings)
  | insertMany (txid : String) (records : List (Option Data)) (explicit : Int) (r : Readings)
  | commitTx (txid : String) (ops : List TxOp) (r : Readings)
  | commitXTx (txid : String) (ops : List XTxOp) (r : Readings)
  | decideElsewhere (txid : String) (v : Verdict)
  | applyEntry (e : Entry) (r : Readings)
  | applyReplicatedTx (txid : String) (es : List Entry) (r : Readings)
  | reap (ids : List Nat) (r : Readings)
  | rotate
  | compact (k : Nat) (at_ : Int)
  | ensureIndex (field : String) (unique : Bool)
  | dropIndex (field : String)
  | reopen (idSeq : Nat) (now : Int)

def Collection.during (s : Collection) (r : Readings) (next : Option Collection) :
    Option Collection :=
  if s.now ≤ r.early ∧ r.early ≤ r.mid ∧ r.mid ≤ r.late then
    next.map fun s => { s with now := r.late }
  else none

/-- A successful operation; an operation that fails changes nothing but the id counter, which
`reserveID` covers. -/
def Collection.step (cfg : Config) (s : Collection) : CollectionOp → Option Collection
  | .tick later => if s.now ≤ later then some { s with now := later } else none
  | .reserveID => some { s with idSeq := s.idSeq + 1 }
  | .insert data explicit r => s.during r (s.insertWithExpiry cfg data explicit r)
  | .insertWithKey key data r => s.during r (s.insertWithKey cfg key data r)
  | .update id data r => s.during r (s.updateByID cfg id data r)
  | .updateWithExpiry id data explicit r => s.during r (s.updateWithExpiry cfg id data explicit r)
  | .delete id r => s.during r (s.delete cfg id r)
  | .updateByKey key data r => s.during r (s.updateByKey cfg key data r)
  | .deleteByKey key r => s.during r (s.deleteByKey cfg key r)
  | .upsert key data r => s.during r (s.upsert cfg key data r)
  | .compareAndSwap key data ok r => s.during r (s.compareAndSwap cfg key data ok r)
  | .insertMany txid records explicit r => s.during r (s.insertMany cfg txid records explicit r)
  | .commitTx txid ops r => s.during r (s.commitTx cfg txid ops r)
  | .commitXTx txid ops r => s.during r (s.commitXTx cfg txid ops r)
  | .decideElsewhere txid v =>
    if s.newTxID txid then some { s with decisions := s.decisions.set txid v } else none
  | .applyEntry e r => s.during r (s.applyEntry cfg e r)
  | .applyReplicatedTx txid es r => s.during r (s.applyReplicatedTx cfg txid es r)
  | .reap ids r => s.during r (s.reapExpired cfg ids r)
  | .rotate => some s.rotateSegment
  | .compact k at_ => s.compact cfg k at_
  | .ensureIndex field unique =>
    if cfg.isEncryptedField field || !s.buildable field then none
    else some (s.ensureIndex field unique)
  | .dropIndex field => s.dropIndex field
  | .reopen idSeq now => s.reopen idSeq now

/-- The operation leaves no line behind that does not decode. -/
def CollectionOp.Decodes (cfg : Config) (s : Collection) (op : CollectionOp) : Prop :=
  ∀ t ∈ s.step cfg op, t.decodes = true

instance (cfg : Config) (s : Collection) (op : CollectionOp) : Decidable (op.Decodes cfg s) :=
  inferInstanceAs (Decidable (∀ t ∈ s.step cfg op, _))

end Scriva
