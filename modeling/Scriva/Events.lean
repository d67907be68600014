import Scriva.Operations

namespace Scriva

structure WatchEvent where
  op : Op
  id : Nat
  data : Option Data
  ts : Rfc3339.Time
deriving DecidableEq, Repr

def TxOp.event (op : TxOp) : WatchEvent :=
  { op := op.kind, id := op.id, data := if op.kind = .delete then none else op.data, ts := op.ts }

def Collection.xtxEvent (s : Collection) (r : Readings) (op : XTxOp) : WatchEvent :=
  { op := op.op, id := op.id
    data := if op.op = .update then s.preserveReserved op.id op.data else op.data, ts := r.ts }

def CollectionOp.events (s : Collection) : CollectionOp → List WatchEvent
  | .insert data _ r => [{ op := .insert, id := s.idSeq + 1, data := data, ts := r.ts }]
  | .insertWithKey key data r =>
    [{ op := .insert, id := s.idSeq + 1, data := stampKey data key, ts := r.ts }]
  | .update id data r =>
    [{ op := .update, id := id, data := s.preserveReserved id data, ts := r.ts }]
  | .updateWithExpiry id data _ r =>
    [{ op := .update, id := id, data := s.preserveReserved id data, ts := r.ts }]
  | .delete id r => [{ op := .delete, id := id, data := none, ts := r.ts }]
  | .updateByKey key data r => (s.resolveKey key r).toList.map fun id =>
    { op := .update, id := id, data := s.preserveReserved id (stampKey data key), ts := r.ts }
  | .deleteByKey key r => (s.resolveKey key r).toList.map fun id =>
    { op := .delete, id := id, data := none, ts := r.ts }
  | .upsert key data r =>
    let s := s.ensureIndex keyField true
    match (s.indexLookup key r.early).head?.bind fun id =>
        (s.index id).map fun cur => (id, cur) with
    | some (id, _) => [{ op := .update, id := id, data := stampKey data key, ts := r.ts }]
    | none => [{ op := .insert, id := s.idSeq + 1, data := stampKey data key, ts := r.ts }]
  | .compareAndSwap key data _ r => (s.indexLookup key r.early).head?.toList.map fun id =>
    { op := .update, id := id, data := stampKey data key, ts := r.ts }
  | .insertMany _ records _ r => (insertOps s records r.ts).map TxOp.event
  | .commitTx _ ops r =>
    if s.routeAtomic ops.length then
      ops.map fun op => s.xtxEvent r
        { op := op.kind, id := op.id, data := op.data, expectedRev := 0, expiresAt := 0 }
    else (ops.map s.keepKeyOf).map TxOp.event
  | .commitXTx _ ops r => ops.map (s.xtxEvent r)
  | .reap ids r => ids.map fun id => { op := .delete, id := id, data := none, ts := r.ts }
  | _ => []

end Scriva
