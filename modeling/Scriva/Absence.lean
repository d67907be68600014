import Scriva.CountRuns
import Scriva.Reads

namespace Scriva.Absence

open Scanning Counting
open Option hiding guard

inductive Fault where
  | reservedField
  | notFound
  | keyNotFound
  | keyIndexConflict
  | duplicateKey
  | encryption
  | deletedBefore
  | conflict
  | unreadable
  | indexCorrupt
  | query (err : QueryErr)
deriving DecidableEq

inductive Reply where
  | done
  | swapped (applied : Bool)
  | found (record : RecordView)
  | there (yes : Bool)
  | number (n : Nat)
  | rows (found : List ScanResult)

def need (b : Bool) (fault : Fault) : Except Fault Unit :=
  if b then .ok () else .error fault

def found {α : Type} (o : Option α) (fault : Fault) : Except Fault α :=
  o.elim (.error fault) .ok

section

variable (cfg : Config) (s : Collection) (r : Readings)

def get (id : Nat) : Except Fault RecordView := do
  let loc ← found (s.liveEntry id r.early) .notFound
  let e ← found (readEntry s.segments loc) .unreadable
  need (e.id == id) .unreadable
  let data ← found (cfg.enc.elim (some e.data) fun k => k.materialize e.data) .encryption
  return { id := id, key := keyOf data, rev := loc.rev, ts := e.ts, data := data }

def resolveKey (key : String) : Except Fault Nat := do
  need (!s.keyConflict) .keyIndexConflict
  found (s.indexLookup key r.early).head? .keyNotFound

def getByKey (key : String) : Except Fault RecordView := do
  let id ← resolveKey s r key
  let rec ← get cfg s r id
  need (rec.key == "" || rec.key == key) .indexCorrupt
  return rec

def keyExists (key : String) : Except Fault Bool := do
  need (!s.keyConflict) .keyIndexConflict
  return !(s.indexLookup key r.early).isEmpty

def update (id : Nat) (data : Option Data) (expiresAt : Option Int) : Except Fault Collection := do
  let e ← found (sealEntryData cfg { id := id, op := .update, ts := r.ts, rev := 0, data := data,
                                     epoch := 0, expiresAt := 0 }) .encryption
  let cur ← found (s.index id) .notFound
  let key := s.reservedKey id data
  need (s.sidxCheckUnique id data r.late) .duplicateKey
  let e := { e with data := keepKey key e.data, rev := cur.rev + 1,
                    expiresAt := expiresAt.getD cur.expiresAt }
  return s.put cfg { entry := e, data := keepKey key data, fresh := false }

def delete (id : Nat) : Except Fault Collection := do
  let _ ← found (s.index id) .notFound
  return s.put cfg { entry := deleteEntry id r.ts, data := none, fresh := false }

def updateByKey (key : String) (data : Option Data) : Except Fault Collection := do
  need (!hasKey data) .reservedField
  let id ← resolveKey s r key
  update cfg s r id (stampKey data key) none

def deleteByKey (key : String) : Except Fault Collection := do
  let id ← resolveKey s r key
  delete cfg s r id

/-- The record an upsert writes: the one of the key, or a new one. -/
def upsertEntry (s : Collection) (key : String) (stamped : Option Data) : Entry × Bool :=
  match (s.indexLookup key r.early).head?.bind fun id => (s.index id).map fun cur => (id, cur) with
  | some (id, cur) =>
    ({ id := id, op := .update, ts := r.ts, rev := cur.rev + 1, data := stamped, epoch := 0,
       expiresAt := cur.expiresAt }, false)
  | none =>
    ({ id := s.idSeq + 1, op := .insert, ts := r.ts, rev := 1, data := stamped, epoch := 0,
       expiresAt := resolveInsertExpiryAt cfg 0 r.mid }, true)

/-- An upsert that inserts takes an id whether it fails or not. -/
def writeUpsert (s : Collection) (key : String) (stamped : Option Data) (e : Entry)
    (fresh : Bool) : Except Fault Reply × Collection :=
  let s' := { s with idSeq := if fresh then s.idSeq + 1 else s.idSeq }
  if s.sidxCheckUnique e.id stamped r.late then
    match sealEntryData cfg e with
    | none => (.error .encryption, s')
    | some sealed =>
      (.ok (.found { id := e.id, key := key, rev := e.rev, ts := e.ts, data := stamped }),
        s'.put cfg { entry := sealed, data := stamped, fresh := fresh })
  else (.error .duplicateKey, s')

def upsert (key : String) (data : Option Data) : Except Fault Reply × Collection :=
  if hasKey data then (.error .reservedField, s)
  else
    let s := s.ensureIndex keyField true
    if s.keyConflict then (.error .keyIndexConflict, s)
    else
      let stamped := stampKey data key
      let (e, fresh) := upsertEntry cfg r s key stamped
      writeUpsert cfg r s key stamped e fresh

def swapRecord (key : String) (data : Option Data) (ok : Option Data → Nat → Bool) (id : Nat)
    (loc : IndexEntry) : Except Fault (Option Collection) := do
  let cur ← found (readEntry s.segments loc) .unreadable
  need (cur.id == id) .unreadable
  let curData ← found (cfg.enc.elim (some cur.data) fun k => k.materialize cur.data) .encryption
  if !ok curData loc.rev then return none
  else
    let stamped := stampKey data key
    need (s.sidxCheckUnique id stamped r.late) .duplicateKey
    let e ← found (sealEntryData cfg { id := id, op := .update, ts := r.ts, rev := loc.rev + 1,
                                       data := stamped, epoch := 0, expiresAt := loc.expiresAt })
      .encryption
    return some (s.put cfg { entry := e, data := stamped, fresh := false })

/-- `UpdateIfRev` and `UpdateIfMatch`: a key without a record is no failure. -/
def compareAndSwap (key : String) (data : Option Data) (ok : Option Data → Nat → Bool) :
    Except Fault (Option Collection) := do
  need (!hasKey data) .reservedField
  need (!s.keyConflict) .keyIndexConflict
  match (s.indexLookup key r.early).head?.bind fun id => (s.index id).map fun loc => (id, loc) with
  | none => return none
  | some (id, loc) => swapRecord cfg s r key data ok id loc

/-- Whatever a transaction is refused for is reported as a conflict. -/
def commitXTx (txid : String) (ops : List XTxOp) : Except Fault Collection :=
  found (s.commitXTx cfg txid ops r) .conflict

def commitTxLegacy (ops : List TxOp) : Except Fault Collection := do
  need (ops.all fun op => op.kind == .insert || (s.index op.id).isSome) .deletedBefore
  need (s.txCheckUnique r.late [] ops) .duplicateKey
  found ((ops.map s.keepKeyOf).foldlM
    (Collection.commitTxOp cfg (resolveInsertExpiryAt cfg 0 r.early)) s) .encryption

def commitTx (txid : String) (ops : List TxOp) : Except Fault Collection :=
  if s.routeAtomic ops.length then
    commitXTx cfg s r txid (ops.map fun op =>
      { op := op.kind, id := op.id, data := op.data, expectedRev := 0, expiresAt := 0 })
  else commitTxLegacy cfg s r ops

end

def applied : Except Fault Reply → Bool
  | .ok (.swapped applied) => applied
  | .ok _ => true
  | .error _ => false

section

variable {cfg : Config} {s : Collection} {r : Readings}

theorem toOption_bind {α β : Type} (x : Except Fault α) (f : α → Except Fault β) :
    (x >>= f).toOption = x.toOption.bind fun a => (f a).toOption := by
  cases x <;> rfl

theorem toOption_need (b : Bool) (fault : Fault) : (need b fault).toOption = guard (b = true) := by
  cases b <;> rfl

theorem toOption_found {α : Type} (o : Option α) (fault : Fault) :
    (found o fault).toOption = o := by
  cases o <;> rfl

theorem update_toOption (id : Nat) (data : Option Data) (expiresAt : Option Int) :
    (update cfg s r id data expiresAt).toOption = s.update cfg id data expiresAt r := by
  unfold update Collection.update
  simp only [toOption_bind, toOption_need, toOption_found]
  rfl

theorem delete_toOption (id : Nat) : (delete cfg s r id).toOption = s.delete cfg id r := by
  unfold delete Collection.delete
  simp only [toOption_bind, toOption_found]
  rfl

theorem resolveKey_toOption (key : String) : (resolveKey s r key).toOption = s.resolveKey key r := by
  unfold resolveKey Collection.resolveKey
  simp only [toOption_bind, toOption_need, toOption_found]
  rfl

theorem updateByKey_toOption (key : String) (data : Option Data) :
    (updateByKey cfg s r key data).toOption = s.updateByKey cfg key data r := by
  unfold updateByKey Collection.updateByKey
  simp only [toOption_bind, toOption_need, resolveKey_toOption, update_toOption]
  rfl

theorem deleteByKey_toOption (key : String) :
    (deleteByKey cfg s r key).toOption = s.deleteByKey cfg key r := by
  unfold deleteByKey Collection.deleteByKey
  simp only [toOption_bind, resolveKey_toOption, delete_toOption]
  rfl

theorem commitTx_toOption (txid : String) (ops : List TxOp) :
    (commitTx cfg s r txid ops).toOption = s.commitTx cfg txid ops r := by
  unfold commitTx Collection.commitTx
  split
  · exact toOption_found _ _
  · unfold commitTxLegacy Collection.commitTxLegacy
    simp only [toOption_bind, toOption_need, toOption_found]
    rfl

theorem join_bind {α β : Type} (x : Except Fault α) (f : α → Except Fault (Option β)) :
    (x >>= f).toOption.join = x.toOption.bind fun a => (f a).toOption.join := by
  cases x <;> rfl

theorem compareAndSwap_toOption (key : String) (data : Option Data)
    (ok : Option Data → Nat → Bool) :
    (compareAndSwap cfg s r key data ok).toOption.join = s.compareAndSwap cfg key data ok r := by
  unfold compareAndSwap Collection.compareAndSwap
  rw [join_bind, join_bind, toOption_need, toOption_need]
  refine congrArg (Option.bind _) (funext fun _ => congrArg (Option.bind _) (funext fun _ => ?_))
  cases (s.indexLookup key r.early).head? with
  | none => rfl
  | some id =>
    simp only [bind_eq_bind, bind_some]
    cases s.index id with
    | none => rfl
    | some loc =>
      show (swapRecord cfg s r key data ok id loc).toOption.join = _
      unfold swapRecord
      simp only [join_bind, toOption_need, toOption_found]
      refine congrArg (Option.bind _) (funext fun cur => congrArg (Option.bind _) (funext fun _ =>
        congrArg (Option.bind _) (funext fun curData => ?_)))
      cases ok curData loc.rev with
      | false => rfl
      | true =>
        show Option.join (Except.toOption (need _ _ >>= fun _ => found _ _ >>= fun _ => _)) = _
        simp only [join_bind, toOption_need, toOption_found]
        rfl

theorem writeUpsert_applied (key : String) (stamped : Option Data) (e : Entry) (fresh : Bool) :
    (if applied (writeUpsert cfg r s key stamped e fresh).1 then
      some (writeUpsert cfg r s key stamped e fresh).2 else none) =
    guard (s.sidxCheckUnique e.id stamped r.late = true) >>= fun _ => (sealEntryData cfg e).map
      fun sealed => Collection.put cfg
        { s with idSeq := if fresh then s.idSeq + 1 else s.idSeq }
        { entry := sealed, data := stamped, fresh := fresh } := by
  unfold writeUpsert
  cases s.sidxCheckUnique e.id stamped r.late with
  | false => rfl
  | true => cases sealEntryData cfg e <;> rfl

theorem insert_eq (data : Option Data) (expiresAt : Int) :
    s.insert cfg data expiresAt r =
      guard (s.sidxCheckUnique (s.idSeq + 1) data r.late = true) >>= fun _ =>
        (sealEntryData cfg { id := s.idSeq + 1, op := .insert, ts := r.ts, rev := 1, data := data,
                             epoch := 0, expiresAt := expiresAt }).map fun sealed =>
          Collection.put cfg { s with idSeq := s.idSeq + 1 }
            { entry := sealed, data := data, fresh := true } := by
  unfold Collection.insert
  cases hseal : sealEntryData cfg
      { id := s.idSeq + 1, op := .insert, ts := r.ts, rev := 1, data := data, epoch := 0,
        expiresAt := expiresAt } with
  | none => cases s.sidxCheckUnique (s.idSeq + 1) data r.late <;> rfl
  | some e =>
    have hid : e.id = s.idSeq + 1 := by
      obtain ⟨stored, epoch, -, rfl⟩ := sealEntryData_some hseal
      rfl
    simp only [bind_eq_bind, bind_some, hid, map_some]
    cases s.sidxCheckUnique (s.idSeq + 1) data r.late <;> rfl

theorem upsert_toOption (key : String) (data : Option Data) (hb : s.buildable keyField = true) :
    s.upsert cfg key data r =
      if applied (upsert cfg s r key data).1 then some (upsert cfg s r key data).2 else none := by
  unfold upsert Collection.upsert
  cases hasKey data with
  | true => rfl
  | false =>
    simp only [Bool.not_false, hb, Option.pure_def, bind_eq_bind, Bool.false_eq_true, if_false]
    generalize s.ensureIndex keyField true = s
    cases s.keyConflict with
    | true => rfl
    | false =>
      simp only [Bool.not_false, Bool.false_eq_true, if_false]
      unfold upsertEntry
      cases (s.indexLookup key r.early).head?.bind fun id =>
          (s.index id).map fun cur => (id, cur) with
      | some found =>
        obtain ⟨id, cur⟩ := found
        simp only [writeUpsert_applied, Option.map_eq_bind]
        rfl
      | none =>
        simp only [writeUpsert_applied]
        exact insert_eq _ _

end

end Scriva.Absence
