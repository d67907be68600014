import Scriva.Value
import Scriva.Lib.Rfc3339
import Scriva.Lib.Crc32c

namespace Scriva

open JsonText Crc32c
open Rfc3339 (Time)

inductive Op where
  | insert
  | update
  | delete
deriving DecidableEq, Repr

def Op.text : Op → String
  | .insert => "insert"
  | .update => "update"
  | .delete => "delete"

structure Entry where
  id : Nat
  op : Op
  ts : Time
  rev : Nat
  data : Option Data
  epoch : Nat
  expiresAt : Int
deriving DecidableEq, Repr

/-- The `tx` object of a stamped line: transaction, index within the participant's run, length of
the run. -/
structure TxStamp where
  t : String
  i : Nat
  n : Nat
deriving DecidableEq, Repr

structure StampedEntry where
  id : Nat
  op : Op
  ts : String
  rev : Nat
  data : Option Data
  epoch : Nat
  expiresAt : Int
  tx : TxStamp
deriving DecidableEq, Repr

inductive WireErr where
  | marshal
  | decode
  | badStamp
  | missingCRC
  | v1CRCOnStamp
  | corruptEntry
deriving DecidableEq, Repr

def xtxMaxTxIDLen : Nat := 64

def v1InputBytes (id : Nat) (op : Op) (rev : Nat) (expires : Int) (epoch : Nat)
    (data : Option Data) : List Nat :=
  le 8 id ++ utf8 op.text.toList ++ (if rev ≠ 0 then le 8 rev else []) ++
    (if expires ≠ 0 then le 8 (expires % 2 ^ 64).toNat else []) ++
    (if epoch ≠ 0 then le 8 epoch else []) ++
    (match data with
      | none => []
      | some m => utf8 (render (.obj (membersToJson m))))

def checksumV1 (id : Nat) (op : Op) (rev : Nat) (expires : Int) (epoch : Nat)
    (data : Option Data) : Nat :=
  crc32c (v1InputBytes id op rev expires epoch data)

def txidLen (t : String) : Nat :=
  (utf8 t.toList).length

def checksumV2 (id : Nat) (op : Op) (rev : Nat) (expires : Int) (epoch : Nat)
    (data : Option Data) (tx : TxStamp) : Except WireErr Nat :=
  if txidLen tx.t = 0 ∨ xtxMaxTxIDLen < txidLen tx.t then .error .badStamp
  else
    .ok (crc32c (utf8 "XTX1\x00".toList ++ [txidLen tx.t % 256] ++ utf8 tx.t.toList ++
      le 4 tx.i ++ le 4 tx.n ++ v1InputBytes id op rev expires epoch data))

def jsonInt (n : Int) : Json :=
  .num (intLit n).text

def omitZero (k : String) (n : Int) : List (String × Json) :=
  if n = 0 then [] else [(k, jsonInt n)]

/-- `omitempty` drops a nil map and an empty one alike. -/
def omitEmpty (data : Option Data) : List (String × Json) :=
  match data with
  | none => []
  | some [] => []
  | some m => [("data", .obj (membersToJson m))]

def commonMembers (id : Nat) (op : Op) (ts : String) (rev : Nat) (data : Option Data)
    (epoch : Nat) (expiresAt : Int) : List (String × Json) :=
  [("id", jsonInt id), ("op", .str op.text), ("ts", .str ts)] ++ omitZero "rev" rev ++
    omitEmpty data ++ omitZero "epoch" epoch ++ omitZero "expires_at" expiresAt

/-- `time.Time.MarshalJSON` refuses years and zone hours the strict text has no room for. -/
def StrictTime (t : Time) : Prop :=
  0 ≤ t.year ∧ t.year ≤ 9999 ∧ (Rfc3339.zoneMinutes t).natAbs < 24 * 60

instance (t : Time) : Decidable (StrictTime t) :=
  inferInstanceAs (Decidable (_ ∧ _))

def tsText (t : Time) : String :=
  String.ofList (Rfc3339.format t)

def encode (e : Entry) : Except WireErr (List Char) :=
  if StrictTime e.ts then
    let sum := checksumV1 e.id e.op e.rev e.expiresAt e.epoch e.data
    .ok (render (.obj (commonMembers e.id e.op (tsText e.ts) e.rev e.data e.epoch e.expiresAt ++
      [("crc", jsonInt sum)])) ++ ['\n'])
  else .error .marshal

def TxStamp.toJson (tx : TxStamp) : Json :=
  .obj [("t", .str tx.t), ("i", jsonInt tx.i), ("n", jsonInt tx.n)]

def encodeStamped (e : StampedEntry) : Except WireErr (List Char) := do
  if e.tx.n = 0 ∨ e.tx.n ≤ e.tx.i then throw .badStamp
  let sum ← checksumV2 e.id e.op e.rev e.expiresAt e.epoch e.data e.tx
  return render (.obj (commonMembers e.id e.op e.ts e.rev e.data e.epoch e.expiresAt ++
    [("tx", e.tx.toJson), ("crc", jsonInt sum)])) ++ ['\n']

def Entry.stamped (e : Entry) (tx : TxStamp) : StampedEntry :=
  { id := e.id, op := e.op, ts := tsText e.ts, rev := e.rev, data := e.data, epoch := e.epoch,
    expiresAt := e.expiresAt, tx := tx }

def fieldOf (ms : List (String × Json)) (k : String) : Option Json :=
  (ms.reverse.find? fun m => m.1 == k).map Prod.snd

def intField (ms : List (String × Json)) (k : String) : Except WireErr Int :=
  match fieldOf ms k with
  | none => .ok 0
  | some .null => .ok 0
  | some (.num lit) =>
    match (litParts lit).toInt with
    | some n => .ok n
    | none => .error .decode
  | some _ => .error .decode

def natField (ms : List (String × Json)) (k : String) : Except WireErr Nat := do
  let n ← intField ms k
  if n < 0 then throw .decode
  return n.toNat

def strField (ms : List (String × Json)) (k : String) : Except WireErr String :=
  match fieldOf ms k with
  | none => .ok ""
  | some .null => .ok ""
  | some (.str s) => .ok s
  | some _ => .error .decode

def opField (ms : List (String × Json)) : Except WireErr Op := do
  let s ← strField ms "op"
  if s = Op.insert.text then return .insert
  if s = Op.update.text then return .update
  if s = Op.delete.text then return .delete
  throw .decode

def dataField (ms : List (String × Json)) : Except WireErr (Option Data) :=
  match fieldOf ms "data" with
  | none => .ok none
  | some .null => .ok none
  | some (.obj m) => .ok (some (membersOfJson [] m))
  | some _ => .error .decode

/-- `time.Time.UnmarshalJSON`. -/
def timeField (ms : List (String × Json)) : Except WireErr Time :=
  match fieldOf ms "ts" with
  | none => .ok Rfc3339.zeroTime
  | some .null => .ok Rfc3339.zeroTime
  | some (.str s) =>
    match Rfc3339.parse s.toList with
    | some t => .ok t
    | none => .error .decode
  | some _ => .error .decode

def crcField (ms : List (String × Json)) : Except WireErr (Option Nat) :=
  match fieldOf ms "crc" with
  | none => .ok none
  | some .null => .ok none
  | some _ => some <$> natField ms "crc"

def stampOf (ms : List (String × Json)) : Except WireErr TxStamp := do
  return { t := ← strField ms "t", i := ← natField ms "i", n := ← natField ms "n" }

def txField (ms : List (String × Json)) : Except WireErr (Option TxStamp) :=
  match fieldOf ms "tx" with
  | none => .ok none
  | some .null => .ok none
  | some (.obj m) => some <$> stampOf m
  | some _ => .error .decode

def unmarshal (line : List Char) : Except WireErr (List (String × Json)) :=
  match parse line with
  | some (.obj ms) => .ok ms
  | _ => .error .decode

/-- `store.Decode`: a line that carries a checksum is verified against it. -/
def decode (line : List Char) : Except WireErr Entry := do
  let ms ← unmarshal line
  let e : Entry :=
    { id := ← natField ms "id", op := ← opField ms, ts := ← timeField ms,
      rev := ← natField ms "rev", data := ← dataField ms, epoch := ← natField ms "epoch",
      expiresAt := ← intField ms "expires_at" }
  match ← crcField ms with
  | none => return e
  | some want =>
    if checksumV1 e.id e.op e.rev e.expiresAt e.epoch e.data = want then return e
    throw .corruptEntry

def parseStamped (line : List Char) : Except WireErr StampedEntry := do
  let ms ← unmarshal line
  let e : StampedEntry :=
    { id := ← natField ms "id", op := ← opField ms, ts := ← strField ms "ts",
      rev := ← natField ms "rev", data := ← dataField ms, epoch := ← natField ms "epoch",
      expiresAt := ← intField ms "expires_at", tx := (← txField ms).getD ⟨"", 0, 0⟩ }
  if e.tx.t = "" then throw .badStamp
  if e.tx.n = 0 ∨ e.tx.n ≤ e.tx.i then throw .badStamp
  match ← crcField ms with
  | none => throw .missingCRC
  | some crc =>
    if (← checksumV2 e.id e.op e.rev e.expiresAt e.epoch e.data e.tx) = crc then return e
    if checksumV1 e.id e.op e.rev e.expiresAt e.epoch e.data = crc then throw .v1CRCOnStamp
    throw .corruptEntry

def trimNewlines (line : List Char) : List Char :=
  line.rdropWhile (· == '\n')

def probeTx (line : List Char) : Option TxStamp :=
  match (unmarshal line >>= txField) with
  | .ok (some tx) => if tx.t = "" then none else some tx
  | _ => none

def decodeSegmentLine (line : List Char) : Except WireErr (Entry × Option TxStamp) :=
  let trimmed := trimNewlines line
  if renderString "tx" <:+: trimmed ∧ (probeTx trimmed).isSome then do
    let se ← parseStamped trimmed
    let ts := if se.ts = "" then Rfc3339.zeroTime
      else (Rfc3339.parse se.ts.toList).getD Rfc3339.zeroTime
    return ({ id := se.id, op := se.op, ts := ts, rev := se.rev, data := se.data,
              epoch := se.epoch, expiresAt := se.expiresAt }, some se.tx)
  else do
    return (← decode line, none)

end Scriva
