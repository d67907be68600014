import Scriva.Absence
import Scriva.KeyRuns

namespace Scriva.Absence

open Scanning Counting JsonText List Option

section

variable {cfg : Config} {s : Collection} {i : Nat} {key : String} {data : Option Data} {r : Readings}

end

def insert (cfg : Config) (s : Collection) (r : Readings) (data : Option Data) (expiresAt : Int) :
    Except Fault Nat × Collection :=
  let s' := { s with idSeq := s.idSeq + 1 }
  match sealEntryData cfg { id := s.idSeq + 1, op := .insert, ts := r.ts, rev := 1, data := data,
                            epoch := 0, expiresAt := expiresAt } with
  | none => (.error .encryption, s')
  | some e =>
    if s.sidxCheckUnique e.id data r.late then
      (.ok e.id, s'.put cfg { entry := e, data := data, fresh := true })
    else (.error .duplicateKey, s')

def insertWithKey (cfg : Config) (s : Collection) (r : Readings) (key : String)
    (data : Option Data) : Except Fault Nat × Collection :=
  if hasKey data then (.error .reservedField, s)
  else
    let s := s.ensureIndex keyField true
    if s.keyConflict then (.error .keyIndexConflict, s)
    else insert cfg s r (stampKey data key) (resolveInsertExpiryAt cfg 0 r.early)

inductive LineErr where
  | decode
  | reservedField
  | missingKey
  | keyNoString
deriving DecidableEq

inductive LoadErr where
  | keyIndexConflict
  | line (no : Nat) (why : LineErr)
  | commit (fault : Fault)
deriving DecidableEq

/-- `json.Unmarshal` into a map: `null` leaves it nil. -/
def unmarshalRecord (line : List Char) : Except LineErr (Option Data) :=
  match parse line with
  | some (.obj ms) => .ok (some (membersOfJson [] ms))
  | some .null => .ok none
  | _ => .error .decode

def prepareRecord (field : String) (line : List Char) : Except LineErr (Option Data) := do
  let rec ← unmarshalRecord line
  if field = "" then
    if hasKey rec then throw .reservedField
    return rec
  match (rec.getD []).get field with
  | none => throw .missingKey
  | some (.str key) =>
    -- A stray key beside the one the named field supplies.
    if field ≠ keyField ∧ hasKey rec then throw .reservedField
    return stampKey rec key
  | some _ => throw .keyNoString

/-- `unicode.IsSpace`. -/
def isSpace (c : Char) : Bool :=
  c.toNat ∈ [9, 10, 11, 12, 13, 32, 0x85, 0xA0, 0x1680, 0x2028, 0x2029, 0x202F, 0x205F, 0x3000] ||
    (0x2000 ≤ c.toNat && c.toNat ≤ 0x200A)

def trimSpace (line : List Char) : List Char :=
  (line.dropWhile isSpace).rdropWhile isSpace

def parseLine (field : String) (line : List Char) (no : Nat) :
    Except LoadErr (Option (Option Data)) :=
  let trimmed := trimSpace line
  if trimmed.isEmpty then .ok none
  else match prepareRecord field trimmed with
    | .ok data => .ok (some data)
    | .error why => .error (.line no why)

def parseJSONL (field : String) (text : List Char) : Except LoadErr (List (Option Data)) :=
  (((text.splitOn '\n').zipIdx 1).mapM fun p => parseLine field p.1 p.2).map List.reduceOption

def insertLoaded (cfg : Config) (s : Collection) (r : Readings) (txid : String)
    (datas : List (Option Data)) : Except LoadErr Nat × Collection :=
  if datas.isEmpty then (.ok 0, s)
  else
    let s' := { s with idSeq := s.idSeq + datas.length }
    match commitTx cfg s' r txid (insertOps s datas r.ts) with
    | .ok t => (.ok datas.length, t)
    | .error fault => (.error (.commit fault), s')

def loadJSONL (cfg : Config) (s : Collection) (r : Readings) (txid field : String)
    (text : List Char) : Except LoadErr Nat × Collection :=
  let s := if field = "" then s else s.ensureIndex keyField true
  if field ≠ "" ∧ s.keyConflict = true then (.error .keyIndexConflict, s)
  else match parseJSONL field text with
    | .error err => (.error err, s)
    | .ok datas => insertLoaded cfg s r txid datas

inductive Keyed where
  | insertWithKey (key : String) (data : Option Data)
  | getByKey (key : String)
  | keyExists (key : String)
  | updateByKey (key : String) (data : Option Data)
  | deleteByKey (key : String)
  | upsert (key : String) (data : Option Data)
  | compareAndSwap (key : String) (data : Option Data) (ok : Option Data → Nat → Bool)
  | loadJSONL (txid field : String) (text : List Char)

section

variable {cfg : Config} {s : Collection} {r : Readings} {key : String} {data : Option Data}

end

instance decidableKeeps (cfg : Config) (w : Counted) : ∀ a : Counting.Act,
    Decidable (a.Keeps cfg w)
  | .op o => inferInstanceAs (Decidable (o.SidxSound cfg true w.col ∧ (_ = true → w.damaged = [])))
  | .close | .damage _ _ _ | .reopen _ _ _ _ => inferInstanceAs (Decidable True)

end Scriva.Absence
