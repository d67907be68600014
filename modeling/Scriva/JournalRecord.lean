import Scriva.RoundTrip
import Scriva.Lib.Utf8

namespace Scriva.Decisions

open JsonText Crc32c

abbrev Bytes := List UInt8

instance : LawfulBEq Bytes := inferInstance

def ascii (s : String) : Bytes :=
  Utf8.encode s.toList

def xtxMaxKeyLen : Nat := 128
def xtxEpochHexLen : Nat := 16
def xtxSeqHexLen : Nat := 16
def xtxMaxJournalRecord : Nat := 16 * 2 ^ 20

def crcOf (text : List Char) : UInt32 :=
  UInt32.ofNat (crc32c (utf8 text))

def hexDigit (n : Nat) : UInt8 :=
  UInt8.ofNat (if n < 10 then 48 + n else 87 + n)

def hexDigits : Nat → Nat → Bytes
  | 0, _ => []
  | k + 1, n => hexDigits k (n / 16) ++ [hexDigit (n % 16)]

def hexText (bs : Bytes) : Bytes :=
  bs.flatMap fun b => hexDigits 2 b.toNat

def isLowerHex (s : Bytes) : Bool :=
  s.all fun c => 48 ≤ c && c ≤ 57 || 97 ≤ c && c ≤ 102

def unhex (c : UInt8) : Option Nat :=
  if 48 ≤ c ∧ c ≤ 57 then some (c.toNat - 48)
  else if 97 ≤ c ∧ c ≤ 102 then some (c.toNat - 87)
  else if 65 ≤ c ∧ c ≤ 70 then some (c.toNat - 55)
  else none

def hexBytes : Bytes → Option Bytes
  | [] => some []
  | [_] => none
  | a :: b :: rest => do
    let high ← unhex a
    let low ← unhex b
    return UInt8.ofNat (high * 16 + low) :: (← hexBytes rest)

def isDigest (s : Bytes) : Bool :=
  (hexBytes s).any fun d => d.length == 32

def formatTxID (epoch : Bytes) (seq : UInt64) : Bytes :=
  epoch ++ 45 :: hexDigits xtxSeqHexLen seq.toNat

def parseTxID (tx : Bytes) : Option (Bytes × UInt64) :=
  if tx.length = xtxEpochHexLen + 1 + xtxSeqHexLen ∧ tx[xtxEpochHexLen]? = some 45 ∧
      isLowerHex (tx.take xtxEpochHexLen) ∧ isLowerHex (tx.drop (xtxEpochHexLen + 1)) then
    some (tx.take xtxEpochHexLen, UInt64.ofNat
      ((tx.drop (xtxEpochHexLen + 1)).foldl (fun n c => n * 16 + (unhex c).getD 0) 0))
  else none

structure Part where
  c : Bytes
  n : UInt32
  d : Bytes
deriving DecidableEq, Repr

/-- A decision record: a commit with its participants and, on a follower, its place in the stream;
an abort with its reason; a retirement with the outcome it retires. -/
structure Record where
  k : Bytes
  tx : Bytes
  key : Bytes
  ts : Bytes
  parts : List Part
  pd : Bytes
  why : Bytes
  o : Bytes
  rl : UInt64
  rt : Bytes
  rd : Bytes
deriving DecidableEq, Repr

structure Header where
  magic : Bytes
  v : Int
  epoch : Bytes
  gen : UInt64
  created : Bytes
deriving DecidableEq, Repr

def xtxJournalMagic : Bytes := ascii "SCRIVA-XTX"
def xtxJournalVersion : Int := 1

def kindCommit : Bytes := ascii "commit"
def kindAbort : Bytes := ascii "abort"
def kindRetire : Bytes := ascii "retire"

def abortReasons : List Bytes :=
  ["conflict", "quota", "io", "recovery", "client"].map ascii

def memberTexts : List (String × List Char) → List Char
  | [] => []
  | [(k, v)] => renderString k ++ ':' :: v
  | (k, v) :: m :: ms => renderString k ++ ':' :: (v ++ ',' :: memberTexts (m :: ms))

def objectText (ms : List (String × List Char)) : List Char :=
  '{' :: (memberTexts ms ++ ['}'])

def elemTexts : List (List Char) → List Char
  | [] => []
  | [x] => x
  | x :: y :: xs => x ++ ',' :: elemTexts (y :: xs)

def natText (n : Nat) : List Char :=
  render (jsonInt n)

def omitString (k : String) (s : Bytes) : List (String × List Char) :=
  if s = [] then [] else [(k, Utf8.quote s)]

def Part.text (p : Part) : List Char :=
  objectText [("c", Utf8.quote p.c), ("n", natText p.n.toNat), ("d", Utf8.quote p.d)]

def omitNat (k : String) (n : Nat) : List (String × List Char) :=
  if n = 0 then [] else [(k, natText n)]

def crcText (crc : Option UInt32) : List (String × List Char) :=
  crc.elim [] fun c => [("crc", natText c.toNat)]

def partsText (parts : List Part) : List (String × List Char) :=
  if parts = [] then []
  else [("parts", '[' :: (elemTexts (parts.map Part.text) ++ [']']))]

/-- `json.Marshal` of a record, with a checksum or without. -/
def Record.text (r : Record) (crc : Option UInt32) : List Char :=
  objectText ([("k", Utf8.quote r.k), ("tx", Utf8.quote r.tx), ("key", Utf8.quote r.key),
      ("ts", Utf8.quote r.ts)] ++ partsText r.parts ++ omitString "pd" r.pd ++
    omitString "why" r.why ++ omitString "o" r.o ++ omitNat "rl" r.rl.toNat ++
    omitString "rt" r.rt ++ omitString "rd" r.rd ++ crcText crc)

def Header.text (h : Header) (crc : Option UInt32) : List Char :=
  objectText ([("magic", Utf8.quote h.magic), ("v", render (jsonInt h.v)),
      ("epoch", Utf8.quote h.epoch)] ++ omitNat "gen" h.gen.toNat ++
    [("created", Utf8.quote h.created)] ++ crcText crc)

def sealedLine (text : Option UInt32 → List Char) : Bytes :=
  Utf8.encode (text (some (crcOf (text none))))

def Record.line (r : Record) : Bytes :=
  sealedLine r.text

def Header.line (h : Header) : Bytes :=
  sealedLine h.text

def encodeXTxRecord (r : Record) : Bytes :=
  r.line ++ [10]

def encodeXTxHeader (h : Header) : Bytes :=
  h.line ++ [10]

inductive Corrupt where
  | parse
  | magic
  | noChecksum
  | checksum
  | notCanonical
  | epoch
  | txid
  | keyTooLong
  | timestamp
  | otherFields
  | partialBinding
  | leaderTxid
  | bindingDigest
  | badParts
  | partsDigest
  | unknownReason
  | retireOutcome
  | unknownKind
deriving DecidableEq, Repr

inductive ParseErr where
  | corrupt (off : Nat) (why : Corrupt)
  | unterminatedHeader
  | recordTooLarge (off : Nat)
  | unsupported
  | conflict
deriving DecidableEq, Repr

def readBytes (ms : List (String × Json)) (k : String) : Except Corrupt Bytes :=
  match strField ms k with
  | .ok s => .ok (ascii s)
  | .error _ => .error .parse

def readNat (ms : List (String × Json)) (k : String) (bound : Nat) : Except Corrupt Nat :=
  match natField ms k with
  | .ok n => if n < bound then .ok n else .error .parse
  | .error _ => .error .parse

def known (names : List String) (ms : List (String × Json)) : Except Corrupt Unit :=
  if ms.all fun m => names.contains m.1 then .ok () else .error .parse

def readPart : Json → Except Corrupt Part
  | .null => .ok ⟨[], 0, []⟩
  | .obj ms => do
    known ["c", "n", "d"] ms
    return { c := ← readBytes ms "c", n := UInt32.ofNat (← readNat ms "n" (2 ^ 32)),
             d := ← readBytes ms "d" }
  | _ => .error .parse

def readParts (ms : List (String × Json)) : Except Corrupt (List Part) :=
  match fieldOf ms "parts" with
  | none | some .null => .ok []
  | some (.arr xs) => xs.mapM readPart
  | some _ => .error .parse

def readCRC (ms : List (String × Json)) : Except Corrupt (Option UInt32) :=
  match fieldOf ms "crc" with
  | none | some .null => .ok none
  | some _ => (readNat ms "crc" (2 ^ 32)).map fun n => some (UInt32.ofNat n)

/-- `strictUnmarshal`. A name that differs in case only is not told apart from an unknown one: it
is no canonical form either. -/
def strictUnmarshal (names : List String) (line : Bytes) : Except Corrupt (List (String × Json)) :=
  match parse (Utf8.decode line) with
  | some (.obj ms) => (known names ms).map fun _ => ms
  | some .null => .ok []
  | _ => .error .parse

/-- The checksum and the exact bytes of a line, against the text of what was read from it. -/
def verifyLine (text : Option UInt32 → List Char) (crc : Option UInt32) (line : Bytes) :
    Except Corrupt Unit :=
  match crc with
  | none => .error .noChecksum
  | some want =>
    if crcOf (text none) ≠ want then .error .checksum
    else if Utf8.encode (text (some want)) ≠ line then .error .notCanonical
    else .ok ()

def recordFields : List String :=
  ["k", "tx", "key", "ts", "parts", "pd", "why", "o", "rl", "rt", "rd", "crc"]

def readRecord (ms : List (String × Json)) : Except Corrupt Record :=
  return { k := ← readBytes ms "k", tx := ← readBytes ms "tx", key := ← readBytes ms "key",
           ts := ← readBytes ms "ts", parts := ← readParts ms, pd := ← readBytes ms "pd",
           why := ← readBytes ms "why", o := ← readBytes ms "o",
           rl := UInt64.ofNat (← readNat ms "rl" (2 ^ 64)), rt := ← readBytes ms "rt",
           rd := ← readBytes ms "rd" }

def headerFields : List String :=
  ["magic", "v", "epoch", "gen", "created", "crc"]

def readInt (ms : List (String × Json)) (k : String) : Except Corrupt Int :=
  match intField ms k with
  | .ok n => if -2 ^ 63 ≤ n ∧ n < 2 ^ 63 then .ok n else .error .parse
  | .error _ => .error .parse

def readHeader (ms : List (String × Json)) : Except Corrupt Header :=
  return { magic := ← readBytes ms "magic", v := ← readInt ms "v", epoch := ← readBytes ms "epoch",
           gen := UInt64.ofNat (← readNat ms "gen" (2 ^ 64)), created := ← readBytes ms "created" }

def probeHeader (line : Bytes) : Except Corrupt (Bytes × Int) :=
  match parse (Utf8.decode line) with
  | some (.obj ms) => return (← readBytes ms "magic", ← readInt ms "v")
  | some .null => .ok ([], 0)
  | _ => .error .parse

def Header.check (h : Header) : Except Corrupt Unit :=
  if h.epoch.length ≠ xtxEpochHexLen ∨ !isLowerHex h.epoch then .error .epoch
  else if (Rfc3339.parse (Utf8.decode h.created)).isNone then .error .timestamp
  else .ok ()

def readSealedHeader (line : Bytes) : Except Corrupt Header := do
  let ms ← strictUnmarshal headerFields line
  let h ← readHeader ms
  verifyLine h.text (← readCRC ms) line
  h.check
  return h

/-- The first line. A version of another binary is reported as such before its checksum is
looked at. -/
def decodeXTxHeader (line : Bytes) : Except ParseErr Header :=
  match probeHeader line with
  | .error e => .error (.corrupt 0 e)
  | .ok (magic, v) =>
    if magic ≠ xtxJournalMagic then .error (.corrupt 0 .magic)
    else if v ≠ xtxJournalVersion then .error .unsupported
    else (readSealedHeader line).mapError (.corrupt 0)

def validateParts (parts : List Part) : Bool :=
  !parts.isEmpty && parts.all (fun p => !p.c.isEmpty && p.n != 0 && isDigest p.d) &&
    decide ((parts.map Part.c).IsChain (· < ·))

section

-- The hash function behind the digests.
variable (sha : Bytes → Bytes)

def partsDigest (parts : List Part) : Bytes :=
  hexText (sha (parts.flatMap fun p =>
    p.c ++ 0 :: ((le 4 p.n.toNat).map UInt8.ofNat ++ (hexBytes p.d).getD [])))

def Record.checkKind (r : Record) : Except Corrupt Unit :=
  if r.k = kindCommit then
    if r.why ≠ [] ∨ r.o ≠ [] then .error .otherFields
    else if (r.rl = 0) ≠ (r.rt = []) ∨ (r.rl = 0) ≠ (r.rd = []) then .error .partialBinding
    else if r.rl ≠ 0 ∧ xtxMaxTxIDLen < r.rt.length then .error .leaderTxid
    else if r.rl ≠ 0 ∧ !isDigest r.rd then .error .bindingDigest
    else if !validateParts r.parts then .error .badParts
    else if partsDigest sha r.parts ≠ r.pd then .error .partsDigest
    else .ok ()
  else if r.k = kindAbort then
    if r.parts ≠ [] ∨ r.pd ≠ [] ∨ r.o ≠ [] ∨ r.rl ≠ 0 ∨ r.rt ≠ [] ∨ r.rd ≠ [] then
      .error .otherFields
    else if r.why ∉ abortReasons then .error .unknownReason
    else .ok ()
  else if r.k = kindRetire then
    if r.parts ≠ [] ∨ r.pd ≠ [] ∨ r.why ≠ [] ∨ r.rl ≠ 0 ∨ r.rt ≠ [] ∨ r.rd ≠ [] then
      .error .otherFields
    else if r.o ≠ kindCommit ∧ r.o ≠ kindAbort then .error .retireOutcome
    else .ok ()
  else .error .unknownKind

def Record.check (epoch : Bytes) (r : Record) : Except Corrupt Unit :=
  if (parseTxID r.tx).map Prod.fst ≠ some epoch then .error .txid
  else if xtxMaxKeyLen < r.key.length then .error .keyTooLong
  else if (Rfc3339.parse (Utf8.decode r.ts)).isNone then .error .timestamp
  else r.checkKind sha

def decodeXTxRecord (epoch line : Bytes) : Except Corrupt Record := do
  let ms ← strictUnmarshal recordFields line
  let r ← readRecord ms
  verifyLine r.text (← readCRC ms) line
  r.check sha epoch
  return r

end

end Scriva.Decisions
