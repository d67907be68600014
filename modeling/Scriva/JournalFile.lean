import Scriva.JournalCodec
import Scriva.Lib.Runs
import Mathlib.Logic.Function.Basic

namespace Scriva.Decisions

structure Decision where
  tx : Bytes
  key : Bytes
  outcome : Bytes
  retired : Bool
  why : Bytes
  ts : Bytes
  parts : List Part
  pd : Bytes
  rl : UInt64
  rt : Bytes
  rd : Bytes
deriving DecidableEq, Repr

structure Table where
  byTx : Bytes → Option Decision
  byKey : Bytes → Option Bytes
  byLSN : UInt64 → Option Bytes
  byLead : Bytes → Option Bytes
  maxSeq : UInt64

def newXTxTable : Table :=
  { byTx := fun _ => none, byKey := fun _ => none, byLSN := fun _ => none, byLead := fun _ => none,
    maxSeq := 0 }

inductive Conflict where
  | outcome
  | key
  | commits
  | binding
  | lsn
deriving DecidableEq, Repr

def Record.outcome (r : Record) : Bytes :=
  if r.k = kindRetire then r.o else r.k

/-- The decision a record belongs to, a new one for a new transaction. -/
def Table.decisionFor (t : Table) (r : Record) : Except Conflict Decision :=
  match t.byTx r.tx with
  | none =>
    .ok { tx := r.tx, key := r.key, outcome := r.outcome, retired := false, why := [], ts := r.ts,
          parts := [], pd := [], rl := 0, rt := [], rd := [] }
  | some d =>
    if d.outcome ≠ r.outcome then .error .outcome
    else if d.key ≠ r.key then .error .key
    else .ok d

def Decision.commit (d : Decision) (r : Record) : Except Conflict Decision :=
  let known := d.parts ≠ [] ∨ d.pd ≠ []
  if known ∧ d.pd ≠ r.pd then .error .commits
  else
    let d := if known then d else { d with parts := r.parts, pd := r.pd }
    if r.rl = 0 then .ok d
    else if d.rl ≠ 0 ∧ (d.rl ≠ r.rl ∨ d.rt ≠ r.rt ∨ d.rd ≠ r.rd) then .error .binding
    else .ok { d with rl := r.rl, rt := r.rt, rd := r.rd }

def Decision.absorb (d : Decision) (r : Record) : Except Conflict Decision :=
  if r.k = kindCommit then d.commit r
  else if r.k = kindAbort then .ok (if d.why = [] then { d with why := r.why } else d)
  else .ok { d with retired := true }

def Record.bound (r : Record) : Bool :=
  r.k == kindCommit && r.rl != 0

/-- Whether a record takes over its key: a key stays with a transaction that committed under it. -/
def Table.takesKey (t : Table) (r : Record) : Bool :=
  match t.byKey r.key with
  | none => true
  | some prev => (t.byTx prev).all (fun d => d.outcome != kindCommit) || prev == r.tx

def Table.install (t : Table) (r : Record) (d : Decision) : Table :=
  let byTx := Function.update t.byTx r.tx (some d)
  { byTx := byTx
    byKey := if r.key ≠ [] ∧ Table.takesKey { t with byTx := byTx } r then
        Function.update t.byKey r.key (some r.tx)
      else t.byKey
    byLSN := if r.bound then Function.update t.byLSN r.rl (some r.tx) else t.byLSN
    byLead := if r.bound then Function.update t.byLead r.rt (some r.tx) else t.byLead
    maxSeq := max t.maxSeq (((parseTxID r.tx).map Prod.snd).getD 0) }

def Table.apply (t : Table) (r : Record) : Except Conflict Table := do
  let d ← t.decisionFor r
  let d ← d.absorb r
  if r.bound ∧ (t.byLSN r.rl).any (· ≠ r.tx) then .error .lsn else .ok (t.install r d)

def Table.fold (t : Table) (rs : List Record) : Except Conflict Table :=
  rs.foldlM Table.apply t

def splitLine : Bytes → Option (Bytes × Bytes)
  | [] => none
  | b :: bs => if b = 10 then some ([], bs) else (splitLine bs).map fun p => (b :: p.1, p.2)

def allZero (b : Bytes) : Bool :=
  !b.isEmpty && b.all (· == 0)

def headerPrefix : Bytes :=
  ascii "\x7b\"magic\":\"SCRIVA-XTX\""

def tornHeaderPrefix (b : Bytes) : Bool :=
  allZero b ||
    if headerPrefix.length < b.length then headerPrefix.isPrefixOf b
    else b == headerPrefix.take b.length

/-- What a file holds: its records and their table, how long the part in use is, and whether
bytes beyond it are to be cut off or the file is to be created anew. -/
structure Parsed where
  header : Header
  records : List Record
  validLen : Nat
  torn : Bool
  tornCreate : Bool
  table : Table

section

-- The hash function behind the digests.
variable (sha : Bytes → Bytes)

/-- The lines behind the header. Each round takes at least one byte, so the length of the rest is
enough fuel. -/
def parseRecords (epoch : Bytes) : Nat → Parsed → Bytes → Except ParseErr Parsed
  | 0, p, _ => .ok p
  | _, p, [] => .ok p
  | fuel + 1, p, b :: rest =>
    match splitLine (b :: rest) with
    | none => .ok { p with torn := true }
    | some (line, next) =>
      if xtxMaxJournalRecord < line.length then .error (.recordTooLarge p.validLen)
      else if next = [] ∧ allZero line then .ok { p with torn := true }
      else
        match decodeXTxRecord sha epoch line with
        | .error e => .error (.corrupt p.validLen e)
        | .ok r =>
          match p.table.apply r with
          | .error _ => .error .conflict
          | .ok t =>
            parseRecords epoch fuel { p with records := p.records ++ [r], table := t,
                                             validLen := p.validLen + line.length + 1 } next

def parsedHeader (h : Header) (validLen : Nat) : Parsed :=
  { header := h, records := [], validLen := validLen, torn := false, tornCreate := false,
    table := newXTxTable }

def tornCreation : Parsed :=
  { header := { magic := [], v := 0, epoch := [], gen := 0, created := [] }, records := [],
    validLen := 0, torn := false, tornCreate := true, table := newXTxTable }

def parseXTxJournal (data : Bytes) : Except ParseErr Parsed :=
  if data = [] ∨ (splitLine data = none ∧ tornHeaderPrefix data) then .ok tornCreation
  else
    match splitLine data with
    | none => .error .unterminatedHeader
    | some (line, rest) => do
      let h ← decodeXTxHeader line
      parseRecords sha h.epoch rest.length (parsedHeader h (line.length + 1)) rest

end

abbrev Instant := { t : Rfc3339.Time // t.offset = 0 }

def Instant.text (now : Instant) : Bytes :=
  Utf8.encode (Rfc3339.format now.val)

/-- An open journal. `written` are the records of the file: those of the table, and one more whose
sync has failed. -/
structure Journal where
  hdr : Header
  file : Bytes
  nextSeq : UInt64
  table : Table
  records : List Record
  pending : Bytes → Option Bytes
  poisoned : Bool
  written : List Record

inductive Refusal where
  | tooLarge
  | parts
  | poisoned
  | partialBinding
  | unknownReason
  | notOurs
  | undecided
  | outcomeUnknown
  | conflict (why : Conflict)
deriving DecidableEq, Repr

structure Reply where
  journal : Journal
  appended : Option Record
  err : Option Refusal

def Journal.refuse (j : Journal) (e : Refusal) : Reply :=
  ⟨j, none, some e⟩

structure Bind where
  lsn : UInt64
  leadTx : Bytes
  digest : Bytes
deriving DecidableEq, Repr

def newRecord (now : Instant) (kind tx key : Bytes) : Record :=
  { k := kind, tx := tx, key := key, ts := now.text, parts := [], pd := [], why := [], o := [],
    rl := 0, rt := [], rd := [] }

def newHeader (seed : UInt64) (now : Instant) : Header :=
  { magic := xtxJournalMagic, v := xtxJournalVersion,
    epoch := hexDigits xtxEpochHexLen seed.toNat, gen := 0, created := now.text }

def createXTxJournal (seed : UInt64) (now : Instant) : Journal :=
  { hdr := newHeader seed now, file := encodeXTxHeader (newHeader seed now), nextSeq := 1,
    table := newXTxTable, records := [], pending := fun _ => none, poisoned := false,
    written := [] }

def Journal.allocateTxID (j : Journal) (key : Bytes) : Reply :=
  if xtxMaxKeyLen < key.length then j.refuse .tooLarge
  else if j.poisoned then j.refuse .poisoned
  else
    ⟨{ j with nextSeq := j.nextSeq + 1,
              pending := Function.update j.pending (formatTxID j.hdr.epoch j.nextSeq) (some key) },
      none, none⟩

/-- `appendLine`, `syncLocked` and `installLocked` of a record whose write went through. -/
def Journal.append (j : Journal) (r : Record) (synced : Bool) : Reply :=
  let j := { j with file := j.file ++ encodeXTxRecord r, written := j.written ++ [r] }
  if synced then
    match j.table.apply r with
    | .ok t => ⟨{ j with table := t, records := j.records ++ [r] }, some r, none⟩
    | .error e => ⟨j, some r, some (.conflict e)⟩
  else ⟨{ j with poisoned := true }, some r, some .outcomeUnknown⟩

def Journal.settled (j : Journal) (tx : Bytes) : Journal :=
  { j with pending := Function.update j.pending tx none }

section

variable (sha : Bytes → Bytes)

def commitRecord (now : Instant) (tx key : Bytes) (parts : List Part) (bind : Option Bind) :
    Record :=
  { newRecord now kindCommit tx key with
    parts := parts
    pd := partsDigest sha parts
    rl := bind.elim 0 Bind.lsn
    rt := bind.elim [] Bind.leadTx
    rd := bind.elim [] Bind.digest }

def Journal.commitPreparedBound (j : Journal) (tx key : Bytes) (parts : List Part)
    (bind : Option Bind) (now : Instant) (synced : Bool) : Reply :=
  if xtxMaxKeyLen < key.length then j.refuse .tooLarge
  else if !validateParts parts then j.refuse .parts
  else if j.poisoned then j.refuse .poisoned
  else if bind.any (fun b => b.lsn == 0 || b.leadTx.isEmpty || b.digest.isEmpty) then
    j.refuse .partialBinding
  else if bind.any (fun b => (j.table.byLSN b.lsn).isSome) then j.refuse (.conflict .lsn)
  else
    let reply := j.append (commitRecord sha now tx key parts bind) synced
    -- After a failed sync the transaction stays pending.
    if synced then { reply with journal := reply.journal.settled tx } else reply

end

def abortRecord (now : Instant) (tx key why : Bytes) : Record :=
  { newRecord now kindAbort tx key with why := why }

def retireRecord (now : Instant) (tx : Bytes) (d : Decision) : Record :=
  { newRecord now kindRetire tx d.key with o := d.outcome }

def Journal.abort (j : Journal) (tx key why : Bytes) (now : Instant) (synced : Bool) : Reply :=
  if why ∉ abortReasons then j.refuse .unknownReason
  else if j.poisoned then j.refuse .poisoned
  else if (parseTxID tx).map Prod.fst ≠ some j.hdr.epoch then j.refuse .notOurs
  else
    match j.table.byTx tx with
    | some d => if d.outcome ≠ kindAbort then j.refuse (.conflict .outcome) else ⟨j, none, none⟩
    | none => j.append (abortRecord now tx key why) synced

def Journal.retire (j : Journal) (tx : Bytes) (now : Instant) (synced : Bool) : Reply :=
  if j.poisoned then j.refuse .poisoned
  else
    match j.table.byTx tx with
    | none => j.refuse .undecided
    | some d =>
      if d.retired then ⟨j, none, none⟩
      else j.append (retireRecord now tx d) synced

def Journal.observeSeq (j : Journal) (seq : UInt64) : Journal :=
  if j.nextSeq ≤ seq then { j with nextSeq := seq + 1 } else j

section

variable (sha : Bytes → Bytes)

/-- The journal of a file, cut down to the part in use, or a new one in place of an unfinished
header. -/
def openXTxJournal (data : Bytes) (seed : UInt64) (now : Instant) : Except ParseErr Journal := do
  let p ← parseXTxJournal sha data
  if p.tornCreate then return createXTxJournal seed now
  return { hdr := p.header, file := data.take p.validLen, nextSeq := p.table.maxSeq + 1,
           table := p.table, records := p.records, pending := fun _ => none, poisoned := false,
           written := p.records }

/-- What a crash leaves behind a cut: nothing, zero bytes, or zero bytes and a newline. -/
inductive Fill where
  | nothing
  | zeros (m : Nat)
  | line (m : Nat)
deriving DecidableEq, Repr

def Fill.bytes : Fill → Bytes
  | .nothing => []
  | .zeros m => List.replicate m 0
  | .line m => List.replicate m 0 ++ [10]

def Journal.cut (j : Journal) (n : Nat) (fill : Fill) : Bytes :=
  j.file.take n ++ fill.bytes

inductive Act where
  | allocate (key : Bytes)
  | commit (tx key : Bytes) (parts : List Part) (bind : Option Bind) (now : Instant)
      (synced : Bool)
  | abort (tx key why : Bytes) (now : Instant) (synced : Bool)
  | retire (tx : Bytes) (now : Instant) (synced : Bool)
  | observe (seq : UInt64)
  | reopen (n : Nat) (fill : Fill) (seed : UInt64) (now : Instant)

/-- The calls of the engine: it commits a transaction it has allocated, under the key it has
allocated it for and before any decision on it; no key is longer than the limit. -/
def Journal.call (j : Journal) : Act → Option Reply
  | .allocate key => some (j.allocateTxID key)
  | .commit tx key parts bind now synced =>
    if j.pending tx = some key ∧ j.table.byTx tx = none then
      some (j.commitPreparedBound sha tx key parts bind now synced)
    else none
  | .abort tx key why now synced =>
    if key.length ≤ xtxMaxKeyLen then some (j.abort tx key why now synced) else none
  | .retire tx now synced => some (j.retire tx now synced)
  | .observe seq => some ⟨j.observeSeq seq, none, none⟩
  | .reopen n fill seed now =>
    (openXTxJournal sha (j.cut n fill) seed now).toOption.map fun j => ⟨j, none, none⟩

def Journal.step (j : Journal) (a : Act) : Option Journal :=
  (j.call sha a).map Reply.journal

end

end Scriva.Decisions
