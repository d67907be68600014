import Scriva.DiskWrites
import Mathlib.Data.List.Sort

namespace Scriva.Disk

open Durable Faulty

def journal : Go Journal :=
  .look fun w => .ret w.journal

def changeJournal (f : Journal → Journal) : Go Unit :=
  modify fun w => w.changeJournal f

def usable : Go (Option Err) := do
  if (← journal).poisoned then return some [.xtxDurability] else return none

def poisonJournal : Go Unit :=
  changeJournal fun j => { j with poisoned := true }

/-- A failed append is rolled back; if that fails too the journal is poisoned. -/
def appendLine (r : XTxRecord) : Go (Option Err) := do
  let size := (← journal).file.current.length
  if (← call (.journalWrite r)) = .ok then
    return none
  else if (← call (.journalTruncate size)) = .ok then
    return some [.other]
  else
    poisonJournal
    return some [.other]

def syncLocked : Go (Option Err) := do
  if (← call .journalSync) = .ok then
    return none
  else
    poisonJournal
    return some [.other]

def install (r : XTxRecord) : Go Unit :=
  changeJournal fun j => { j with table := j.table ++ [r] }

def decisionOf (table : List XTxRecord) (t : Nat) : Option XTxRecord :=
  table.find? fun r => r.tx == t

def allocateTxID : Go (Except Err Nat) := do
  match ← usable with
  | some e => return .error e
  | none =>
    let t := (← journal).nextSeq
    changeJournal fun j => { j with nextSeq := j.nextSeq + 1 }
    return .ok t

def ascending : List XTxPart → Bool
  | p :: q :: ps => decide (p.c < q.c) && ascending (q :: ps)
  | _ => true

def validateParts (parts : List XTxPart) : Bool :=
  parts ≠ [] && parts.all (fun p => p.c ≠ "" && p.n ≠ 0) && ascending parts

def commitPrepared (t : Nat) (key : String) (parts : List XTxPart) : Go (Option Err) := do
  if ! validateParts parts then
    return some [.other]
  else
    unlessErr usable do
      let r := XTxRecord.commit t key (← request) parts
      match ← appendLine r with
      | some e => return some (.xtxDurability :: e)
      | none =>
        match ← syncLocked with
        | some e => return some (.xtxOutcomeUnknown :: e)
        | none =>
          install r
          return none

/-- Advisory: a transaction without a decision is aborted anyway. -/
def abort (t : Nat) (key : String) : Go (Option Err) :=
  unlessErr usable do
    if (decisionOf (← journal).table t).isSome then
      return none
    else
      unlessErr (appendLine (.abort t key)) <| unlessErr syncLocked do
        install (.abort t key)
        return none

def Run.rows (r : Run) (req t : Nat) : List Row :=
  r.refs.mapIdx fun i ref => { req, no := i, ref, stamp := some ⟨t, i, r.refs.length⟩ }

def Run.part (partDigest : List XTxOpRef → String) (r : Run) : XTxPart :=
  ⟨r.c, r.refs.length, partDigest r.refs⟩

def appendAll (c : String) : List Row → Go (Option Err)
  | [] => return none
  | l :: ls => unlessErr (append c l) (appendAll c ls)

/-- Every participant's size before its run is remembered, also for the run that fails. -/
def appendRuns (t : Nat) : List Run → List (String × Nat) → Go (Option Err × List (String × Nat))
  | [], sizes => return (none, sizes)
  | r :: rs, sizes => do
    let sizes := sizes ++ [(r.c, (← look r.c).file.current.length)]
    match ← appendAll r.c (r.rows (← request) t) with
    | some e => return (some e, sizes)
    | none => appendRuns t rs sizes

/-- A failed fsync poisons the segment directly, without the hook. -/
def syncRuns : List Run → Go (Option Err)
  | [] => return none
  | r :: rs => do
    if (← call (.fsync r.c)) = .ok then
      syncRuns rs
    else
      change r.c Col.poison
      return some [.other]

def rollbackRuns : List (String × Nat) → Go Unit
  | [] => return ()
  | (c, n) :: sizes => do
    let _ ← rollbackLocked c n
    rollbackRuns sizes

def abandon (t : Nat) (key : String) (sizes : List (String × Nat)) : Go (Option Err) := do
  rollbackRuns sizes
  let _ ← abort t key
  return some [.xtxDurability]

section

variable (partDigest : List XTxOpRef → String)

/-- If the fsync of the decision fails the runs are left for recovery. -/
def xtxPrepareAndDecide (t : Nat) (key : String) (runs : List Run) : Go (Option Err) := do
  modify fun w => { w with started := w.started ++ [⟨w.req, t, runs⟩] }
  let (failed, sizes) ← appendRuns t runs []
  if failed.isSome then
    abandon t key sizes
  else if (← syncRuns runs).isSome then
    abandon t key sizes
  else
    match ← commitPrepared t key (runs.map (·.part partDigest)) with
    | none => return none
    | some e =>
      if .xtxOutcomeUnknown ∈ e then return some [.xtxOutcomeUnknown] else abandon t key sizes

/-- A cross-collection transaction, or a batch on the atomic route. A request whose idempotency key
has committed is answered before it gets here. `early` is the error of a check
made before the fence, `conflict` of the read validation, `ruling` of the checks of its operations;
`full` are the participants whose segment is full afterwards. -/
structure XTx where
  key : String
  batch : Option BatchKind
  runs : List Run
  reads : List String
  early : Option Err
  conflict : Option Err
  ruling : Option Err
  full : List String
deriving DecidableEq, Repr

def checkAllFenced : List String → Go (Option Err)
  | [] => return none
  | c :: cs => do
    match ← checkFenced c with
    | some e => return some (.xtxDurability :: e)
    | none => checkAllFenced cs

def checkPoisoned : List Run → Go (Option Err)
  | [] => return none
  | r :: rs => do
    if (← look r.c).poisoned then
      return some [.xtxDurability, .segmentPoisoned]
    else
      checkPoisoned rs

def applyRuns (t : Nat) : List Run → Go Unit
  | [] => return ()
  | r :: rs => do
    indexRows r.c (r.rows (← request) t)
    publishCommit r.c
    applyRuns t rs

/-- Rotation and the id counter, after the locks are released; the first error is kept. -/
def postRuns (full : List String) : List Run → Go (Option Err)
  | [] => return none
  | r :: rs => do
    let rotated ← rotateIf (full.contains r.c) r.c
    let saved ← saveMeta r.c r.refs
    let rest ← postRuns full rs
    return (postError saved rotated).or rest

def commitXTx (x : XTx) : Go (Option Err) :=
  unlessErr (pure x.early) <|
  unlessErr (checkAllFenced (x.runs.map (·.c) ++ x.reads)) <|
  unlessErr (pure x.conflict) <|
  unlessErr (checkPoisoned x.runs) <|
  unlessErr (pure x.ruling) do
    match ← allocateTxID with
    | .error e => return some e
    | .ok t =>
      unlessErr (xtxPrepareAndDecide partDigest t x.key x.runs) do
        applyRuns t x.runs
        let post ← postRuns x.full x.runs
        return if x.batch.isSome then post else none

/-- A replicated transaction on a follower. `names` are its participants, `runs` what is left to
apply of it; `present`: it was applied before. -/
structure Envelope where
  key : String
  names : List String
  runs : List Run
  keyed : List String
  early : Option Err
  present : Bool
  ruling : Option Err
  full : List String
deriving DecidableEq, Repr

/-- The `_key` index of the keyed participants is the only thing that looks at the fence. -/
def ensureKeyIndexes : List String → Go (Option Err)
  | [] => return none
  | c :: cs => unlessErr (checkFenced c) (ensureKeyIndexes cs)

def applyReplicatedTx (x : Envelope) : Go (Option Err) :=
  unlessErr (pure x.early) <| unlessErr (ensureKeyIndexes x.keyed) do
    if x.present then
      return none
    else
      unlessErr (pure x.ruling) <| unlessErr (checkPoisoned x.runs) do
        match ← allocateTxID with
        | .error e => return some e
        | .ok t =>
          unlessErr (xtxPrepareAndDecide partDigest t x.key x.runs) do
            applyRuns t x.runs
            let _ ← postRuns x.full x.runs
            return none

def Col.rows (x : Col) : List Row :=
  x.sealed ++ x.file.current

def runOf (x : Col) (t : Nat) : List Row :=
  x.rows.filter (·.stampedBy t)

def runComplete (rows : List Row) : Bool :=
  rows.mapIdx (fun i _ => some (i, rows.length)) == rows.map fun l => l.stamp.map fun s => (s.i, s.n)

/-- Where a run starts that lies in the active segment and reaches its end. -/
def tailStart (x : Col) (t : Nat) : Option Nat :=
  if x.sealed.any (·.stampedBy t) then none
  else if x.file.current.getLast?.any (·.stampedBy t) then
    x.file.current.findIdx? (·.stampedBy t)
  else none

def dropTails (w : World) (t : Nat) : List String → Go Unit
  | [] => return ()
  | c :: cs => do
    match tailStart (w.cols c) t with
    | some n =>
      let _ ← call (.recoverTruncate c n)
      let _ ← call (.recoverSync c)
      dropTails w t cs
    | none => dropTails w t cs

def evidenceOk (w : World) (t : Nat) (parts : List XTxPart) : Bool :=
  parts.all (fun p => w.names.contains p.c) &&
  w.names.all (fun c => (runOf (w.cols c) t).isEmpty || (parts.map (·.c)).contains c) &&
  parts.all fun p =>
    let rows := runOf (w.cols p.c) t
    rows ≠ [] && runComplete rows && rows.length == p.n && partDigest (rows.map (·.ref)) == p.d

/-- The truth table for one transaction; `w` is what was found before anything was repaired. -/
def resolveTx (w : World) (t : Nat) : Go (Option Err) := do
  match decisionOf (← journal).table t with
  | none =>
    if w.names.all fun c => (runOf (w.cols c) t).isEmpty then
      return none
    else
      dropTails w t w.names
      let _ ← abort t ""
      return none
  | some (.abort _ _) =>
    dropTails w t w.names
    return none
  | some (.commit _ _ _ parts) =>
    return if evidenceOk partDigest w t parts then none else some [.xtxIncomplete]

def resolveAll (w : World) : List Nat → Go (Option Err)
  | [] => return none
  | t :: ts => unlessErr (resolveTx partDigest w t) (resolveAll w ts)

/-- Records of one transaction that do not contradict each other. -/
def XTxRecord.agrees : XTxRecord → XTxRecord → Bool
  | .commit t key _ parts, .commit t' key' _ parts' =>
    t != t' || key == key' && parts == parts'
  | .abort t key, .abort t' key' => t != t' || key == key'
  | r, s => r.tx != s.tx

def consistent (records : List XTxRecord) : Bool :=
  decide (records.Pairwise fun r s => r.agrees s = true)

def stamps (rows : List Row) : List Nat :=
  rows.filterMap fun l => l.stamp.map (·.t)

def foundTxs (w : World) : List Nat :=
  (w.journal.file.current.map (·.tx) ++ w.names.flatMap fun c => stamps (w.cols c).rows).dedup.insertionSort
    (· ≤ ·)

def Row.visible (table : List XTxRecord) (l : Row) : Bool :=
  match l.stamp with
  | none => true
  | some s =>
    match decisionOf table s.t with
    | some (.commit _ _ _ _) => true
    | _ => false

def Col.opened (x : Col) (table : List XTxRecord) : Col :=
  { x with
    fenced := none, poisoned := false, pending := none, failed := false
    index := x.rows.filter (·.visible table) }

def openCollections : List String → Go Unit
  | [] => return ()
  | c :: cs => do
    let table := (← journal).table
    change c (·.opened table)
    openCollections cs

def openDB : Go (Option Err) := do
  let w ← get
  let records := w.journal.file.current
  if ! consistent records then
    return some [.other]
  else
    changeJournal fun j =>
      { j with poisoned := false, table := records, nextSeq := (foundTxs w).foldl (fun n t => max n (t + 1)) 1 }
    unlessErr (resolveAll partDigest w (foundTxs w)) do
      openCollections w.names
      modify fun u => { u with live := u.names }
      return none

end

structure Crash where
  cols : String → Nat
  journal : Nat

def World.crash (w : World) (k : Crash) : World :=
  { w with
    cols := fun c => { w.cols c with file := (w.cols c).file.crash (k.cols c) }
    journal := { w.journal with file := w.journal.file.crash k.journal } }

def retainedFor (table : List XTxRecord) (c : String) : Bool :=
  table.any fun
    | .commit _ _ _ parts => parts.any (·.c == c)
    | .abort _ _ => false

def Col.closed (x : Col) : Col :=
  { x with fenced := none, poisoned := false, pending := none, failed := false, index := [] }

/-- `Close` syncs a collection unless it is fenced. -/
def closeCollection (c : String) : Go Unit := do
  if (← look c).fenced.isSome then
    change c Col.closed
  else
    let _ ← call (.fsync c)
    change c Col.closed

/-- Refused while a decision in the table names the collection. -/
def dropCollection (c : String) : Go (Option Err) := do
  if retainedFor (← journal).table c then
    return some [.other]
  else
    closeCollection c
    modify fun w => { w with live := w.live.erase c }
    if (← call (.removeAll c)) = .ok then return none else return some [.other]

def createCollection (c : String) (mode : SyncMode) : Go (Option Err) := do
  let w ← get
  if w.live.contains c then
    return none
  else
    if w.names.contains c then
      change c (·.opened w.journal.table)
    else
      change c (·.renew mode)
      modify fun w => { w with names := w.names ++ [c] }
    modify fun w => { w with live := w.live ++ [c] }
    return none

def closeAll : List String → Go Unit
  | [] => return ()
  | c :: cs => do
    closeCollection c
    closeAll cs

end Scriva.Disk
