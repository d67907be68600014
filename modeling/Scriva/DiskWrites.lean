import Scriva.Disk

namespace Scriva.Disk

open Durable Faulty

def look (c : String) : Go Col :=
  .look fun w => .ret (w.cols c)

def change (c : String) (f : Col → Col) : Go Unit :=
  modify fun w => w.change c f

def request : Go Nat :=
  .look fun w => .ret w.req

/-- `if err := p; err != nil { return err }`, then the rest. -/
def unlessErr (p q : Go (Option Err)) : Go (Option Err) := do
  match ← p with
  | some e => return some e
  | none => q

def Col.fence (x : Col) (op : String) : Col :=
  { x with fenced := x.fenced.orElse fun _ => some op }

def fence (c : String) (op : String) : Go Unit :=
  change c (·.fence op)

def unknownOutcome (c : String) (op : String) : Go (Option Err) := do
  fence c op
  return some [.writeOutcomeUnknown]

def checkFenced (c : String) : Go (Option Err) := do
  if (← look c).fenced.isSome then return some [.collectionFenced] else return none

def Col.poison (x : Col) : Col :=
  { x with poisoned := true }

/-- A failed truncate poisons the segment, and the poison hook fences the collection. -/
def rollbackLocked (c : String) (n : Nat) : Go (Option Err) := do
  if (← look c).poisoned then
    return some [.segmentPoisoned]
  else if (← call (.truncate c n)) = .ok then
    return none
  else
    change c Col.poison
    fence c "truncate"
    return some [.segmentPoisoned]

def append (c : String) (l : Row) : Go (Option Err) := do
  let x ← look c
  if x.poisoned then
    return some [.segmentPoisoned]
  else if (← call (.write c l)) = .ok then
    return none
  else
    match ← rollbackLocked c x.file.current.length with
    | some e => return some (.other :: e)
    | none => return some [.other]

def appendLocked (c : String) (op : String) (l : Row) : Go (Option Err) :=
  unlessErr (checkFenced c) do
    match ← append c l with
    | none => return none
    | some e => if .segmentPoisoned ∈ e then unknownOutcome c op else return some e

def syncCommitLocked (c : String) (op : String) : Go (Option Err) := do
  if (← look c).mode ≠ .always then
    return none
  else if (← call (.fsync c)) = .ok then
    return none
  else
    unknownOutcome c op

def Col.indexRow (x : Col) (l : Row) : Col :=
  { x with index := x.index ++ [l] }

def indexRow (c : String) (l : Row) : Go Unit :=
  change c (·.indexRow l)

def publishCommit (c : String) : Go Unit :=
  change c (·.note .published)

/-- The new segment's directory entry and the id counter; `closed` is how the old one closed. -/
def settleSegment (c : String) (closed : Answer) : Go (Option Err) := do
  let synced ← if (← look c).mode = .none then pure .ok else call (.syncDir c)
  if synced = .ok then
    let saved ← call (.writeMeta c)
    return if closed = .ok ∧ saved = .ok then none else some [.other]
  else
    fence c "rotate"
    return some [.other]

def rotateSegment (c : String) : Go (Option Err) :=
  unlessErr (checkFenced c) do
    let closed ← call (.seal c)
    if closed = .failed then
      fence c "seal"
      return some [.other]
    else if (← call (.newSegment c)) = .ok then
      settleSegment c closed
    else if (← call (.reopenSegment c)) = .ok then
      return some [.other]
    else
      fence c "rotate"
      return some [.other]

def rotateIf (needRotate : Bool) (c : String) : Go (Option Err) :=
  if needRotate then rotateSegment c else return none

def afterCommit (c : String) (needRotate : Bool) : Go (Option Err) := do
  match ← rotateIf needRotate c with
  | some e => return some (.postCommit :: e)
  | none => return none

inductive Ruling where
  | write
  | skip
  | refuse (e : Err)
deriving DecidableEq, Repr

/-- A single write: insert, update, delete, the keyed writes, compare-and-swap, and the apply of a
replicated entry. `early` is the error of a check made before the fence is looked at. -/
structure Single where
  c : String
  op : String
  ref : XTxOpRef
  early : Option Err
  ruling : Ruling
  needRotate : Bool
deriving DecidableEq, Repr

def Single.row (s : Single) (req : Nat) : Row :=
  { req, no := 0, ref := s.ref, stamp := none }

def singleWrite (s : Single) : Go (Option Err) :=
  unlessErr (pure s.early) <| unlessErr (checkFenced s.c) do
    match s.ruling with
    | .refuse e => return some e
    | .skip => return none
    | .write =>
      let l := s.row (← request)
      unlessErr (appendLocked s.c s.op l) <| unlessErr (syncCommitLocked s.c s.op) do
        indexRow s.c l
        publishCommit s.c
        afterCommit s.c s.needRotate

/-- `InsertMany`, or the single-collection `CommitTx`. -/
inductive BatchKind where
  | insertMany
  | commitTx
deriving DecidableEq, Repr

structure Batch where
  c : String
  kind : BatchKind
  refs : List XTxOpRef
  early : Option Err
  ruling : Option Err
  needRotate : Bool
deriving DecidableEq, Repr

def plainRows (req : Nat) (refs : List XTxOpRef) : List Row :=
  refs.mapIdx fun i ref => { req, no := i, ref, stamp := none }

/-- The index is restored only if the segment could be truncated. -/
def rollbackBatchLocked (c : String) (start : Nat) (before : List Row) : Go (Option Err) :=
  unlessErr (rollbackLocked c start) do
    change c fun x => { x with index := before }
    return none

/-- The failure of a batch: rolled back, and reported with the rollback's own error. -/
def failBatch (c : String) (start : Nat) (before : List Row) (e : Err) : Go (Option Err) := do
  match ← rollbackBatchLocked c start before with
  | some e' => return some (e ++ e')
  | none => return some e

def appendBatch (c : String) (start : Nat) (before : List Row) : List Row → Go (Option Err)
  | [] => return none
  | l :: ls => do
    match ← append c l with
    | some e => failBatch c start before e
    | none =>
      indexRow c l
      appendBatch c start before ls

def syncActiveLocked (c : String) : Go (Option Err) := do
  if (← look c).mode ≠ .always then
    return none
  else if (← call (.fsync c)) = .ok then
    return none
  else
    return some [.other]

/-- The id counter is saved after a commit that inserted something. -/
def saveMeta (c : String) (refs : List XTxOpRef) : Go Answer :=
  if refs.any (·.op == .insert) then call (.writeMeta c) else return .ok

def postError (saved : Answer) (rotated : Option Err) : Option Err :=
  if saved = .ok ∧ rotated = none then none else some [.postCommit, .other]

/-- Only `CommitTx` saves the id counter. -/
def postBatch (b : Batch) : Go (Option Err) := do
  let saved ← saveMeta b.c (if b.kind = .commitTx then b.refs else [])
  let rotated ← rotateIf b.needRotate b.c
  return postError saved rotated

def legacyBatch (b : Batch) : Go (Option Err) := do
  if b.refs = [] then
    return none
  else
    unlessErr (pure b.early) <| unlessErr (checkFenced b.c) <| unlessErr (pure b.ruling) do
      let x ← look b.c
      let start := x.file.current.length
      unlessErr (appendBatch b.c start x.index (plainRows (← request) b.refs)) do
        match ← syncActiveLocked b.c with
        | some e => failBatch b.c start x.index e
        | none =>
          publishCommit b.c
          postBatch b

/-- Appends tombstones until one fails; how many were appended, and the error that stopped it. -/
def appendReaped (c : String) : List Row → Go (List Row × Option Err)
  | [] => return ([], none)
  | l :: ls => do
    match ← appendLocked c "reap" l with
    | some e => return ([], some e)
    | none =>
      let (done, e) ← appendReaped c ls
      return (l :: done, e)

def indexRows (c : String) : List Row → Go Unit
  | [] => return ()
  | l :: ls => do
    indexRow c l
    indexRows c ls

def reapExpired (c : String) (refs : List XTxOpRef) (needRotate : Bool) : Go (Option Err) :=
  unlessErr (checkFenced c) do
    let (done, stop) ← appendReaped c (plainRows (← request) refs)
    let unsure := stop.any fun e => .writeOutcomeUnknown ∈ e || .collectionFenced ∈ e
    if unsure ∨ done = [] then
      return stop
    else
      unlessErr (syncCommitLocked c "reap") do
        indexRows c done
        publishCommit c
        unlessErr (afterCommit c needRotate) (return stop)

/-- The fence of a failed background fsync is set by a later step. -/
def backgroundSync (c : String) (op : String) : Go (Option Err) := do
  if (← look c).fenced.isSome then
    return none
  else if (← call (.fsync c)) = .ok then
    return none
  else
    change c fun x => { x with pending := some op }
    return none

def syncLoop (c : String) : Go (Option Err) := do
  if (← look c).mode = .interval then backgroundSync c "syncLoop" else return none

def persistIndexes (c : String) : Go (Option Err) :=
  backgroundSync c "persist"

def fencePending (c : String) : Go (Option Err) := do
  match (← look c).pending with
  | none => return none
  | some op =>
    fence c op
    change c fun x => { x with pending := none }
    return none

end Scriva.Disk
