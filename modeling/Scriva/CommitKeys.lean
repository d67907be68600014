import Scriva.JournalReadBack
import Scriva.Lib.Durable

namespace Scriva.CommitKeys

open Decisions Durable

/-- What a file operation does and reports: it is done; it fails; or it reports a failure although
it was done. -/
inductive Answer where
  | ok
  | failed
  | hidden
deriving DecidableEq, Repr

structure Faults where
  write : Answer
  truncate : Answer
  sync : Answer
deriving DecidableEq, Repr

inductive XTxStatus where
  | unknown
  | pending
  | committed
  | aborted
deriving DecidableEq, Repr

def statusOf (d : Decision) : XTxStatus :=
  if d.outcome = kindCommit then .committed else .aborted

/-- How far a commit has come: its arguments are checked; its key is in the in-flight set; the key
was not found committed; it has a transaction id; its decision failed; its COMMIT is durable. -/
inductive Phase where
  | entered
  | claimed
  | looked
  | allocated (tx : Bytes)
  | undone (tx : Bytes)
  | decided (tx : Bytes)
deriving DecidableEq, Repr

/-- A commit under way, of a handle or a call of `CommitXTx`. -/
structure Call where
  key : Bytes
  handle : Option Nat
  phase : Phase
deriving DecidableEq, Repr

def Phase.holds : Phase → Bool
  | .entered => false
  | _ => true

def Phase.tx : Phase → Option Bytes
  | .allocated tx | .undone tx | .decided tx => some tx
  | _ => none

/-- What a commit returns: an error before anything is written; the error of a transaction that is
undone, or whose outcome is unknown; the result of the transaction it committed, or of an earlier
one, with `Replayed` set; the empty result of a handle that staged nothing. -/
inductive Reply where
  | refused
  | failed (tx : Bytes)
  | unknown (tx : Bytes)
  | committed (tx : Bytes)
  | replayed (tx : Bytes)
  | empty
deriving DecidableEq, Repr

inductive HandleState where
  | active
  | committing
  | committed (r : Reply)
  | finished
deriving DecidableEq, Repr

structure Handle where
  key : Bytes
  staged : Bool
  state : HandleState
deriving DecidableEq, Repr

/-- A commit that has returned: whether it got to the lookup of its key, whether it wrote anything,
and whether its handle had committed before. -/
structure Ending where
  no : Nat
  key : Bytes
  reply : Reply
  looked : Bool
  wrote : Bool
  again : Bool
deriving DecidableEq, Repr

/-- A journal with its file. `issued` are the ids `allocateTxID` has given out since the open. -/
structure XTxJournal where
  file : File Decisions.Record
  poisoned : Bool
  table : Table
  records : List Decisions.Record
  issued : List Bytes
  pending : List (Bytes × Bytes)

def XTxJournal.empty : XTxJournal :=
  { file := .empty, poisoned := false, table := newXTxTable, records := [], issued := [],
    pending := [] }

def XTxJournal.statusByKey (j : XTxJournal) (key : Bytes) : XTxStatus × Bytes :=
  if key = [] then (.unknown, [])
  else
    match j.table.byKey key with
    | some tx => ((j.table.byTx tx).elim .unknown statusOf, tx)
    | none =>
      match j.pending.find? fun p => p.2 = key with
      | some p => (.pending, p.1)
      | none => (.unknown, [])

/-- `appendLine`: a line that failed is cut off again, and the journal poisoned if that fails too.
Part of a line is no record. -/
def XTxJournal.appendLine (j : XTxJournal) (r : Decisions.Record) (f : Faults) :
    XTxJournal × Bool :=
  let file := if f.write = .failed then j.file else j.file.append r
  if f.write = .ok then ({ j with file := file }, true)
  else
    let cut := if f.truncate = .failed then file else file.truncate j.file.current.length
    ({ j with file := cut, poisoned := f.truncate ≠ .ok }, false)

def XTxJournal.syncLocked (j : XTxJournal) (f : Faults) : XTxJournal × Bool :=
  let file := if f.sync = .failed then j.file else j.file.sync
  ({ j with file := file, poisoned := f.sync ≠ .ok }, f.sync = .ok)

/-- What becomes of a record: it is in the table; it does not fit the table; its sync failed; its
write failed. -/
inductive Written where
  | installed
  | conflict
  | unsynced
  | failed
deriving DecidableEq, Repr

def XTxJournal.installLocked (j : XTxJournal) (r : Decisions.Record) : XTxJournal × Written :=
  match j.table.apply r with
  | .ok t => ({ j with table := t, records := j.records ++ [r] }, .installed)
  | .error _ => (j, .conflict)

/-- A record appended, synced and installed by a journal that is not poisoned. -/
def XTxJournal.appendDecision (j : XTxJournal) (r : Decisions.Record) (f : Faults) :
    XTxJournal × Written :=
  let (j, appended) := j.appendLine r f
  if !appended then (j, .failed)
  else
    let (j, synced) := j.syncLocked f
    if !synced then (j, .unsynced) else j.installLocked r

/-- `allocateTxID`: the id is one that was not given out and is not decided. -/
def XTxJournal.allocateTxID (j : XTxJournal) (tx key : Bytes) : Option XTxJournal :=
  if tx ∈ j.issued ∨ (j.table.byTx tx).isSome then none
  else some { j with issued := tx :: j.issued, pending := (tx, key) :: j.pending }

/-- `openXTxJournal`: the records of the file, unless they do not fit together. -/
def XTxJournal.reopen (j : XTxJournal) : Option XTxJournal :=
  (newXTxTable.fold j.file.current).toOption.map fun t =>
    { file := j.file, poisoned := false, table := t, records := j.file.current, issued := [],
      pending := [] }

def XTxJournal.settle (j : XTxJournal) (tx : Bytes) : XTxJournal :=
  { j with pending := j.pending.filter fun p => p.1 ≠ tx }

/-- `abort`, whose error nobody looks at. -/
def XTxJournal.abort (j : XTxJournal) (tx key why : Bytes) (now : Instant) (f : Faults) :
    XTxJournal :=
  if j.poisoned ∨ (j.table.byTx tx).isSome then j
  else (j.appendDecision (abortRecord now tx key why) f).1

/-- `commitPreparedBound` of a transaction of this node. Where its sync fails, the transaction stays
pending. -/
def XTxJournal.commitPrepared (sha : Bytes → Bytes) (j : XTxJournal) (tx key : Bytes)
    (parts : List Part) (now : Instant) (f : Faults) : XTxJournal × Written :=
  if j.poisoned then (j, .failed)
  else
    let (j, w) := j.appendDecision (commitRecord sha now tx key parts none) f
    (if w = .unsynced then j else j.settle tx, w)

/-- A database: the commits under way and the handles of the process that has it open, and what has
happened: the keys and transactions whose writes have been applied, and the commits that have
returned. -/
structure Node where
  journal : XTxJournal
  up : Bool
  inFlight : List Bytes
  calls : Nat → Option Call
  handles : Nat → Option Handle
  nextCall : Nat
  nextHandle : Nat
  applied : List (Bytes × Bytes)
  endings : List Ending

def Node.fresh : Node :=
  { journal := .empty, up := false, inFlight := [], calls := fun _ => none,
    handles := fun _ => none, nextCall := 0, nextHandle := 0, applied := [], endings := [] }

/-- What `validateXTxReadSet` says. -/
inductive Check where
  | passed
  | conflict
  | canceled
deriving DecidableEq, Repr

inductive Move where
  | refuse (canceled : Bool)
  | claim
  | look
  | allocate (tx : Bytes)
  | decide (parts : List Part) (now : Instant) (f : Faults)
  | abort (why : Bytes) (now : Instant) (f : Faults)
  | finish

inductive Act where
  | beginXTx (key : Bytes) (staged : Bool)
  | stage (h : Nat) (staged : Bool)
  | close (h : Nat)
  | commitXTx (key : Bytes)
  | commit (h : Nat) (reads : Check)
  | call (no : Nat) (m : Move)
  | presume (tx : Bytes) (now : Instant) (f : Faults)
  | kill
  | crash (k : Nat)
  | reopen

def Node.setHandle (n : Node) (h : Nat) (x : Handle) : Node :=
  { n with handles := Function.update n.handles h (some x) }

def Node.setCall (n : Node) (no : Nat) (c : Call) : Node :=
  { n with calls := Function.update n.calls no (some c) }

def Node.enter (n : Node) (key : Bytes) (handle : Option Nat) : Node :=
  { n.setCall n.nextCall ⟨key, handle, .entered⟩ with nextCall := n.nextCall + 1 }

def Node.answer (n : Node) (key : Bytes) (reply : Reply) (again : Bool) : Node :=
  { n with nextCall := n.nextCall + 1
           endings := n.endings ++ [⟨n.nextCall, key, reply, false, false, again⟩] }

/-- A commit returns: its key leaves the in-flight set, and its handle changes its state. -/
def Node.conclude (n : Node) (no : Nat) (c : Call) (reply : Reply) (state : HandleState) : Node :=
  { n with
    calls := Function.update n.calls no none
    inFlight := if c.phase.holds then n.inFlight.filter (· ≠ c.key) else n.inFlight
    handles := fun h =>
      if c.handle = some h then (n.handles h).map fun x => { x with state := state }
      else n.handles h
    endings := n.endings ++
      [⟨no, c.key, reply, c.phase ≠ .entered, c.phase.tx.isSome, false⟩] }

def Node.down (n : Node) : Node :=
  { n with up := false, inFlight := [], calls := fun _ => none, handles := fun _ => none }

def commitsOf (rs : List Decisions.Record) : List (Bytes × Bytes) :=
  (rs.filter fun r => r.k = kindCommit).map fun r => (r.key, r.tx)

section

-- The hash function behind the digests.
variable (sha : Bytes → Bytes)

def Node.decide (n : Node) (no : Nat) (c : Call) (tx : Bytes) (parts : List Part) (now : Instant)
    (f : Faults) : Node :=
  let (j, w) := n.journal.commitPrepared sha tx c.key parts now f
  match w with
  | .installed =>
    { n.setCall no { c with phase := .decided tx } with
      journal := j, applied := n.applied ++ [(c.key, tx)] }
  | .unsynced => { n.conclude no c (.unknown tx) .finished with journal := j }
  | .conflict | .failed => { n.setCall no { c with phase := .undone tx } with journal := j }

def Node.advance (n : Node) (no : Nat) (c : Call) : Move → Option Node
  | .refuse canceled =>
    if c.phase = .entered ∨ c.phase = .looked then
      some (n.conclude no c .refused (if canceled then .active else .finished))
    else none
  | .claim =>
    if c.phase ≠ .entered then none
    else if c.key = [] then some (n.setCall no { c with phase := .looked })
    -- Another call with the key is in flight.
    else if c.key ∈ n.inFlight then some (n.conclude no c .refused .active)
    else some { n.setCall no { c with phase := .claimed } with inFlight := c.key :: n.inFlight }
  | .look =>
    if c.phase ≠ .claimed then none
    else
      match n.journal.statusByKey c.key with
      | (.committed, tx) => some (n.conclude no c (.replayed tx) (.committed (.replayed tx)))
      | _ => some (n.setCall no { c with phase := .looked })
  | .allocate tx =>
    if c.phase ≠ .looked then none
    else if n.journal.poisoned then some (n.conclude no c .refused .finished)
    else (n.journal.allocateTxID tx c.key).map fun j =>
      { n.setCall no { c with phase := .allocated tx } with journal := j }
  | .decide parts now f =>
    match c.phase with
    | .allocated tx =>
      if validateParts parts then some (n.decide sha no c tx parts now f) else none
    | _ => none
  | .abort why now f =>
    match c.phase with
    | .allocated tx | .undone tx =>
      some { n.conclude no c (.failed tx) .finished with
             journal := n.journal.abort tx c.key why now f }
    | _ => none
  | .finish =>
    match c.phase with
    | .decided tx => some (n.conclude no c (.committed tx) (.committed (.committed tx)))
    | _ => none

def Node.commitHandle (n : Node) (h : Nat) (x : Handle) (reads : Check) : Node :=
  match x.state with
  | .committed r => n.answer x.key r true
  | .active =>
    if x.staged then (n.setHandle h { x with state := .committing }).enter x.key (some h)
    else
      match reads with
      | .passed => (n.setHandle h { x with state := .committed .empty }).answer x.key .empty false
      | .conflict => (n.setHandle h { x with state := .finished }).answer x.key .refused false
      | .canceled => n.answer x.key .refused false
  | .committing | .finished => n.answer x.key .refused false

def Node.step (n : Node) : Act → Option Node
  | .beginXTx key staged =>
    if n.up then
      some { n.setHandle n.nextHandle ⟨key, staged, .active⟩ with nextHandle := n.nextHandle + 1 }
    else none
  | .stage h staged =>
    (n.handles h).bind fun x =>
      if x.state = .active then some (n.setHandle h { x with staged := staged }) else none
  -- A handle that is rolled back or expires.
  | .close h =>
    (n.handles h).bind fun x =>
      if x.state = .active then some (n.setHandle h { x with state := .finished }) else none
  | .commitXTx key => if n.up then some (n.enter key none) else none
  | .commit h reads => (n.handles h).map fun x => n.commitHandle h x reads
  -- Recovery's abort of a transaction that no process decides any more.
  | .presume tx now f =>
    if n.up ∧ tx ∉ n.journal.issued then
      some { n with journal := n.journal.abort tx [] (ascii "recovery") now f }
    else none
  | .kill => if n.up then some n.down else none
  | .crash k => some { n.down with journal := { n.journal with file := n.journal.file.crash k } }
  | .reopen =>
    if n.up then none
    else n.journal.reopen.map fun j =>
      { n with up := true, journal := j, applied := n.applied ++ commitsOf j.records }
  | .call no m => (n.calls no).bind fun c => n.advance sha no c m

end

end Scriva.CommitKeys
