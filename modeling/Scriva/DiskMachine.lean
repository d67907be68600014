import Scriva.DiskTransactions
import Scriva.Lib.Runs

namespace Scriva.Disk

open Durable Faulty

inductive Request where
  | single (s : Single)
  | batch (b : Batch)
  | xtx (x : XTx)
  | envelope (x : Envelope)
  | reap (c : String) (refs : List XTxOpRef) (needRotate : Bool)
  /-- Compaction, and the other maintenance that leaves the active segment alone. -/
  | maintain (c : String) (ruling : Option Err)
  | rotate (c : String)
  | syncLoop (c : String)
  | persist (c : String)
  | fencePending (c : String)
  | read (c : String)
  | readInTx (c : String) (present : Bool)
  | commitReads (cs : List String)
  | drop (c : String)
deriving DecidableEq, Repr

def Request.touched : Request → List String
  | .single s => [s.c]
  | .batch b => [b.c]
  | .xtx x => x.runs.map (·.c) ++ x.reads
  | .envelope x => x.names ++ x.runs.map (·.c)
  | .reap c _ _ | .maintain c _ | .rotate c | .syncLoop c | .persist c | .fencePending c
  | .read c | .readInTx c _ | .drop c => [c]
  | .commitReads cs => cs

def getIfPresent (c : String) (present : Bool) : Go (Option Err) :=
  if present then checkFenced c else return none

def Request.prog (partDigest : List XTxOpRef → String) : Request → Go (Option Err)
  | .single s => singleWrite s
  | .batch b => legacyBatch b
  | .xtx x => commitXTx partDigest x
  | .envelope x => applyReplicatedTx partDigest x
  | .reap c refs needRotate => reapExpired c refs needRotate
  | .maintain c ruling => unlessErr (checkFenced c) (return ruling)
  | .rotate c => rotateSegment c
  | .syncLoop c => Disk.syncLoop c
  | .persist c => persistIndexes c
  | .fencePending c => Disk.fencePending c
  | .read c => checkFenced c
  | .readInTx c present => getIfPresent c present
  | .commitReads _ => return none
  | .drop c => dropCollection c

structure Report where
  no : Nat
  request : Request
  err : Option Err
deriving DecidableEq, Repr

structure Node where
  world : World
  isOpen : Bool
  reports : List Report

inductive Act where
  | serve (q : Request) (faults : List Answer)
  | create (c : String) (mode : SyncMode)
  | die (q : Request) (faults : List Answer) (stop : Nat) (k : Crash)
  | shutdown (faults : List Answer) (k : Crash)
  | openDB (faults : List Answer)
  | dieOpening (faults : List Answer) (stop : Nat) (k : Crash)

def stopAt {α : Type} (p : Go α) (w : World) (fs : List Answer) (i : Nat) : World :=
  (p.stops disk .ok w fs).getD i (p.run disk .ok w fs).1

def World.next (w : World) : World :=
  { w with req := w.req + 1 }

/-- Requests are served while the database is open, for the collections it has. -/
def Node.serves (n : Node) (q : Request) : Bool :=
  n.isOpen && q.touched.all n.world.live.contains

section

variable (partDigest : List XTxOpRef → String)

def Node.step (n : Node) : Act → Option Node
  | .serve q fs =>
    if n.serves q then
      let out := (q.prog partDigest).run disk .ok n.world fs
      some { n with
        world := out.1.next
        reports := n.reports ++ [⟨n.world.req, q, out.2⟩] }
    else none
  | .create c mode =>
    if n.isOpen then
      some { n with world := ((createCollection c mode).run disk .ok n.world []).1 }
    else none
  | .die q fs i k =>
    if n.serves q then
      some { n with
        world := ((stopAt (q.prog partDigest) n.world fs i).crash k).next
        isOpen := false }
    else none
  | .shutdown fs k =>
    if n.isOpen then
      some { n with
        world := ((closeAll n.world.live).run disk .ok n.world fs).1.crash k
        isOpen := false }
    else none
  | .openDB fs =>
    if n.isOpen then none
    else
      let out := (openDB partDigest).run disk .ok n.world fs
      some { n with world := out.1, isOpen := out.2.isNone }
  | .dieOpening fs i k =>
    if n.isOpen then none
    else some { n with world := (stopAt (openDB partDigest) n.world fs i).crash k }

end

def Node.created (names : List String) (modes : String → SyncMode) : Node :=
  { world :=
      { names, live := names, cols := fun c => .created (modes c)
        journal := { file := .empty, poisoned := false, nextSeq := 1, table := [] }, req := 0
        started := [] }
    isOpen := true
    reports := [] }

end Scriva.Disk
