import Scriva.Wire
import Scriva.Lib.Durable
import Scriva.Lib.Faulty

namespace Scriva.Disk

open Durable Faulty

inductive SyncMode where
  | always
  | interval
  | none
deriving DecidableEq, Repr

structure XTxOpRef where
  id : Nat
  op : Op
  rev : Nat
deriving DecidableEq, Repr

/-- The stamp of a prepared line. A transaction id is the journal's epoch and a number; the epoch
does not change while the journal exists. -/
structure Stamp where
  t : Nat
  i : Nat
  n : Nat
deriving DecidableEq, Repr

/-- A line of a segment, with the request that wrote it and its place among the lines the request
wrote to the collection. -/
structure Row where
  req : Nat
  no : Nat
  ref : XTxOpRef
  stamp : Option Stamp
deriving DecidableEq, Repr

def Row.stampedBy (t : Nat) (l : Row) : Bool :=
  l.stamp.any fun s => s.t == t

structure XTxPart where
  c : String
  n : Nat
  d : String
deriving DecidableEq, Repr

/-- A decision, with the idempotency key of the transaction; a commit with the request it decides. -/
inductive XTxRecord where
  | commit (tx : Nat) (key : String) (req : Nat) (parts : List XTxPart)
  | abort (tx : Nat) (key : String)
deriving DecidableEq, Repr

def XTxRecord.tx : XTxRecord → Nat
  | .commit t _ _ _ => t
  | .abort t _ => t

structure Run where
  c : String
  refs : List XTxOpRef
deriving DecidableEq, Repr

structure Started where
  req : Nat
  t : Nat
  runs : List Run
deriving DecidableEq, Repr

/-- What was done with a collection after an fsync or a rollback of its active segment failed. -/
inductive Deed where
  | appended
  | synced
  | published
deriving DecidableEq, Repr

/-- An open collection. `pending` is the cause of a background fsync failure whose fence is still
to come; `failed` and `deeds` record the history since the collection was opened. -/
structure Col where
  mode : SyncMode
  fenced : Option String
  poisoned : Bool
  pending : Option String
  sealed : List Row
  file : File Row
  index : List Row
  failed : Bool
  deeds : List Deed
deriving DecidableEq, Repr

structure Journal where
  file : File XTxRecord
  poisoned : Bool
  nextSeq : Nat
  table : List XTxRecord
deriving DecidableEq, Repr

/-- The open database: `names` are the collections on disk, `live` the open ones; `req` numbers the
request being served, and `started` lists the transactions of all requests so far. -/
structure World where
  names : List String
  live : List String
  cols : String → Col
  journal : Journal
  req : Nat
  started : List Started

/-- The errors that `errors.Is` is asked about. -/
inductive Sentinel where
  | writeOutcomeUnknown
  | collectionFenced
  | segmentPoisoned
  | postCommit
  | xtxConflict
  | xtxTooLarge
  | xtxDurability
  | xtxOutcomeUnknown
  | xtxInProgress
  | xtxCanceled
  | xtxIncomplete
  | resourceExhausted
  | other
deriving DecidableEq, Repr

abbrev Err := List Sentinel

inductive Call where
  | write (c : String) (l : Row)
  | truncate (c : String) (n : Nat)
  | fsync (c : String)
  | seal (c : String)
  | newSegment (c : String)
  | reopenSegment (c : String)
  | syncDir (c : String)
  | writeMeta (c : String)
  | removeAll (c : String)
  | recoverTruncate (c : String) (n : Nat)
  | recoverSync (c : String)
  | journalWrite (r : XTxRecord)
  | journalTruncate (n : Nat)
  | journalSync
deriving DecidableEq, Repr

/-- `hidden`: the call reports an error although it took effect. A write that leaves less than its
whole line counts as `failed`, because the torn line is trimmed when the file is opened. -/
inductive Answer where
  | ok
  | failed
  | hidden
deriving DecidableEq, Repr

def World.change (w : World) (c : String) (f : Col → Col) : World :=
  { w with cols := Function.update w.cols c (f (w.cols c)) }

def World.changeJournal (w : World) (f : Journal → Journal) : World :=
  { w with journal := f w.journal }

def Col.note (x : Col) (d : Deed) : Col :=
  if x.failed then { x with deeds := x.deeds ++ [d] } else x

def Col.write (x : Col) (l : Row) : Answer → Col
  | .failed => x.note .appended
  | _ => { x.note .appended with file := x.file.append l }

def Col.truncate (x : Col) (n : Nat) : Answer → Col
  | .ok => { x with file := x.file.truncate n }
  | .failed => { x with failed := true }
  | .hidden => { x with file := x.file.truncate n, failed := true }

/-- An fsync that reports an error says nothing about the bytes. -/
def Col.fsync (x : Col) : Answer → Col
  | .ok => { x.note .synced with file := x.file.sync }
  | _ => { x.note .synced with failed := true }

/-- `Seal` syncs and closes; `hidden` is a failed close of the synced file. -/
def Col.seal (x : Col) : Answer → Col
  | .failed => { x.note .synced with failed := true }
  | _ => { x.note .synced with file := x.file.sync }

def Col.newSegment (x : Col) : Answer → Col
  | .ok => { x with sealed := x.sealed ++ x.file.current, file := .empty, poisoned := false }
  | _ => x

def Col.reopenSegment (x : Col) : Answer → Col
  | .ok => { x with poisoned := false }
  | _ => x

def Col.recoverTruncate (x : Col) (n : Nat) : Answer → Col
  | .failed => x
  | _ => { x with file := x.file.truncate n }

def Col.recoverSync (x : Col) : Answer → Col
  | .ok => { x with file := x.file.sync }
  | _ => x

def Journal.write (j : Journal) (r : XTxRecord) : Answer → Journal
  | .failed => j
  | _ => { j with file := j.file.append r }

def Journal.truncate (j : Journal) (n : Nat) : Answer → Journal
  | .failed => j
  | _ => { j with file := j.file.truncate n }

def Journal.sync (j : Journal) : Answer → Journal
  | .ok => { j with file := j.file.sync }
  | _ => j

def Col.created (mode : SyncMode) : Col :=
  { mode, fenced := none, poisoned := false, pending := none, sealed := [], file := .empty,
    index := [], failed := false, deeds := [] }

def Col.renew (x : Col) (mode : SyncMode) : Col :=
  { Col.created mode with deeds := x.deeds }

def World.removeAll (w : World) (c : String) : Answer → World
  | .failed => w
  | _ => { w.change c (fun x => x.renew x.mode) with names := w.names.erase c }

def World.after (w : World) (a : Answer) : Call → World
  | .write c l => w.change c (·.write l a)
  | .truncate c n => w.change c (·.truncate n a)
  | .fsync c => w.change c (·.fsync a)
  | .seal c => w.change c (·.seal a)
  | .newSegment c => w.change c (·.newSegment a)
  | .reopenSegment c => w.change c (·.reopenSegment a)
  | .syncDir _ => w
  | .writeMeta _ => w
  | .removeAll c => w.removeAll c a
  | .recoverTruncate c n => w.change c (·.recoverTruncate n a)
  | .recoverSync c => w.change c (·.recoverSync a)
  | .journalWrite r => w.changeJournal (·.write r a)
  | .journalTruncate n => w.changeJournal (·.truncate n a)
  | .journalSync => w.changeJournal (·.sync a)

def disk : Device World Call Answer (fun _ => Answer) :=
  fun w c a => (w.after a c, a)

abbrev Go (α : Type) := Prog World Call (fun _ => Answer) α

@[simp] theorem World.change_same (w : World) (c : String) (f : Col → Col) :
    (w.change c f).cols c = f (w.cols c) :=
  Function.update_self ..

theorem World.change_other (w : World) {c d : String} (h : d ≠ c) (f : Col → Col) :
    (w.change c f).cols d = w.cols d :=
  Function.update_of_ne h ..

theorem World.change_all {w : World} {c : String} {f : Col → Col} {P : String → Col → Prop}
    (h : ∀ d, P d (w.cols d)) (hc : P c (f (w.cols c))) (d : String) :
    P d ((w.change c f).cols d) := by
  by_cases hd : d = c
  · rw [hd, World.change_same]
    exact hc
  · rw [World.change_other w hd]
    exact h d

theorem World.change_change (w : World) (c : String) (f g : Col → Col) :
    (w.change c f).change c g = w.change c fun x => g (f x) := by
  unfold World.change
  simp

end Scriva.Disk
