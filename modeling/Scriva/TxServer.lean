import Scriva.Writes
import Scriva.Lib.Runs

namespace Scriva.Handles

/-- `callerID`: the credential of a request, and the empty string without authentication. -/
abbrev Caller := String

/-- The 128 random bits of `newTxID`. -/
abbrev HandleID := Nat

structure HandleOwners where
  owner : List (HandleID × Caller)
  sweepAt : Nat

def handleOwnersMinSweep : Nat := 1024

def newHandleOwners : HandleOwners :=
  { owner := [], sweepAt := handleOwnersMinSweep }

/-- A handle with no recorded owner belongs to the unauthenticated identity. -/
def HandleOwners.ownerOf (h : HandleOwners) (id : HandleID) : Caller :=
  (h.owner.lookup id).getD ""

def HandleOwners.forget (h : HandleOwners) (id : HandleID) : HandleOwners :=
  { h with owner := h.owner.filter fun p => p.1 != id }

def HandleOwners.sweep (h : HandleOwners) (alive : HandleID → Bool) : HandleOwners :=
  let kept := h.owner.filter fun p => alive p.1
  { owner := kept, sweepAt := max (2 * kept.length) handleOwnersMinSweep }

def HandleOwners.record (h : HandleOwners) (id : HandleID) (owner : Caller) : HandleOwners :=
  { h with owner := (id, owner) :: (h.forget id).owner }

def HandleOwners.bind (h : HandleOwners) (id : HandleID) (owner : Caller)
    (alive : HandleID → Bool) : HandleOwners :=
  let h := h.record id owner
  if h.owner.length < h.sweepAt then h else h.sweep alive

def HandleOwners.check (h : HandleOwners) (caller : Caller) (id : HandleID) : Bool :=
  h.ownerOf id == caller

structure Tx where
  collection : String
  ops : List TxOp
  lastUsed : Int

/-- A staged operation is appended to the buffer, and counts as activity. -/
def Tx.stage (tx : Tx) (op : TxOp) (now : Int) : Tx :=
  { tx with ops := tx.ops ++ [op], lastUsed := now }

inductive XTxState where
  | active
  | committing
  | finished
  deriving DecidableEq

structure XTx where
  state : XTxState
  idle : Int
  maxLife : Int
  createdAt : Int
  lastUsed : Int
  finishedAt : Int

def XTx.expiredAt (x : XTx) (now : Int) : Bool :=
  (0 < x.idle && x.idle < now - x.lastUsed) || (0 < x.maxLife && x.maxLife < now - x.createdAt)

def XTx.finish (x : XTx) (now : Int) : XTx :=
  { x with state := .finished, finishedAt := now }

def XTx.expire (x : XTx) (now : Int) : XTx :=
  if x.state = .active ∧ x.expiredAt now then x.finish now else x

def XTx.touch (x : XTx) (now : Int) : XTx :=
  { x with lastUsed := now }

def defaultXTxIdleTimeout : Int := 60000000000

def XTx.retain (x : XTx) : Int :=
  if x.idle ≤ 0 then defaultXTxIdleTimeout else x.idle

def XTx.reap (x : XTx) (now : Int) : XTx :=
  if x.state = .committing then x else x.expire now

def XTx.forgotten (x : XTx) (now : Int) : Bool :=
  x.state == .finished && decide (x.retain < now - x.finishedAt)

inductive Code where
  | invalidArgument
  | notFound
  | permissionDenied
  | failed
  deriving DecidableEq

inductive Kind where
  | single
  | cross
  deriving DecidableEq

/-- What an RPC asks of a single-collection handle: a write staged in it, or its end. -/
inductive Job where
  | stage (collection : String) (op : TxOp)
  | commit
  | rollback

inductive Use where
  | access
  | commit
  | rollback
  deriving DecidableEq

inductive Reply where
  | began (id : HandleID)
  | done
  | refused (code : Code)

/-- How far an RPC has come. A `Remove` that ends a handle leaves a commit with the operations it
read before. -/
inductive Phase where
  | beginning (kind : Kind) (id : HandleID)
  | found (job : Job) (id : HandleID)
  | owned (job : Job) (id : HandleID)
  | resolved (id : HandleID)
  | snapped (id : HandleID) (ops : List TxOp)
  | removed (id : HandleID) (ops : Option (List TxOp))
  | forgotten (id : HandleID) (ops : Option (List TxOp))
  | xfound (use : Use) (id : HandleID)
  | xowned (use : Use) (id : HandleID)
  | xcommitting (id : HandleID)
  | replied (reply : Reply)

structure Rpc where
  caller : Caller
  phase : Phase

/-- What the history of the server remembers, by the number of the RPC where there is one. -/
inductive Event where
  | staged (id : HandleID) (op : TxOp)
  | began (n : Nat) (id : HandleID)
  | passed (n : Nat) (id : HandleID) (ops : List TxOp)
  | rolledBack (id : HandleID)

/-- The server: the manager's map and the registry by their ids, the handles themselves, which an
RPC may hold after they left the map, and the table of owners. -/
structure Server where
  txs : List HandleID
  tx : HandleID → Tx
  xtxs : List HandleID
  xtx : HandleID → XTx
  owners : HandleOwners
  issued : List HandleID
  rpcs : List Rpc
  log : List Event

def Server.start : Server :=
  { txs := [], tx := fun _ => ⟨"", [], 0⟩, xtxs := [], xtx := fun _ => ⟨.finished, 0, 0, 0, 0, 0⟩,
    owners := newHandleOwners, issued := [], rpcs := [], log := [] }

def Server.arrive (s : Server) (caller : Caller) (phase : Phase) : Server :=
  { s with rpcs := s.rpcs ++ [⟨caller, phase⟩] }

def Server.move (s : Server) (n : Nat) (caller : Caller) (phase : Phase) : Server :=
  { s with rpcs := s.rpcs.set n ⟨caller, phase⟩ }

def Server.note (s : Server) (e : Event) : Server :=
  { s with log := s.log ++ [e] }

def Server.begin (s : Server) (id : HandleID) (collection : String) (now : Int) : Server :=
  { s with txs := id :: s.txs, tx := Function.update s.tx id ⟨collection, [], now⟩,
           issued := id :: s.issued }

def Server.beginXTx (s : Server) (id : HandleID) (idle maxLife now : Int) : Server :=
  { s with xtxs := id :: s.xtxs,
           xtx := Function.update s.xtx id ⟨.active, idle, maxLife, now, now, now⟩,
           issued := id :: s.issued }

def Server.remove (s : Server) (id : HandleID) : Server :=
  { s with txs := s.txs.filter (· != id) }

def Server.forget (s : Server) (id : HandleID) : Server :=
  { s with owners := s.owners.forget id }

/-- A sweep asks the registry of the handle that is being bound. -/
def Server.alive (s : Server) : Kind → HandleID → Bool
  | .single => fun id => s.txs.contains id
  | .cross => fun id => s.xtxs.contains id

def Server.bind (s : Server) (kind : Kind) (id : HandleID) (caller : Caller) : Server :=
  { s with owners := s.owners.bind id caller (s.alive kind) }

def Server.setTx (s : Server) (id : HandleID) (tx : Tx) : Server :=
  { s with tx := Function.update s.tx id tx }

def Server.setXTx (s : Server) (id : HandleID) (x : XTx) : Server :=
  { s with xtx := Function.update s.xtx id x }

def Server.reapExpired (s : Server) (ttl now : Int) : Server :=
  { s with txs := s.txs.filter fun id => !((s.tx id).lastUsed < now - ttl) }

/-- Handles forgotten are those that had finished before this pass. -/
def Server.reapXTx (s : Server) (now : Int) : Server :=
  { s with xtxs := s.xtxs.filter fun id => !(s.xtx id).forgotten now,
           xtx := fun id => if s.xtxs.contains id then (s.xtx id).reap now else s.xtx id }

/-- What an RPC does next. `ok` is the answer of what it calls: that the collection is open, that
the commit went through, or that it was not cancelled. -/
def Server.advance (s : Server) (n : Nat) (caller : Caller) (now : Int) (ok : Bool) :
    Phase → Option Server
  | .beginning kind id => some ((s.bind kind id caller).move n caller (.replied (.began id)))
  | .found job id =>
    if s.owners.check caller id then some (s.move n caller (.owned job id))
    else some (s.move n caller (.replied (.refused .permissionDenied)))
  | .owned (.stage collection op) id =>
    if (s.tx id).collection = collection then
      some (((s.setTx id ((s.tx id).stage op now)).note (.staged id op)).move n caller (.replied .done))
    else some (s.move n caller (.replied (.refused .invalidArgument)))
  | .owned .commit id =>
    if ok then some (s.move n caller (.resolved id))
    else some (s.move n caller (.replied (.refused .notFound)))
  | .owned .rollback id => some ((s.remove id).move n caller (.removed id none))
  | .resolved id => some (s.move n caller (.snapped id (s.tx id).ops))
  | .snapped id ops => some ((s.remove id).move n caller (.removed id (some ops)))
  | .removed id ops => some ((s.forget id).move n caller (.forgotten id ops))
  | .forgotten id (some ops) =>
    some ((s.note (.passed n id ops)).move n caller
      (.replied (if ok then .done else .refused .failed)))
  | .forgotten id none => some ((s.note (.rolledBack id)).move n caller (.replied .done))
  | .xfound use id =>
    if s.owners.check caller id then some (s.move n caller (.xowned use id))
    else some (s.move n caller (.replied (.refused .permissionDenied)))
  | .xowned use id =>
    let x := (s.xtx id).expire now
    if x.state = .active then
      match use with
      | .access => some ((s.setXTx id (x.touch now)).move n caller (.replied .done))
      | .commit => some ((s.setXTx id { x with state := .committing }).move n caller (.xcommitting id))
      | .rollback => some ((s.setXTx id (x.finish now)).move n caller (.replied .done))
    else some ((s.setXTx id x).move n caller (.replied (.refused .failed)))
  | .xcommitting id =>
    let x := s.xtx id
    some ((s.setXTx id (if ok then x.finish now else { x with state := .active, lastUsed := now })).move
      n caller (.replied .done))
  | .replied _ => none

inductive Act where
  | beginTx (caller : Caller) (id : HandleID) (collection : String) (now : Int)
  | beginXTx (caller : Caller) (id : HandleID) (idle maxLife now : Int)
  | call (caller : Caller) (id : HandleID) (job : Job)
  | callX (caller : Caller) (id : HandleID) (use : Use)
  | advance (n : Nat) (now : Int) (ok : Bool)
  | reapTxs (now : Int)
  | reapXTxs (now : Int)

def Job.begins (n : Nat) (id : HandleID) : Job → List Event
  | .commit => [.began n id]
  | _ => []

def Server.step (ttl : Int) (s : Server) : Act → Option Server
  | .beginTx caller id collection now =>
    if id ∈ s.issued then none
    else some ((s.begin id collection now).arrive caller (.beginning .single id))
  | .beginXTx caller id idle maxLife now =>
    if id ∈ s.issued then none
    else some ((s.beginXTx id idle maxLife now).arrive caller (.beginning .cross id))
  | .call caller id job =>
    if id ∈ s.txs then
      some ({ s with log := s.log ++ job.begins s.rpcs.length id }.arrive caller (.found job id))
    else some (s.arrive caller (.replied (.refused .notFound)))
  | .callX caller id use =>
    if id ∈ s.xtxs then some (s.arrive caller (.xfound use id))
    else some (s.arrive caller (.replied (.refused .notFound)))
  | .advance n now ok => s.rpcs[n]?.bind fun rpc => s.advance n rpc.caller now ok rpc.phase
  | .reapTxs now => if 0 < ttl then some (s.reapExpired ttl now) else none
  | .reapXTxs now => some (s.reapXTx now)

end Scriva.Handles
