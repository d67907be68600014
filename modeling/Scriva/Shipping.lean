import Scriva.LsnRuns

namespace Scriva

structure Write where
  serial : Nat
  body : Committed
deriving DecidableEq, Repr, Inhabited

def Write.weight (w : Write) : Nat :=
  w.body.weight

/-- One follower: what it has applied, the subscription it reads with the number of records sent
on it, what has been sent to it and not been applied, and the resume point of a bootstrap under
way. -/
structure Follower where
  appliedLSN : Nat
  held : List Nat
  stream : Option (Nat × Nat)
  inbox : List (ReplicationEntry Write)
  watermark : Option Nat
deriving DecidableEq, Repr

/-- A leader over its lifetime and one of its followers. `base` is the LSN the running process has
started from. -/
structure Shipping where
  life : Lifetime Write
  base : Nat
  durable : List Write
  /-- Transactions that have reserved the next LSN and not yet written their COMMIT. -/
  prepared : List TxEnvelope
  inflight : List Write
  follower : Follower

def Follower.apply (fo : Follower) : Option Follower :=
  match fo.inbox with
  | [] => none
  | re :: inbox =>
    if re.lsn ≤ fo.appliedLSN then some { fo with inbox := inbox }
    else some { fo with
      inbox := inbox
      appliedLSN := re.lsn
      held := fo.held ++ [re.body.serial] }

inductive ShipOp where
  | append (collection : String) (e : Entry)
  | begin (env : TxEnvelope) (ok : Bool)
  | commit (i : Nat)
  | publish (i : Nat) (ok : Bool)
  | feed (op : FeedOp Write) (ok : Bool)
  | crash
  | close (ok : Bool)
  | start (ringSize : Nat)
  | connect
  | send
  | apply
  | readWatermark
  | snapshot
deriving DecidableEq, Repr

namespace Shipping

def feed (s : Shipping) : Option (Feed Write) :=
  s.life.node.bind ReplNode.feed

def land (s : Shipping) (body : Committed) : Shipping :=
  let w : Write := ⟨s.durable.length, body⟩
  { s with durable := s.durable ++ [w], inflight := s.inflight ++ [w] }

def stop (s : Shipping) (life : Lifetime Write) : Shipping :=
  { s with
    life := life
    prepared := []
    inflight := []
    follower := { s.follower with stream := none } }

def broker (s : Shipping) (op : FeedOp Write) (ok : Bool) : Option Shipping :=
  (s.life.step Write.weight (.feed op ok)).map fun life => { s with life := life }

def connect (s : Shipping) : Option Shipping :=
  s.feed.bind fun f => (s.broker (.subscribe s.follower.appliedLSN) true).map fun s =>
    { s with follower := { s.follower with stream := some (f.broker.subSeq + 1, 0), inbox := [] } }

def send (s : Shipping) : Option Shipping :=
  s.feed.bind fun f => s.follower.stream.bind fun (id, sent) => (f.streams id).bind fun st =>
    st.got[sent]?.map fun re => { s with follower := { s.follower with
      stream := some (id, sent + 1)
      inbox := s.follower.inbox ++ [re] } }

/-- The follower starts over from a copy of the leader, resuming at an LSN read before it. -/
def snapshot (s : Shipping) : Option Shipping :=
  s.feed.bind fun _ => s.follower.watermark.map fun lsn => { s with follower := {
    appliedLSN := lsn
    held := (s.durable.filter fun w => w ∉ s.inflight).map Write.serial
    stream := none
    inbox := []
    watermark := none } }

def step (s : Shipping) : ShipOp → Option Shipping
  | .append collection e => s.feed.map fun _ => s.land (.entry collection e)
  | .begin env ok => (s.broker .reserveNext ok).map fun s =>
    { s with prepared := s.prepared ++ [env] }
  | .commit i => s.prepared[i]?.map fun env =>
    { s.land (.tx env) with prepared := s.prepared.eraseIdx i }
  | .publish i ok => s.inflight[i]?.bind fun w => (s.broker (.publish w) ok).map fun s =>
    { s with inflight := s.inflight.eraseIdx i }
  | .feed (.publish _) _ => none
  | .feed op ok => s.broker op ok
  | .crash => (s.life.step Write.weight .crash).map s.stop
  | .close ok => (s.life.step Write.weight (.close ok)).map s.stop
  | .start ringSize =>
    if ringSize = 0 then none
    else (s.life.step Write.weight (.start ringSize false 0 true)).map fun life =>
      { s with life := life, base := s.life.file.leaderLSN }
  | .connect => s.connect
  | .send => s.send
  | .apply => s.follower.apply.map fun fo => { s with follower := fo }
  | .readWatermark => s.feed.map fun f =>
    { s with follower := { s.follower with watermark := some f.broker.lsn } }
  | .snapshot => s.snapshot

end Shipping

end Scriva
