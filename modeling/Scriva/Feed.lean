import Scriva.Broker
import Scriva.Lib.Runs

namespace Scriva

variable {β : Type}

/-- What one accepted subscription has been handed. `since` counts the records published before it
was accepted. -/
structure Stream (β : Type) where
  fromLSN : Nat
  since : Nat
  got : List (ReplicationEntry β)
deriving DecidableEq, Repr

structure Feed (β : Type) where
  broker : ReplicationBroker β
  history : List (ReplicationEntry β)
  streams : Nat → Option (Stream β)

inductive FeedOp (β : Type) where
  | publish (body : β)
  | reserveNext
  | resyncBarrier
  | subscribe (fromLSN : Nat)
  | receive (id : Nat)
  | consumed (id : Nat) (re : ReplicationEntry β)
  | unsubscribe (id : Nat)
deriving DecidableEq, Repr

namespace Feed

def opened (b : ReplicationBroker β) : Feed β :=
  ⟨b, [], fun _ => none⟩

def pending (f : Feed β) (id : Nat) : List (ReplicationEntry β) :=
  ((f.broker.subs id).map ReplSub.ch).getD []

/-- All that a subscription delivers up to now: the backlog, what was taken from its channel, and
what the channel still holds. -/
def fed (f : Feed β) (id : Nat) (st : Stream β) : List (ReplicationEntry β) :=
  st.got ++ f.pending id

def due (f : Feed β) (fromLSN : Nat) : List (ReplicationEntry β) :=
  f.history.filter fun re => fromLSN < re.lsn

variable [Inhabited β] (weight : β → Nat)

def publish (f : Feed β) (body : β) : Feed β × Option Nat :=
  let (b, high) := f.broker.appendLocked weight body
  ({ f with broker := b, history := f.history ++ [⟨b.lsn, body⟩] }, high)

def reserveNext (f : Feed β) : Feed β × Option Nat :=
  let (b, high) := f.broker.reserveNext
  ({ f with broker := b }, high)

def resyncBarrier (f : Feed β) : Feed β × Option Nat :=
  let (b, high) := f.broker.resyncBarrier
  ({ f with broker := b }, high)

def subscribe (f : Feed β) (fromLSN : Nat) : Option (Feed β) :=
  (f.broker.subscribe fromLSN).map fun (id, backlog, b) =>
    { f with
      broker := b
      streams := fun i =>
        if i = id then some ⟨fromLSN, f.history.length, backlog⟩ else f.streams i }

def receive (f : Feed β) (id : Nat) : Option (Feed β) :=
  (f.broker.receive id).map fun (re, b) =>
    { f with
      broker := b
      streams := fun i =>
        (f.streams i).map fun st => if i = id then { st with got := st.got ++ [re] } else st }

def setLSN (f : Feed β) (lsn : Nat) : Feed β :=
  { f with broker := f.broker.setLSN lsn }

/-- One operation, with what it asks the durable watermark to cover. -/
def act (f : Feed β) : FeedOp β → Option (Feed β × Option Nat)
  | .publish body => some (f.publish weight body)
  | .reserveNext => some f.reserveNext
  | .resyncBarrier => some f.resyncBarrier
  | .subscribe fromLSN => (f.subscribe fromLSN).map fun f => (f, none)
  | .receive id => (f.receive id).map fun f => (f, none)
  | .consumed id re => some ({ f with broker := f.broker.consumed weight id re }, none)
  | .unsubscribe id => some ({ f with broker := f.broker.unsubscribe id }, none)

def step (f : Feed β) (op : FeedOp β) : Option (Feed β) :=
  (f.act weight op).map Prod.fst

end Feed

end Scriva
