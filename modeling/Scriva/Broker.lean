import Scriva.Lib.RingBuffer
import Scriva.Wire

namespace Scriva

structure TxEnvelopeOp where
  collection : String
  entry : Entry
deriving DecidableEq, Repr

structure TxEnvelope where
  txId : String
  key : String
  ops : List TxEnvelopeOp
deriving DecidableEq, Repr

/-- What a replication record carries: one committed entry, or a whole transaction. -/
inductive Committed where
  | entry (collection : String) (e : Entry)
  | tx (env : TxEnvelope)
deriving DecidableEq, Repr

instance : Inhabited Committed := ⟨.tx ⟨"", "", []⟩⟩

/-- How many entries the record counts as against ring and subscriber capacity. -/
def Committed.weight : Committed → Nat
  | .entry _ _ => 1
  | .tx env => env.ops.length

structure ReplicationEntry (β : Type) where
  lsn : Nat
  body : β
deriving DecidableEq, Repr, Inhabited

structure ReplSub (β : Type) where
  ch : List (ReplicationEntry β)
  dead : Bool
  queued : Int
deriving DecidableEq, Repr

/-- The sequencer of committed records. `reserved` is what the durable watermark was last asked to
cover. -/
structure ReplicationBroker (β : Type) where
  lsn : Nat
  ring : RingBuffer (ReplicationEntry β)
  weight : Int
  subBuf : Nat
  subs : Nat → Option (ReplSub β)
  subSeq : Nat
  reserved : Nat

def wrap64 (n : Nat) : Nat :=
  n % 2 ^ 64

theorem wrap64_of_lt {n : Nat} (h : n < 2 ^ 64) : wrap64 n = n :=
  Nat.mod_eq_of_lt h

def defaultReplicationRingSize : Nat := 8192

def lsnReserveBlock : Nat := 4096

variable {β : Type} [Inhabited β]

def newReplicationBroker (ringSize subBuf : Nat) : ReplicationBroker β :=
  let size := if ringSize = 0 then defaultReplicationRingSize else ringSize
  have hsize : 0 < size := by
    unfold size
    split
    · decide
    · omega
  { lsn := 0
    ring := RingBuffer.empty size hsize
    weight := 0
    subBuf := if subBuf = 0 then size else subBuf
    subs := fun _ => none
    subSeq := 0
    reserved := 0 }

def ReplSub.kill (s : ReplSub β) : ReplSub β :=
  { s with dead := true }

namespace ReplicationBroker

def oldest (b : ReplicationBroker β) : Nat :=
  if b.ring.size = 0 then wrap64 (b.lsn + 1) else (b.ring.read 0).lsn

/-- Makes the durable watermark cover an LSN. The second part is what `reserveFn` is called with;
whether that write succeeds makes no difference to the broker. -/
def reserveLocked (b : ReplicationBroker β) (lsn : Nat) : ReplicationBroker β × Option Nat :=
  if lsn ≤ b.reserved then (b, none)
  else
    let high := wrap64 (lsn + lsnReserveBlock)
    ({ b with reserved := high }, some high)

section Weighted

variable (weight : β → Nat)

/-- Evicts whole records from the head until one of weight `w` fits; at most `n` of them. -/
def evict (w : Nat) : Nat → ReplicationBroker β → ReplicationBroker β
  | 0, b => b
  | n + 1, b =>
    if 0 < b.ring.size ∧ (b.ring.cap ≤ b.ring.size ∨ b.ring.cap < b.weight + w) then
      evict w n { b with
        weight := b.weight - weight (b.ring.read 0).body
        ring := b.ring.popFront }
    else b

def offer (subBuf : Nat) (re : ReplicationEntry β) (s : ReplSub β) : ReplSub β :=
  if s.dead then s
  else if 0 < s.queued ∧ (subBuf : Int) < s.queued + weight re.body then { s with dead := true }
  else if s.ch.length < subBuf then
    { s with ch := s.ch ++ [re], queued := s.queued + weight re.body }
  else { s with dead := true }

def appendLocked (b : ReplicationBroker β) (body : β) : ReplicationBroker β × Option Nat :=
  let lsn := wrap64 (b.lsn + 1)
  let re : ReplicationEntry β := ⟨lsn, body⟩
  let (b, high) := reserveLocked { b with lsn := lsn } lsn
  let w := weight body
  let b := evict weight w b.ring.size b
  ({ b with
      ring := b.ring.pushBack re
      weight := b.weight + w
      subs := fun id => (b.subs id).map (offer weight b.subBuf re) }, high)

end Weighted

def reserveNext (b : ReplicationBroker β) : ReplicationBroker β × Option Nat :=
  b.reserveLocked (wrap64 (b.lsn + 1))

def resyncBarrier (b : ReplicationBroker β) : ReplicationBroker β × Option Nat :=
  let lsn := wrap64 (b.lsn + 1)
  let (b, high) := reserveLocked { b with lsn := lsn } lsn
  ({ b with
      ring := b.ring.clear
      weight := 0
      subs := fun id => (b.subs id).map ReplSub.kill }, high)

/-- Registers a follower resuming from an LSN and hands it the retained records above it; refused
when a record it needs has left the ring. -/
def subscribe (b : ReplicationBroker β) (fromLSN : Nat) :
    Option (Nat × List (ReplicationEntry β) × ReplicationBroker β) :=
  if wrap64 (fromLSN + 1) < b.oldest then none
  else
    let backlog := b.ring.toList.filter fun re => fromLSN < re.lsn
    let id := b.subSeq + 1
    some (id, backlog, { b with
      subSeq := id
      subs := fun i => if i = id then some ⟨[], false, 0⟩ else b.subs i })

def unsubscribe (b : ReplicationBroker β) (id : Nat) : ReplicationBroker β :=
  { b with subs := fun i => if i = id then none else b.subs i }

def setLSN (b : ReplicationBroker β) (lsn : Nat) : ReplicationBroker β :=
  { b with lsn := max b.lsn lsn }

def receive (b : ReplicationBroker β) (id : Nat) :
    Option (ReplicationEntry β × ReplicationBroker β) :=
  match b.subs id with
  | some ⟨re :: ch, dead, queued⟩ =>
    some (re, { b with subs := fun i => if i = id then some ⟨ch, dead, queued⟩ else b.subs i })
  | _ => none

def consumed (weight : β → Nat) (b : ReplicationBroker β) (id : Nat) (re : ReplicationEntry β) :
    ReplicationBroker β :=
  { b with subs := fun i =>
      (b.subs i).map fun s => if i = id then { s with queued := s.queued - weight re.body } else s }

section Specs

variable (weight : β → Nat)

theorem evict_frame (w n : Nat) (b : ReplicationBroker β) :
    evict weight w n b = { b with
      weight := (evict weight w n b).weight
      ring := (evict weight w n b).ring } := by
  induction n generalizing b with
  | zero => rfl
  | succ n ih =>
    unfold evict
    split
    · exact ih _
    · rfl

theorem evict_cap (w n : Nat) (b : ReplicationBroker β) :
    (evict weight w n b).ring.cap = b.ring.cap := by
  induction n generalizing b with
  | zero => rfl
  | succ n ih =>
    unfold evict
    split
    · rw [ih]
      exact RingBuffer.cap_popFront _
    · rfl

theorem evict_toList (w n : Nat) (b : ReplicationBroker β) :
    ∃ k, (evict weight w n b).ring.toList = b.ring.toList.drop k := by
  induction n generalizing b with
  | zero => exact ⟨0, rfl⟩
  | succ n ih =>
    unfold evict
    split
    · obtain ⟨k, hk⟩ := ih { b with
        weight := b.weight - weight (b.ring.read 0).body
        ring := b.ring.popFront }
      refine ⟨k + 1, ?_⟩
      rw [hk, RingBuffer.toList_popFront, List.drop_tail]
    · exact ⟨0, rfl⟩

/-- Eviction makes room for one more event. -/
theorem evict_room (w : Nat) (b : ReplicationBroker β) :
    (evict weight w b.ring.size b).ring.size < b.ring.cap := by
  generalize hn : b.ring.size = n
  induction n generalizing b with
  | zero =>
    change b.ring.size < b.ring.cap
    rw [hn]
    exact b.ring.cap_pos
  | succ n ih =>
    unfold evict
    split
    next =>
      have hsize : b.ring.popFront.size = n := by
        change b.ring.size - 1 = n
        omega
      have hroom := ih { b with
        weight := b.weight - weight (b.ring.read 0).body
        ring := b.ring.popFront } hsize
      rw [RingBuffer.cap_popFront] at hroom
      exact hroom
    next hfit =>
      by_contra hfull
      exact hfit ⟨by omega, Or.inl (by omega)⟩

theorem appendLocked_ring (b : ReplicationBroker β) (body : β) :
    ∃ k, (appendLocked weight b body).1.ring.toList =
      b.ring.toList.drop k ++ [⟨wrap64 (b.lsn + 1), body⟩] := by
  let b' := (reserveLocked { b with lsn := wrap64 (b.lsn + 1) } (wrap64 (b.lsn + 1))).1
  have hring : b'.ring = b.ring := by
    unfold b' reserveLocked
    split <;> rfl
  obtain ⟨k, hk⟩ := evict_toList weight (weight body) b'.ring.size b'
  have hroom := evict_room weight (weight body) b'
  rw [← evict_cap weight (weight body) b'.ring.size b'] at hroom
  refine ⟨k, ?_⟩
  rw [← hring, ← hk]
  exact RingBuffer.toList_pushBack _ _ hroom

theorem appendLocked_lsn (b : ReplicationBroker β) (body : β) :
    (appendLocked weight b body).1.lsn = wrap64 (b.lsn + 1) := by
  unfold appendLocked
  simp only
  rw [evict_frame]
  unfold reserveLocked
  split <;> rfl

theorem appendLocked_subs (b : ReplicationBroker β) (body : β) (id : Nat) :
    (appendLocked weight b body).1.subs id =
      (b.subs id).map (offer weight b.subBuf ⟨wrap64 (b.lsn + 1), body⟩) := by
  unfold appendLocked
  simp only
  rw [evict_frame]
  unfold reserveLocked
  split <;> rfl

end Specs

end ReplicationBroker

def restoredBroker (ringSize subBuf leaderLSN : Nat) : ReplicationBroker β :=
  { (newReplicationBroker ringSize subBuf).setLSN leaderLSN with reserved := leaderLSN }

end Scriva
