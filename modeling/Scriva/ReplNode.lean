import Scriva.FeedInvariant

namespace Scriva

variable {β : Type}

structure ReplState where
  leaderLSN : Nat
  appliedLSN : Nat
deriving DecidableEq, Repr

inductive Role where
  | leader
  | follower
deriving DecidableEq, Repr

/-- A call of `persistReplState` under way: it reads the broker's counter, then the applied LSN,
each under its own lock, and writes the file under neither. -/
inductive Persist where
  | started
  | read (leaderLSN : Nat)
  | noted (st : ReplState)
deriving DecidableEq, Repr

inductive PromotePhase where
  | admitted
  | flipped
  | seeded (p : Persist)
deriving DecidableEq, Repr

structure Promotion where
  applied : Nat
  phase : PromotePhase
deriving DecidableEq, Repr

structure ReplNode (β : Type) where
  feed : Option (Feed β)
  appliedLSN : Nat
  lastLeaderLSN : Nat
  role : Role
  promotion : Option Promotion
  persists : List Persist

/-- A record handed out, beside the applied LSN that promotions had taken over by then. -/
structure Issue (β : Type) where
  record : ReplicationEntry β
  floor : Nat
deriving DecidableEq, Repr

structure Lifetime (β : Type) where
  file : ReplState
  node : Option (ReplNode β)
  issued : List (Issue β)
  takenOver : Nat

/-- A step of the node. `ok` tells whether the watermark write of the step, if there is one,
succeeds. -/
inductive LifeOp (β : Type) where
  | feed (op : FeedOp β) (ok : Bool)
  | noteLeaderLSN (lsn : Nat)
  | setAppliedLSN (lsn : Nat)
  | persistRead (i : Nat)
  | persistWrite (i : Nat) (ok : Bool)
  | promote (maxLag : Nat) (force : Bool)
  | promoteNext
  | promoteWrite (ok : Bool)
  | close (ok : Bool)
  | crash
  | start (ringSize : Nat) (follower : Bool) (bound : Nat) (ok : Bool)
deriving DecidableEq, Repr

namespace ReplNode

def currentLSN (n : ReplNode β) : Nat :=
  (n.feed.map fun f => f.broker.lsn).getD 0

def lag (n : ReplNode β) : Nat :=
  if n.appliedLSN < n.lastLeaderLSN then n.lastLeaderLSN - n.appliedLSN else 0

def next (n : ReplNode β) : Persist → Option Persist
  | .started => some (.read n.currentLSN)
  | .read lsn => some (.noted ⟨lsn, n.appliedLSN⟩)
  | .noted _ => none

def setAppliedLSN (n : ReplNode β) (lsn : Nat) : ReplNode β :=
  if lsn ≤ n.appliedLSN then n
  else { n with appliedLSN := lsn, persists := n.persists ++ [.started] }

def promote (n : ReplNode β) (maxLag : Nat) (force : Bool) : Option (ReplNode β) :=
  if n.role = .follower ∧ n.promotion = none ∧ (force = true ∨ n.lag ≤ maxLag) then
    some { n with promotion := some ⟨n.appliedLSN, .admitted⟩ }
  else none

/-- The role is flipped first, then the counter is raised, then the watermark is written. -/
def promoteNext (n : ReplNode β) : Option (ReplNode β) :=
  match n.promotion with
  | some ⟨applied, .admitted⟩ =>
    some { n with role := .leader, promotion := some ⟨applied, .flipped⟩ }
  | some ⟨applied, .flipped⟩ =>
    some { n with
      feed := n.feed.map fun f => f.setLSN applied
      promotion := some ⟨applied, .seeded .started⟩ }
  | some ⟨applied, .seeded p⟩ =>
    (n.next p).map fun p => { n with promotion := some ⟨applied, .seeded p⟩ }
  | none => none

end ReplNode

namespace Lifetime

def persist (s : Lifetime β) (st : ReplState) (ok : Bool) : Lifetime β :=
  { s with file := if ok then st else s.file }

/-- The applied LSN taken over so far, a promotion under way included. -/
def floor (s : Lifetime β) (n : ReplNode β) : Nat :=
  max s.takenOver ((n.promotion.map Promotion.applied).getD 0)

variable [Inhabited β] (weight : β → Nat)

/-- An operation of the broker; a block it reserves is written to the file before it returns. -/
def feedStep (s : Lifetime β) (n : ReplNode β) (op : FeedOp β) (ok : Bool) : Option (Lifetime β) :=
  n.feed.bind fun f => (f.act weight op).map fun (f', high) =>
    let s := { s with
      node := some { n with feed := some f' }
      issued := s.issued ++ (f'.history.drop f.history.length).map fun re => ⟨re, s.floor n⟩ }
    match high with
    | some high => s.persist ⟨high, n.appliedLSN⟩ ok
    | none => s

def persistWrite (s : Lifetime β) (n : ReplNode β) (i : Nat) (ok : Bool) : Option (Lifetime β) :=
  match n.persists[i]? with
  | some (.noted st) =>
    some (persist { s with node := some { n with persists := n.persists.eraseIdx i } } st ok)
  | _ => none

def promoteWrite (s : Lifetime β) (n : ReplNode β) (ok : Bool) : Option (Lifetime β) :=
  match n.promotion with
  | some ⟨applied, .seeded (.noted st)⟩ =>
    some (persist { s with
      node := some { n with promotion := none }
      takenOver := max s.takenOver applied } st ok)
  | _ => none

def close (s : Lifetime β) (n : ReplNode β) (ok : Bool) : Lifetime β :=
  let s := { s with node := none }
  if n.feed.isSome ∨ 0 < n.appliedLSN then s.persist ⟨n.currentLSN, n.appliedLSN⟩ ok else s

/-- Opening the database. `bound` is the highest LSN bound to a COMMIT record of the journal. -/
def start (s : Lifetime β) (ringSize : Nat) (follower : Bool) (bound : Nat) (ok : Bool) :
    Lifetime β :=
  let n : ReplNode β := {
    feed := if ringSize = 0 then none
      else some (Feed.opened (restoredBroker ringSize 0 s.file.leaderLSN))
    appliedLSN := max s.file.appliedLSN bound
    lastLeaderLSN := 0
    role := if follower then .follower else .leader
    promotion := none
    persists := [] }
  let s' := { s with node := some n }
  if s.file.appliedLSN < bound then s'.persist ⟨n.currentLSN, bound⟩ ok else s'

def step (s : Lifetime β) : LifeOp β → Option (Lifetime β)
  | .feed op ok => s.node.bind fun n => s.feedStep weight n op ok
  | .noteLeaderLSN lsn => s.node.map fun n =>
    { s with node := some { n with lastLeaderLSN := max n.lastLeaderLSN lsn } }
  | .setAppliedLSN lsn => s.node.map fun n => { s with node := some (n.setAppliedLSN lsn) }
  | .persistRead i => s.node.bind fun n => n.persists[i]?.bind fun p => (n.next p).map fun p =>
    { s with node := some { n with persists := n.persists.set i p } }
  | .persistWrite i ok => s.node.bind fun n => s.persistWrite n i ok
  | .promote maxLag force => s.node.bind fun n => (n.promote maxLag force).map fun n =>
    { s with node := some n }
  | .promoteNext => s.node.bind fun n => n.promoteNext.map fun n => { s with node := some n }
  | .promoteWrite ok => s.node.bind fun n => s.promoteWrite n ok
  | .close ok => s.node.map fun n => s.close n ok
  | .crash => s.node.map fun _ => { s with node := none }
  | .start ringSize follower bound ok =>
    if s.node.isNone then some (s.start ringSize follower bound ok) else none

end Lifetime

end Scriva
