import Scriva.CompactWrite

namespace Scriva

inductive Severity where
  | info
  | repairableIndex
  | dataCorruption
  | conflict
deriving DecidableEq, Repr

def Severity.rank : Severity → Nat
  | .info => 1
  | .repairableIndex => 2
  | .dataCorruption => 3
  | .conflict => 4

/-- The codes that `reportBadRegion` and `checkHistory` report. -/
inductive FindingCode where
  | segmentBadRegion
  | duplicateIdentical
  | conflictDuplicateID
  | conflictIDReuse
  | conflictWriteAfter
  | conflictRevision
deriving DecidableEq, Repr

structure Location where
  segment : Nat
  offset : Nat
  id : Nat
deriving DecidableEq, Repr

structure Finding where
  severity : Severity
  code : FindingCode
  location : Location
  message : String
deriving DecidableEq, Repr

structure TruthRec where
  seg : Nat := 0
  off : Nat := 0
  rev : Nat := 0
  lastRev : Nat := 0
  exp : Int := 0
  epoch : Nat := 0
  hash : Nat := 0
  live : Bool := false
  deleted : Bool := false

/-- Flags a write whose history cannot be explained by a single writer appending in order. -/
def checkHistory (loc : Location) (prev : TruthRec) (e : Entry) (h : Nat) : List Finding :=
  let id := e.id
  let rev := e.rev
  let lastRev := prev.lastRev
  if prev.deleted ∧ e.op = .insert then
    [⟨.conflict, .conflictIDReuse, loc, s!"id {id} is inserted again after it was deleted"⟩]
  else if prev.deleted then
    [⟨.conflict, .conflictWriteAfter, loc, s!"id {id} is updated after it was deleted"⟩]
  else if e.op = .insert then
    if e.rev = prev.lastRev ∧ h = prev.hash then
      [⟨.info, .duplicateIdentical, loc, s!"id {id} is inserted twice with identical content"⟩]
    else
      [⟨.conflict, .conflictDuplicateID, loc, s!"id {id} is inserted again while live with different content or revision (rev {rev}, previous rev {lastRev})"⟩]
  else if 0 < e.rev ∧ 0 < prev.lastRev ∧ e.rev < prev.lastRev then
    [⟨.conflict, .conflictRevision, loc, s!"id {id} update has revision {rev} after revision {lastRev}"⟩]
  else if 0 < e.rev ∧ e.rev = prev.lastRev then
    if h = prev.hash then
      [⟨.info, .duplicateIdentical, loc, s!"id {id} update repeats revision {rev} with identical content"⟩]
    else
      [⟨.conflict, .conflictRevision, loc, s!"id {id} has two different updates at revision {rev}"⟩]
  else []

structure TruthBuilder where
  truth : Nat → Option TruthRec
  findings : List Finding

/-- One line, stamped or not, whatever became of its transaction. -/
def TruthBuilder.foldLine (hash : Option Data → Nat) (tb : TruthBuilder) (x : Located) :
    TruthBuilder :=
  let e := x.line.entry
  match e.op with
  | .delete => { tb with truth := Function.update tb.truth e.id (some { deleted := true }) }
  | _ =>
    let h := hash e.data
    let prev := tb.truth e.id
    { truth := Function.update tb.truth e.id (some
        { seg := x.seg, off := x.offset, rev := nextRev (prev.elim 0 TruthRec.rev) e,
          lastRev := e.rev, exp := e.expiresAt, epoch := e.epoch, hash := h, live := true })
      findings := tb.findings ++
        prev.elim [] fun r => checkHistory ⟨x.seg, x.offset, e.id⟩ r e h }

def TruthBuilder.fold (hash : Option Data → Nat) (tb : TruthBuilder) (xs : List Located) :
    TruthBuilder :=
  xs.foldl (TruthBuilder.foldLine hash) tb

def TruthBuilder.new : TruthBuilder :=
  { truth := fun _ => none, findings := [] }

def blockingFindings (fs : List Finding) : Bool :=
  fs.any fun f => Severity.dataCorruption.rank ≤ f.severity.rank

/-- The finding on a line that does not decode; its text also gives the length of the line and the
two checksums. -/
def reportBadRegion (x : Located) : Finding :=
  { severity := .dataCorruption, code := .segmentBadRegion
    location := { segment := x.seg, offset := x.offset, id := 0 }
    message := "region is not a valid record (undecodable-json: store: entry checksum mismatch)" }

/-- The findings of a full check of the segments alone: the lines that do not decode, and what the
history of the others shows. -/
def runChecks (hash : Option Data → Nat) (segs : List Segment) : List Finding :=
  ((located segs).filter fun x => !x.line.decodes).map reportBadRegion ++
    (TruthBuilder.new.fold hash ((located segs).filter fun x => x.line.decodes)).findings

def integrityGate (hash : Option Data → Nat) (segs : List Segment) : Bool :=
  !blockingFindings (runChecks hash segs)

/-- What may come behind an entry of its id: a delete, or an update of a higher revision of what is
not deleted. -/
def Entry.Succeeds (e p : Entry) : Prop :=
  e.op = .delete ∨ (p.op ≠ .delete ∧ e.op = .update ∧ p.rev < e.rev)

def Orderly (ls : List LogLine) : Prop :=
  ls.Pairwise fun p l => p.id = l.id → l.entry.Succeeds p.entry

end Scriva
