import Scriva.IndexRuns

namespace Scriva

open Crc32c

abbrev Content := List (Nat × Except WireErr LogLine)

def lineBytes (text : List Char) : Nat :=
  (utf8 text).length + 1

def decodeLine (text : List Char) : Except WireErr LogLine :=
  (decodeSegmentLine text).map fun p => ⟨p.1, p.2⟩

/-- `ScanStampedFromOffset` over the texts between the newlines of a file. The text behind the last
newline is a line too, if there is any. -/
def contentFrom : Nat → List (List Char) → Content
  | _, [] => []
  | off, text :: texts =>
    if text.isEmpty then contentFrom (off + 1) texts
    else (off, decodeLine text) :: contentFrom (off + lineBytes text) texts

def readAt (content : Content) (off : Nat) : Option Entry :=
  (content.find? fun p => p.1 == off).bind fun p => p.2.toOption.map LogLine.entry

structure ScanResult where
  id : Nat
  rev : Nat
  data : Option Data
  ts : Rfc3339.Time
deriving DecidableEq

/-- The state a scan reads from: the cutoff for expiry, each segment with its committed end, and
the places of the records. -/
structure ScanView where
  now : Int
  segs : List (Nat × Nat)
  locs : Index

def Collection.captureView (s : Collection) (now : Int) (ids : Option (List Nat)) : ScanView :=
  { now := now
    segs := s.segments.map fun g => (g.num, g.size)
    locs := match ids with
      | none => s.index
      | some ids => fun id => if id ∈ ids then s.index id else none }

inductive ScanErr where
  | decode (err : WireErr)
  | integrity (id found seg offset : Nat)
deriving DecidableEq

section

variable (files : Nat → Content) (view : ScanView) (keep : Data → Bool)

def ScanView.target (loc : IndexEntry) : Option Entry :=
  if loc.seg ∈ view.segs.map Prod.fst then readAt (files loc.seg) loc.offset else none

/-- A line of a full scan: it counts where the index points at it. A line that the index has moved
away from must have its record elsewhere. -/
def ScanView.visit (seg off : Nat) (e : Entry) : Except ScanErr (Option ScanResult) :=
  match view.locs e.id with
  | none => .ok none
  | some loc =>
    if loc.seg ≠ seg ∨ loc.offset ≠ off then
      match view.target files loc with
      | none => .error (.integrity e.id 0 loc.seg loc.offset)
      | some target =>
        if target.id ≠ e.id then .error (.integrity e.id target.id loc.seg loc.offset) else .ok none
    else if e.op = .delete ∨ expired loc.expiresAt view.now = true then .ok none
    else if keep (e.data.getD []) then
      .ok (some { id := e.id, rev := loc.rev, data := e.data, ts := e.ts })
    else .ok none

/-- One segment of a full scan, up to the first line at or behind its captured end. A line is decoded
before its place is looked at. -/
def ScanView.scanSegment (seg stop : Nat) : Content → Except ScanErr (List ScanResult)
  | [] => .ok []
  | (_, .error err) :: _ => .error (.decode err)
  | (off, .ok l) :: rest =>
    if stop ≤ off then .ok []
    else do
      let found ← view.visit files keep seg off l.entry
      let more ← ScanView.scanSegment seg stop rest
      return found.toList ++ more

def ScanView.visitCandidate (id : Nat) : Except ScanErr (Option ScanResult) :=
  match view.locs id with
  | none => .ok none
  | some loc =>
    if expired loc.expiresAt view.now = true then .ok none
    else match view.target files loc with
      | none => .error (.integrity id 0 loc.seg loc.offset)
      | some e =>
        if e.id ≠ id then .error (.integrity id e.id loc.seg loc.offset)
        else if keep (e.data.getD []) then
          .ok (some { id := id, rev := loc.rev, data := e.data, ts := e.ts })
        else .ok none

end

end Scriva
