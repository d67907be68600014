import Scriva.CompactDir

namespace Scriva

/-- Where a collection's process stands in a compaction pass. `toCompact` are the numbers of the
sealed segments the pass was given. -/
inductive Phase where
  | down
  | idle
  | started (toCompact : List Nat)
  | resolved (toCompact : List Nat) (entries : List LogLine)
  | writing (toCompact : List Nat) (entries : List LogLine)
  | written (toCompact : List Nat) (temps : List TempSegment)
  | leased (toCompact : List Nat) (temps : List TempSegment)
  | intent (toCompact : List Nat) (temps : List TempSegment)
  /-- The manifest is to be cleared; whether a failure to do so marks the swap as failed. -/
  | retiring (marks : Bool)
  | cleaning
  | swapping (toCompact : List Nat) (temps : List TempSegment) (i : Nat)
  | removing (toCompact : List Nat) (temps : List TempSegment) (todo : List Nat)
  | installed
  | persisting
  | persistingSecondary
  | clearing
deriving DecidableEq, Repr

structure CompactState where
  dir : Dir
  sealed : List Nat
  segSeq : Nat
  swapFailed : Bool
  phase : Phase
  now : Int
  written : List LogLine

inductive CompactStep where
  | append (l : LogLine)
  | rotate (ok : Bool)
  | tick (later : Int)
  | start
  | resolve (ok : Bool)
  | discard (ok : Bool) (kept : List TempName)
  | writeSome (files : List TempSegment)
  | writeDone (leftover : List TempSegment)
  | writeFail (files : List TempSegment)
  | lease (ok : Bool)
  | writeManifest (ok placed : Bool)
  | clear (ok gone : Bool)
  | cleanup (kept : List TempName)
  | lock
  | rename (ok : Bool)
  | syncDir (ok : Bool)
  | remove (ok : Bool)
  | install
  | rebuild (ok : Bool)
  | persistIndex (ok : Bool)
  | persistSecondary (ok : Bool)
  | crash
  | rollRename (t : TempName)
  | rollRemove (n : Nat)
  | rollDiscard (kept : List TempName)
  | rollClear
  | reopen
deriving DecidableEq, Repr

def Phase.unlocked : Phase → Bool
  | .down => false
  | .swapping _ _ _ => false
  | .removing _ _ _ => false
  | .installed => false
  | _ => true

def tempFiles (files : List TempSegment) (t : TempName) : Option (List Line) :=
  (files.find? fun f => f.name == t).map TempSegment.lines

/-- The output takes the names of the segments it replaces, in order; the others go. -/
def manifestOf (toCompact : List Nat) (temps : List TempSegment) : Manifest :=
  let renames := (temps.zip toCompact).map fun p => (p.1.name, p.2)
  { renames := renames, removals := toCompact.filter fun n => n ∉ renames.map Prod.snd }

section Step

variable (c : Encoding) (enc : Option Encryptor) (maxSize : Nat) (d : Decisions)

def appendStep (s : CompactState) (l : LogLine) : Option CompactState :=
  if s.phase.unlocked then
    some { s with dir := s.dir.append (c.line l), written := s.written ++ [l] }
  else none

/-- A failed rotation uses up a number and keeps the active segment. -/
def rotateStep (s : CompactState) (ok : Bool) : Option CompactState :=
  if s.phase.unlocked then
    if ok then
      some { s with dir := s.dir.rotate (s.segSeq + 1), sealed := s.sealed ++ [s.dir.top],
                    segSeq := s.segSeq + 1 }
    else some { s with segSeq := s.segSeq + 1 }
  else none

def startStep (s : CompactState) : Option CompactState :=
  match s.phase with
  | .idle => if s.swapFailed || s.sealed.isEmpty then none else some { s with phase := .started s.sealed }
  | _ => none

def resolveStage (s : CompactState) (ok : Bool) : Option CompactState :=
  match s.phase with
  | .started toCompact =>
    match ok, reencryptForMigration enc (resolveCompactEntries (s.dir.read toCompact) d s.now) with
    | true, some entries => some { s with phase := .resolved toCompact entries }
    | _, _ => some { s with phase := .idle }
  | _ => none

def discardStep (s : CompactState) (ok : Bool) (kept : List TempName) : Option CompactState :=
  match s.phase with
  | .resolved toCompact entries =>
    if ok then
      some { s with dir := s.dir.discardCompactTemps [], phase := .writing toCompact entries }
    else some { s with dir := s.dir.discardCompactTemps kept, phase := .idle }
  | _ => none

def writeSomeStep (s : CompactState) (files : List TempSegment) : Option CompactState :=
  match s.phase with
  | .writing _ _ => some { s with dir := { s.dir with temps := tempFiles files } }
  | _ => none

def writeDoneStep (s : CompactState) (leftover : List TempSegment) : Option CompactState :=
  match s.phase with
  | .writing toCompact entries =>
    (writeCompactEntries c maxSize toCompact.length entries).map fun temps =>
      { s with dir := { s.dir with temps := tempFiles (temps ++ leftover) },
               phase := .written toCompact temps }
  | _ => none

def writeFailStep (s : CompactState) (files : List TempSegment) : Option CompactState :=
  match s.phase with
  | .writing _ _ => some { s with dir := { s.dir with temps := tempFiles files }, phase := .cleaning }
  | _ => none

def leaseStep (s : CompactState) (ok : Bool) : Option CompactState :=
  match s.phase with
  | .written toCompact temps =>
    if ok && temps.length ≤ toCompact.length then some { s with phase := .leased toCompact temps }
    else some { s with phase := .cleaning }
  | _ => none

def writeManifestStep (s : CompactState) (ok placed : Bool) : Option CompactState :=
  match s.phase with
  | .leased toCompact temps =>
    let manifest := some (manifestOf toCompact temps)
    if ok then
      some { s with dir := { s.dir with manifest := manifest }, phase := .intent toCompact temps }
    else
      some { s with dir := { s.dir with manifest := if placed then manifest else s.dir.manifest },
                    phase := .retiring false }
  | _ => none

def clearStep (s : CompactState) (ok gone : Bool) : Option CompactState :=
  let cleared := { s.dir with manifest := none }
  match s.phase with
  | .retiring marks =>
    if ok then some { s with dir := cleared, phase := .cleaning }
    else some { s with dir := if gone then cleared else s.dir, swapFailed := s.swapFailed || marks,
                       phase := .idle }
  | .clearing =>
    if ok then some { s with dir := cleared, phase := .idle }
    else some { s with dir := if gone then cleared else s.dir, phase := .idle }
  | _ => none

def cleanupStep (s : CompactState) (kept : List TempName) : Option CompactState :=
  match s.phase with
  | .cleaning => some { s with dir := s.dir.discardCompactTemps kept, phase := .idle }
  | _ => none

def lockStep (s : CompactState) : Option CompactState :=
  match s.phase with
  | .intent toCompact temps => some { s with phase := .swapping toCompact temps 0 }
  | _ => none

def renameStep (s : CompactState) (ok : Bool) : Option CompactState :=
  match s.phase with
  | .swapping toCompact temps i =>
    match temps[i]?, toCompact[i]? with
    | some t, some n =>
      if ok then
        if (s.dir.temps t.name).isSome then
          some { s with dir := s.dir.rename t.name n, phase := .swapping toCompact temps (i + 1) }
        else none
      else if i = 0 then some { s with phase := .retiring true }
      else some { s with swapFailed := true, phase := .idle }
    | _, _ => none
  | _ => none

def syncDirStep (s : CompactState) (ok : Bool) : Option CompactState :=
  match s.phase with
  | .swapping toCompact temps i =>
    if i = temps.length then
      if ok then
        some { s with phase := .removing toCompact temps (manifestOf toCompact temps).removals }
      else some { s with swapFailed := true, phase := .idle }
    else none
  | _ => none

/-- `_ = os.Remove(p)`: a failure goes unnoticed. -/
def removeStep (s : CompactState) (ok : Bool) : Option CompactState :=
  match s.phase with
  | .removing toCompact temps (n :: todo) =>
    some { s with dir := if ok then s.dir.remove n else s.dir,
                  phase := .removing toCompact temps todo }
  | _ => none

def installStep (s : CompactState) : Option CompactState :=
  match s.phase with
  | .removing toCompact temps [] =>
    some { s with sealed := toCompact.take temps.length ++ s.sealed.drop toCompact.length,
                  phase := .installed }
  | _ => none

def rebuildStep (s : CompactState) (ok : Bool) : Option CompactState :=
  match s.phase with
  | .installed =>
    if ok then some { s with phase := .persisting }
    else some { s with swapFailed := true, phase := .idle }
  | _ => none

def persistIndexStep (s : CompactState) (ok : Bool) : Option CompactState :=
  match s.phase with
  | .persisting => some { s with phase := if ok then .persistingSecondary else .idle }
  | _ => none

def persistSecondaryStep (s : CompactState) (ok : Bool) : Option CompactState :=
  match s.phase with
  | .persistingSecondary => some { s with phase := if ok then .clearing else .idle }
  | _ => none

def rollRenameStep (s : CompactState) (t : TempName) : Option CompactState :=
  match s.phase, s.dir.manifest with
  | .down, some m =>
    (m.renames.find? fun r => r.1 == t).map fun r => { s with dir := s.dir.rename r.1 r.2 }
  | _, _ => none

def Manifest.renamesDone (m : Manifest) (dir : Dir) : Bool :=
  m.renames.all fun r => (dir.temps r.1).isNone

def Manifest.isDone (m : Manifest) (dir : Dir) : Bool :=
  m.renamesDone dir && m.removals.all fun n => (dir.segs n).isNone

def rollRemoveStep (s : CompactState) (n : Nat) : Option CompactState :=
  match s.phase, s.dir.manifest with
  | .down, some m =>
    if m.renamesDone s.dir && decide (n ∈ m.removals) then some { s with dir := s.dir.remove n }
    else none
  | _, _ => none

def rollDiscardStep (s : CompactState) (kept : List TempName) : Option CompactState :=
  match s.phase, s.dir.manifest with
  | .down, none => some { s with dir := s.dir.discardCompactTemps kept }
  | .down, some m =>
    if m.isDone s.dir then some { s with dir := s.dir.discardCompactTemps kept } else none
  | _, _ => none

def rollClearStep (s : CompactState) : Option CompactState :=
  match s.phase, s.dir.manifest with
  | .down, some m =>
    if m.isDone s.dir then some { s with dir := { s.dir with manifest := none } } else none
  | _, _ => none

def reopenStep (s : CompactState) : Option CompactState :=
  match s.phase, s.dir.manifest with
  | .down, none =>
    some { s with sealed := numsBelow s.dir.segs s.dir.top, segSeq := s.dir.top,
                  swapFailed := false, phase := .idle }
  | _, _ => none

def compactStep (s : CompactState) : CompactStep → Option CompactState
  | .append l => appendStep c s l
  | .rotate ok => rotateStep s ok
  | .tick later => if s.now ≤ later then some { s with now := later } else none
  | .start => startStep s
  | .resolve ok => resolveStage enc d s ok
  | .discard ok kept => discardStep s ok kept
  | .writeSome files => writeSomeStep s files
  | .writeDone leftover => writeDoneStep c maxSize s leftover
  | .writeFail files => writeFailStep s files
  | .lease ok => leaseStep s ok
  | .writeManifest ok placed => writeManifestStep s ok placed
  | .clear ok gone => clearStep s ok gone
  | .cleanup kept => cleanupStep s kept
  | .lock => lockStep s
  | .rename ok => renameStep s ok
  | .syncDir ok => syncDirStep s ok
  | .remove ok => removeStep s ok
  | .install => installStep s
  | .rebuild ok => rebuildStep s ok
  | .persistIndex ok => persistIndexStep s ok
  | .persistSecondary ok => persistSecondaryStep s ok
  | .crash => some { s with phase := .down }
  | .rollRename t => rollRenameStep s t
  | .rollRemove n => rollRemoveStep s n
  | .rollDiscard kept => rollDiscardStep s kept
  | .rollClear => rollClearStep s
  | .reopen => reopenStep s

end Step

end Scriva
