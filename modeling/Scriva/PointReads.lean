import Scriva.ScanPlaces
import Scriva.Reads

namespace Scriva.PointReads

inductive Fault where
  | notFound
  | segmentNotFound
  | unreadable
  | wrongRecord
  | encryption
deriving DecidableEq

/-- `readLocated` up to the opening of the file: what the lookup found and the clock says. -/
def beforeRead (loc : Option IndexEntry) (there : Bool) (now : Int) : Except Fault IndexEntry :=
  match loc with
  | none => .error .notFound
  | some loc =>
    if expired loc.expiresAt now then .error .notFound
    else if there then .ok loc
    else .error .segmentNotFound

/-- The rest of `readLocated`, on the files as they are when one is opened. -/
def readFile (files : List Segment) (id : Nat) (loc : IndexEntry) :
    Except Fault (Entry × IndexEntry) :=
  match readEntry files loc with
  | none => .error .unreadable
  | some e => if e.id = id then .ok (e, loc) else .error .wrongRecord

def segmentByPath (s : Collection) (loc : Option IndexEntry) : Bool :=
  loc.elim false fun loc => (findSegment s.segments loc.seg).isSome

def readLocked (s : Collection) (id : Nat) (now : Int) : Except Fault (Entry × IndexEntry) :=
  let loc := s.index id
  (beforeRead loc (segmentByPath s loc) now).bind (readFile s.segments id)

def finish (cfg : Config) (id : Nat) : Except Fault (Entry × IndexEntry) → Except Fault RecordView
  | .error fault => .error fault
  | .ok (e, loc) =>
    match cfg.enc.elim (some e.data) fun k => k.materialize e.data with
    | none => .error .encryption
    | some data => .ok { id := id, key := keyOf data, rev := loc.rev, ts := e.ts, data := data }

def optimisticReads : Nat := 3

/-- Where a `Get` stands: before a lookup, behind it, with the clock read, with an outcome that it
has still to check, and returned. -/
inductive Phase where
  | started
  | located (gen : Nat) (loc : Option IndexEntry) (there : Bool)
  | timed (gen : Nat) (loc : IndexEntry)
  | checking (gen : Nat) (outcome : Except Fault (Entry × IndexEntry))
  | done (answer : Except Fault RecordView) (returned : Nat)

/-- A `Get`; `called` is the instant of its call. -/
structure Getting where
  id : Nat
  attempt : Nat
  called : Nat
  phase : Phase

inductive FileAct where
  | rename (g : Segment)
  | remove (num : Nat)

def FileAct.apply (files : List Segment) : FileAct → List Segment
  | .rename g => files.map fun f => if f.num = g.num then g else f
  | .remove num => files.filter fun f => f.num ≠ num

/-- A swap that holds the lock: the pass it belongs to, the files as they are and what is still
to be done to them. -/
structure Swap where
  k : Nat
  since : Int
  files : List Segment
  todo : List FileAct

/-- The collection, the generation of its layout, a swap in progress, and the reads. `past` are the
states before this one, one for each instant. -/
structure Served where
  col : Collection
  gen : Nat
  swap : Option Swap
  gets : List Getting
  past : List Collection

def Served.opened (col : Collection) : Served :=
  { col := col, gen := 0, swap := none, gets := [], past := [] }

def Served.instant (s : Served) (k : Nat) : Option Collection :=
  (s.past ++ [s.col])[k]?

def Served.onDisk (s : Served) : List Segment :=
  s.swap.elim s.col.segments Swap.files

/-- The renames of a pass and the removals of the names it does not use again. -/
def swapActs (old new : List Segment) : List FileAct :=
  new.map .rename ++
    ((old.map Segment.num).filter fun num => num ∉ new.map Segment.num).map .remove

def lockFree : CollectionOp → Bool
  | .tick _ | .reserveID => true
  | _ => false

inductive Act where
  | op (o : CollectionOp)
  | rotate
  | beginSwap (k : Nat) (since : Int)
  | file
  | endSwap
  | call (id : Nat)
  | locate (i : Nat)
  | clock (i : Nat) (now : Int)
  | read (i : Nat)
  | check (i : Nat)
  | locked (i : Nat) (now : Int)

def Served.next (s : Served) (col : Collection) (gets : List Getting) : Served :=
  { s with col := col, gets := gets, past := s.past ++ [s.col] }

def Served.advance (s : Served) (i : Nat) (now : Int) (f : Getting → Option Getting) :
    Option Served := do
  let g ← s.gets[i]?
  let g' ← f g
  if s.col.now ≤ now then
    return s.next { s.col with now := now } (s.gets.set i g')
  else none

/-- The lookup, the opening of the file and the comparison of generations are steps of their own.
A lookup waits for the lock; after three overlaps everything is done under it. -/
def Served.step (cfg : Config) (s : Served) : Act → Option Served
  | .op o =>
    if (s.swap.isNone || lockFree o) && !o.relays then
      (s.col.step cfg o).map fun col => s.next col s.gets
    else none
  | .rotate => if s.swap.isNone then some (s.next s.col.rotateSegment s.gets) else none
  | .beginSwap k since =>
    if s.swap.isNone ∧ since ≤ s.col.now then
      (compactSegments cfg.encoding cfg.enc cfg.segmentMaxSize (s.col.sealed.take k) s.col.decisions
        since).map fun segs =>
        { s.next s.col s.gets with
          gen := s.gen + 1
          swap := some { k := k, since := since, files := s.col.segments
                         todo := swapActs (s.col.sealed.take k) segs } }
    else none
  | .file => do
    let sw ← s.swap
    match sw.todo with
    | [] => none
    | a :: todo =>
      return { s.next s.col s.gets with
               swap := some { sw with files := a.apply sw.files, todo := todo } }
  | .endSwap => do
    let sw ← s.swap
    if sw.todo.isEmpty then
      (s.col.compact cfg sw.k sw.since).map fun t => { s.next t s.gets with swap := none }
    else none
  | .call id =>
    some (s.next s.col (s.gets ++
      [{ id := id, attempt := 0, called := s.past.length, phase := .started }]))
  | .locate i =>
    s.advance i s.col.now fun g =>
      match g.phase with
      | .started =>
        if g.attempt < optimisticReads ∧ s.swap = none then
          let loc := s.col.index g.id
          some { g with phase := .located s.gen loc (segmentByPath s.col loc) }
        else none
      | _ => none
  | .clock i now =>
    s.advance i now fun g =>
      match g.phase with
      | .located gen loc there =>
        some { g with phase := match beforeRead loc there now with
          | .ok loc => .timed gen loc
          | .error fault => .checking gen (.error fault) }
      | _ => none
  | .read i =>
    s.advance i s.col.now fun g =>
      match g.phase with
      | .timed gen loc => some { g with phase := .checking gen (readFile s.onDisk g.id loc) }
      | _ => none
  | .check i =>
    s.advance i s.col.now fun g =>
      match g.phase with
      | .checking gen outcome =>
        if s.gen = gen then
          some { g with phase := .done (finish cfg g.id outcome) s.past.length }
        else some { g with attempt := g.attempt + 1, phase := .started }
      | _ => none
  | .locked i now =>
    s.advance i now fun g =>
      match g.phase with
      | .started =>
        if optimisticReads ≤ g.attempt ∧ s.swap = none then
          some { g with phase := .done (finish cfg g.id (readLocked s.col g.id now))
                          (s.past.length + 1) }
        else none
      | _ => none

/-- The deadline of a record stays as the lookup found it until the clock is read, unless it is
still ahead then. -/
def Served.steady (s : Served) : Act → Bool
  | .clock i now => (s.gets[i]?).elim true fun g =>
    match g.phase with
    | .located _ (some loc) _ => !expired loc.expiresAt now ||
      (s.col.index g.id).elim true fun cur => cur.expiresAt == loc.expiresAt
    | _ => true
  | _ => true

def Served.Steady (s : Served) (a : Act) : Prop :=
  s.steady a = true

instance (s : Served) (a : Act) : Decidable (s.Steady a) :=
  inferInstanceAs (Decidable (_ = true))

end Scriva.PointReads
