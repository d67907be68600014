import Scriva.CompactWrite
import Scriva.Lookup
import Scriva.SecondaryIndex

namespace Scriva

structure Config where
  encoding : Encoding
  enc : Option Encryptor
  /-- The default time to live; records never expire by default when it is not positive. -/
  defaultTTL : Int
  segmentMaxSize : Nat

def Config.isEncryptedField (cfg : Config) (field : String) : Bool :=
  cfg.enc.elim false fun k => k.isEncryptedField field

/-- An open collection: its segments, the id and segment counters, the indexes in memory, the
journal's decisions and the latest instant its clock has shown. -/
structure Collection where
  sealed : List Segment
  active : Segment
  segSeq : Nat
  idSeq : Nat
  index : Index
  sidxs : List SecondaryIndex
  decisions : Decisions
  now : Int

/-- What one operation reads off the clock, in this order: the timestamp of its lines, and the
instants of its first, second and last look. -/
structure Readings where
  ts : Rfc3339.Time
  early : Int
  mid : Int
  late : Int

def Collection.segments (s : Collection) : List Segment :=
  s.sealed ++ [s.active]

def Collection.log (s : Collection) : List LogLine :=
  logOf s.segments

def Collection.ids (s : Collection) : List Nat :=
  (s.log.map LogLine.id).dedup

def Entry.persisted (e : Entry) : Entry :=
  { e with data := persistedData e.data }

def Config.line (cfg : Config) (tx : Option TxStamp) (e : Entry) : Line :=
  cfg.encoding.line { entry := e.persisted, tx := tx }

def resolveInsertExpiryAt (cfg : Config) (explicit now : Int) : Int :=
  if explicit ≠ 0 then explicit else if 0 < cfg.defaultTTL then now + cfg.defaultTTL else 0

/-- The stored form of the data under the write policy, and its epoch. -/
def sealEntryData (cfg : Config) (e : Entry) : Option Entry :=
  match cfg.enc with
  | none => some e
  | some k => (k.encrypt e.data).map fun stored => { e with data := stored, epoch := k.epoch }

/-- A line to write, with the data the secondary indexes are given for it and whether they take
its id for a new one. -/
structure Change where
  entry : Entry
  data : Option Data
  fresh : Bool

/-- `index.Set` with what the line carries, or `index.Delete`. -/
def Index.put (m : Index) (seg off : Nat) (e : Entry) : Index :=
  match e.op with
  | .delete => Function.update m e.id none
  | _ => Function.update m e.id (some { seg := seg, offset := off, rev := e.rev,
                                        expiresAt := e.expiresAt, epoch := e.epoch })

/-- `sidxIndexEntry` on one index. -/
def SecondaryIndex.indexEntry (x : SecondaryIndex) (id : Nat) (data : Option Data) :
    SecondaryIndex :=
  match (data.getD []).get x.field with
  | some v => x.add v id
  | none => x

/-- `sidxUpdateEntry` on one index. -/
def SecondaryIndex.updateEntry (x : SecondaryIndex) (id : Nat) (data : Option Data) :
    SecondaryIndex :=
  match (data.getD []).get x.field with
  | some v => x.update id v
  | none => x.remove id

def SecondaryIndex.put (x : SecondaryIndex) (ch : Change) : SecondaryIndex :=
  match ch.entry.op with
  | .delete => x.remove ch.entry.id
  | _ => if ch.fresh then x.indexEntry ch.entry.id ch.data else x.updateEntry ch.entry.id ch.data

def Collection.applyChange (s : Collection) (off : Nat) (ch : Change) : Collection :=
  { s with index := s.index.put s.active.num off ch.entry, sidxs := s.sidxs.map (·.put ch) }

def Collection.append (s : Collection) (ls : List Line) : Collection :=
  { s with active := { s.active with lines := s.active.lines ++ ls } }

def runLines (cfg : Config) (txid : Option String) (chs : List Change) : List Line :=
  chs.zipIdx.map fun p =>
    cfg.line (txid.map fun t => { t := t, i := p.2, n := chs.length }) p.1.entry

/-- All lines of a run are appended before the indexes take them in, one after the other. -/
def Collection.commitRun (cfg : Config) (s : Collection) (txid : Option String)
    (chs : List Change) : Collection :=
  let offsets := (withOffsets s.active.size (runLines cfg txid chs)).map Prod.fst
  (offsets.zip chs).foldl (fun s p => s.applyChange p.1 p.2) (s.append (runLines cfg txid chs))

def Collection.put (cfg : Config) (s : Collection) (ch : Change) : Collection :=
  (s.append [cfg.line none ch.entry]).applyChange s.active.size ch

end Scriva
