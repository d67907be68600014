import Scriva.Query
import Scriva.Lib.Search

namespace Scriva

open JsonText Search

inductive IndexKind where
  | empty
  | numeric
  | string
  | mixed
deriving DecidableEq, Repr

structure OrderedKey where
  key : String
  val : Value
deriving DecidableEq

def valKind : Value → IndexKind × Value
  | .float d => (.numeric, .float d)
  | .str s => (.string, .str s)
  | v => (.string, .str (toIndexKey v))

def mergeKind (cur next : IndexKind) : IndexKind :=
  if cur = .empty then next else if cur = next then cur else .mixed

def valForKind (kind : IndexKind) (key : String) : Value :=
  if kind = .numeric then .float (litParts key.toList).toDecimal else .str key

def orderLessKey (a b : OrderedKey) : Bool :=
  match compareValues a.val b.val with
  | .lt => true
  | .gt => false
  | .eq => decide (a.key < b.key)

/-- An inverted index over one field: its buckets as pairs of key and id, each id's bucket, and,
while the values are of one kind, its keys in order. -/
structure OrderedIndex where
  field : String
  unique : Bool
  entries : List (String × Nat)
  reverse : Nat → Option String
  kind : IndexKind
  sorted : List OrderedKey

namespace OrderedIndex

def new (field : String) (unique : Bool) : OrderedIndex :=
  { field := field, unique := unique, entries := [], reverse := fun _ => none, kind := .empty,
    sorted := [] }

def orderedInsert (x : OrderedIndex) (key : String) (val : Value) : OrderedIndex :=
  if x.kind = .mixed then x
  else if (x.sorted[position orderLessKey x.sorted ⟨key, val⟩]?).any (·.key == key) then x
  else { x with sorted := place orderLessKey x.sorted ⟨key, val⟩ }

def orderedRemove (x : OrderedIndex) (key : String) : OrderedIndex :=
  if x.kind = .mixed then x
  else
    let target : OrderedKey := ⟨key, valForKind x.kind key⟩
    if (x.sorted[position orderLessKey x.sorted target]?).any (·.key == key) then
      { x with sorted := unplace orderLessKey x.sorted target }
    else x

def observe (x : OrderedIndex) (v : Value) : OrderedIndex :=
  let kind := mergeKind x.kind (valKind v).1
  { x with kind := kind, sorted := if kind = .mixed then [] else x.sorted }

def hasBucket (x : OrderedIndex) (key : String) : Bool :=
  x.entries.any (·.1 == key)

def leave (x : OrderedIndex) (key : String) (id : Nat) : OrderedIndex :=
  let y := { x with entries := x.entries.filter (· != (key, id)) }
  if y.hasBucket key then y else y.orderedRemove key

def enter (x : OrderedIndex) (v : Value) (id : Nat) : OrderedIndex :=
  let key := toIndexKey v
  let y := OrderedIndex.observe
    { x with
      entries := if (key, id) ∈ x.entries then x.entries else (key, id) :: x.entries
      reverse := Function.update x.reverse id (some key) } v
  if x.hasBucket key then y else y.orderedInsert key (valKind v).2

def add (x : OrderedIndex) (v : Value) (id : Nat) : OrderedIndex :=
  if acceptsIn x.field v then x.enter v id else x

def remove (x : OrderedIndex) (id : Nat) : OrderedIndex :=
  match x.reverse id with
  | none => x
  | some key => { x.leave key id with reverse := Function.update x.reverse id none }

def update (x : OrderedIndex) (id : Nat) (v : Value) : OrderedIndex :=
  if acceptsIn x.field v then
    match x.reverse id with
    | none => x.enter v id
    | some old => (x.leave old id).enter v id
  else x.remove id

/-- `sidxIndexEntry` for a new id, `sidxUpdateEntry` for one that is there, and removal. -/
def put (x : OrderedIndex) (fresh : Bool) (e : Entry) : OrderedIndex :=
  match e.op, (e.data.getD []).get x.field with
  | .delete, _ => x.remove e.id
  | _, some v => if fresh then x.add v e.id else x.update e.id v
  | _, none => if fresh then x else x.remove e.id

def buildSorted (keys : List String) (kind : IndexKind) : List OrderedKey :=
  if kind = .mixed ∨ kind = .empty then []
  else keys.foldl (fun l key => place orderLessKey l ⟨key, valForKind kind key⟩) []

end OrderedIndex

def acceptedValue (field : String) (data : Option Data) : Option Value :=
  ((data.getD []).get field).filter (acceptsIn field)

def fieldValues (field : String) (d : Decisions) (ls : List LogLine) (id : Nat) : Option Value :=
  (latestData d ls id).bind (acceptedValue field)

namespace OrderedIndex

def rebuild (x : OrderedIndex) (ls : List LogLine) (d : Decisions) : OrderedIndex :=
  let found := (ls.map LogLine.id).dedup.filterMap fun id =>
    (fieldValues x.field d ls id).map fun v => (id, v)
  let entries := found.map fun p => (toIndexKey p.2, p.1)
  let kind := (found.map fun p => (valKind p.2).1).foldl mergeKind .empty
  { x with
    entries := entries
    reverse := fun id => (fieldValues x.field d ls id).map toIndexKey
    kind := kind
    sorted := buildSorted (entries.map Prod.fst).dedup kind }

def load (x : OrderedIndex) : OrderedIndex :=
  { x with
    reverse := fun id => (x.entries.find? (·.2 == id)).map Prod.fst
    sorted := buildSorted (x.entries.map Prod.fst).dedup x.kind }

def replay (x : OrderedIndex) (ls : List LogLine) (d : Decisions) : OrderedIndex :=
  ls.foldl (fun x l => if l.visible d then x.put false l.entry else x) x

def lookup (x : OrderedIndex) (key : String) : List Nat :=
  (x.entries.filter (·.1 == key)).map Prod.snd

def range (x : OrderedIndex) (op : QueryOp) (qv : Value) : Option (List OrderedKey) :=
  let above := searchList x.sorted fun k => compareValues k.val qv == .gt
  let atLeast := searchList x.sorted fun k => compareValues k.val qv != .lt
  match op with
  | .gt => some (x.sorted.drop above)
  | .gte => some (x.sorted.drop atLeast)
  | .lt => some (x.sorted.take atLeast)
  | .lte => some (x.sorted.take above)
  | _ => none

def lookupRange (x : OrderedIndex) (op : QueryOp) (queryVal : Value) : Option (List Nat) :=
  if x.kind = .empty then some []
  else if x.kind = .mixed then none
  else if (valKind queryVal).1 ≠ x.kind then none
  else (x.range op (valKind queryVal).2).map fun ks => ks.flatMap fun k => x.lookup k.key

/-- `indexCandidates` of a filter on the index's field. -/
def candidates (x : OrderedIndex) (f : FieldFilter) : Option (List Nat) :=
  match f.op with
  | .eq => some (x.lookup (toIndexKey (filterValueTyped f.value)))
  | .gt | .gte | .lt | .lte => x.lookupRange f.op (filterValueTyped f.value)
  | _ => none

end OrderedIndex

end Scriva
