import Scriva.WriteSpecs

namespace Scriva

open Option

structure RecordView where
  id : Nat
  key : String
  rev : Nat
  ts : Rfc3339.Time
  data : Option Data
deriving DecidableEq

def Collection.liveEntry (s : Collection) (id : Nat) (now : Int) : Option IndexEntry :=
  (s.index id).filter fun loc => !expired loc.expiresAt now

def Collection.getStored (s : Collection) (id : Nat) (now : Int) : Option (Entry × IndexEntry) := do
  let loc ← s.liveEntry id now
  let e ← readEntry s.segments loc
  guard (e.id == id)
  return (e, loc)

def keyOf (data : Option Data) : String :=
  match (data.getD []).get keyField with
  | some (.str key) => key
  | _ => ""

def Collection.get (cfg : Config) (s : Collection) (id : Nat) (now : Int) : Option RecordView := do
  let (e, loc) ← s.getStored id now
  let data ← cfg.enc.elim (some e.data) fun k => k.materialize e.data
  return { id := id, key := keyOf data, rev := loc.rev, ts := e.ts, data := data }

/-- The key is resolved at one moment and the record read at another. -/
def getByKey (cfg : Config) (resolving reading : Collection) (key : String) (r : Readings)
    (now : Int) : Option RecordView := do
  let id ← resolving.resolveKey key r
  let found ← reading.get cfg id now
  guard (found.key == "" || found.key == key)
  return found

section

variable {cfg : Config} {s : Collection} {id : Nat} {now : Int}

theorem liveEntry_some {loc : IndexEntry} : s.liveEntry id now = some loc ↔
    s.index id = some loc ∧ expired loc.expiresAt now = false := by
  simp [Collection.liveEntry, filter_eq_some_iff]

theorem liveEntry_none : s.liveEntry id now = none ↔
    ∀ loc, s.index id = some loc → expired loc.expiresAt now = true := by
  simp [Collection.liveEntry, Option.filter_eq_none_iff]

theorem get_some {found : RecordView} : s.get cfg id now = some found ↔
    ∃ loc e data, s.liveEntry id now = some loc ∧ readEntry s.segments loc = some e ∧ e.id = id ∧
      (cfg.enc.elim (some e.data) fun k => k.materialize e.data) = some data ∧
      found = { id := id, key := keyOf data, rev := loc.rev, ts := e.ts, data := data } := by
  unfold Collection.get Collection.getStored
  constructor
  · intro h
    obtain ⟨⟨e, loc⟩, hstored, h⟩ := bind_eq_some_iff.mp h
    obtain ⟨data, hdata, h⟩ := bind_eq_some_iff.mp h
    obtain ⟨loc', hloc, hstored⟩ := bind_eq_some_iff.mp hstored
    obtain ⟨e', he, hstored⟩ := bind_eq_some_iff.mp hstored
    obtain ⟨hid, hstored⟩ := guard_bind.mp hstored
    cases hstored
    cases h
    exact ⟨loc, e, data, hloc, he, by simpa using hid, hdata, rfl⟩
  · rintro ⟨loc, e, data, hloc, he, rfl, hdata, rfl⟩
    simp [hloc, he, hdata]

end

end Scriva
