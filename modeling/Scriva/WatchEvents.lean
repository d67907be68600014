import Scriva.IndexRuns

namespace Scriva

open KeyedLog List Option

/-- What a read shows of stored data: nothing if the line does not decode or the encryptor cannot
open it. -/
def Config.shows (cfg : Config) (stored : Option Data) : Option (Option Data) :=
  if decodable stored then cfg.enc.elim (some stored) (·.materialize stored) else none

/-- For each record of a collection, expired or not, what a read shows of it. -/
def Collection.shown (cfg : Config) (s : Collection) (id : Nat) : Option (Option (Option Data)) :=
  (records s.decisions s.log id).map fun r => cfg.shows r.data

def WatchEvent.effect (ev : WatchEvent) : Option (Option (Option Data)) :=
  if ev.op = .delete then none else some (some (persistedData ev.data))

def applyEvents (m : Nat → Option (Option (Option Data))) (evs : List WatchEvent) :
    Nat → Option (Option (Option Data)) :=
  replay WatchEvent.id (fun ev _ => ev.effect) m evs

/-- Data that a read shows as it was written: a float64 holds its integers, it is not an empty map
(nor nil, where the collection has an encryptor), and the encryptor reads it as it is. -/
def Config.Clear (cfg : Config) (data : Option Data) : Prop :=
  KeysAscend (data.getD []) ∧ decodable data = true ∧ ∀ k ∈ cfg.enc,
    data.isSome = true ∧ Encryption.readsAsIs k.policy.readMode (data.getD []) = true

instance (cfg : Config) (data : Option Data) : Decidable (cfg.Clear data) :=
  inferInstanceAs (Decidable (List.Pairwise _ _ ∧ _ = true ∧ ∀ k ∈ cfg.enc, _))

def WatchEvent.Clear (cfg : Config) (ev : WatchEvent) : Prop :=
  ev.op ≠ .delete → cfg.Clear ev.data

instance (cfg : Config) (ev : WatchEvent) : Decidable (ev.Clear cfg) :=
  inferInstanceAs (Decidable (_ → _))

def ofRecord (id : Nat) (evs : List WatchEvent) : List WatchEvent :=
  evs.filter fun ev => ev.id = id

section

variable {cfg : Config} {s t : Collection} {plain stored : Option Data} {ev : WatchEvent}
  {evs : List WatchEvent}

theorem StoredAs.shows (h : StoredAs cfg plain stored) (hc : cfg.Clear plain) :
    cfg.shows (persistedData stored) = some (persistedData plain) := by
  obtain ⟨hasc, hdec, henc⟩ := hc
  unfold Config.shows
  cases hk : cfg.enc with
  | none =>
    have hsame : stored = plain := by
      rcases h with ⟨hp, hs⟩ | ⟨key, data, hidden, hseal, hp, hs⟩
      · rw [hp, hs]
      · unfold Sealed at hseal
        rw [hk] at hseal
        rw [hp, hs, hseal]
    rw [hsame, decodable_persisted, hdec]
    rfl
  | some k =>
    obtain ⟨hsome, hasIs⟩ := henc k hk
    obtain ⟨m, rfl⟩ := isSome_iff_exists.mp hsome
    rw [getD_some] at hasc hasIs
    rcases h with ⟨hp, -⟩ | ⟨key, data, hidden, hseal, hp, rfl⟩
    · cases hp
    have hdata : KeysAscend (data.getD []) := by
      have hkept : KeysAscend ((keepKey key data).getD []) := by
        rw [← hp]
        exact hasc
      exact keysAscend_of_keepKey hkept
    unfold Sealed at hseal
    rw [hk] at hseal
    obtain ⟨s₀, rfl, hs₀⟩ := Encryptor.encrypt_sealData hseal
    obtain ⟨s, hkept, hs⟩ := sealData_keepKey k.installed.proper hdata hs₀ key
    rw [← hp, getD_some] at hs
    have hstored := Encryption.sealData_decodable hdec hs
    have hread := persistedData_some (Encryption.sealData_keysAscend hasc hs) hstored
    rw [hkept, decodable_persisted, hstored, hread, persistedData_some hasc hdec]
    show (k.policy.materialize k.cipher k.keys (asRead s)).map some = some (some (asRead m))
    rw [Encryption.materialize_sealData k.installed.proper ⟨rfl, rfl⟩ (k.resolves _) hasc hasIs hs]
    rfl

theorem Tells.effect {l : Line} {ch : Change} (h : Tells cfg ev ch) (hline : l.entry = ch.entry.persisted)
    (hc : ev.Clear cfg) (old : Option Record) :
    (Record.act l.entry old).map (fun r => cfg.shows r.data) = ev.effect := by
  unfold Record.act WatchEvent.effect
  have hop : l.entry.op = ev.op := by
    rw [hline, h.op]
    rfl
  have hdata : ev.op ≠ .delete → cfg.shows l.entry.data = some (persistedData ev.data) := by
    intro hne
    rw [hline]
    exact (h.data hne).2.shows (hc hne)
  rw [hop]
  cases hk : ev.op with
  | delete => rfl
  | insert | update => exact congrArg some (hdata (by rw [hk]; decide))

/-- The lines of a write leave of a record what the last event about it says. -/
theorem replay_tells {ls : List Line} {chs : List Change} (hc : Carry ls chs)
    (hevs : List.Forall₂ (Tells cfg) evs chs) (R : Records) (id : Nat)
    (hclear : ∀ ev ∈ (ofRecord id evs).getLast?, ev.Clear cfg) :
    (replay LogLine.id (fun l => Record.act l.entry) R (ls.map Line.toLogLine) id).map
        (fun r => cfg.shows r.data) =
      (ofRecord id evs).getLast?.elim ((R id).map fun r => cfg.shows r.data) WatchEvent.effect := by
  induction hc generalizing evs R with
  | nil =>
    cases hevs
    rfl
  | @cons l ch ls chs hline hc ih =>
    cases hevs with
    | @cons ev _ evs _ htell hevs =>
      have hid : ev.id = l.toLogLine.id := by
        rw [htell.id]
        show ch.entry.id = l.entry.id
        rw [hline]
        rfl
      have hcons : (ofRecord id (ev :: evs)).getLast? =
          (ofRecord id evs).getLast?.or (if ev.id = id then some ev else none) := by
        have h := lastOf_cons (p := fun ev : WatchEvent => decide (ev.id = id)) ev evs
        simp only [decide_eq_true_eq] at h
        exact h
      rw [map_cons, KeyedLog.replay_cons]
      rw [hcons] at hclear ⊢
      cases hlast : (ofRecord id evs).getLast? with
      | some last =>
        rw [hlast] at hclear
        rw [ih hevs _ (by rw [hlast]; exact hclear), hlast]
        rfl
      | none =>
        rw [hlast] at hclear
        rw [ih hevs _ (by rw [hlast]; exact nofun), hlast]
        show (apply _ _ R l.toLogLine id).map _ = _
        by_cases hk : ev.id = id
        · rw [if_pos hk] at hclear ⊢
          rw [← hk, hid, apply_self]
          exact htell.effect hline (hclear ev rfl) _
        · rw [if_neg hk, apply_of_ne (hid ▸ hk)]
          rfl

theorem WritesLocally.shown {op : CollectionOp} {ls : List Line} {chs : List Change}
    (h : WritesLocally cfg op s ls chs t) (id : Nat)
    (hclear : ∀ ev ∈ (ofRecord id (op.events s)).getLast?, ev.Clear cfg) :
    t.shown cfg id =
      (ofRecord id (op.events s)).getLast?.elim (s.shown cfg id) WatchEvent.effect := by
  have hrec : records t.decisions t.log = _ := h.wrote.records
  rw [Collection.shown, hrec]
  exact replay_tells h.carry h.told _ id hclear

theorem still_shown {op : CollectionOp} (hq : op.isStill = true) (h : s.step cfg op = some t) :
    t.shown cfg = s.shown cfg := by
  have hrec := (step_still hq h).wrote.records
  funext id
  exact congrArg (Option.map fun r => cfg.shows r.data) (congrFun hrec id)

end

end Scriva
