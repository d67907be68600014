import Scriva.Events
import Scriva.WrittenLines

namespace Scriva

open Option (bind_eq_some_iff)

theorem guard_bind {α : Type} {p : Prop} [Decidable p] {f : Unit → Option α} {a : α} :
    ((guard p : Option Unit) >>= f) = some a ↔ p ∧ f () = some a := by
  by_cases hp : p <;> simp [guard, hp]

theorem guard_some {α : Type} {p : Prop} [Decidable p] {a b : α}
    (h : ((guard p : Option Unit) >>= fun _ => some a) = some b) : p ∧ a = b := by
  obtain ⟨hp, h⟩ := guard_bind.mp h
  exact ⟨hp, Option.some.inj h⟩

def Sealed (cfg : Config) (data stored : Option Data) : Prop :=
  match cfg.enc with
  | none => stored = data
  | some k => k.encrypt data = some stored

theorem sealEntryData_some {cfg : Config} {e e' : Entry} (h : sealEntryData cfg e = some e') :
    ∃ stored epoch, Sealed cfg e.data stored ∧ e' = { e with data := stored, epoch := epoch } := by
  unfold sealEntryData at h
  unfold Sealed
  cases henc : cfg.enc with
  | none =>
    rw [henc] at h
    cases h
    exact ⟨e.data, e.epoch, rfl, rfl⟩
  | some k =>
    rw [henc] at h
    obtain ⟨stored, hs, rfl⟩ := Option.map_eq_some_iff.mp h
    exact ⟨stored, k.epoch, hs, rfl⟩

/-- Keeping a record's key changes the sealed data as it changes the data. -/
theorem sealData_keepKey {c : Encryption.Cipher} {e : Encryption.Encryptor} {k : Encryption.Sealing}
    {data : Option Data} {stored : Data} (hp : e.Proper) (hasc : KeysAscend (data.getD []))
    (h : e.sealData c k (data.getD []) = some stored) (key : Option String) :
    ∃ s, keepKey key (some stored) = some s ∧
      e.sealData c k ((keepKey key data).getD []) = some s := by
  cases key with
  | none => exact ⟨stored, rfl, h⟩
  | some key => exact ⟨_, rfl, Encryption.sealData_setKey hp hasc h (.str key)⟩

theorem keysAscend_of_keepKey {key : Option String} {data : Option Data}
    (h : KeysAscend ((keepKey key data).getD [])) : KeysAscend (data.getD []) := by
  cases key with
  | none => exact h
  | some key => exact keysAscend_of_set h

/-- How the data of a line comes from what is written: it is sealed, and an update then adds the key
that the record has. A transaction does not seal data that is nil. -/
def StoredAs (cfg : Config) (plain stored : Option Data) : Prop :=
  plain = none ∧ stored = none ∨ ∃ key data hidden, Sealed cfg data hidden ∧
    plain = keepKey key data ∧ stored = keepKey key hidden

/-- An event says of a change which record it wrote and, unless it removed it, what with. -/
structure Tells (cfg : Config) (ev : WatchEvent) (ch : Change) : Prop where
  op : ev.op = ch.entry.op
  id : ev.id = ch.entry.id
  fresh : ch.fresh = (ev.op == .insert)
  data : ev.op ≠ .delete → ev.data = ch.data ∧ StoredAs cfg ev.data ch.entry.data

theorem Sealed.storedAs {cfg : Config} {data stored : Option Data} (h : Sealed cfg data stored) :
    StoredAs cfg data stored :=
  Or.inr ⟨none, data, stored, h, rfl, rfl⟩

/-- The change of a write of some data to one record. An update names the new deadline, or none to
keep it. -/
inductive Single (cfg : Config) (s : Collection) (r : Readings) (expiresAt : Option Int)
    (data : Option Data) : Change → Prop
  | insert {e : Entry} (hid : e.id = s.idSeq + 1) (hop : e.op = .insert)
      (hrev : e.rev = 1) (hseal : Sealed cfg data e.data)
      (huniq : s.sidxCheckUnique e.id data r.late = true) :
      Single cfg s r expiresAt data { entry := e, data := data, fresh := true }
  | update {e : Entry} {stored : Option Data} {cur : IndexEntry}
      (hcur : s.index e.id = some cur) (hop : e.op = .update) (hrev : e.rev = cur.rev + 1)
      (hexp : e.expiresAt = expiresAt.getD cur.expiresAt) (hseal : Sealed cfg data stored)
      (hdata : e.data = keepKey (s.reservedKey e.id data) stored)
      (huniq : s.sidxCheckUnique e.id data r.late = true) :
      Single cfg s r expiresAt data
        { entry := e, data := keepKey (s.reservedKey e.id data) data, fresh := false }
  | delete {e : Entry} (hcur : (s.index e.id).isSome = true) (hop : e.op = .delete) :
      Single cfg s r expiresAt data { entry := e, data := none, fresh := false }

def Bounded (s : Collection) : Prop :=
  ∀ id, (s.index id).isSome = true → id ≤ s.idSeq

/-- The counter stays ahead of the ids, if it was. -/
def Counts (s : Collection) (chs : List Change) (s' : Collection) : Prop :=
  s.idSeq ≤ s'.idSeq ∧ (Bounded s → ∀ ch ∈ chs, ch.entry.id ≤ s'.idSeq)

theorem counts_one {s s' : Collection} {ch : Change} (hle : s.idSeq ≤ s'.idSeq)
    (h : Bounded s → ch.entry.id ≤ s'.idSeq) : Counts s [ch] s' :=
  ⟨hle, by simpa using h⟩

structure WroteTo (evs : List WatchEvent) (cfg : Config) (s : Collection) (r : Readings)
    (expiresAt : Option Int) (data : Option Data) (s' : Collection) : Prop where
  out : ∃ ls ch, Single cfg s r expiresAt data ch ∧ List.Forall₂ (Tells cfg) evs [ch] ∧
    Wrote s ls [ch] s' ∧ Counts s [ch] s'
  decisions : s'.decisions = s.decisions

section

variable {cfg : Config} {s s' : Collection} {r : Readings}

variable {data : Option Data} {id : Nat} {expiresAt : Option Int} {key : String}

theorem insert_to {exp : Int} (x : Option Int) (h : s.insert cfg data exp r = some s') :
    WroteTo [{ op := .insert, id := s.idSeq + 1, data := data, ts := r.ts }] cfg s r x data s' := by
  unfold Collection.insert at h
  obtain ⟨e, he, h⟩ := bind_eq_some_iff.mp h
  obtain ⟨stored, epoch, hseal, rfl⟩ := sealEntryData_some he
  obtain ⟨huniq, rfl⟩ := guard_some h
  exact ⟨⟨_, _, .insert rfl rfl rfl hseal huniq,
    .cons ⟨rfl, rfl, rfl, fun _ => ⟨rfl, hseal.storedAs⟩⟩ .nil,
    (wrote_put cfg s _).counted _ _, counts_one (Nat.le_succ _) fun _ => le_refl _⟩, rfl⟩

theorem update_to (h : s.update cfg id data expiresAt r = some s') :
    WroteTo [{ op := .update, id := id, data := s.preserveReserved id data, ts := r.ts }] cfg s r
      expiresAt data s' := by
  unfold Collection.update at h
  obtain ⟨e, he, h⟩ := bind_eq_some_iff.mp h
  obtain ⟨stored, epoch, hseal, rfl⟩ := sealEntryData_some he
  obtain ⟨cur, hcur, h⟩ := bind_eq_some_iff.mp h
  obtain ⟨huniq, rfl⟩ := guard_some h
  exact ⟨⟨_, _, .update hcur rfl rfl rfl hseal rfl huniq,
    .cons ⟨rfl, rfl, rfl, fun _ => ⟨rfl, Or.inr ⟨_, data, stored, hseal, rfl, rfl⟩⟩⟩ .nil,
    wrote_put cfg s _, counts_one (le_refl _) fun hb => hb id (by simp [hcur])⟩, rfl⟩

theorem delete_to (x : Option Int) (data : Option Data) (h : s.delete cfg id r = some s') :
    WroteTo [{ op := .delete, id := id, data := none, ts := r.ts }] cfg s r x data s' := by
  unfold Collection.delete at h
  obtain ⟨cur, hcur, h⟩ := bind_eq_some_iff.mp h
  cases h
  exact ⟨⟨_, _, .delete (by simp [deleteEntry, hcur]) rfl,
    .cons ⟨rfl, rfl, rfl, fun hne => absurd rfl hne⟩ .nil,
    wrote_put cfg s _, counts_one (le_refl _) fun hb => hb id (by simp [hcur])⟩, rfl⟩

theorem reservedKey_stamped (id : Nat) (data : Option Data) (key : String) :
    s.reservedKey id (stampKey data key) = none := by
  have hkey : hasKey (stampKey data key) = true := by
    simp [hasKey, stampKey, get_setKey]
  simp [Collection.reservedKey, hkey]

theorem replace_to {cur : IndexEntry} {e : Entry} (x : Option Int)
    (hx : x.getD cur.expiresAt = cur.expiresAt) (hcur : s.index id = some cur)
    (huniq : s.sidxCheckUnique id (stampKey data key) r.late = true)
    (he : sealEntryData cfg { id := id, op := .update, ts := r.ts, rev := cur.rev + 1,
                              data := stampKey data key, epoch := 0,
                              expiresAt := cur.expiresAt } = some e) :
    WroteTo [{ op := .update, id := id, data := stampKey data key, ts := r.ts }] cfg s r x
      (stampKey data key) (s.put cfg { entry := e, data := stampKey data key, fresh := false }) := by
  obtain ⟨stored, epoch, hseal, rfl⟩ := sealEntryData_some he
  have hkeep := reservedKey_stamped (s := s) id data key
  have hsingle : Single cfg s r x (stampKey data key)
      { entry := { id := id, op := .update, ts := r.ts, rev := cur.rev + 1, data := stored,
                   epoch := epoch, expiresAt := cur.expiresAt }
        data := keepKey (s.reservedKey id (stampKey data key)) (stampKey data key)
        fresh := false } :=
    .update hcur rfl rfl hx.symm hseal (by rw [hkeep]; rfl) huniq
  rw [hkeep] at hsingle
  exact ⟨⟨_, _, hsingle, .cons ⟨rfl, rfl, rfl, fun _ => ⟨rfl, hseal.storedAs⟩⟩ .nil,
    wrote_put cfg s _, counts_one (le_refl _) fun hb => hb id (by simp [hcur])⟩, rfl⟩

theorem insertWithKey_to (h : s.insertWithKey cfg key data r = some s') :
    WroteTo (CollectionOp.events s (.insertWithKey key data r)) cfg (s.ensureIndex keyField true) r
      none (stampKey data key) s' := by
  have hw := insert_to none (guard_bind.mp (guard_bind.mp (guard_bind.mp h).2).2).2
  have hseq : (s.ensureIndex keyField true).idSeq = s.idSeq := by
    unfold Collection.ensureIndex
    split <;> rfl
  rw [hseq] at hw
  exact hw

theorem updateByKey_to (h : s.updateByKey cfg key data r = some s') :
    WroteTo (CollectionOp.events s (.updateByKey key data r)) cfg s r none (stampKey data key) s' := by
  obtain ⟨-, h⟩ := guard_bind.mp h
  obtain ⟨id, hid, h⟩ := bind_eq_some_iff.mp h
  unfold CollectionOp.events
  dsimp only
  rw [hid]
  exact update_to h

theorem deleteByKey_to (h : s.deleteByKey cfg key r = some s') :
    WroteTo (CollectionOp.events s (.deleteByKey key r)) cfg s r none none s' := by
  obtain ⟨id, hid, h⟩ := bind_eq_some_iff.mp h
  unfold CollectionOp.events
  dsimp only
  rw [hid]
  exact delete_to none none h

theorem upsert_to (h : s.upsert cfg key data r = some s') :
    WroteTo (CollectionOp.events s (.upsert key data r)) cfg (s.ensureIndex keyField true) r none
      (stampKey data key) s' := by
  unfold Collection.upsert at h
  obtain ⟨-, h⟩ := guard_bind.mp h
  obtain ⟨-, h⟩ := guard_bind.mp h
  obtain ⟨-, h⟩ := guard_bind.mp h
  unfold CollectionOp.events
  cases hfound : ((s.ensureIndex keyField true).indexLookup key r.early).head?.bind fun id =>
      ((s.ensureIndex keyField true).index id).map fun cur => (id, cur) with
  | none =>
    simp only [hfound] at h ⊢
    exact insert_to none h
  | some p =>
    obtain ⟨id, -, hid⟩ := bind_eq_some_iff.mp hfound
    obtain ⟨cur, hcur, rfl⟩ := Option.map_eq_some_iff.mp hid
    simp only [hfound] at h ⊢
    obtain ⟨huniq, h⟩ := guard_bind.mp h
    obtain ⟨e, he, h⟩ := bind_eq_some_iff.mp h
    cases h
    exact replace_to none rfl hcur huniq he

theorem compareAndSwap_to {ok : Option Data → Nat → Bool}
    (h : s.compareAndSwap cfg key data ok r = some s') :
    WroteTo (CollectionOp.events s (.compareAndSwap key data ok r)) cfg s r none
      (stampKey data key) s' := by
  unfold Collection.compareAndSwap at h
  obtain ⟨-, h⟩ := guard_bind.mp h
  obtain ⟨-, h⟩ := guard_bind.mp h
  obtain ⟨id, hhead, h⟩ := bind_eq_some_iff.mp h
  obtain ⟨loc, hloc, h⟩ := bind_eq_some_iff.mp h
  obtain ⟨cur, -, h⟩ := bind_eq_some_iff.mp h
  obtain ⟨-, h⟩ := guard_bind.mp h
  obtain ⟨curData, -, h⟩ := bind_eq_some_iff.mp h
  obtain ⟨-, h⟩ := guard_bind.mp h
  obtain ⟨huniq, h⟩ := guard_bind.mp h
  obtain ⟨e, he, h⟩ := bind_eq_some_iff.mp h
  cases h
  unfold CollectionOp.events
  dsimp only
  rw [hhead]
  exact replace_to none rfl hloc huniq he

end

end Scriva
