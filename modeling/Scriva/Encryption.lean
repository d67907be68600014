import Scriva.Value
import Scriva.Lib.Runs

namespace Scriva.Encryption

open JsonText List
open Option (map_eq_some_iff ite_none_right_eq_some)

inductive Mode where
  | fields
  | record
deriving DecidableEq, Repr

/-- What new writes seal: some named fields, or everything but some; nothing without a mode. -/
structure Policy where
  mode : Option Mode
  fields : List String
  indexFields : List String
deriving DecidableEq, Repr

def secureDataField : String := "secure_data"

inductive PolicyErr where
  | noFields
  | reservedEncrypted
  | reservedIndexed
  | unknownMode
deriving DecidableEq, Repr

def Policy.validate (p : Policy) : Option PolicyErr :=
  match p.mode with
  | some .fields =>
    if p.fields = [] then some .noFields
    else if keyField ∈ p.fields ∨ secureDataField ∈ p.fields then some .reservedEncrypted
    else none
  | some .record => if secureDataField ∈ p.indexFields then some .reservedIndexed else none
  | none => some .unknownMode

def Policy.isEncryptedField (p : Policy) (field : String) : Bool :=
  match p.mode with
  | some .fields => p.fields.contains field
  | some .record => field != keyField && !p.indexFields.contains field
  | none => false

def Policy.disabled : Policy :=
  { mode := none, fields := [], indexFields := [] }

theorem Policy.key_clear {p : Policy} (h : p.validate = none) :
    p.isEncryptedField keyField = false := by
  unfold Policy.validate at h
  unfold Policy.isEncryptedField
  cases hm : p.mode with
  | none => rfl
  | some m =>
    rw [hm] at h
    cases m with
    | fields =>
      dsimp only at h ⊢
      split_ifs at h with h1 h2
      rw [not_or] at h2
      simpa using h2.1
    | record => simp

def marker : List Char := "\x00scrivaenc".toList

def isEncrypted (s : String) : Bool :=
  (marker ++ [':']).isPrefixOf s.toList

def hasReservedPrefix (s : String) : Bool :=
  marker.isPrefixOf s.toList

def Value.reserved : Value → Bool
  | .str s => hasReservedPrefix s
  | _ => false

/-- The sealing of texts, which another library does: a key, a nonce and the context give the
payload, from which the same key and context give the text back. -/
structure Cipher where
  sealText : Nat → Nat → List Char → List Char → List Char
  openText : Nat → List Char → List Char → Option (List Char)
  openText_sealText : ∀ key nonce plain aad,
    openText key (sealText key nonce plain aad) aad = some plain

def clearCipher : Cipher :=
  { sealText := fun _ _ plain _ => plain, openText := fun _ text _ => some text
    openText_sealText := fun _ _ _ _ => rfl }

abbrev Keys := String → Option Nat

def validKeyID (id : String) : Bool :=
  id != "" && !id.toList.contains ':'

def envelope (keyID : String) (payload : List Char) : String :=
  String.ofList (marker ++ ":v1:".toList ++ keyID.toList ++ ':' :: payload)

/-- Key id and payload of an envelope: the parts of its text behind the marker. -/
def parseEnvelope (s : String) : Option (String × List Char) := do
  guard (isEncrypted s)
  let rest := s.toList.drop (marker.length + 1)
  guard (rest.takeWhile (· ≠ ':') = "v1".toList)
  let rest := (rest.dropWhile (· ≠ ':')).drop 1
  let id := rest.takeWhile (· ≠ ':')
  guard (id ≠ [])
  let rest := rest.dropWhile (· ≠ ':')
  guard (rest ≠ [])
  return (String.ofList id, rest.drop 1)

section

variable (c : Cipher) (keys : Keys)

/-- `DecryptWith`. -/
def decryptWith (env : String) (aad : List Char) : Option (List Char) := do
  let (id, payload) ← parseEnvelope env
  c.openText (← keys id) payload aad

end

/-- An encryptor: how stored records are read, which never changes, and what new writes seal. -/
structure Encryptor where
  collection : String
  readMode : Mode
  writePolicy : Policy
  epoch : Nat
deriving DecidableEq, Repr

def Encryptor.aad (e : Encryptor) (field : String) : List Char :=
  e.collection.toList ++ '\x1f' :: field.toList

/-- The key a write seals under, with its id, and its nonces by field. -/
structure Sealing where
  keyID : String
  key : Nat
  nonce : String → Nat

section

variable (c : Cipher)

def Encryptor.sealValue (e : Encryptor) (k : Sealing) (field : String) (v : Value) : Value :=
  .str (envelope k.keyID (c.sealText k.key (k.nonce field) (render (toJson v)) (e.aad field)))

/-- The fields of a record that stay columns under a record policy. -/
def Policy.column (p : Policy) (field : String) : Bool :=
  field == keyField || p.indexFields.contains field

def Encryptor.sealData (e : Encryptor) (k : Sealing) (data : Data) : Option Data :=
  match e.writePolicy.mode with
  | none => some data
  | some .fields =>
    if validKeyID k.keyID then
      some (data.map fun kv =>
        if e.writePolicy.fields.contains kv.1 then (kv.1, e.sealValue c k kv.1 kv.2) else kv)
    else none
  | some .record =>
    if validKeyID k.keyID ∧ (data.get secureDataField).isNone then
      some (Data.set secureDataField
        (e.sealValue c k secureDataField (.map (data.filter fun kv => !e.writePolicy.column kv.1)))
        (data.filter fun kv => e.writePolicy.column kv.1))
    else none

/-- A value that looks like an envelope is refused, whatever the policy. -/
def Encryptor.encrypt (e : Encryptor) (k : Sealing) (data : Data) : Option Data :=
  if data.any (fun kv => Value.reserved kv.2) then none else e.sealData c k data

variable (keys : Keys)

def Encryptor.maybeDecryptValue (e : Encryptor) (field : String) (v : Value) : Option Value :=
  match v with
  | .str s =>
    if isEncrypted s then do
      let text ← decryptWith c keys s (e.aad field)
      (parse text).map ofJson
    else some v
  | _ => some v

def Encryptor.decryptBlob (e : Encryptor) (blob : Option Value) : Option Data :=
  match blob with
  | some (.str s) =>
    if isEncrypted s then do
      let text ← decryptWith c keys s (e.aad secureDataField)
      match parse text with
      | some (.obj ms) => some (membersOfJson [] ms)
      | some .null => some []
      | _ => none
    else some []
  | _ => some []

def Encryptor.materialize (e : Encryptor) (stored : Data) : Option Data :=
  match e.readMode with
  | .fields => stored.mapM fun kv => (e.maybeDecryptValue c keys kv.1 kv.2).map (kv.1, ·)
  | .record => do
    let merged ← e.decryptBlob c keys (stored.get secureDataField)
    return merged.foldl (fun out kv => out.set kv.1 kv.2)
      (stored.filter fun kv => kv.1 != secureDataField)

def Encryptor.reencrypt (e : Encryptor) (k : Sealing) (stored : Data) : Option Data :=
  (e.materialize c keys stored).bind (e.encrypt c k)

end

def Encryptor.enabled (e : Encryptor) : Bool :=
  e.writePolicy.mode.isSome

def Encryptor.isEncryptedField (e : Encryptor) (field : String) : Bool :=
  e.writePolicy.isEncryptedField field

def firstEncryptor (collection : String) (hasKeys : Bool) (p : Policy) : Option Encryptor :=
  if p.validate = none ∧ hasKeys then
    p.mode.map fun m => { collection := collection, readMode := m, writePolicy := p, epoch := 1 }
  else none

/-- What `SetEncryptionPolicy` installs; none if it refuses or has nothing to do. A nil policy
stops the sealing and keeps the way records are read. -/
def setEncryptionPolicy (collection : String) (hasKeys : Bool) (cur : Option Encryptor)
    (policy : Option Policy) : Option Encryptor :=
  match policy, cur with
  | none, none => none
  | none, some e =>
    if e.enabled then some { e with writePolicy := .disabled, epoch := e.epoch + 1 } else none
  | some p, none => firstEncryptor collection hasKeys p
  | some p, some e =>
    if p.validate = none ∧ p.mode = some e.readMode then
      some { e with writePolicy := p, epoch := e.epoch + 1 }
    else none

def rotateKey (cur : Option Encryptor) : Option Encryptor :=
  cur.map fun e => { e with epoch := e.epoch + 1 }

/-- `initEncryption`: the block of `meta.json` goes before the policy of the configuration; none
if the open is refused. -/
def initEncryption (collection : String) (hasKeys : Bool) (block : Option Encryptor)
    (config : Option Policy) : Option (Option Encryptor) :=
  match block, config with
  | some e, _ => if hasKeys then some (some e) else none
  | none, some p => (firstEncryptor collection hasKeys p).map some
  | none, none => some none

/-- The policy of a collection: its block in `meta.json`, the encryptor in effect, one whose block
is written and which is not in effect yet, those that calls under way may have taken, and the
policies that have been in effect. -/
structure Admin where
  block : Option Encryptor
  enc : Option Encryptor
  changing : Option Encryptor
  loaded : List (Option Encryptor)
  hasKeys : Bool
  past : List Policy
deriving DecidableEq, Repr

def Admin.fresh (hasKeys : Bool) : Admin :=
  { block := none, enc := none, changing := none, loaded := [none], hasKeys := hasKeys, past := [] }

def Admin.change (a : Admin) (next : Option Encryptor) : Option Admin :=
  if a.changing.isNone then next.map fun e => { a with block := some e, changing := some e }
  else none

inductive AdminAct where
  | setPolicy (policy : Option Policy)
  | rotateKey
  | store
  | reopen (hasKeys : Bool) (config : Option Policy)
deriving DecidableEq, Repr

def Admin.step (collection : String) (a : Admin) : AdminAct → Option Admin
  | .setPolicy policy => a.change (setEncryptionPolicy collection a.hasKeys a.enc policy)
  | .rotateKey => a.change (Encryption.rotateKey a.enc)
  | .store =>
    a.changing.map fun e =>
      { a with enc := some e, changing := none, loaded := some e :: a.loaded,
               past := e.writePolicy :: a.past }
  | .reopen hasKeys config =>
    (initEncryption collection hasKeys a.block config).map fun enc =>
      { block := enc, enc := enc, changing := none, loaded := [enc], hasKeys := hasKeys,
        past := (enc.map Encryptor.writePolicy).toList ++ a.past }

def Encryptor.Like (d e : Encryptor) : Prop :=
  d.collection = e.collection ∧ d.readMode = e.readMode

/-- It seals in the way it reads, if at all, and leaves the key of a record alone. -/
structure Encryptor.Proper (e : Encryptor) : Prop where
  mode : e.writePolicy.mode = none ∨ e.writePolicy.mode = some e.readMode
  key : e.isEncryptedField keyField = false

/-- What the policy calls and an open install: a policy that seals nothing, or one that is valid and
of the mode in which records are read. -/
def Encryptor.Installed (e : Encryptor) : Prop :=
  e.writePolicy = .disabled ∨ e.writePolicy.validate = none ∧ e.writePolicy.mode = some e.readMode

instance (e : Encryptor) : Decidable e.Installed :=
  inferInstanceAs (Decidable (_ ∨ _))

theorem Encryptor.Installed.proper {e : Encryptor} (h : e.Installed) : e.Proper := by
  rcases h with h | ⟨hvalid, hmode⟩
  · refine ⟨Or.inl (by rw [h]; rfl), ?_⟩
    unfold Encryptor.isEncryptedField
    rw [h]
    rfl
  · exact ⟨Or.inr hmode, Policy.key_clear hvalid⟩

theorem firstEncryptor_installed {collection : String} {hasKeys : Bool} {p : Policy} {e : Encryptor}
    (h : firstEncryptor collection hasKeys p = some e) : e.Installed := by
  obtain ⟨⟨hv, -⟩, h⟩ := ite_none_right_eq_some.mp h
  obtain ⟨m, hm, rfl⟩ := map_eq_some_iff.mp h
  exact Or.inr ⟨hv, hm⟩

theorem setEncryptionPolicy_installed {collection : String} {hasKeys : Bool} {cur : Option Encryptor}
    {policy : Option Policy} {e : Encryptor}
    (h : setEncryptionPolicy collection hasKeys cur policy = some e) :
    e.Installed ∧ ∀ d ∈ cur, e.Like d := by
  cases policy with
  | none =>
    cases cur with
    | none => cases h
    | some c =>
      obtain ⟨-, rfl⟩ := Runs.guarded h
      refine ⟨Or.inl rfl, fun d hd => ?_⟩
      cases hd
      exact ⟨rfl, rfl⟩
  | some p =>
    cases cur with
    | none => exact ⟨firstEncryptor_installed h, nofun⟩
    | some c =>
      obtain ⟨⟨hv, hm⟩, rfl⟩ := Runs.guarded h
      refine ⟨Or.inr ⟨hv, hm⟩, fun d hd => ?_⟩
      cases hd
      exact ⟨rfl, rfl⟩

/-- Every encryptor around has been installed and reads like the one in effect. -/
structure Admin.Sound (a : Admin) : Prop where
  installed : ∀ e, a.block = some e ∨ a.enc = some e ∨ a.changing = some e ∨ some e ∈ a.loaded →
    e.Installed
  block : ∀ d, a.enc = some d → ∃ e, a.block = some e ∧ e.Like d
  changing : ∀ e, a.changing = some e → ∀ d, a.enc = some d → e.Like d
  written : ∀ e, a.changing = some e → ∃ b, a.block = some b ∧ b.Like e
  loaded : ∀ e, some e ∈ a.loaded → ∃ d, a.enc = some d ∧ e.Like d

theorem Admin.Sound.proper {a : Admin} (h : a.Sound) (e : Encryptor)
    (he : a.block = some e ∨ a.enc = some e ∨ a.changing = some e ∨ some e ∈ a.loaded) : e.Proper :=
  (h.installed e he).proper

theorem Admin.fresh_sound (hasKeys : Bool) : (Admin.fresh hasKeys).Sound := by
  refine ⟨fun e he => ?_, nofun, nofun,
    nofun, fun e he => ?_⟩
  · rcases he with he | he | he | he
    · cases he
    · cases he
    · cases he
    · cases mem_singleton.mp he
  · cases mem_singleton.mp he

section

variable {collection : String} {a a' : Admin}

theorem Admin.Sound.change (h : a.Sound) {next : Option Encryptor}
    (hnext : ∀ e, next = some e → e.Installed ∧ ∀ d, a.enc = some d → e.Like d)
    (hs : a.change next = some a') :
    a'.Sound ∧ a'.enc = a.enc ∧ a'.loaded = a.loaded ∧ a'.past = a.past := by
  obtain ⟨-, hs⟩ := ite_none_right_eq_some.mp hs
  obtain ⟨e, he, rfl⟩ := map_eq_some_iff.mp hs
  obtain ⟨hinstalled, hlike⟩ := hnext e he
  refine ⟨⟨fun d hd => ?_, fun d hd => ⟨e, rfl, hlike d hd⟩, fun d hd => ?_,
    fun d hd => ⟨d, hd, rfl, rfl⟩, h.loaded⟩, rfl, rfl, rfl⟩
  · rcases hd with hd | hd | hd | hd
    · cases hd
      exact hinstalled
    · exact h.installed d (Or.inr (Or.inl hd))
    · cases hd
      exact hinstalled
    · exact h.installed d (Or.inr (Or.inr (Or.inr hd)))
  · cases hd
    exact hlike

theorem initEncryption_some {hasKeys : Bool} {block : Option Encryptor} {config : Option Policy}
    {enc : Option Encryptor} (h : initEncryption collection hasKeys block config = some enc)
    {e : Encryptor} (he : enc = some e) : block = some e ∨ block = none ∧ e.Installed := by
  subst he
  cases block with
  | some b =>
    obtain ⟨-, h⟩ := ite_none_right_eq_some.mp h
    exact Or.inl (Option.some.inj h)
  | none =>
    cases config with
    | some p =>
      obtain ⟨c, hc, hce⟩ := map_eq_some_iff.mp h
      cases hce
      exact Or.inr ⟨rfl, firstEncryptor_installed hc⟩
    | none => cases h

theorem Admin.Sound.step (h : a.Sound) {act : AdminAct} (hs : a.step collection act = some a') :
    a'.Sound ∧ (a.enc = none ∨ ∃ d e, a.enc = some d ∧ a'.enc = some e ∧ e.Like d) := by
  have hself : a.enc = none ∨ ∃ d e, a.enc = some d ∧ a.enc = some e ∧ e.Like d := by
    cases henc : a.enc with
    | none => exact Or.inl rfl
    | some d => exact Or.inr ⟨d, d, rfl, rfl, rfl, rfl⟩
  cases act with
  | setPolicy policy =>
    obtain ⟨hsound, henc, -, -⟩ := h.change (fun e he => setEncryptionPolicy_installed he) hs
    rw [henc]
    exact ⟨hsound, hself⟩
  | rotateKey =>
    obtain ⟨hsound, henc, -, -⟩ := h.change (fun e he => by
      obtain ⟨c, hc, rfl⟩ := map_eq_some_iff.mp he
      have hp := h.installed c (Or.inr (Or.inl hc))
      refine ⟨hp, fun d hd => ?_⟩
      rw [hc] at hd
      cases hd
      exact ⟨rfl, rfl⟩) hs
    rw [henc]
    exact ⟨hsound, hself⟩
  | store =>
    obtain ⟨e, he, rfl⟩ := map_eq_some_iff.mp hs
    have hlike := h.changing e he
    have hinstalled := h.installed e (Or.inr (Or.inr (Or.inl he)))
    refine ⟨⟨fun d hd => ?_, fun d hd => ?_, nofun, nofun,
      fun d hd => ?_⟩, ?_⟩
    · rcases hd with hd | hd | hd | hd
      · exact h.installed d (Or.inl hd)
      · cases hd
        exact hinstalled
      · cases hd
      · rcases mem_cons.mp hd with hd | hd
        · cases hd
          exact hinstalled
        · exact h.installed d (Or.inr (Or.inr (Or.inr hd)))
    · cases hd
      exact h.written e he
    · refine ⟨e, rfl, ?_⟩
      rcases mem_cons.mp hd with hd | hd
      · cases hd
        exact ⟨rfl, rfl⟩
      · obtain ⟨c, hc, hdc⟩ := h.loaded d hd
        exact ⟨hdc.1.trans (hlike c hc).1.symm, hdc.2.trans (hlike c hc).2.symm⟩
    · cases henc : a.enc with
      | none => exact Or.inl rfl
      | some d => exact Or.inr ⟨d, e, rfl, rfl, hlike d henc⟩
  | reopen hasKeys config =>
    obtain ⟨enc, henc, rfl⟩ := map_eq_some_iff.mp hs
    have hinstalled : ∀ e, enc = some e → e.Installed := by
      intro e he
      rcases initEncryption_some henc he with hb | ⟨-, hp⟩
      · exact h.installed e (Or.inl hb)
      · exact hp
    refine ⟨⟨fun e he => ?_, fun d hd => ⟨d, hd, rfl, rfl⟩, nofun,
      nofun, fun e he => ⟨e, (mem_singleton.mp he).symm, rfl, rfl⟩⟩, ?_⟩
    · rcases he with he | he | he | he
      · exact hinstalled e he
      · exact hinstalled e he
      · cases he
      · exact hinstalled e (mem_singleton.mp he).symm
    · cases hd : a.enc with
      | none => exact Or.inl rfl
      | some d =>
        obtain ⟨b, hb, hlike⟩ := h.block d hd
        rw [hb] at henc
        obtain ⟨-, henc⟩ := ite_none_right_eq_some.mp henc
        exact Or.inr ⟨d, b, rfl, (Option.some.inj henc).symm, hlike⟩

end

theorem isEncrypted_envelope (keyID : String) (payload : List Char) :
    isEncrypted (envelope keyID payload) = true := by
  unfold isEncrypted envelope
  rw [String.toList_ofList]
  exact isPrefixOf_iff_prefix.mpr ⟨"v1:".toList ++ keyID.toList ++ ':' :: payload, by
    simp only [append_assoc]
    rfl⟩

theorem takeWhile_colon {xs : List Char} (h : ':' ∉ xs) (ys : List Char) :
    (xs ++ ':' :: ys).takeWhile (· ≠ ':') = xs ∧ (xs ++ ':' :: ys).dropWhile (· ≠ ':') = ':' :: ys := by
  have hne : ∀ x ∈ xs, decide (x ≠ ':') = true := by
    intro x hx
    exact decide_eq_true fun he => h (he ▸ hx)
  constructor
  · rw [takeWhile_append_of_pos hne]
    simp
  · rw [dropWhile_append_of_pos hne]
    simp

/-- An envelope is parsed back into its key id and payload. -/
theorem parseEnvelope_envelope {keyID : String} (h : validKeyID keyID = true)
    (payload : List Char) : parseEnvelope (envelope keyID payload) = some (keyID, payload) := by
  obtain ⟨hne, hcolon⟩ := Bool.and_eq_true_iff.mp h
  have hno : ':' ∉ keyID.toList := by simpa using hcolon
  have hid : keyID.toList ≠ [] := by
    intro he
    have : keyID = "" := by rw [← String.ofList_toList (s := keyID), he]
    rw [this] at hne
    cases hne
  have hrest : (envelope keyID payload).toList.drop (marker.length + 1) =
      "v1".toList ++ ':' :: (keyID.toList ++ ':' :: payload) := by
    unfold envelope
    rw [String.toList_ofList]
    simp only [append_assoc]
    rfl
  have hv := takeWhile_colon (show ':' ∉ "v1".toList by decide) (keyID.toList ++ ':' :: payload)
  have hk := takeWhile_colon hno payload
  unfold parseEnvelope
  simp only [isEncrypted_envelope, hrest, hv.1, hv.2, drop_succ_cons, drop_zero, hk.1,
    hk.2, hid, guard, ne_eq, not_false_eq_true, if_true, reduceCtorEq, Option.pure_def,
    Option.bind_eq_bind, Option.bind_some, String.ofList_toList]

end Scriva.Encryption
