import Scriva.Encryption
import Scriva.StoredData
import Scriva.Lib.Traverse

namespace Scriva

open JsonText List Option

namespace Encryption

section

variable {c : Cipher} {keys : Keys} {d e : Encryptor} {k : Sealing} {data stored : Data}

/-- The values that a reader leaves as they are: in one mode those without the marker, in the other
every field but the one of the blob. -/
def readsAsIs (mode : Mode) (data : Data) : Bool :=
  match mode with
  | .fields => data.all fun kv => match kv.2 with
    | .str s => !isEncrypted s
    | _ => true
  | .record => (data.get secureDataField).isNone

theorem decryptWith_envelope (hid : validKeyID k.keyID = true) (hk : keys k.keyID = some k.key)
    (nonce : Nat) (plain aad : List Char) :
    decryptWith c keys (envelope k.keyID (c.sealText k.key nonce plain aad)) aad = some plain := by
  unfold decryptWith
  rw [parseEnvelope_envelope hid]
  simp only [bind_eq_bind, bind_some, hk]
  exact c.openText_sealText k.key nonce plain aad

theorem parse_toJson (v : Value) : parse (render (toJson v)) = some (toJson v) := by
  have h : parse (render (toJson v) ++ []) = some (toJson v) :=
    parse_render (toJson_valid v) (by simp)
  rwa [append_nil] at h

theorem maybeDecrypt_sealValue (hl : d.collection = e.collection) (hid : validKeyID k.keyID = true)
    (hk : keys k.keyID = some k.key) (field : String) (v : Value) :
    d.maybeDecryptValue c keys field (e.sealValue c k field v) = some (persistedValue v) := by
  have haad : d.aad field = e.aad field := by
    unfold Encryptor.aad
    rw [hl]
  unfold Encryptor.maybeDecryptValue Encryptor.sealValue
  simp only [isEncrypted_envelope, if_true, haad, decryptWith_envelope hid hk,
    bind_eq_bind, bind_some, parse_toJson, map_some]
  rfl

theorem maybeDecrypt_asIs {v : Value} (h : ∀ s, v = .str s → isEncrypted s = false)
    (field : String) :
    d.maybeDecryptValue c keys field (persistedValue v) = some (persistedValue v) := by
  cases v with
  | str s =>
    have hs : persistedValue (.str s) = .str s := rfl
    rw [hs]
    simp [Encryptor.maybeDecryptValue, h s rfl]
  | null => rfl
  | bool b => rfl
  | int n => rfl
  | float x => rfl
  | list xs => rfl
  | map kvs => rfl

theorem readsAsIs_fields (h : readsAsIs .fields data = true) {kv : String × Value} (hkv : kv ∈ data)
    {s : String} (hs : kv.2 = .str s) : isEncrypted s = false := by
  have hall := all_eq_true.mp h kv hkv
  rw [hs] at hall
  simpa using hall

theorem filter_secure (h : data.get secureDataField = none) :
    (data.filter fun kv => kv.1 != secureDataField) = data := by
  refine filter_eq_self.mpr fun kv hkv => ?_
  rw [bne_iff_ne]
  intro hf
  have hsome : (data.find? fun kv => kv.1 == secureDataField).isSome = true :=
    List.find?_isSome.mpr ⟨kv, hkv, by simp [hf]⟩
  unfold Data.get at h
  rw [Option.map_eq_none_iff] at h
  rw [h] at hsome
  cases hsome

theorem materialize_asIs (h : readsAsIs d.readMode data = true) :
    d.materialize c keys (asRead data) = some (asRead data) := by
  unfold Encryptor.materialize
  cases hm : d.readMode with
  | fields =>
    rw [hm] at h
    have hself : ∀ kv ∈ asRead data,
        (d.maybeDecryptValue c keys kv.1 kv.2).map (kv.1, ·) = some (id kv) := by
      intro kv hkv
      obtain ⟨kw, hkw, rfl⟩ := mem_map.mp hkv
      dsimp only
      rw [maybeDecrypt_asIs fun s hs => readsAsIs_fields h hkw hs]
      rfl
    dsimp only
    rw [Traverse.mapM_eq_pure hself, List.map_id]
    rfl
  | record =>
    rw [hm] at h
    have hnone : data.get secureDataField = none := isNone_iff_eq_none.mp h
    have hread : (asRead data).get secureDataField = none := by
      rw [get_asRead, hnone]
      rfl
    dsimp only
    rw [hread]
    simp [Encryptor.decryptBlob, filter_secure hread]

theorem materialize_fields (hm : d.readMode = .fields) (hl : d.collection = e.collection)
    (hid : validKeyID k.keyID = true) (hk : keys k.keyID = some k.key)
    (h : readsAsIs .fields data = true) :
    d.materialize c keys (asRead (data.map fun kv =>
      if e.writePolicy.fields.contains kv.1 then (kv.1, e.sealValue c k kv.1 kv.2) else kv)) =
      some (asRead data) := by
  unfold Encryptor.materialize
  rw [hm]
  dsimp only
  unfold asRead
  rw [List.map_map, mapM_map]
  refine Traverse.mapM_eq_pure fun kv hkv => ?_
  dsimp only [Function.comp]
  split
  · have hv : persistedValue (e.sealValue c k kv.1 kv.2) = e.sealValue c k kv.1 kv.2 := rfl
    rw [hv, maybeDecrypt_sealValue hl hid hk]
    rfl
  · rw [maybeDecrypt_asIs fun s hs => readsAsIs_fields h hkv hs]
    rfl

theorem decryptBlob_sealValue (hl : d.collection = e.collection) (hid : validKeyID k.keyID = true)
    (hk : keys k.keyID = some k.key) {rest : Data} (hr : KeysAscend rest) :
    d.decryptBlob c keys (some (e.sealValue c k secureDataField (.map rest))) =
      some (asRead rest) := by
  have haad : d.aad secureDataField = e.aad secureDataField := by
    unfold Encryptor.aad
    rw [hl]
  unfold Encryptor.decryptBlob Encryptor.sealValue
  simp only [isEncrypted_envelope, if_true, haad, decryptWith_envelope hid hk,
    bind_eq_bind, bind_some, parse_toJson]
  simp only [toJson]
  rw [membersOfJson_asRead hr]

theorem columns_with_rest (hasc : KeysAscend data) (p : String → Bool) :
    (asRead (data.filter fun kv => !p kv.1)).foldl (fun out kv => out.set kv.1 kv.2)
      (asRead (data.filter fun kv => p kv.1)) = asRead data := by
  have hrest : KeysAscend (asRead (data.filter fun kv => !p kv.1)) :=
    keysAscend_asRead (keysAscend_filter hasc _)
  refine eq_of_get (keysAscend_foldl_set (keysAscend_asRead (keysAscend_filter hasc _)) _)
    (keysAscend_asRead hasc) fun f => ?_
  rw [get_foldl_set hrest, get_asRead, get_asRead, get_asRead, get_filter,
    get_filter data (fun f => !p f)]
  cases hp : p f with
  | true => simp
  | false => simp

theorem materialize_record (hm : d.readMode = .record) (hl : d.collection = e.collection)
    (hid : validKeyID k.keyID = true) (hk : keys k.keyID = some k.key) (hasc : KeysAscend data)
    (h : data.get secureDataField = none) (p : String → Bool) :
    d.materialize c keys (asRead (Data.set secureDataField
      (e.sealValue c k secureDataField (.map (data.filter fun kv => !p kv.1)))
      (data.filter fun kv => p kv.1))) = some (asRead data) := by
  generalize hv : e.sealValue c k secureDataField (.map (data.filter fun kv => !p kv.1)) = v
  have hpv : persistedValue v = v := by
    subst hv
    rfl
  have hblob : (asRead (Data.set secureDataField v (data.filter fun kv => p kv.1))).get
      secureDataField = some v := by
    rw [get_asRead, get_setKey, if_pos rfl, map_some, hpv]
  have hcols : ((asRead (Data.set secureDataField v (data.filter fun kv => p kv.1))).filter
      fun kv => kv.1 != secureDataField) = asRead (data.filter fun kv => p kv.1) := by
    have hcasc := keysAscend_filter hasc fun kv => p kv.1
    refine eq_of_get (keysAscend_filter (keysAscend_asRead (keysAscend_set hcasc _ _)) _)
      (keysAscend_asRead hcasc) fun f => ?_
    rw [get_filter _ (fun f => f != secureDataField), get_asRead, get_asRead, get_setKey, get_filter]
    by_cases hf : f = secureDataField
    · subst hf
      simp [h]
    · simp [hf, Ne.symm hf]
  unfold Encryptor.materialize
  rw [hm]
  dsimp only
  rw [hblob, hcols, ← hv, decryptBlob_sealValue hl hid hk (keysAscend_filter hasc _)]
  simp only [bind_eq_bind, bind_some, Option.pure_def]
  rw [columns_with_rest hasc p]

/-- A record that is sealed by one encryptor of a collection and goes through a line is read by any
other one as it was written. -/
theorem materialize_sealData (hp : e.Proper) (hl : d.Like e) (hk : keys k.keyID = some k.key)
    (hasc : KeysAscend data) (has : readsAsIs e.readMode data = true)
    (h : e.sealData c k data = some stored) :
    d.materialize c keys (asRead stored) = some (asRead data) := by
  obtain ⟨hcol, hmode⟩ := hl
  unfold Encryptor.sealData at h
  rcases hp.mode with hw | hw
  · rw [hw] at h
    cases h
    exact materialize_asIs (hmode ▸ has)
  · rw [hw] at h
    cases hm : e.readMode with
    | fields =>
      rw [hm] at h hmode has
      obtain ⟨hid, rfl⟩ := Runs.guarded h
      exact materialize_fields hmode hcol hid hk has
    | record =>
      rw [hm] at h hmode
      obtain ⟨⟨hid, hnone⟩, rfl⟩ := Runs.guarded h
      exact materialize_record hmode hcol hid hk hasc (isNone_iff_eq_none.mp hnone)
        e.writePolicy.column

theorem sealFields_eq (e : Encryptor) (k : Sealing) (data : Data) :
    (data.map fun kv => if e.writePolicy.fields.contains kv.1 then (kv.1, e.sealValue c k kv.1 kv.2)
      else kv) = data.map fun kv =>
        (kv.1, if e.writePolicy.fields.contains kv.1 then e.sealValue c k kv.1 kv.2 else kv.2) := by
  refine map_congr_left fun kv _ => ?_
  split <;> rfl

theorem sealData_keysAscend (hasc : KeysAscend data) (h : e.sealData c k data = some stored) :
    KeysAscend stored := by
  unfold Encryptor.sealData at h
  split at h
  · cases h
    exact hasc
  · obtain ⟨-, rfl⟩ := Runs.guarded h
    rw [sealFields_eq]
    exact keysAscend_map hasc fun f v =>
      if e.writePolicy.fields.contains f then e.sealValue c k f v else v
  · obtain ⟨-, rfl⟩ := Runs.guarded h
    exact keysAscend_set (keysAscend_filter hasc _) _ _

/-- Every value of a sealed record is an envelope or a value of the record. -/
theorem sealData_mem (h : e.sealData c k data = some stored) {kv : String × Value}
    (hkv : kv ∈ stored) : (∃ s, kv.2 = .str s) ∨ kv ∈ data := by
  unfold Encryptor.sealData at h
  split at h
  · cases h
    exact Or.inr hkv
  · obtain ⟨-, rfl⟩ := Runs.guarded h
    obtain ⟨kw, hkw, rfl⟩ := mem_map.mp hkv
    split
    · exact Or.inl ⟨_, rfl⟩
    · exact Or.inr hkw
  · obtain ⟨-, rfl⟩ := Runs.guarded h
    rcases mem_set hkv with rfl | hkv
    · exact Or.inl ⟨_, rfl⟩
    · exact Or.inr (mem_filter.mp hkv).1

theorem sealData_ne_nil (hne : data ≠ []) (h : e.sealData c k data = some stored) :
    stored ≠ [] := by
  unfold Encryptor.sealData at h
  split at h
  · cases h
    exact hne
  · obtain ⟨-, rfl⟩ := Runs.guarded h
    simpa using hne
  · obtain ⟨-, rfl⟩ := Runs.guarded h
    exact set_ne_nil _ _ _

/-- The line of a record that decodes also decodes once the record is sealed. -/
theorem sealData_decodable (hd : decodable (some data) = true)
    (h : e.sealData c k data = some stored) : decodable (some stored) = true := by
  unfold decodable at hd ⊢
  rw [Bool.and_eq_true, Bool.not_eq_true', List.isEmpty_eq_false_iff] at hd ⊢
  refine ⟨sealData_ne_nil hd.1 h, hasExact_iff.mpr fun kv hkv => ?_⟩
  rcases sealData_mem h hkv with ⟨s, hs⟩ | hkv
  · rw [hs]
    rfl
  · exact hasExact_iff.mp hd.2 kv hkv

theorem sealData_decoded (hd : DecodedMembers data) (h : e.sealData c k data = some stored) :
    DecodedMembers stored := by
  refine decodedMembers_iff.mpr fun kv hkv => ?_
  rcases sealData_mem h hkv with ⟨s, hs⟩ | hkv
  · rw [hs]
    trivial
  · exact decodedMembers_iff.mp hd kv hkv

/-- A field that is not encrypted is stored as it is. -/
theorem sealData_get (hi : e.Installed) (h : e.sealData c k data = some stored) {f : String}
    (hf : e.isEncryptedField f = false) : stored.get f = data.get f := by
  unfold Encryptor.isEncryptedField Policy.isEncryptedField at hf
  unfold Encryptor.sealData at h
  cases hw : e.writePolicy.mode with
  | none =>
    rw [hw] at h
    cases h
    rfl
  | some m =>
    rw [hw] at h hf
    cases m with
    | fields =>
      obtain ⟨-, rfl⟩ := Runs.guarded h
      have hf : e.writePolicy.fields.contains f = false := hf
      rw [sealFields_eq, get_map data (fun f v =>
        if e.writePolicy.fields.contains f then e.sealValue c k f v else v), hf]
      simp
    | record =>
      obtain ⟨-, rfl⟩ := Runs.guarded h
      have hcolumn : e.writePolicy.column f = true := by
        simpa [Policy.column, imp_iff_not_or] using hf
      have hne : secureDataField ≠ f := by
        -- A valid policy does not keep the field of the blob as a column.
        rintro rfl
        rcases hi with hoff | ⟨hvalid, -⟩
        · rw [hoff] at hw
          cases hw
        · have hindexed : secureDataField ∈ e.writePolicy.indexFields := by
            simpa [Policy.column, secureDataField, keyField] using hcolumn
          rw [Policy.validate, hw] at hvalid
          dsimp only at hvalid
          rw [if_pos hindexed] at hvalid
          cases hvalid
      rw [get_setKey, if_neg hne, get_filter, hcolumn]
      rfl

theorem maybeDecrypt_decoded {field : String} {v w : Value} (hv : Decoded v)
    (h : d.maybeDecryptValue c keys field v = some w) : Decoded w := by
  unfold Encryptor.maybeDecryptValue at h
  split at h
  · split at h
    · obtain ⟨text, -, h⟩ := bind_eq_some_iff.mp h
      obtain ⟨j, -, rfl⟩ := map_eq_some_iff.mp h
      exact decoded_ofJson j
    · cases h
      exact hv
  · cases h
    exact hv

theorem decryptBlob_decoded {blob : Option Value} {m : Data}
    (h : d.decryptBlob c keys blob = some m) : DecodedMembers m := by
  unfold Encryptor.decryptBlob at h
  split at h
  · split at h
    · obtain ⟨text, -, h⟩ := bind_eq_some_iff.mp h
      split at h
      · cases h
        exact (decoded_membersOfJson _ _ List.Pairwise.nil trivial).2
      · cases h
        trivial
      · cases h
    · cases h
      trivial
  · cases h
    trivial

theorem foldl_set_decoded {more m : Data} (hmore : DecodedMembers more) (hm : DecodedMembers m) :
    DecodedMembers (more.foldl (fun out kv => out.set kv.1 kv.2) m) := by
  induction more generalizing m with
  | nil => exact hm
  | cons kv more ih => exact ih hmore.2 (decodedMembers_set hm hmore.1)

/-- What a decoder has produced is materialized into what a decoder produces. -/
theorem materialize_decoded {plain : Data} (hasc : KeysAscend stored) (hd : DecodedMembers stored)
    (h : d.materialize c keys stored = some plain) : KeysAscend plain ∧ DecodedMembers plain := by
  unfold Encryptor.materialize at h
  split at h
  · have hall := (Traverse.forall₂_of_mapM_some h).imp fun _ _ => map_eq_some_iff.mp
    have hkeys : Forall₂ (· = ·) (stored.map Prod.fst) (plain.map Prod.fst) := by
      refine forall₂_map_left_iff.mpr (forall₂_map_right_iff.mpr (hall.imp fun kv kw hkw => ?_))
      obtain ⟨w, -, rfl⟩ := hkw
      rfl
    rw [forall₂_eq_eq_eq] at hkeys
    refine ⟨pairwise_map.mp (hkeys ▸ pairwise_map.mpr hasc), decodedMembers_iff.mpr fun kw hkw => ?_⟩
    obtain ⟨kv, hkv, w, hw, rfl⟩ := Traverse.forall₂_mem hall hkw
    exact maybeDecrypt_decoded (decodedMembers_iff.mp hd kv hkv) hw
  · obtain ⟨m, hm, h⟩ := bind_eq_some_iff.mp h
    cases h
    exact ⟨keysAscend_foldl_set (keysAscend_filter hasc _) m, foldl_set_decoded
      (decryptBlob_decoded hm) (decodedMembers_iff.mpr fun kv hkv =>
        decodedMembers_iff.mp hd kv (mem_filter.mp hkv).1)⟩

theorem readsAsIs_asRead {mode : Mode} (h : readsAsIs mode data = true) :
    readsAsIs mode (asRead data) = true := by
  cases mode with
  | fields =>
    refine all_eq_true.mpr fun kv hkv => ?_
    obtain ⟨kw, hkw, rfl⟩ := mem_map.mp hkv
    dsimp only
    cases hv : kw.2 with
    | str s => simpa [persistedValue, toJson, ofJson] using readsAsIs_fields h hkw hv
    | null => rfl
    | bool b => rfl
    | int n => rfl
    | float x => rfl
    | list xs => rfl
    | map kvs => rfl
  | record =>
    have hnone : data.get secureDataField = none := isNone_iff_eq_none.mp h
    unfold readsAsIs
    rw [get_asRead, hnone]
    rfl

theorem map_set (g : String → Value → Value) (m : Data) (f : String) (v : Value) :
    (m.set f v).map (fun kv => (kv.1, g kv.1 kv.2)) =
      Data.set f (g f v) (m.map fun kv => (kv.1, g kv.1 kv.2)) := by
  induction m with
  | nil => rfl
  | cons kv m ih =>
    obtain ⟨k', v'⟩ := kv
    rw [map_cons]
    unfold Data.set
    split
    · rfl
    · split
      · rfl
      · rw [map_cons, ih]

theorem sealData_setKey (hp : e.Proper) (hasc : KeysAscend data)
    (h : e.sealData c k data = some stored) (v : Value) :
    e.sealData c k (data.set keyField v) = some (stored.set keyField v) := by
  have hne : keyField ≠ secureDataField := by decide
  unfold Encryptor.sealData at h ⊢
  cases hw : e.writePolicy.mode with
  | none =>
    rw [hw] at h
    cases h
    rfl
  | some m =>
    rw [hw] at h
    cases m with
    | fields =>
      obtain ⟨hid, rfl⟩ := Runs.guarded h
      have hkey : e.writePolicy.fields.contains keyField = false := by
        have := hp.key
        unfold Encryptor.isEncryptedField Policy.isEncryptedField at this
        rwa [hw] at this
      simp only [hid, if_true, sealFields_eq]
      rw [map_set (fun f v => if e.writePolicy.fields.contains f then e.sealValue c k f v else v)]
      simp only [hkey, Bool.false_eq_true, if_false]
    | record =>
      obtain ⟨⟨hid, hnone⟩, rfl⟩ := Runs.guarded h
      have hcolumn : e.writePolicy.column keyField = true := by simp [Policy.column]
      have hnone' : ((data.set keyField v).get secureDataField).isNone = true := by
        rwa [get_setKey, if_neg hne]
      have hrest : ((data.set keyField v).filter fun kv => !e.writePolicy.column kv.1) =
          data.filter fun kv => !e.writePolicy.column kv.1 := by
        refine eq_of_get (keysAscend_filter (keysAscend_set hasc _ _) _)
          (keysAscend_filter hasc _) fun f => ?_
        rw [get_filter _ (fun f => !e.writePolicy.column f),
          get_filter _ (fun f => !e.writePolicy.column f), get_setKey]
        by_cases hf : keyField = f
        · subst hf
          simp [hcolumn]
        · simp [hf]
      simp only [hid, hnone', and_self, if_true, hrest]
      refine congrArg some (eq_of_get (keysAscend_set (keysAscend_filter (keysAscend_set hasc _ _) _)
        _ _) (keysAscend_set (keysAscend_set (keysAscend_filter hasc _) _ _) _ _) fun f => ?_)
      rw [get_setKey, get_setKey, get_setKey, get_filter, get_filter, get_setKey]
      by_cases hf : secureDataField = f
      · subst hf
        simp [hne]
      · by_cases hf' : keyField = f
        · subst hf'
          simp [hf, hcolumn]
        · simp [hf, hf']

/-- What passes the guard of `encrypt` carries no marker, and is read as it is. -/
theorem readsAsIs_encrypt (h : e.encrypt c k data = some stored)
    (hrecord : e.readMode = .record → data.get secureDataField = none) :
    readsAsIs e.readMode data = true := by
  obtain ⟨hfree, -⟩ := ite_none_left_eq_some.mp h
  cases hm : e.readMode with
  | record => exact isNone_iff_eq_none.mpr (hrecord hm)
  | fields =>
    refine all_eq_true.mpr fun kv hkv => ?_
    cases hv : kv.2 with
    | str s =>
      by_contra hs
      have hmark : isEncrypted s = true := by simpa using hs
      refine hfree (any_eq_true.mpr ⟨kv, hkv, ?_⟩)
      rw [hv]
      have hpre := isPrefixOf_iff_prefix.mp hmark
      exact isPrefixOf_iff_prefix.mpr ((prefix_append marker [':']).trans hpre)
    | null => rfl
    | bool b => rfl
    | int n => rfl
    | float x => rfl
    | list xs => rfl
    | map kvs => rfl

end

end Encryption

/-- A collection's encryptor in effect: its policy, the cipher, the keys it finds by id and, for
each record it stores, the key it takes and the nonces. -/
structure Encryptor where
  policy : Encryption.Encryptor
  cipher : Encryption.Cipher
  keys : Encryption.Keys
  sealing : Data → Encryption.Sealing
  installed : policy.Installed
  resolves : ∀ m, keys (sealing m).keyID = some (sealing m).key

namespace Encryptor

variable (k : Encryptor)

def epoch : Nat :=
  k.policy.epoch

def isEncryptedField (field : String) : Bool :=
  k.policy.isEncryptedField field

/-- The plaintext of stored data; none on a decrypt error. -/
def materialize (stored : Option Data) : Option (Option Data) :=
  (k.policy.materialize k.cipher k.keys (stored.getD [])).map some

/-- The stored form of data, which is a map also where there was none. -/
def encrypt (data : Option Data) : Option (Option Data) :=
  (k.policy.encrypt k.cipher (k.sealing (data.getD [])) (data.getD [])).map some

/-- The encryptor of another policy, over the same cipher and keys. -/
def under (e : Encryption.Encryptor) : Encryptor :=
  if h : e.Installed then { k with policy := e, installed := h } else k

theorem under_policy {e : Encryption.Encryptor} (h : e.Installed) : (k.under e).policy = e := by
  rw [under, dif_pos h]

theorem key_clear : k.isEncryptedField keyField = false :=
  k.installed.proper.key

variable {k} {data plain stored : Option Data}

theorem encrypt_sealData (h : k.encrypt plain = some stored) : ∃ m, stored = some m ∧
    k.policy.sealData k.cipher (k.sealing (plain.getD [])) (plain.getD []) = some m := by
  obtain ⟨m, hm, rfl⟩ := map_eq_some_iff.mp h
  exact ⟨m, rfl, (ite_none_left_eq_some.mp hm).2⟩

theorem encrypt_get (h : k.encrypt plain = some stored) {f : String}
    (hf : k.isEncryptedField f = false) : (stored.getD []).get f = (plain.getD []).get f := by
  obtain ⟨m, rfl, hm⟩ := encrypt_sealData h
  exact Encryption.sealData_get k.installed hm hf

theorem encrypt_ascend (h : k.encrypt plain = some stored) (hasc : KeysAscend (plain.getD [])) :
    KeysAscend (stored.getD []) := by
  obtain ⟨m, rfl, hm⟩ := encrypt_sealData h
  exact Encryption.sealData_keysAscend hasc hm

variable (k) in
/-- What the encryptor reads of the data can be stored again: in record mode the field of the blob
is not among it, and it is not stored as an empty map, whose line would not decode. -/
def Restores (data : Option Data) : Prop :=
  ∀ plain ∈ k.materialize data,
    (k.policy.readMode = .record → (plain.getD []).get Encryption.secureDataField = none) ∧
      k.encrypt plain ≠ some (some [])

instance : Decidable (k.Restores data) :=
  inferInstanceAs (Decidable (∀ plain ∈ k.materialize data, _))

/-- A record that is re-encrypted is read as before, from a line that decodes. -/
theorem reencrypted (hd : decodable data = true) (hread : persistedData data = data)
    (hr : k.Restores data) (hplain : k.materialize data = some plain)
    (h : k.encrypt plain = some stored) :
    k.materialize stored = some plain ∧ decodable stored = true ∧
      persistedData stored = stored := by
  obtain ⟨hasc, hdec⟩ := decoded_of_persisted hd hread
  obtain ⟨m, hm, rfl⟩ := map_eq_some_iff.mp hplain
  obtain ⟨hrecord, hne⟩ := hr _ hplain
  obtain ⟨hmasc, hmdec⟩ := Encryption.materialize_decoded hasc hdec hm
  obtain ⟨s, hs, hseal⟩ := encrypt_sealData h
  subst hs
  obtain ⟨_, hs, -⟩ := map_eq_some_iff.mp h
  have hsdec := Encryption.sealData_decoded hmdec hseal
  have hsnil : s ≠ [] := by
    rintro rfl
    exact hne h
  have hsd := decodable_decoded hsdec hsnil
  refine ⟨?_, hsd, ?_⟩
  · have hmat := Encryption.materialize_sealData k.installed.proper ⟨rfl, rfl⟩
      (k.resolves _) hmasc (Encryption.readsAsIs_encrypt hs hrecord) hseal
    rw [asRead_decoded hsdec, asRead_decoded hmdec] at hmat
    exact map_eq_some_iff.mpr ⟨m, hmat, rfl⟩
  · rw [persistedData_some (Encryption.sealData_keysAscend hmasc hseal) hsd, asRead_decoded hsdec]

end Encryptor

end Scriva
