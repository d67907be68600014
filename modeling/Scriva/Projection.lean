import Scriva.EncryptionRuns

namespace Scriva

open List Option

/-- Sets the fields that have a value and are not skipped, one after another. -/
def setFrom (value : String → Option Value) (skip : Data → String → Bool) (fields : List String)
    (out : Data) : Data :=
  fields.foldl (fun out f => if skip out f then out else (value f).elim out (out.set f)) out

def pick (value : String → Option Value) : List String → Data → Data :=
  setFrom value fun _ _ => false

def projectData (data : Data) (fields : List String) : Data :=
  if fields = [] then data else pick data.get [keyField] (pick data.get fields [])

section

variable {value : String → Option Value} {skip : Data → String → Bool} {fields : List String}
  {data out : Data}

theorem keysAscend_setFrom (h : KeysAscend out) : KeysAscend (setFrom value skip fields out) := by
  induction fields generalizing out with
  | nil => exact h
  | cons g fields ih =>
    rw [setFrom, foldl_cons, ← setFrom]
    split
    · exact ih h
    · cases value g with
      | none => exact ih h
      | some v => exact ih (keysAscend_set h g v)

theorem get_pick (value : String → Option Value) (fields : List String) (out : Data) (f : String) :
    (pick value fields out).get f =
      (if f ∈ fields then value f else none).or (out.get f) := by
  induction fields generalizing out with
  | nil => rfl
  | cons g fields ih =>
    have hstep : pick value (g :: fields) out =
        pick value fields ((value g).elim out (out.set g)) := rfl
    rw [hstep, ih]
    cases hv : value g <;> grind [get_setKey]

theorem get_projectData (hne : fields ≠ []) (data : Data) (f : String) :
    (projectData data fields).get f = if f ∈ fields ∨ f = keyField then data.get f else none := by
  rw [projectData, if_neg hne, get_pick, get_pick]
  have hnil : Data.get [] f = none := rfl
  grind

theorem keysAscend_projectData (h : KeysAscend data) (fields : List String) :
    KeysAscend (projectData data fields) := by
  unfold projectData
  split
  · exact h
  · exact keysAscend_setFrom (keysAscend_setFrom .nil)

end

namespace Encryption

/-- The fields that are not set yet; the key of a record is not among them. -/
def fill (value : String → Option Value) : List String → Data → Data :=
  setFrom value fun out f => f == keyField || (out.get f).isSome

section Definitions

variable (c : Cipher) (keys : Keys)

def Encryptor.materializeFields (e : Encryptor) (stored : Data) (fields : List String) :
    Option Data := do
  let out ← fields.foldlM (fun (out : Data) f =>
    match stored.get f with
    | none => some out
    | some v => (e.maybeDecryptValue c keys f v).map (out.set f)) []
  return pick stored.get [keyField] out

def column (stored : Data) (f : String) : Option Value :=
  if f = keyField ∨ f = secureDataField then none else stored.get f

/-- The columns first, and the blob only for what is not among them. -/
def Encryptor.materializeRecord (e : Encryptor) (stored : Data) (fields : List String) :
    Option Data :=
  let out := pick stored.get [keyField] (pick (column stored) fields [])
  if fields.any fun f => f != keyField && (column stored f).isNone then
    (e.decryptBlob c keys (stored.get secureDataField)).map fun merged => fill merged.get fields out
  else some out

/-- `materialize`, of some fields; without any it is the one of the whole record. -/
def Encryptor.materializeOnly (e : Encryptor) (stored : Data) (fields : List String) :
    Option Data :=
  if fields = [] then e.materialize c keys stored
  else
    match e.readMode with
    | .fields => e.materializeFields c keys stored fields
    | .record => e.materializeRecord c keys stored fields

end Definitions

def envelopeAt (stored : Data) (f : String) : Bool :=
  match stored.get f with
  | some (.str s) => isEncrypted s
  | _ => false

/-- The field whose value is read in two ways if it is an envelope. -/
def Encryptor.reserved (e : Encryptor) : String :=
  match e.readMode with
  | .fields => keyField
  | .record => secureDataField

/-- A record as `encrypt` stores it, in memory or read back from a line, or a plaintext one whose
reserved field is no envelope. A key id leads to the key it was sealed under, or to none. -/
def Encryptor.Holds (c : Cipher) (keys : Keys) (d : Encryptor) (st : Data) : Prop :=
  (∃ (e : Encryptor) (k : Sealing) (data stored : Data), e.Proper ∧ d.Like e ∧
    (∀ key, keys k.keyID = some key → key = k.key) ∧ KeysAscend data ∧
    e.encrypt c k data = some stored ∧ (st = stored ∨ st = asRead stored)) ∨
  KeysAscend st ∧ envelopeAt st d.reserved = false

def Encryptor.unsealed (e : Encryptor) (stored : Data) (f : String) : Bool :=
  match e.readMode with
  | .fields => !envelopeAt stored f
  | .record => f == keyField || (column stored f).isSome || !envelopeAt stored secureDataField

def requested (stored : Data) (fields : List String) : List String :=
  if fields = [] then stored.map Prod.fst else fields

section

variable {c : Cipher} {keys : Keys} {d e : Encryptor} {k : Sealing} {data stored full out : Data}
  {fields : List String} {f : String}

theorem get_fill (value : String → Option Value) (fields : List String) (out : Data) (f : String) :
    (fill value fields out).get f =
      (out.get f).or (if f ∈ fields ∧ f ≠ keyField then value f else none) := by
  induction fields generalizing out with
  | nil => simp [fill, setFrom]
  | cons g fields ih =>
    have hstep : fill value (g :: fields) out = fill value fields
        (if g == keyField || (out.get g).isSome then out else (value g).elim out (out.set g)) := rfl
    rw [hstep, ih]
    cases hv : value g <;> cases ho : out.get g <;> grind [get_setKey]

theorem get_mapM {decrypt : String → Value → Option Value}
    (h : stored.mapM (fun kv => (decrypt kv.1 kv.2).map (kv.1, ·)) = some full) (f : String) :
    full.get f = (stored.get f).bind (decrypt f) ∧ (full.get f).isSome = (stored.get f).isSome := by
  induction stored generalizing full with
  | nil =>
    cases h
    exact ⟨rfl, rfl⟩
  | cons kv stored ih =>
    rw [mapM_cons] at h
    obtain ⟨p, hp, h⟩ := bind_eq_some_iff.mp h
    obtain ⟨rest, hrest, h⟩ := bind_eq_some_iff.mp h
    cases h
    obtain ⟨w, hw, rfl⟩ := map_eq_some_iff.mp hp
    rw [get_cons, get_cons]
    by_cases hf : kv.1 = f
    · subst hf
      simp [hw]
    · rw [if_neg hf, if_neg hf]
      exact ih hrest

theorem maybeDecrypt_clear {v : Value} (h : envelopeAt stored f = false)
    (hv : stored.get f = some v) : d.maybeDecryptValue c keys f v = some v := by
  rw [envelopeAt, hv] at h
  cases v with
  | str s => simp [Encryptor.maybeDecryptValue, show isEncrypted s = false from h]
  | _ => rfl

theorem decryptBlob_clear (h : envelopeAt stored secureDataField = false) :
    d.decryptBlob c keys (stored.get secureDataField) = some [] := by
  unfold envelopeAt at h
  unfold Encryptor.decryptBlob
  split
  · next s hs =>
    rw [hs] at h
    rw [show isEncrypted s = false from h]
    rfl
  · rfl

theorem foldlM_pick {value : String → Option Value}
    (h : ∀ f ∈ fields, ∀ v, stored.get f = some v →
      ∃ w, d.maybeDecryptValue c keys f v = some w ∧ value f = some w)
    (hnone : ∀ f, stored.get f = none → value f = none) (out : Data) :
    fields.foldlM (fun (out : Data) f =>
      match stored.get f with
      | none => some out
      | some v => (d.maybeDecryptValue c keys f v).map (out.set f)) out =
      some (pick value fields out) := by
  induction fields generalizing out with
  | nil => rfl
  | cons g fields ih =>
    have ih := ih fun f hf => h f (mem_cons_of_mem _ hf)
    have hstep : pick value (g :: fields) out =
        pick value fields ((value g).elim out (out.set g)) := rfl
    rw [foldlM_cons, hstep]
    cases hg : stored.get g with
    | none =>
      rw [hnone g hg]
      exact ih out
    | some v =>
      obtain ⟨w, hd, hw⟩ := h g mem_cons_self v hg
      simp only [hd, hw, map_some, elim_some]
      exact ih _

theorem materializeFields_eq (hm : d.readMode = .fields) (hkey : envelopeAt stored keyField = false)
    (h : d.materialize c keys stored = some full) (hne : fields ≠ []) :
    d.materializeFields c keys stored fields = some (projectData full fields) := by
  unfold Encryptor.materialize at h
  rw [hm] at h
  have hnone : ∀ f, stored.get f = none → full.get f = none := by
    intro f hf
    rw [(get_mapM h f).1, hf]
    rfl
  have hread : ∀ f v, stored.get f = some v →
      ∃ w, d.maybeDecryptValue c keys f v = some w ∧ full.get f = some w := by
    intro f v hv
    obtain ⟨hget, hsome⟩ := get_mapM h f
    rw [hv] at hget hsome
    obtain ⟨w, hw⟩ := isSome_iff_exists.mp hsome
    exact ⟨w, hget.symm.trans hw, hw⟩
  have hsame : stored.get keyField = full.get keyField := by
    cases hv : stored.get keyField with
    | none => exact (hnone keyField hv).symm
    | some v =>
      obtain ⟨w, hd, hw⟩ := hread keyField v hv
      rw [hw, ← hd, maybeDecrypt_clear hkey hv]
  rw [Encryptor.materializeFields, foldlM_pick (fun f _ => hread f) hnone, projectData, if_neg hne]
  simp [pick, setFrom, hsame]

theorem materializeRecord_eq (hm : d.readMode = .record) (hasc : KeysAscend stored)
    (hblob : ∀ m, d.decryptBlob c keys (stored.get secureDataField) = some m → KeysAscend m ∧
      m.get keyField = none ∧ ∀ f, (column stored f).isSome → m.get f = none)
    (h : d.materialize c keys stored = some full) (hne : fields ≠ []) :
    d.materializeRecord c keys stored fields = some (projectData full fields) := by
  unfold Encryptor.materialize at h
  rw [hm] at h
  obtain ⟨m, hmerged, h⟩ := bind_eq_some_iff.mp h
  obtain ⟨hmasc, hmkey, hdisjoint⟩ := hblob m hmerged
  have hnil : ∀ f, Data.get [] f = none := fun _ => rfl
  have hkey : column stored keyField = none := rfl
  have hfull : ∀ f, full.get f =
      (m.get f).or (if f = keyField then stored.get f else column stored f) := by
    intro f
    cases h
    rw [get_foldl_set hmasc, get_filter _ (fun f => f != secureDataField), column]
    have hne : keyField ≠ secureDataField := by decide
    grind
  have hasc : KeysAscend full := by
    cases h
    exact keysAscend_foldl_set (keysAscend_filter hasc _) _
  clear h
  unfold Encryptor.materializeRecord
  rw [hmerged]
  dsimp only
  -- A field is in a column or in the blob, so it does not matter where it is looked for first.
  split
  · refine congrArg some (eq_of_get (keysAscend_setFrom (keysAscend_setFrom (keysAscend_setFrom
      .nil))) (keysAscend_projectData hasc _) fun f => ?_)
    rw [get_projectData hne, hfull, get_fill, get_pick, get_pick]
    have hcol := hdisjoint f
    cases hs : column stored f <;> grind
  · next hcols =>
    refine congrArg some (eq_of_get (keysAscend_setFrom (keysAscend_setFrom .nil))
      (keysAscend_projectData hasc _) fun f => ?_)
    have hthere : f ∈ fields → f ≠ keyField → (column stored f).isSome = true := by
      intro hf hne
      by_contra hno
      exact hcols (any_eq_true.mpr ⟨f, hf, by simpa [hne] using hno⟩)
    rw [get_projectData hne, hfull, get_pick, get_pick]
    have hcol := hdisjoint f
    cases hs : column stored f <;> grind

variable {st : Data}

theorem stored_or_read (h : st = stored ∨ st = asRead stored) (hasc : KeysAscend stored) :
    KeysAscend st ∧ ∀ f, (st.get f).isSome = (stored.get f).isSome ∧
      envelopeAt st f = envelopeAt stored f ∧
      ∀ s, stored.get f = some (.str s) → st.get f = some (.str s) := by
  rcases h with rfl | rfl
  · exact ⟨hasc, fun f => ⟨rfl, rfl, fun _ hs => hs⟩⟩
  · refine ⟨keysAscend_asRead hasc, fun f => ⟨?_, ?_, fun s hs => ?_⟩⟩
    · rw [get_asRead, isSome_map]
    · unfold envelopeAt
      rw [get_asRead]
      cases stored.get f with
      | none => rfl
      | some v => cases v <;> rfl
    · rw [get_asRead, hs]
      rfl

theorem encrypt_clear (hasc : KeysAscend data) (h : e.encrypt c k data = some stored)
    (f : String) : envelopeAt data f = false := by
  obtain ⟨hno, -⟩ := ite_none_left_eq_some.mp h
  unfold envelopeAt
  split
  · next s hs =>
    by_contra henc
    refine hno (any_eq_true.mpr ⟨(f, .str s), (mem_iff_get hasc f _).mpr hs, ?_⟩)
    have hpre := isPrefixOf_iff_prefix.mp (Bool.not_eq_false _ ▸ henc)
    exact isPrefixOf_iff_prefix.mpr ((prefix_append _ _).trans hpre)
  · rfl

theorem decryptBlob_some {rest m : Data} (hl : d.collection = e.collection)
    (hid : validKeyID k.keyID = true) (hk : ∀ key, keys k.keyID = some key → key = k.key)
    (hr : KeysAscend rest)
    (h : d.decryptBlob c keys (some (e.sealValue c k secureDataField (.map rest))) = some m) :
    m = asRead rest := by
  cases hkey : keys k.keyID with
  | none =>
    simp [Encryptor.decryptBlob, Encryptor.sealValue, isEncrypted_envelope, decryptWith,
      parseEnvelope_envelope hid, hkey] at h
  | some key =>
    rw [decryptBlob_sealValue hl hid (hk key hkey ▸ hkey) hr] at h
    exact (Option.some.inj h).symm

structure Encryptor.Splits (c : Cipher) (keys : Keys) (d : Encryptor) (st : Data) : Prop where
  ascend : KeysAscend st
  key : d.readMode = .fields → envelopeAt st keyField = false
  blob : d.readMode = .record → ∀ m, d.decryptBlob c keys (st.get secureDataField) = some m →
    KeysAscend m ∧ m.get keyField = none ∧ ∀ f, (column st f).isSome → m.get f = none

theorem plaintext_splits (hasc : KeysAscend st) (h : envelopeAt st d.reserved = false) :
    d.Splits c keys st := by
  unfold Encryptor.reserved at h
  refine ⟨hasc, fun hm => ?_, fun hm m hblob => ?_⟩
  · rwa [hm] at h
  · rw [hm] at h
    rw [decryptBlob_clear h] at hblob
    cases hblob
    exact ⟨.nil, rfl, fun _ _ => rfl⟩

/-- A record sealed whole: what is a column is not in the blob. -/
theorem record_splits (hl : d.Like e) (hm : e.readMode = .record) (hid : validKeyID k.keyID = true)
    (hk : ∀ key, keys k.keyID = some key → key = k.key) (hdata : KeysAscend data)
    (hcols : ∀ f, stored.get f = if secureDataField = f then
      some (e.sealValue c k secureDataField (.map (data.filter fun kv => !e.writePolicy.column kv.1)))
      else if e.writePolicy.column f then data.get f else none)
    (hasc : KeysAscend stored) (hst : st = stored ∨ st = asRead stored) : d.Splits c keys st := by
  obtain ⟨hasc, hsame⟩ := stored_or_read hst hasc
  have hmode : d.readMode = .record := hl.2.trans hm
  refine ⟨hasc, fun h => ?_, fun _ m hblob => ?_⟩
  · rw [hmode] at h
    cases h
  · rw [(hsame _).2.2 _ ((hcols _).trans (if_pos rfl))] at hblob
    obtain rfl := decryptBlob_some hl.1 hid hk (keysAscend_filter hdata _) hblob
    have hrest : ∀ f, e.writePolicy.column f = true →
        (asRead (data.filter fun kv => !e.writePolicy.column kv.1)).get f = none := by
      intro f hf
      rw [get_asRead, get_filter _ fun f => !e.writePolicy.column f]
      simp [hf]
    refine ⟨keysAscend_asRead (keysAscend_filter hdata _), hrest _ (by simp [Policy.column]), ?_⟩
    intro f hf
    refine hrest f ?_
    have hthere : f ≠ secureDataField ∧ (st.get f).isSome = true := by
      unfold column at hf
      split_ifs at hf with hno
      · cases hf
      · exact ⟨fun h => hno (Or.inr h), hf⟩
    rw [(hsame f).1, hcols, if_neg (Ne.symm hthere.1)] at hthere
    by_contra hno
    simp [hno] at hthere

theorem Encryptor.Holds.splits (h : d.Holds c keys st) : d.Splits c keys st := by
  obtain ⟨e, k, data, stored, hp, hl, hk, hdata, henc, hst⟩ | ⟨hasc, hclear⟩ := h
  · have hplain := encrypt_clear hdata henc
    obtain ⟨-, hseal⟩ := ite_none_left_eq_some.mp henc
    have hstored := sealData_keysAscend hdata hseal
    obtain ⟨hasc, hsame⟩ := stored_or_read hst hstored
    unfold Encryptor.sealData at hseal
    rcases hp.mode with hw | hw
    · rw [hw] at hseal
      cases hseal
      exact plaintext_splits hasc ((hsame _).2.1.trans (hplain _))
    · rw [hw] at hseal
      cases hm : e.readMode with
      | fields =>
        rw [hm] at hseal
        obtain ⟨-, hseal⟩ := ite_none_right_eq_some.mp hseal
        refine plaintext_splits hasc ?_
        rw [Encryptor.reserved, hl.2, hm, (hsame _).2.1, ← Option.some.inj hseal, sealFields_eq,
          envelopeAt, get_map _ fun f v => if e.writePolicy.fields.contains f then _ else v]
        have hclear := hp.key
        unfold Encryptor.isEncryptedField Policy.isEncryptedField at hclear
        rw [hw, hm] at hclear
        simp only [hclear, Bool.false_eq_true, if_false, Option.map_id']
        exact hplain keyField
      | record =>
        rw [hm] at hseal
        obtain ⟨⟨hid, -⟩, hseal⟩ := ite_none_right_eq_some.mp hseal
        refine record_splits hl hm hid hk hdata (fun f => ?_) hstored hst
        rw [← Option.some.inj hseal, get_setKey, get_filter]
  · exact plaintext_splits hasc hclear

theorem materialize_clear (hasc : KeysAscend st) (h : ∀ f ∈ st.map Prod.fst, envelopeAt st f = false)
    (hm : d.readMode = .fields) : d.materialize c keys st = some st := by
  have hself : ∀ kv ∈ st, (d.maybeDecryptValue c keys kv.1 kv.2).map (kv.1, ·) = some (id kv) := by
    intro kv hkv
    rw [maybeDecrypt_clear (h kv.1 (mem_map_of_mem hkv)) ((mem_iff_get hasc _ _).mp hkv)]
    rfl
  unfold Encryptor.materialize
  rw [hm]
  dsimp only
  rw [Traverse.mapM_eq_pure hself, List.map_id]
  rfl

theorem materialize_unsealed (hasc : KeysAscend st)
    (h : ∀ f ∈ requested st fields, d.unsealed st f = true) :
    ∃ out, ∀ keys, d.materializeOnly c keys st fields = some out := by
  unfold requested Encryptor.unsealed at h
  unfold Encryptor.materializeOnly
  cases hm : d.readMode with
  | fields =>
    simp only [hm, Bool.not_eq_true'] at h
    split_ifs at h ⊢
    · exact ⟨st, fun keys => materialize_clear hasc h hm⟩
    · refine ⟨pick st.get [keyField] (pick st.get fields []), fun keys => ?_⟩
      dsimp only
      rw [Encryptor.materializeFields, foldlM_pick (fun f hf v hv =>
        ⟨v, maybeDecrypt_clear (h f hf) hv, hv⟩) fun _ hv => hv]
      rfl
  | record =>
    simp only [hm] at h
    split_ifs at h ⊢
    · have hclear : envelopeAt st secureDataField = false := by
        by_contra henv
        cases hv : st.get secureDataField with
        | none => simp [envelopeAt, hv] at henv
        | some v =>
          have hmem := mem_map_of_mem (f := Prod.fst) ((mem_iff_get hasc _ _).mpr hv)
          exact henv (by simpa [column, show secureDataField ≠ keyField by decide] using h _ hmem)
      unfold Encryptor.materialize
      simp only [hm, decryptBlob_clear hclear]
      exact ⟨_, fun _ => rfl⟩
    · unfold Encryptor.materializeRecord
      dsimp only
      split
      · next hneed =>
        obtain ⟨f, hf, hno⟩ := any_eq_true.mp hneed
        have hclear : envelopeAt st secureDataField = false := by
          have := h f hf
          grind
        simp only [decryptBlob_clear hclear]
        exact ⟨_, fun _ => rfl⟩
      · exact ⟨_, fun _ => rfl⟩

/-- A projection is what the projection of the whole record is, wherever that can be read, and
needs no key where every field it asks for is a column or the record has no blob. -/
theorem materialize_projected (h : d.Holds c keys st) (fields : List String) :
    (∀ full, d.materialize c keys st = some full →
      d.materializeOnly c keys st fields = some (projectData full fields)) ∧
    ((∀ f ∈ requested st fields, d.unsealed st f = true) →
      ∃ out, ∀ keys, d.materializeOnly c keys st fields = some out) := by
  refine ⟨fun full hfull => ?_, materialize_unsealed h.splits.ascend⟩
  unfold Encryptor.materializeOnly
  by_cases hne : fields = []
  · rw [if_pos hne, projectData, if_pos hne, hfull]
  · rw [if_neg hne]
    cases hm : d.readMode with
    | fields => exact materializeFields_eq hm (h.splits.key hm) hfull hne
    | record => exact materializeRecord_eq hm h.splits.ascend (h.splits.blob hm) hfull hne

end

def sealedSample : Option Data :=
  (recordEncryptor 1).encrypt clearCipher sampleSealing [("a", .str "x"), ("b", .str "y")]

set_option maxRecDepth 100000 in
theorem materialize_projected_sample : ∃ st, sealedSample = some st ∧
    (recordEncryptor 2).materializeOnly clearCipher oneKey st ["b"] = some [("b", .str "y")] ∧
    ∃ out, ∀ keys, (recordEncryptor 2).materializeOnly clearCipher keys st ["a"] = some out := by
  obtain ⟨st, hst, hfull, ha⟩ : ∃ st ∈ sealedSample,
      (recordEncryptor 2).materialize clearCipher oneKey st =
        some [("a", .str "x"), ("b", .str "y")] ∧ (recordEncryptor 2).unsealed st "a" = true := by
    decide +kernel
  have hh : (recordEncryptor 2).Holds clearCipher oneKey st :=
    Or.inl ⟨recordEncryptor 1, sampleSealing, _, st, ⟨Or.inr rfl, by decide⟩, ⟨rfl, rfl⟩, by decide,
      by unfold KeysAscend; decide, hst, Or.inl rfl⟩
  refine ⟨st, hst, (materialize_projected hh ["b"]).1 _ hfull, ?_⟩
  exact (materialize_projected hh ["a"]).2 (by simpa [requested] using ha)

set_option maxRecDepth 100000 in
/-- A field that the record does not have is looked for in the blob. -/
theorem absent_field_needs_key :
    (sealedSample.map fun st =>
      ((recordEncryptor 2).materializeOnly clearCipher oneKey st ["z"],
        (recordEncryptor 2).materializeOnly clearCipher (fun _ => none) st ["z"])) =
      some (some [], none) := by
  decide +kernel

end Encryption

end Scriva
