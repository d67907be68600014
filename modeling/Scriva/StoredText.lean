import Scriva.CollectionInvariant

namespace Scriva

open List Option

theorem get_persisted {data : Option Data} (h : KeysAscend (data.getD [])) :
    ∃ g : Value → Value, (g = id ∨ g = persistedValue) ∧
      ∀ f, ((persistedData data).getD []).get f = ((data.getD []).get f).map g := by
  by_cases hd : decodable data = true
  · refine ⟨persistedValue, Or.inr rfl, fun f => ?_⟩
    cases data with
    | none => rfl
    | some m =>
      have h : KeysAscend m := h
      rw [persistedData_some h hd]
      exact get_asRead m f
  · refine ⟨id, Or.inl rfl, fun f => ?_⟩
    rw [persistedData, if_neg hd, Option.map_id]
    rfl

def KeepsText (v : Value) : Prop :=
  toIndexKey (persistedValue v) = toIndexKey v

instance (v : Value) : Decidable (KeepsText v) :=
  inferInstanceAs (Decidable (_ = _))

theorem keepsText_of_isString {v : Value} (h : isString v = true) : KeepsText v := by
  cases v <;> first | rfl | cases h

theorem acceptsIn_persisted (f : String) (v : Value) :
    acceptsIn f (persistedValue v) = acceptsIn f v := by
  cases v <;> rfl

/-- Data is a map, and what it holds in the fields named keeps its bucket. -/
def Textual (fields : List String) (data : Option Data) : Prop :=
  KeysAscend (data.getD []) ∧
    ∀ f ∈ fields, ∀ v ∈ (data.getD []).get f, acceptsIn f v = true → KeepsText v

instance (m : Data) : Decidable (KeysAscend m) :=
  inferInstanceAs (Decidable (m.Pairwise _))

instance (fields : List String) (data : Option Data) : Decidable (Textual fields data) :=
  inferInstanceAs (Decidable (_ ∧ _))

section

variable {fields : List String} {data stored : Option Data}

theorem bucketKey_persisted (h : Textual fields data) {f : String} (hf : f ∈ fields) :
    bucketKey f (persistedData data) = bucketKey f data := by
  unfold bucketKey
  obtain ⟨g, rfl | rfl, hget⟩ := get_persisted h.1
  · rw [hget, Option.map_id]
    rfl
  rw [hget]
  cases hv : (data.getD []).get f with
  | none => rfl
  | some v =>
    simp only [map_some, bind_some, acceptsIn_persisted]
    by_cases hacc : acceptsIn f v = true
    · have htext : toIndexKey (persistedValue v) = toIndexKey v := h.2 f hf v hv hacc
      rw [if_pos hacc, if_pos hacc, htext]
    · rw [if_neg hacc, if_neg hacc]

theorem textual_stampKey (h : Textual fields data) (key : String) :
    Textual fields (stampKey data key) := by
  refine ⟨keysAscend_set h.1 _ _, fun f hf v hv hacc => ?_⟩
  have hv : (Data.set keyField (.str key) (data.getD [])).get f = some v := hv
  rw [get_setKey] at hv
  by_cases hkey : keyField = f
  · rw [if_pos hkey] at hv
    cases hv
    rfl
  · rw [if_neg hkey] at hv
    exact h.2 f hf v hv hacc

theorem textual_keepKey (h : Textual fields data) (key : Option String) :
    Textual fields (keepKey key data) := by
  cases key with
  | none => exact h
  | some key => exact textual_stampKey h key

theorem textual_key (h : Textual fields data) {more : List String}
    (hmore : ∀ f ∈ more, f ∈ fields ∨ f = keyField) : Textual more data := by
  refine ⟨h.1, fun f hf v hv hacc => ?_⟩
  rcases hmore f hf with hf | rfl
  · exact h.2 f hf v hv hacc
  · exact keepsText_of_isString (by simpa [acceptsIn] using hacc)

/-- Data is not stored as an empty map, which its line would leave out but its checksum cover. -/
def Config.Stores (cfg : Config) (data : Option Data) : Prop :=
  ∀ stored ∈ cfg.enc.elim (some data) (·.encrypt data), stored ≠ some []

/-- Data whose line decodes, and into the buckets it was given for. -/
def Config.Reads (cfg : Config) (fields : List String) (data : Option Data) : Prop :=
  Textual fields data ∧ cfg.Stores data

instance (cfg : Config) (data : Option Data) : Decidable (cfg.Stores data) :=
  inferInstanceAs (Decidable (∀ stored ∈ cfg.enc.elim (some data) (·.encrypt data), _))

instance (cfg : Config) (fields : List String) (data : Option Data) :
    Decidable (cfg.Reads fields data) :=
  inferInstanceAs (Decidable (_ ∧ _))

def Clear (fields : List String) (data stored : Option Data) : Prop :=
  ∀ f ∈ fields, (stored.getD []).get f = (data.getD []).get f

theorem sealed_clear {cfg : Config} (hclear : ∀ f ∈ fields, cfg.isEncryptedField f = false)
    (h : Sealed cfg data stored) : Clear fields data stored := by
  intro f hf
  have hf := hclear f hf
  unfold Sealed at h
  unfold Config.isEncryptedField at hf
  cases henc : cfg.enc with
  | none =>
    rw [henc] at h
    rw [h]
  | some k =>
    rw [henc] at h hf
    exact k.encrypt_get h hf

theorem sealed_textual {cfg : Config} (hclear : ∀ f ∈ fields, cfg.isEncryptedField f = false)
    (hd : Textual fields data) (h : Sealed cfg data stored) : Textual fields stored := by
  refine ⟨?_, fun f hf => ?_⟩
  · unfold Sealed at h
    cases henc : cfg.enc with
    | none =>
      rw [henc] at h
      rw [h]
      exact hd.1
    | some k =>
      rw [henc] at h
      exact k.encrypt_ascend h hd.1
  · rw [sealed_clear hclear h f hf]
    exact hd.2 f hf

theorem Clear.keepKey (h : Clear fields data stored) (key : Option String) :
    Clear fields (keepKey key data) (keepKey key stored) := by
  cases key with
  | none => exact h
  | some key =>
    intro f hf
    show (Data.set keyField (.str key) (stored.getD [])).get f =
      (Data.set keyField (.str key) (data.getD [])).get f
    rw [get_setKey, get_setKey, h f hf]

theorem Clear.bucketKey (h : Clear fields data stored) (hs : Textual fields stored) {f : String}
    (hf : f ∈ fields) : bucketKey f (persistedData stored) = bucketKey f data := by
  rw [bucketKey_persisted hs hf, Scriva.bucketKey, Scriva.bucketKey, h f hf]

end

end Scriva
