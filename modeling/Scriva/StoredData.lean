import Scriva.Value
import Mathlib.Data.List.Sort

namespace Scriva

open JsonText List Option

variable {m : Data}

theorem mem_iff_get (h : KeysAscend m) (k : String) (v : Value) :
    (k, v) ∈ m ↔ m.get k = some v := by
  induction m with
  | nil => simp [Data.get]
  | cons kv m ih =>
    obtain ⟨k', v'⟩ := kv
    obtain ⟨hhead, htail⟩ := pairwise_cons.mp h
    rw [get_cons, mem_cons, ih htail]
    by_cases hk : k' = k
    · subst hk
      rw [if_pos rfl]
      constructor
      · rintro (he | hin)
        · cases he
          rfl
        · have hlt := hhead (k', v) ((ih htail).mpr hin)
          exact absurd hlt (lt_irrefl _)
      · intro he
        cases he
        exact Or.inl rfl
    · rw [if_neg hk]
      constructor
      · rintro (he | hin)
        · cases he
          exact absurd rfl hk
        · exact hin
      · exact Or.inr

theorem eq_of_get {a b : Data} (ha : KeysAscend a) (hb : KeysAscend b)
    (h : ∀ f, a.get f = b.get f) : a = b := by
  refine ha.eq_of_mem_iff hb fun kv => ?_
  rw [mem_iff_get ha kv.1 kv.2, mem_iff_get hb kv.1 kv.2, h]

theorem get_filter (m : Data) (p : String → Bool) (f : String) :
    Data.get (m.filter fun kv => p kv.1) f = if p f then m.get f else none := by
  induction m with
  | nil => simp [Data.get]
  | cons kv m ih =>
    obtain ⟨k, v⟩ := kv
    rw [filter_cons]
    by_cases hk : k = f
    · subst hk
      cases hp : p k with
      | true => simp [get_cons]
      | false =>
        rw [hp] at ih
        simpa [hp] using ih
    · cases hp : p k with
      | true =>
        simp only [if_true]
        rw [get_cons, get_cons, if_neg hk, if_neg hk, ih]
      | false =>
        simp only [Bool.false_eq_true, if_false]
        rw [get_cons, if_neg hk, ih]

theorem get_map (m : Data) (g : String → Value → Value) (f : String) :
    Data.get (m.map fun kv => (kv.1, g kv.1 kv.2)) f = (m.get f).map (g f) := by
  induction m with
  | nil => rfl
  | cons kv m ih =>
    obtain ⟨k, v⟩ := kv
    rw [map_cons, get_cons, get_cons, ih]
    by_cases hk : k = f
    · subst hk
      simp
    · simp [hk]

theorem keysAscend_filter (h : KeysAscend m) (p : String × Value → Bool) :
    KeysAscend (m.filter p) :=
  List.Pairwise.filter p h

theorem keysAscend_map (h : KeysAscend m) (g : String → Value → Value) :
    KeysAscend (m.map fun kv => (kv.1, g kv.1 kv.2)) :=
  pairwise_map.mpr h

theorem get_foldl_set {more : Data} (h : KeysAscend more) (m : Data) (f : String) :
    Data.get (more.foldl (fun out kv => out.set kv.1 kv.2) m) f = (more.get f).or (m.get f) := by
  induction more generalizing m with
  | nil => rfl
  | cons kv more ih =>
    obtain ⟨k, v⟩ := kv
    obtain ⟨hhead, htail⟩ := pairwise_cons.mp h
    rw [foldl_cons, ih htail, get_cons, get_setKey]
    by_cases hk : k = f
    · subst hk
      have hnone : Data.get more k = none := by
        cases hget : Data.get more k with
        | none => rfl
        | some w =>
          have hlt := hhead (k, w) ((mem_iff_get htail k w).mpr hget)
          exact absurd hlt (lt_irrefl _)
      simp [hnone]
    · simp [hk]

theorem keysAscend_foldl_set (h : KeysAscend m) (more : Data) :
    KeysAscend (more.foldl (fun out kv => out.set kv.1 kv.2) m) := by
  induction more generalizing m with
  | nil => exact h
  | cons kv more ih => exact ih (keysAscend_set h kv.1 kv.2)

theorem keys_sublist_set (m : Data) (k : String) (v : Value) :
    (m.map Prod.fst).Sublist ((m.set k v).map Prod.fst) := by
  induction m with
  | nil => exact nil_sublist _
  | cons x m ih =>
    obtain ⟨k', v'⟩ := x
    unfold Data.set
    split
    · next heq =>
      subst heq
      exact Sublist.refl _
    · split
      · exact sublist_cons_self _ _
      · exact ih.cons_cons _

theorem keysAscend_of_set {k : String} {v : Value} (h : KeysAscend (m.set k v)) : KeysAscend m :=
  pairwise_map.mp ((pairwise_map.mpr h).sublist (keys_sublist_set m k v))

mutual

/-- Whether a float64 is sure to hold every integer in a value: a decoder reads numbers as floats,
and of the integers beyond 2 ^ 53 only some survive. -/
def isExact : Value → Bool
  | .int n => n.natAbs ≤ 2 ^ 53
  | .list xs => areExact xs
  | .map kvs => hasExact kvs
  | _ => true

def areExact : List Value → Bool
  | [] => true
  | x :: xs => isExact x && areExact xs

def hasExact : Data → Bool
  | [] => true
  | (_, v) :: kvs => isExact v && hasExact kvs

end

/-- Data whose line decodes. An empty map is in the checksum of its line and not in its text, and an
integer that no float64 holds is read back as another one. -/
def decodable : Option Data → Bool
  | none => true
  | some m => !m.isEmpty && hasExact m

/-- Data as a decoder reads it back. A line that does not decode keeps what was written, by which
it is told apart. -/
def persistedData (data : Option Data) : Option Data :=
  if decodable data then data.map fun m => membersOfJson [] (membersToJson m) else data

/-- A number keeps its digits: in a line that decodes they are those a float64 prints. -/
def persistedValue (v : Value) : Value :=
  ofJson (toJson v)

theorem membersOfJson_eq {acc kvs : Data} (h : KeysAscend (acc ++ kvs)) :
    membersOfJson acc (membersToJson kvs) =
      acc ++ kvs.map fun kv => (kv.1, persistedValue kv.2) := by
  induction kvs generalizing acc with
  | nil => exact (append_nil acc).symm
  | cons kv kvs ih =>
    obtain ⟨k, v⟩ := kv
    have hlast : ∀ kv ∈ acc, kv.1 < k := fun kv hkv =>
      (pairwise_append.mp h).2.2 kv hkv (k, v) (by simp)
    have hkeys : ((acc ++ [(k, persistedValue v)]) ++ kvs).map Prod.fst =
        (acc ++ (k, v) :: kvs).map Prod.fst := by simp
    have hnext : KeysAscend ((acc ++ [(k, persistedValue v)]) ++ kvs) := by
      have hlt := (pairwise_map (f := Prod.fst) (R := (· < ·))).mpr h
      rw [← hkeys] at hlt
      exact pairwise_map.mp hlt
    rw [membersToJson, membersOfJson, Data.set_last hlast]
    refine (ih hnext).trans ?_
    simp

def asRead (m : Data) : Data :=
  m.map fun kv => (kv.1, persistedValue kv.2)

theorem get_asRead (m : Data) (f : String) : (asRead m).get f = (m.get f).map persistedValue :=
  get_map m (fun _ v => persistedValue v) f

theorem keysAscend_asRead (h : KeysAscend m) : KeysAscend (asRead m) :=
  keysAscend_map h fun _ v => persistedValue v

theorem membersOfJson_asRead (h : KeysAscend m) :
    membersOfJson [] (membersToJson m) = asRead m := by
  have h : KeysAscend ([] ++ m) := h
  exact membersOfJson_eq h

theorem persistedData_some (h : KeysAscend m) (hd : decodable (some m) = true) :
    persistedData (some m) = some (asRead m) := by
  rw [persistedData, if_pos hd, map_some, membersOfJson_asRead h]

theorem set_ne_nil (k : String) (v : Value) (m : Data) : m.set k v ≠ [] := by
  cases m with
  | nil => exact cons_ne_nil _ _
  | cons kv m =>
    unfold Data.set
    split_ifs <;> exact cons_ne_nil _ _

mutual

theorem isExact_of_decoded : ∀ v : Value, Decoded v → isExact v = true
  | .null, _ => rfl
  | .bool _, _ => rfl
  | .int _, h => h.elim
  | .float _, _ => rfl
  | .str _, _ => rfl
  | .list xs, h => areExact_of_decoded xs h
  | .map kvs, h => hasExact_of_decoded kvs h.2

theorem areExact_of_decoded : ∀ xs : List Value, DecodedElems xs → areExact xs = true
  | [], _ => rfl
  | x :: xs, h => by rw [areExact, isExact_of_decoded x h.1, areExact_of_decoded xs h.2]; rfl

theorem hasExact_of_decoded : ∀ m : Data, DecodedMembers m → hasExact m = true
  | [], _ => rfl
  | (_, v) :: m, h => by rw [hasExact, isExact_of_decoded v h.1, hasExact_of_decoded m h.2]; rfl

end

theorem hasExact_iff : hasExact m = true ↔ ∀ kv ∈ m, isExact kv.2 = true := by
  induction m with
  | nil => simp [hasExact]
  | cons kv m ih => rw [hasExact, Bool.and_eq_true, ih, forall_mem_cons]

/-- What a decoder produces decodes again. -/
theorem decodable_decoded (hd : DecodedMembers m) (hne : m ≠ []) : decodable (some m) = true := by
  rw [decodable, hasExact_of_decoded m hd, Bool.and_true, Bool.not_eq_true', List.isEmpty_eq_false_iff]
  exact hne

theorem membersOfJson_ne_nil {acc : Data} {ms : List (String × Json)} (h : acc ≠ [] ∨ ms ≠ []) :
    membersOfJson acc ms ≠ [] := by
  induction ms generalizing acc with
  | nil => exact h.resolve_right (fun hne => hne rfl)
  | cons kj ms ih => exact ih (Or.inl (set_ne_nil _ _ _))

/-- A line decodes exactly if what is read back from it does. -/
theorem decodable_persisted (data : Option Data) : decodable (persistedData data) = decodable data := by
  unfold persistedData
  split
  case isFalse => rfl
  case isTrue h =>
    cases data with
    | none => rfl
    | some m =>
      have hne : membersToJson m ≠ [] := by
        cases m with
        | nil => cases h
        | cons kv m => exact cons_ne_nil _ _
      rw [h]
      exact decodable_decoded (decoded_membersOfJson _ _ List.Pairwise.nil trivial).2
        (membersOfJson_ne_nil (Or.inr hne))

theorem decodable_asRead (h : KeysAscend m) (hd : decodable (some m) = true) :
    decodable (some (asRead m)) = true := by
  rw [← persistedData_some h hd, decodable_persisted, hd]

theorem decoded_of_persisted {data : Option Data} (hd : decodable data = true)
    (h : persistedData data = data) : KeysAscend (data.getD []) ∧ DecodedMembers (data.getD []) := by
  cases data with
  | none => exact ⟨List.Pairwise.nil, trivial⟩
  | some m =>
    rw [persistedData, if_pos hd] at h
    have h : membersOfJson [] (membersToJson m) = m := Option.some.inj h
    have hdec := decoded_membersOfJson (membersToJson m) [] List.Pairwise.nil trivial
    rwa [h] at hdec

theorem persistedValue_persistedValue (v : Value) :
    persistedValue (persistedValue v) = persistedValue v :=
  ofJson_toJson _ (decoded_ofJson _)

theorem asRead_asRead (m : Data) : asRead (asRead m) = asRead m := by
  unfold asRead
  rw [List.map_map]
  exact map_congr_left fun kv _ => Prod.ext rfl (persistedValue_persistedValue kv.2)

theorem asRead_decoded (h : DecodedMembers m) : asRead m = m := by
  induction m with
  | nil => rfl
  | cons kv m ih =>
    obtain ⟨k, v⟩ := kv
    have hv : persistedValue v = v := ofJson_toJson v h.1
    exact congrArg₂ List.cons (Prod.ext rfl hv) (ih h.2)

end Scriva
