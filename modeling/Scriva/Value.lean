import Scriva.Lib.Decimal
import Mathlib.Data.String.Basic

namespace Scriva

open JsonText List

/-- A Go value as record data holds it. A decoder gives every number as a float; `int` is what a
caller in the same process may pass. Maps are kept by ascending key. -/
inductive Value where
  | null
  | bool (b : Bool)
  | int (n : Int)
  | float (d : Decimal)
  | str (s : String)
  | list (xs : List Value)
  | map (kvs : List (String × Value))
deriving Repr, Inhabited

abbrev Data := List (String × Value)

mutual

def Value.beq : Value → Value → Bool
  | .null, .null => true
  | .bool a, .bool b => a == b
  | .int a, .int b => a == b
  | .float a, .float b => a == b
  | .str a, .str b => a == b
  | .list xs, .list ys => beqElems xs ys
  | .map kvs, .map lws => beqMembers kvs lws
  | _, _ => false

def beqElems : List Value → List Value → Bool
  | [], [] => true
  | x :: xs, y :: ys => x.beq y && beqElems xs ys
  | _, _ => false

def beqMembers : Data → Data → Bool
  | [], [] => true
  | (k, v) :: kvs, (l, w) :: lws => k == l && v.beq w && beqMembers kvs lws
  | _, _ => false

end

mutual

theorem Value.beq_iff : ∀ v w : Value, v.beq w = true ↔ v = w
  | .null, w => by cases w <;> simp [Value.beq]
  | .bool _, w => by cases w <;> simp [Value.beq]
  | .int _, w => by cases w <;> simp [Value.beq]
  | .float _, w => by cases w <;> simp [Value.beq]
  | .str _, w => by cases w <;> simp [Value.beq]
  | .list xs, w => by cases w <;> simp [Value.beq, beqElems_iff xs]
  | .map kvs, w => by cases w <;> simp [Value.beq, beqMembers_iff kvs]

theorem beqElems_iff : ∀ xs ys : List Value, beqElems xs ys = true ↔ xs = ys
  | [], ys => by cases ys <;> simp [beqElems]
  | x :: xs, ys => by cases ys <;> simp [beqElems, Value.beq_iff x, beqElems_iff xs]

theorem beqMembers_iff : ∀ kvs lws : Data, beqMembers kvs lws = true ↔ kvs = lws
  | [], lws => by cases lws <;> simp [beqMembers]
  | (k, v) :: kvs, lws => by
    cases lws <;> simp [beqMembers, Prod.ext_iff, Value.beq_iff v, beqMembers_iff kvs]

end

instance : DecidableEq Value := fun v w =>
  decidable_of_iff (v.beq w = true) (Value.beq_iff v w)

/-- `m[k] = v` on a map kept by ascending key. -/
def Data.set (k : String) (v : Value) : Data → Data
  | [] => [(k, v)]
  | (k', v') :: m =>
    if k = k' then (k, v) :: m
    else if k < k' then (k, v) :: (k', v') :: m
    else (k', v') :: Data.set k v m

def Data.get (m : Data) (k : String) : Option Value :=
  (m.find? fun kv => kv.1 == k).map Prod.snd

def keyField : String := "_key"

mutual

def toJson : Value → Json
  | .null => .null
  | .bool b => .bool b
  | .int n => .num (intLit n).text
  | .float d => .num d.lit.text
  | .str s => .str s
  | .list xs => .arr (elemsToJson xs)
  | .map kvs => .obj (membersToJson kvs)

def elemsToJson : List Value → List Json
  | [] => []
  | x :: xs => toJson x :: elemsToJson xs

def membersToJson : Data → List (String × Json)
  | [] => []
  | (k, v) :: kvs => (k, toJson v) :: membersToJson kvs

end

mutual

/-- `json.Unmarshal` into `any`: a member seen again replaces the earlier one. -/
def ofJson : Json → Value
  | .null => .null
  | .bool b => .bool b
  | .num lit => .float (litParts lit).toDecimal
  | .str s => .str s
  | .arr xs => .list (elemsOfJson xs)
  | .obj ms => .map (membersOfJson [] ms)

def elemsOfJson : List Json → List Value
  | [] => []
  | x :: xs => ofJson x :: elemsOfJson xs

def membersOfJson (acc : Data) : List (String × Json) → Data
  | [] => acc
  | (k, j) :: ms => membersOfJson (Data.set k (ofJson j) acc) ms

end

def KeysAscend (m : Data) : Prop :=
  m.Pairwise fun a b => a.1 < b.1

mutual

/-- What a JSON decoder produces: floats for numbers and no repeated key. -/
def Decoded : Value → Prop
  | .int _ => False
  | .list xs => DecodedElems xs
  | .map kvs => KeysAscend kvs ∧ DecodedMembers kvs
  | _ => True

def DecodedElems : List Value → Prop
  | [] => True
  | x :: xs => Decoded x ∧ DecodedElems xs

def DecodedMembers : Data → Prop
  | [] => True
  | (_, v) :: kvs => Decoded v ∧ DecodedMembers kvs

end

theorem get_cons (k : String) (v : Value) (m : Data) (f : String) :
    Data.get ((k, v) :: m) f = if k = f then some v else Data.get m f := by
  unfold Data.get
  by_cases h : k = f
  · simp [h]
  · simp [h]

theorem get_setKey (k : String) (v : Value) (m : Data) (f : String) :
    (m.set k v).get f = if k = f then some v else m.get f := by
  induction m with
  | nil => exact get_cons k v [] f
  | cons kv m ih =>
    obtain ⟨k', v'⟩ := kv
    unfold Data.set
    by_cases heq : k = k'
    · subst heq
      rw [if_pos rfl, get_cons, get_cons]
      split <;> rfl
    · rw [if_neg heq]
      by_cases hlt : k < k'
      · rw [if_pos hlt, get_cons]
      · rw [if_neg hlt, get_cons, get_cons, ih]
        by_cases hf : k' = f
        · subst hf
          simp [heq]
        · simp [hf]

variable {k : String} {v : Value} {m : Data}

theorem mem_set {kv : String × Value} (h : kv ∈ m.set k v) : kv = (k, v) ∨ kv ∈ m := by
  induction m with
  | nil => exact Or.inl (mem_singleton.mp h)
  | cons x m ih =>
    obtain ⟨k', v'⟩ := x
    unfold Data.set at h
    split at h
    · exact (mem_cons.mp h).imp_right (mem_cons_of_mem _)
    · split at h
      · exact mem_cons.mp h
      · rcases mem_cons.mp h with rfl | h
        · exact Or.inr (by simp)
        · exact (ih h).imp_right (mem_cons_of_mem _)

theorem keysAscend_set (h : KeysAscend m) (k : String) (v : Value) : KeysAscend (m.set k v) := by
  induction m with
  | nil => exact pairwise_singleton _ _
  | cons x m ih =>
    obtain ⟨k', v'⟩ := x
    obtain ⟨hhead, htail⟩ := pairwise_cons.mp h
    unfold Data.set
    by_cases heq : k = k'
    · subst heq
      rw [if_pos rfl]
      exact pairwise_cons.mpr ⟨hhead, htail⟩
    · rw [if_neg heq]
      by_cases hlt : k < k'
      · rw [if_pos hlt]
        refine pairwise_cons.mpr ⟨fun y hy => ?_, h⟩
        rcases mem_cons.mp hy with rfl | hy
        · exact hlt
        · exact hlt.trans (hhead y hy)
      · rw [if_neg hlt]
        refine pairwise_cons.mpr ⟨fun y hy => ?_, ih htail⟩
        rcases mem_set hy with rfl | hy
        · exact lt_of_le_of_ne (not_lt.mp hlt) (Ne.symm heq)
        · exact hhead y hy

theorem Data.set_last {acc : Data} (h : ∀ kv ∈ acc, kv.1 < k) :
    Data.set k v acc = acc ++ [(k, v)] := by
  induction acc with
  | nil => rfl
  | cons kv acc ih =>
    obtain ⟨k', v'⟩ := kv
    have hlt : k' < k := h (k', v') (by simp)
    rw [Data.set, if_neg hlt.ne', if_neg hlt.le.not_gt, ih fun x hx => h x (by simp [hx])]
    rfl

mutual

theorem toJson_valid : ∀ v : Value, Valid (toJson v)
  | .null => trivial
  | .bool _ => trivial
  | .int n => valid_text (intLit_wf n)
  | .float d => valid_text d.lit_wf
  | .str _ => trivial
  | .list xs => elemsToJson_valid xs
  | .map kvs => membersToJson_valid kvs

theorem elemsToJson_valid : ∀ xs : List Value, ValidElems (elemsToJson xs)
  | [] => trivial
  | x :: xs => ⟨toJson_valid x, elemsToJson_valid xs⟩

theorem membersToJson_valid : ∀ kvs : Data, ValidMembers (membersToJson kvs)
  | [] => trivial
  | (_, v) :: kvs => ⟨toJson_valid v, membersToJson_valid kvs⟩

end

mutual

theorem ofJson_toJson : ∀ v : Value, Decoded v → ofJson (toJson v) = v
  | .null, _ => rfl
  | .bool _, _ => rfl
  | .int _, h => h.elim
  | .float d, _ => by
    rw [toJson, ofJson, litParts_text d.lit_wf, d.lit_toDecimal]
  | .str _, _ => rfl
  | .list xs, h => by
    rw [toJson, ofJson, elemsOfJson_elemsToJson xs h]
  | .map kvs, h => by
    rw [toJson, ofJson, membersOfJson_membersToJson [] kvs h.1 h.2]
    rfl

theorem elemsOfJson_elemsToJson : ∀ xs : List Value, DecodedElems xs →
    elemsOfJson (elemsToJson xs) = xs
  | [], _ => rfl
  | x :: xs, h => by
    rw [elemsToJson, elemsOfJson, ofJson_toJson x h.1, elemsOfJson_elemsToJson xs h.2]

theorem membersOfJson_membersToJson : ∀ acc kvs : Data, KeysAscend (acc ++ kvs) →
    DecodedMembers kvs → membersOfJson acc (membersToJson kvs) = acc ++ kvs
  | acc, [], _, _ => by rw [append_nil]; rfl
  | acc, (k, v) :: kvs, hk, h => by
    have hlast : ∀ kv ∈ acc, kv.1 < k := fun kv hkv =>
      (pairwise_append.mp hk).2.2 kv hkv (k, v) (by simp)
    have hk' : KeysAscend ((acc ++ [(k, v)]) ++ kvs) := by simpa using hk
    rw [membersToJson, membersOfJson, ofJson_toJson v h.1, Data.set_last hlast,
      membersOfJson_membersToJson _ kvs hk' h.2]
    simp

end

theorem decodedMembers_iff : DecodedMembers m ↔ ∀ kv ∈ m, Decoded kv.2 := by
  induction m with
  | nil => simp [DecodedMembers]
  | cons kv m ih => rw [DecodedMembers, ih, forall_mem_cons]

theorem decodedMembers_set (hm : DecodedMembers m) (hv : Decoded v) :
    DecodedMembers (m.set k v) := by
  refine decodedMembers_iff.mpr fun kv hkv => ?_
  rcases mem_set hkv with rfl | hkv
  · exact hv
  · exact decodedMembers_iff.mp hm kv hkv

mutual

theorem decoded_ofJson : ∀ j : Json, Decoded (ofJson j)
  | .null => trivial
  | .bool _ => trivial
  | .num _ => trivial
  | .str _ => trivial
  | .arr xs => decoded_elemsOfJson xs
  | .obj ms => decoded_membersOfJson ms [] List.Pairwise.nil trivial

theorem decoded_elemsOfJson : ∀ xs : List Json, DecodedElems (elemsOfJson xs)
  | [] => trivial
  | x :: xs => ⟨decoded_ofJson x, decoded_elemsOfJson xs⟩

theorem decoded_membersOfJson : ∀ (ms : List (String × Json)) (acc : Data), KeysAscend acc →
    DecodedMembers acc → KeysAscend (membersOfJson acc ms) ∧ DecodedMembers (membersOfJson acc ms)
  | [], _, hk, hd => ⟨hk, hd⟩
  | (k, j) :: ms, _, hk, hd =>
    decoded_membersOfJson ms _ (keysAscend_set hk k _) (decodedMembers_set hd (decoded_ofJson j))

end

end Scriva
