import Scriva.Wire
import Scriva.Lib.Utf8

namespace Scriva

open JsonText Crc32c List

/-- The ranges of the Go types. -/
structure Entry.Sized (e : Entry) : Prop where
  id : e.id < 256 ^ 8
  rev : e.rev < 256 ^ 8
  epoch : e.epoch < 256 ^ 8
  expiresAt : -2 ^ 63 ≤ e.expiresAt ∧ e.expiresAt < 2 ^ 63

structure TxStamp.Sized (tx : TxStamp) : Prop where
  t : txidLen tx.t ≠ 0 ∧ txidLen tx.t ≤ xtxMaxTxIDLen
  i : tx.i < 256 ^ 4
  n : tx.n < 256 ^ 4

/-- What a checksum is to tell apart, with the data by its canonical text. -/
def Entry.checked (e : Entry) : Nat × Op × Nat × Int × Nat × Option (List Char) :=
  (e.id, e.op, e.rev, e.expiresAt, e.epoch, e.data.map fun m => render (.obj (membersToJson m)))

def Entry.input (e : Entry) : List Nat :=
  v1InputBytes e.id e.op e.rev e.expiresAt e.epoch e.data

/-- What `checksumV2` feeds to the CRC. -/
def Entry.stampedInput (e : Entry) (tx : TxStamp) : List Nat :=
  utf8 "XTX1\x00".toList ++ [txidLen tx.t % 256] ++ utf8 tx.t.toList ++ le 4 tx.i ++ le 4 tx.n ++
    e.input

structure Entry.SameFields (a b : Entry) : Prop where
  rev : a.rev = 0 ↔ b.rev = 0
  expiresAt : a.expiresAt = 0 ↔ b.expiresAt = 0
  epoch : a.epoch = 0 ↔ b.epoch = 0

theorem utf8_inj {cs ds : List Char} (h : utf8 cs = utf8 ds) : cs = ds := by
  have hbytes : ∀ l : List Char, utf8 l = (Utf8.encode l).map UInt8.toNat := by
    intro l
    unfold utf8 Utf8.encode
    rw [map_flatMap]
  rw [hbytes, hbytes] at h
  have henc := map_injective_iff.mpr (fun _ _ => UInt8.toNat_inj.mp) h
  rw [← Utf8.decode_encode cs, henc, Utf8.decode_encode]

theorem op_append_inj {o o' : Op} {r r' : List Nat}
    (h : utf8 o.text.toList ++ r = utf8 o'.text.toList ++ r') : o = o' ∧ r = r' := by
  have hsix : ∀ o : Op, (utf8 o.text.toList).length = 6 := by
    intro o
    cases o <;> decide
  obtain ⟨htext, hr⟩ := append_inj h (by rw [hsix, hsix])
  have hinj : ∀ o o' : Op, utf8 o.text.toList = utf8 o'.text.toList → o = o' := by
    intro o o'
    cases o <;> cases o' <;> decide
  exact ⟨hinj o o' htext, hr⟩

theorem optional_append_inj {n m : Nat} {r r' : List Nat} (hn : n < 256 ^ 8) (hm : m < 256 ^ 8)
    (hz : n = 0 ↔ m = 0)
    (h : (if n ≠ 0 then le 8 n else []) ++ r = (if m ≠ 0 then le 8 m else []) ++ r') :
    n = m ∧ r = r' := by
  by_cases h0 : n = 0
  · have h0' := hz.mp h0
    subst h0 h0'
    exact ⟨rfl, h⟩
  · have h0' : m ≠ 0 := fun hm0 => h0 (hz.mpr hm0)
    rw [if_pos h0, if_pos h0'] at h
    exact le_append_inj hn hm h

theorem data_input_inj {a b : Option Data}
    (h : (match a with | none => [] | some m => utf8 (render (.obj (membersToJson m)))) =
      (match b with | none => [] | some m => utf8 (render (.obj (membersToJson m))))) :
    (a.map fun m => render (.obj (membersToJson m))) =
      b.map fun m => render (.obj (membersToJson m)) := by
  have hne : ∀ m, utf8 (render (.obj (membersToJson m))) ≠ [] := by
    intro m hnil
    have hempty : render (.obj (membersToJson m)) = [] :=
      utf8_inj (show utf8 _ = utf8 [] from hnil)
    unfold render at hempty
    exact absurd hempty (by simp)
  cases a with
  | none =>
    cases b with
    | none => rfl
    | some m => exact absurd h.symm (hne m)
  | some m =>
    cases b with
    | none => exact absurd h (hne m)
    | some m' => exact congrArg some (utf8_inj h)

theorem expiry_bits {x y : Int} (hx : -2 ^ 63 ≤ x ∧ x < 2 ^ 63) (hy : -2 ^ 63 ≤ y ∧ y < 2 ^ 63) :
    (x % 2 ^ 64).toNat < 256 ^ 8 ∧ ((x % 2 ^ 64).toNat = 0 ↔ x = 0) ∧
      ((x % 2 ^ 64).toNat = (y % 2 ^ 64).toNat → x = y) := by
  omega

theorem input_inj {a b : Entry} (ha : a.Sized) (hb : b.Sized) (hf : a.SameFields b)
    (h : a.input = b.input) : a.checked = b.checked := by
  obtain ⟨hxlt, hx0, hxy⟩ := expiry_bits ha.expiresAt hb.expiresAt
  obtain ⟨hylt, hy0, -⟩ := expiry_bits hb.expiresAt ha.expiresAt
  unfold Entry.input v1InputBytes at h
  simp only [append_assoc] at h
  obtain ⟨hid, h⟩ := le_append_inj ha.id hb.id h
  obtain ⟨hop, h⟩ := op_append_inj h
  obtain ⟨hrev, h⟩ := optional_append_inj ha.rev hb.rev hf.rev h
  simp only [ne_eq, ← hx0, ← hy0] at h
  obtain ⟨hexp, h⟩ := optional_append_inj hxlt hylt (hx0.trans (hf.expiresAt.trans hy0.symm)) h
  obtain ⟨hepoch, h⟩ := optional_append_inj ha.epoch hb.epoch hf.epoch h
  have hdata := data_input_inj h
  unfold Entry.checked
  rw [hid, hop, hrev, hxy hexp, hepoch, hdata]

theorem stampedInput_inj {a b : Entry} {tx ty : TxStamp} (ht : tx.Sized) (hu : ty.Sized)
    (h : a.stampedInput tx = b.stampedInput ty) : tx = ty ∧ a.input = b.input := by
  have htlen := ht.t
  have hulen := hu.t
  unfold Entry.stampedInput at h
  simp only [append_assoc, append_cancel_left_eq, cons_append,
    nil_append] at h
  obtain ⟨hlen, h⟩ := List.cons.inj h
  have hlen' : (utf8 tx.t.toList).length = (utf8 ty.t.toList).length := by
    change txidLen tx.t = txidLen ty.t
    unfold xtxMaxTxIDLen at htlen hulen
    omega
  obtain ⟨htext, h⟩ := append_inj h hlen'
  obtain ⟨hi, hrest⟩ := le_append_inj ht.i hu.i h
  obtain ⟨hn, hin⟩ := le_append_inj ht.n hu.n hrest
  have hname : tx.t = ty.t := String.toList_inj.mp (utf8_inj htext)
  cases tx
  cases ty
  cases hname
  cases hi
  cases hn
  exact ⟨rfl, hin⟩

/-- The tag of a stamped input, read as the low bytes of an id. -/
def tagID : Nat := 0x31585458

theorem input_ne_stamped {a : Entry} (h : a.id % 256 ^ 5 ≠ tagID) (b : Entry) (tx : TxStamp) :
    a.input ≠ b.stampedInput tx := by
  intro heq
  have htag : utf8 "XTX1\x00".toList = le 5 tagID := by decide
  unfold Entry.input v1InputBytes Entry.stampedInput at heq
  rw [htag, le_add 5 3 a.id] at heq
  simp only [append_assoc] at heq
  have hlow := (append_inj heq (by rw [le_length, le_length])).1
  exact h (le_mod hlow)

/-- Entries with the same optional fields that differ in something else than their time have
different checksum inputs, plain and stamped; and a plain input is no stamped one unless the id
begins with the tag. -/
theorem checksum_input_separates {a b : Entry} (ha : a.Sized) (hb : b.Sized) :
    (a.SameFields b → a.checked ≠ b.checked → a.input ≠ b.input) ∧
    (a.SameFields b → ∀ tx ty : TxStamp, tx.Sized → ty.Sized →
      (a.checked, tx) ≠ (b.checked, ty) → a.stampedInput tx ≠ b.stampedInput ty) ∧
    (a.id % 256 ^ 5 ≠ tagID → ∀ tx : TxStamp, a.input ≠ b.stampedInput tx) := by
  refine ⟨fun hf hne heq => hne (input_inj ha hb hf heq), ?_, fun hid tx => input_ne_stamped hid b tx⟩
  intro hf tx ty ht hu hne heq
  obtain ⟨htx, hin⟩ := stampedInput_inj ht hu heq
  have hchecked := input_inj ha hb hf hin
  exact hne (Prod.ext hchecked htx)

def bareEntry (id rev : Nat) (expiresAt : Int) (epoch : Nat) (data : Option Data) : Entry :=
  { id := id, op := .insert, ts := Rfc3339.zeroTime, rev := rev, data := data, epoch := epoch,
    expiresAt := expiresAt }

theorem checksum_input_separates_sample :
    (bareEntry 1 1 0 0 none).input ≠ (bareEntry 1 2 0 0 none).input ∧
      (bareEntry 1 1 0 0 none).stampedInput ⟨"a", 0, 1⟩ ≠
        (bareEntry 1 1 0 0 none).stampedInput ⟨"a", 0, 2⟩ := by
  have hone : (bareEntry 1 1 0 0 none).Sized := ⟨by decide, by decide, by decide, by decide⟩
  have htwo : (bareEntry 1 2 0 0 none).Sized := ⟨by decide, by decide, by decide, by decide⟩
  have hfirst : (⟨"a", 0, 1⟩ : TxStamp).Sized := ⟨by decide, by decide, by decide⟩
  have hsecond : (⟨"a", 0, 2⟩ : TxStamp).Sized := ⟨by decide, by decide, by decide⟩
  refine ⟨(checksum_input_separates hone htwo).1 ⟨by decide, by decide, by decide⟩ ?_, ?_⟩
  · intro heq
    cases heq
  · refine (checksum_input_separates hone hone).2.1 ⟨by decide, by decide, by decide⟩ _ _ hfirst
      hsecond ?_
    intro heq
    cases heq

/-- A revision and a deadline of the same bytes, and a plain entry that spells a stamped one. -/
theorem checksum_input_shared :
    (bareEntry 1 5 0 0 none).input = (bareEntry 1 0 5 0 none).input ∧
    (bareEntry 0x6261080031585458 0x100000000 7 0x7d7b747265736e69 none).input =
      (bareEntry 7 0 0 0 (some [])).stampedInput ⟨"abinsert", 0, 1⟩ := by
  decide +kernel

end Scriva
