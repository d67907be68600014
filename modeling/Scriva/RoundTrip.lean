import Scriva.Wire

namespace Scriva

open JsonText Crc32c List
open Rfc3339 (Time)

@[simp] theorem fieldOf_append (xs ys : List (String × Json)) (k : String) :
    fieldOf (xs ++ ys) k = (fieldOf ys k).or (fieldOf xs k) := by
  simp only [fieldOf, reverse_append, List.find?_append]
  cases ys.reverse.find? fun m => m.1 == k <;> rfl

@[simp] theorem fieldOf_cons (k' : String) (v : Json) (ms : List (String × Json)) (k : String) :
    fieldOf ((k', v) :: ms) k = (fieldOf ms k).or (if k' = k then some v else none) := by
  rw [← singleton_append, fieldOf_append]
  by_cases h : k' = k <;> simp [fieldOf, h]

@[simp] theorem fieldOf_nil (k : String) : fieldOf [] k = none := rfl

@[simp] theorem fieldOf_omitZero (k' : String) (n : Int) (k : String) :
    fieldOf (omitZero k' n) k = if n ≠ 0 ∧ k' = k then some (jsonInt n) else none := by
  by_cases hn : n = 0
  · simp [omitZero, hn, fieldOf_nil]
  · simp [omitZero, hn, fieldOf_cons, fieldOf_nil]

@[simp] theorem fieldOf_omitEmpty (data : Option Data) (k : String) (h : k ≠ "data") :
    fieldOf (omitEmpty data) k = none := by
  unfold omitEmpty
  split
  · rfl
  · rfl
  · rw [fieldOf_cons, if_neg h.symm, fieldOf_nil]; rfl

variable {ms : List (String × Json)} {k : String} {sum : Nat} {e : Entry} {tx : TxStamp}

theorem intField_of {n : Int} (h : fieldOf ms k = if n ≠ 0 then some (jsonInt n) else none) :
    intField ms k = .ok n := by
  unfold intField
  rw [h]
  by_cases hn : n = 0
  · simp [hn]
  · simp [hn, jsonInt, litParts_text (intLit_wf n), intLit_toInt]

theorem intField_jsonInt {n : Int} (h : fieldOf ms k = some (jsonInt n)) :
    intField ms k = .ok n := by
  unfold intField
  simp [h, jsonInt, litParts_text (intLit_wf n), intLit_toInt]

theorem natField_of_intField {n : Nat} (h : intField ms k = .ok n) : natField ms k = .ok n := by
  unfold natField
  simp [h, bind, Except.bind, pure, Except.pure]

/-- The members of a line behind the common ones, none of them named like a common one. -/
def TailMembers (tail : List (String × Json)) : Prop :=
  ∀ m ∈ tail, m.1 = "tx" ∨ m.1 = "crc"

theorem fieldOf_tail {tail : List (String × Json)} (h : TailMembers tail)
    (hk : k ≠ "tx" ∧ k ≠ "crc") : fieldOf tail k = none := by
  rw [fieldOf, Option.map_eq_none_iff, List.find?_eq_none]
  intro m hm he
  rcases h m (mem_reverse.mp hm) with ht | ht
  · exact hk.1 (by rw [← ht]; exact (beq_iff_eq.mp he).symm)
  · exact hk.2 (by rw [← ht]; exact (beq_iff_eq.mp he).symm)

section Fields

variable {id rev epoch : Nat} {op : Op} {ts : String} {data : Option Data} {expiresAt : Int}
  {tail : List (String × Json)}

def storedData (data : Option Data) : Option Data :=
  data.filter fun m => !m.isEmpty

def DecodedData (data : Option Data) : Prop :=
  ∀ m ∈ data, KeysAscend m ∧ DecodedMembers m

theorem storedData_eq_iff : storedData data = data ↔ data ≠ some [] := by
  cases data with
  | none => simp [storedData]
  | some m => cases m <;> simp [storedData]

section Tail

variable (h : TailMembers tail)
include h

theorem id_read :
    natField (commonMembers id op ts rev data epoch expiresAt ++ tail) "id" = .ok id := by
  apply natField_of_intField
  apply intField_jsonInt
  simp [commonMembers, fieldOf_tail h]

theorem rev_read :
    natField (commonMembers id op ts rev data epoch expiresAt ++ tail) "rev" = .ok rev := by
  apply natField_of_intField
  apply intField_of
  simp [commonMembers, fieldOf_tail h]

theorem epoch_read :
    natField (commonMembers id op ts rev data epoch expiresAt ++ tail) "epoch" = .ok epoch := by
  apply natField_of_intField
  apply intField_of
  simp [commonMembers, fieldOf_tail h]

theorem expiresAt_read :
    intField (commonMembers id op ts rev data epoch expiresAt ++ tail) "expires_at" =
      .ok expiresAt := by
  apply intField_of
  simp [commonMembers, fieldOf_tail h]

theorem op_read :
    opField (commonMembers id op ts rev data epoch expiresAt ++ tail) = .ok op := by
  have hf : fieldOf (commonMembers id op ts rev data epoch expiresAt ++ tail) "op" =
      some (.str op.text) := by
    simp [commonMembers, fieldOf_tail h]
  unfold opField strField
  rw [hf]
  cases op <;> rfl

theorem ts_field :
    fieldOf (commonMembers id op ts rev data epoch expiresAt ++ tail) "ts" = some (.str ts) := by
  simp [commonMembers, fieldOf_tail h]

theorem time_read (t : Time) :
    timeField (commonMembers id op (tsText t) rev data epoch expiresAt ++ tail) =
      match Rfc3339.parse (Rfc3339.format t) with
      | none => .error .decode
      | some t' => .ok t' := by
  unfold timeField
  rw [ts_field h]
  simp only [tsText, String.toList_ofList]
  cases Rfc3339.parse (Rfc3339.format t) <;> rfl

theorem data_read (hd : DecodedData data) :
    dataField (commonMembers id op ts rev data epoch expiresAt ++ tail) =
      .ok (storedData data) := by
  have hf : fieldOf (commonMembers id op ts rev data epoch expiresAt ++ tail) "data" =
      fieldOf (omitEmpty data) "data" := by
    simp [commonMembers, fieldOf_tail h]
  unfold dataField
  rw [hf]
  cases data with
  | none => rfl
  | some m =>
    cases m with
    | nil => rfl
    | cons kv m =>
      obtain ⟨hk, hm⟩ := hd _ rfl
      simp only [omitEmpty, fieldOf_cons, fieldOf_nil, if_true, Option.none_or,
        membersOfJson_membersToJson [] (kv :: m) hk hm]
      rfl

end Tail

theorem validMembers_append {xs ys : List (String × Json)} (hx : ValidMembers xs)
    (hy : ValidMembers ys) : ValidMembers (xs ++ ys) := by
  induction xs with
  | nil => exact hy
  | cons x xs ih => exact ⟨hx.1, ih hx.2⟩

theorem jsonInt_valid (n : Int) : Valid (jsonInt n) :=
  valid_text (intLit_wf n)

theorem omitZero_valid (k : String) (n : Int) : ValidMembers (omitZero k n) := by
  unfold omitZero
  split
  · trivial
  · exact ⟨jsonInt_valid n, trivial⟩

theorem omitEmpty_valid (data : Option Data) : ValidMembers (omitEmpty data) := by
  unfold omitEmpty
  split
  · trivial
  · trivial
  · exact ⟨membersToJson_valid _, trivial⟩

theorem line_valid (ht : ValidMembers tail) :
    Valid (.obj (commonMembers id op ts rev data epoch expiresAt ++ tail)) := by
  refine validMembers_append (validMembers_append (validMembers_append (validMembers_append
    (validMembers_append ?_ (omitZero_valid _ _)) (omitEmpty_valid _)) (omitZero_valid _ _))
    (omitZero_valid _ _)) ht
  exact ⟨jsonInt_valid id, trivial, trivial, trivial⟩

end Fields

theorem map_ok_inv {ε α β : Type} {f : α → β} {x : Except ε α} {y : β}
    (h : x.map f = .ok y) : ∃ a, x = .ok a ∧ f a = y := by
  cases x with
  | error e => cases h
  | ok a => exact ⟨a, rfl, Except.ok.inj h⟩

theorem unmarshal_render (h : Valid (.obj ms)) {ws : List Char} (hw : ∀ c ∈ ws, c = '\n') :
    unmarshal (render (.obj ms) ++ ws) = .ok ms := by
  rw [unmarshal, parse_render h hw]

theorem unmarshal_trimmed (h : Valid (.obj ms)) : unmarshal (render (.obj ms)) = .ok ms := by
  simpa using unmarshal_render h (forall_mem_nil _)

theorem trimNewlines_render (ms : List (String × Json)) :
    trimNewlines (render (.obj ms) ++ ['\n']) = render (.obj ms) := by
  unfold trimNewlines
  rw [rdropWhile_concat_pos _ _ _ (by decide), render, ← cons_append,
    rdropWhile_concat_neg _ _ _ (by decide)]

abbrev Entry.members (e : Entry) : List (String × Json) :=
  commonMembers e.id e.op (tsText e.ts) e.rev e.data e.epoch e.expiresAt

def crcTail (sum : Nat) : List (String × Json) :=
  [("crc", jsonInt sum)]

theorem crcTail_members (sum : Nat) : TailMembers (crcTail sum) := by
  simp [TailMembers, crcTail]

theorem crcField_of (h : fieldOf ms "crc" = some (jsonInt sum)) : crcField ms = .ok (some sum) := by
  unfold crcField
  rw [h, jsonInt]
  simp only [natField_of_intField (intField_jsonInt h)]
  rfl

/-- Reading back an encoded entry: the timestamp as its text carries it, the data as `omitempty`
left it, and a checksum taken over the data before. -/
theorem decode_render (hd : DecodedData e.data) {ws : List Char} (hw : ∀ c ∈ ws, c = '\n')
    (sum : Nat) :
    decode (render (.obj (e.members ++ crcTail sum)) ++ ws) =
      match Rfc3339.parse (Rfc3339.format e.ts) with
      | none => .error .decode
      | some t =>
        if checksumV1 e.id e.op e.rev e.expiresAt e.epoch (storedData e.data) = sum then
          .ok { e with ts := t, data := storedData e.data }
        else .error .corruptEntry := by
  have ht := crcTail_members sum
  have hcrc : fieldOf (e.members ++ crcTail sum) "crc" = some (jsonInt sum) := by
    simp [crcTail]
  have hv : ValidMembers (crcTail sum) := ⟨jsonInt_valid sum, trivial⟩
  unfold decode
  rw [unmarshal_render (line_valid hv) hw]
  simp only [bind, Except.bind, id_read ht, op_read ht, rev_read ht, data_read ht hd,
    epoch_read ht, expiresAt_read ht, crcField_of hcrc, time_read ht, pure, Except.pure]
  cases Rfc3339.parse (Rfc3339.format e.ts) with
  | none => rfl
  | some t => rfl

theorem probeTx_plain :
    probeTx (render (.obj (e.members ++ crcTail sum))) = none := by
  have hv : ValidMembers (crcTail sum) := ⟨jsonInt_valid sum, trivial⟩
  have hf : fieldOf (e.members ++ crcTail sum) "tx" = none := by
    simp [commonMembers, crcTail]
  unfold probeTx
  rw [unmarshal_trimmed (line_valid hv)]
  simp only [bind, Except.bind, txField, hf]

/-- A plain line round trips exactly when its data is not an empty map and its timestamp is one
the strict text carries. -/
theorem plain_roundTrip_iff (hd : DecodedData e.data) :
    (∃ line, encode e = .ok line ∧ decodeSegmentLine line = .ok (e, none)) ↔
      e.data ≠ some [] ∧ StrictTime e.ts ∧ e.ts.offset % 60 = 0 := by
  have hdec : ∀ sum, decodeSegmentLine (render (.obj (e.members ++ crcTail sum)) ++ ['\n']) =
      (decode (render (.obj (e.members ++ crcTail sum)) ++ ['\n'])).map fun e => (e, none) := by
    intro sum
    unfold decodeSegmentLine
    simp only [trimNewlines_render, probeTx_plain, Option.isSome_none, Bool.false_eq_true,
      and_false, if_false]
    rfl
  constructor
  · rintro ⟨line, henc, hline⟩
    unfold encode at henc
    split at henc
    · next hs =>
      cases henc
      rw [← crcTail, hdec, decode_render hd (by simp)] at hline
      obtain ⟨e', he', heq⟩ := map_ok_inv hline
      cases heq
      cases ht : Rfc3339.parse (Rfc3339.format e.ts) with
      | none => rw [ht] at he'; cases he'
      | some t =>
        simp only [ht] at he'
        split at he'
        · have heq := Except.ok.inj he'
          have hts : t = e.ts := congrArg Entry.ts heq
          have hdata : storedData e.data = e.data := congrArg Entry.data heq
          have hp := (Rfc3339.parse_format_iff e.ts).mp (hts ▸ ht)
          exact ⟨storedData_eq_iff.mp hdata, hs, hp.2.2.1⟩
        · cases he'
    · cases henc
  · rintro ⟨hne, hs, hoff⟩
    have hp : Rfc3339.Printable e.ts := ⟨hs.1, hs.2.1, hoff, by have := hs.2.2; omega⟩
    refine ⟨_, by rw [encode, if_pos hs], ?_⟩
    rw [← crcTail, hdec, decode_render hd (by simp), (Rfc3339.parse_format_iff _).mpr hp,
      storedData_eq_iff.mpr hne]
    simp only [if_true]
    rfl

/-- What `encodeStamped` and `checksumV2` ask of a stamp. -/
def TxStamp.Valid (tx : TxStamp) : Prop :=
  tx.n ≠ 0 ∧ tx.i < tx.n ∧ txidLen tx.t ≠ 0 ∧ txidLen tx.t ≤ xtxMaxTxIDLen

instance (tx : TxStamp) : Decidable tx.Valid :=
  inferInstanceAs (Decidable (_ ∧ _))

theorem TxStamp.Valid.t_ne (h : tx.Valid) : tx.t ≠ "" := by
  intro ht
  exact h.2.2.1 (by rw [ht]; rfl)

def txTail (tx : TxStamp) (sum : Nat) : List (String × Json) :=
  [("tx", tx.toJson), ("crc", jsonInt sum)]

theorem txTail_members (tx : TxStamp) (sum : Nat) : TailMembers (txTail tx sum) := by
  simp [TailMembers, txTail]

theorem txTail_valid (tx : TxStamp) (sum : Nat) : ValidMembers (txTail tx sum) :=
  ⟨⟨trivial, jsonInt_valid tx.i, jsonInt_valid tx.n, trivial⟩, jsonInt_valid sum, trivial⟩

theorem tx_read (tx : TxStamp) (ms : List (String × Json)) (sum : Nat) :
    txField (ms ++ txTail tx sum) = .ok (some tx) := by
  have hf : fieldOf (ms ++ txTail tx sum) "tx" = some tx.toJson := by
    simp [txTail]
  have hi : natField [("t", .str tx.t), ("i", jsonInt tx.i), ("n", jsonInt tx.n)] "i" =
      .ok tx.i := natField_of_intField (intField_jsonInt (by simp))
  have hn : natField [("t", .str tx.t), ("i", jsonInt tx.i), ("n", jsonInt tx.n)] "n" =
      .ok tx.n := natField_of_intField (intField_jsonInt (by simp))
  have ht : strField [("t", .str tx.t), ("i", jsonInt tx.i), ("n", jsonInt tx.n)] "t" =
      .ok tx.t := by simp [strField]
  unfold txField
  rw [hf, TxStamp.toJson]
  simp only [stampOf, hi, hn, ht]
  rfl

theorem probeTx_stamped (h : tx.Valid) (hv : JsonText.Valid (.obj (ms ++ txTail tx sum))) :
    probeTx (render (.obj (ms ++ txTail tx sum))) = some tx := by
  unfold probeTx
  rw [unmarshal_trimmed hv]
  simp only [bind, Except.bind, tx_read, if_neg h.t_ne]

theorem parseStamped_render (hd : DecodedData e.data) (h : tx.Valid) (sum : Nat) :
    parseStamped (render (.obj (e.members ++ txTail tx sum))) =
      if checksumV2 e.id e.op e.rev e.expiresAt e.epoch (storedData e.data) tx = .ok sum then
        .ok { e.stamped tx with data := storedData e.data }
      else if checksumV1 e.id e.op e.rev e.expiresAt e.epoch (storedData e.data) = sum then
        .error .v1CRCOnStamp
      else .error .corruptEntry := by
  have ht := txTail_members tx sum
  have hcrc : fieldOf (e.members ++ txTail tx sum) "crc" = some (jsonInt sum) := by
    simp [txTail]
  have hts : strField (e.members ++ txTail tx sum) "ts" = .ok (tsText e.ts) := by
    simp only [strField, ts_field ht]
  have hlen : ¬(txidLen tx.t = 0 ∨ xtxMaxTxIDLen < txidLen tx.t) := by
    have := h.2.2; omega
  have hrun : ¬(tx.n = 0 ∨ tx.n ≤ tx.i) := by
    have := h.1; have := h.2.1; omega
  unfold parseStamped
  rw [unmarshal_trimmed (line_valid (txTail_valid tx sum))]
  simp only [bind, Except.bind, id_read ht, op_read ht, rev_read ht, data_read ht hd,
    epoch_read ht, expiresAt_read ht, crcField_of hcrc, hts, tx_read, Option.getD_some,
    if_neg h.t_ne, if_neg hrun, pure, Except.pure, checksumV2, if_neg hlen, Except.ok.injEq]
  rfl

theorem tsText_toList (t : Time) : (tsText t).toList = Rfc3339.format t :=
  String.toList_ofList

theorem tsText_ne (t : Time) : tsText t ≠ "" := by
  intro h
  have hlen := congrArg (fun s => s.toList.length) h
  simp [tsText_toList, Rfc3339.format] at hlen

theorem parse_format_getD_iff (t : Time) :
    (Rfc3339.parse (Rfc3339.format t)).getD Rfc3339.zeroTime = t ↔ Rfc3339.Printable t := by
  constructor
  · intro h
    cases hp : Rfc3339.parse (Rfc3339.format t) with
    | none => rw [hp] at h; rw [← h]; decide
    | some t' =>
      rw [hp, Option.getD_some] at h
      exact (Rfc3339.parse_format_iff t).mp (h ▸ hp)
  · intro h
    rw [(Rfc3339.parse_format_iff t).mpr h]
    rfl

theorem decodeSegmentLine_stamped (hd : DecodedData e.data) (h : tx.Valid) (sum : Nat) :
    decodeSegmentLine (render (.obj (e.members ++ txTail tx sum)) ++ ['\n']) =
      if checksumV2 e.id e.op e.rev e.expiresAt e.epoch (storedData e.data) tx = .ok sum then
        .ok ({ e with
          ts := (Rfc3339.parse (Rfc3339.format e.ts)).getD Rfc3339.zeroTime
          data := storedData e.data }, some tx)
      else if checksumV1 e.id e.op e.rev e.expiresAt e.epoch (storedData e.data) = sum then
        .error .v1CRCOnStamp
      else .error .corruptEntry := by
  have hinfix : renderString "tx" <:+: render (.obj (e.members ++ txTail tx sum)) :=
    key_infix_render (v := tx.toJson) (by simp [txTail])
  unfold decodeSegmentLine
  simp only [trimNewlines_render, hinfix, probeTx_stamped h (line_valid (txTail_valid tx sum)),
    Option.isSome_some, and_self, if_true, parseStamped_render hd h]
  split_ifs with h1 h2
  · simp only [bind, Except.bind, Entry.stamped, if_neg (tsText_ne e.ts), tsText_toList]
    rfl
  · rfl
  · rfl

/-- A stamped line round trips exactly when its data is not an empty map and its timestamp is
printable. -/
theorem stamped_roundTrip_iff (hd : DecodedData e.data) (h : tx.Valid) :
    (∃ line, encodeStamped (e.stamped tx) = .ok line ∧
        decodeSegmentLine line = .ok (e, some tx)) ↔
      e.data ≠ some [] ∧ Rfc3339.Printable e.ts := by
  have hlen : ¬(txidLen tx.t = 0 ∨ xtxMaxTxIDLen < txidLen tx.t) := by
    have := h.2.2; omega
  have hrun : ¬(tx.n = 0 ∨ tx.n ≤ tx.i) := by
    have := h.1; have := h.2.1; omega
  obtain ⟨sum, hsum⟩ : ∃ sum, checksumV2 e.id e.op e.rev e.expiresAt e.epoch e.data tx = .ok sum :=
    ⟨_, if_neg hlen⟩
  have henc : encodeStamped (e.stamped tx) =
      .ok (render (.obj (e.members ++ txTail tx sum)) ++ ['\n']) := by
    unfold encodeStamped
    simp only [Entry.stamped, if_neg hrun, hsum]
    rfl
  constructor
  · rintro ⟨line, hline, hback⟩
    rw [henc] at hline
    cases hline
    rw [decodeSegmentLine_stamped hd h] at hback
    split at hback
    · have heq := congrArg Prod.fst (Except.ok.inj hback)
      exact ⟨storedData_eq_iff.mp (congrArg Entry.data heq),
        (parse_format_getD_iff e.ts).mp (congrArg Entry.ts heq)⟩
    · split at hback <;> cases hback
  · rintro ⟨hdata, hts⟩
    refine ⟨_, henc, ?_⟩
    rw [decodeSegmentLine_stamped hd h, storedData_eq_iff.mpr hdata, if_pos hsum,
      (parse_format_getD_iff e.ts).mpr hts]

/-- Log lines round trip, plain and under every valid stamp, exactly for the entries whose data is
not an empty map and whose timestamp the text can carry. -/
theorem segmentLine_roundTrip_iff (e : Entry) (hd : DecodedData e.data) :
    ((∃ line, encode e = .ok line ∧ decodeSegmentLine line = .ok (e, none)) ↔
      e.data ≠ some [] ∧ StrictTime e.ts ∧ e.ts.offset % 60 = 0) ∧
    ∀ tx : TxStamp, tx.Valid →
      ((∃ line, encodeStamped (e.stamped tx) = .ok line ∧
          decodeSegmentLine line = .ok (e, some tx)) ↔
        e.data ≠ some [] ∧ Rfc3339.Printable e.ts) :=
  ⟨plain_roundTrip_iff hd, fun _ h => stamped_roundTrip_iff hd h⟩

def sampleEntry (data : Option Data) : Entry :=
  { id := 7, op := .insert, ts := Rfc3339.zeroTime, rev := 1, data := data, epoch := 0,
    expiresAt := 0 }

theorem segmentLine_roundTrip_sample :
    (∃ line, encode (sampleEntry (some [("tx", .str "crc")])) = .ok line ∧
      decodeSegmentLine line = .ok (sampleEntry (some [("tx", .str "crc")]), none)) ∧
    (∃ line, encodeStamped ((sampleEntry (some [("tx", .str "crc")])).stamped ⟨"a", 0, 1⟩) =
        .ok line ∧
      decodeSegmentLine line =
        .ok (sampleEntry (some [("tx", .str "crc")]), some ⟨"a", 0, 1⟩)) := by
  have hd : DecodedData (sampleEntry (some [("tx", .str "crc")])).data := by
    intro m hm
    cases hm
    exact ⟨pairwise_singleton _ _, trivial, trivial⟩
  have h := segmentLine_roundTrip_iff (sampleEntry (some [("tx", .str "crc")])) hd
  exact ⟨h.1.mpr ⟨by simp [sampleEntry], by decide, by decide⟩,
    (h.2 ⟨"a", 0, 1⟩ (by decide)).mpr ⟨by simp [sampleEntry], by decide⟩⟩

/-- The empty map is checksummed as `{}` and then dropped, so both lines are rejected as corrupt. -/
theorem emptyData_line_corrupt :
    DecodedData (some []) ∧
    (match encode (sampleEntry (some [])) with
      | .ok line => (match decodeSegmentLine line with | .error err => some err | .ok _ => none)
      | .error _ => none) = some .corruptEntry ∧
    (match encodeStamped ((sampleEntry (some [])).stamped ⟨"a", 0, 1⟩) with
      | .ok line => (match decodeSegmentLine line with | .error err => some err | .ok _ => none)
      | .error _ => none) = some .corruptEntry := by
  refine ⟨?_, by decide +kernel, by decide +kernel⟩
  intro m hm
  cases hm
  exact ⟨List.Pairwise.nil, trivial⟩

end Scriva
