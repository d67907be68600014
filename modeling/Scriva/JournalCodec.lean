import Scriva.JournalRecord

namespace Scriva.Decisions

open JsonText Crc32c List

variable {sha : Bytes → Bytes} {epoch : Bytes}

def jsonStr (s : Bytes) : Json :=
  .str (String.ofList (Utf8.decode s))

variable {s : Bytes} {r : Record} {ms : List (String × Json)}

theorem quote_render (h : Utf8.isText s = true) : Utf8.quote s = render (jsonStr s) := by
  have hs := Utf8.quote_encode (Utf8.decode s)
  rw [Utf8.isText_iff.mp h] at hs
  rw [hs, jsonStr, render]

theorem ascii_decode (h : Utf8.isText s = true) : ascii (String.ofList (Utf8.decode s)) = s := by
  rw [ascii, String.toList_ofList]
  exact Utf8.isText_iff.mp h

theorem isText_ascii (s : String) : Utf8.isText (ascii s) = true :=
  Utf8.isText_encode s.toList

theorem memberTexts_render (ms : List (String × Json)) :
    memberTexts (ms.map fun m => (m.1, render m.2)) = renderMembers ms := by
  induction ms with
  | nil => rw [map_nil, memberTexts, renderMembers]
  | cons m ms ih =>
    cases ms with
    | nil => simp only [map_cons, map_nil, memberTexts, renderMembers]
    | cons m' ms =>
      simp only [map_cons, memberTexts, renderMembers] at ih ⊢
      rw [ih]

theorem objectText_render (ms : List (String × Json)) :
    objectText (ms.map fun m => (m.1, render m.2)) = render (.obj ms) := by
  rw [objectText, memberTexts_render, render]

theorem elemTexts_render (xs : List Json) : elemTexts (xs.map render) = renderElems xs := by
  induction xs with
  | nil => rw [map_nil, elemTexts, renderElems]
  | cons x xs ih =>
    cases xs with
    | nil => simp only [map_cons, map_nil, elemTexts, renderElems]
    | cons y xs =>
      simp only [map_cons, elemTexts, renderElems] at ih ⊢
      rw [ih]

def omitStr (k : String) (s : Bytes) : List (String × Json) :=
  if s = [] then [] else [(k, jsonStr s)]

variable {k : String} {names : List String}

theorem omitString_render (h : Utf8.isText s = true) :
    omitString k s = (omitStr k s).map fun m => (m.1, render m.2) := by
  unfold omitString omitStr
  split
  · rfl
  · rw [quote_render h]
    rfl

theorem omitNat_render (k : String) (n : Nat) :
    omitNat k n = (omitZero k n).map fun m => (m.1, render m.2) := by
  unfold omitNat omitZero
  by_cases h : n = 0
  · rw [if_pos h, if_pos (by omega)]
    rfl
  · rw [if_neg h, if_neg (by omega)]
    rfl

def crcMember (crc : Option UInt32) : List (String × Json) :=
  crc.elim [] fun c => [("crc", jsonInt c.toNat)]

theorem crcText_render (crc : Option UInt32) :
    crcText crc = (crcMember crc).map fun m => (m.1, render m.2) := by
  cases crc <;> rfl

def Part.isText (p : Part) : Bool :=
  Utf8.isText p.c && Utf8.isText p.d

def Part.json (p : Part) : Json :=
  .obj [("c", jsonStr p.c), ("n", jsonInt p.n.toNat), ("d", jsonStr p.d)]

theorem Part.text_render {p : Part} (h : p.isText = true) : p.text = render p.json := by
  obtain ⟨hc, hd⟩ := Bool.and_eq_true_iff.mp h
  rw [Part.text, quote_render hc, quote_render hd, natText, Part.json, ← objectText_render]
  rfl

def partsMember (parts : List Part) : List (String × Json) :=
  if parts = [] then [] else [("parts", .arr (parts.map Part.json))]

theorem partsText_render {parts : List Part} (h : ∀ p ∈ parts, p.isText = true) :
    partsText parts = (partsMember parts).map fun m => (m.1, render m.2) := by
  unfold partsText partsMember
  split
  · rfl
  · have hmap : parts.map Part.text = (parts.map Part.json).map render := by
      rw [map_map]
      exact map_congr_left fun p hp => Part.text_render (h p hp)
    rw [hmap, elemTexts_render]
    simp only [map_cons, map_nil, render]

structure Record.IsText (r : Record) : Prop where
  k : Utf8.isText r.k = true
  tx : Utf8.isText r.tx = true
  key : Utf8.isText r.key = true
  ts : Utf8.isText r.ts = true
  parts : ∀ p ∈ r.parts, p.isText = true
  pd : Utf8.isText r.pd = true
  why : Utf8.isText r.why = true
  o : Utf8.isText r.o = true
  rt : Utf8.isText r.rt = true
  rd : Utf8.isText r.rd = true

def Record.members (r : Record) (crc : Option UInt32) : List (String × Json) :=
  [("k", jsonStr r.k), ("tx", jsonStr r.tx), ("key", jsonStr r.key), ("ts", jsonStr r.ts)] ++
    partsMember r.parts ++ omitStr "pd" r.pd ++ omitStr "why" r.why ++ omitStr "o" r.o ++
    omitZero "rl" r.rl.toNat ++ omitStr "rt" r.rt ++ omitStr "rd" r.rd ++ crcMember crc

theorem Record.text_render (h : r.IsText) (crc : Option UInt32) :
    r.text crc = render (.obj (r.members crc)) := by
  rw [← objectText_render, Record.text, Record.members]
  simp only [map_append, map_cons, map_nil, quote_render h.k, quote_render h.tx,
    quote_render h.key, quote_render h.ts, partsText_render h.parts, omitString_render h.pd,
    omitString_render h.why, omitString_render h.o, omitNat_render, omitString_render h.rt,
    omitString_render h.rd, crcText_render]

theorem omitStr_valid (k : String) (s : Bytes) : ValidMembers (omitStr k s) := by
  unfold omitStr
  split
  · trivial
  · exact ⟨trivial, trivial⟩

theorem crcMember_valid (crc : Option UInt32) : ValidMembers (crcMember crc) := by
  cases crc with
  | none => trivial
  | some c => exact ⟨jsonInt_valid _, trivial⟩

theorem parts_valid (parts : List Part) : ValidElems (parts.map Part.json) := by
  induction parts with
  | nil => trivial
  | cons p parts ih => exact ⟨⟨trivial, jsonInt_valid _, trivial, trivial⟩, ih⟩

theorem partsMember_valid (parts : List Part) : ValidMembers (partsMember parts) := by
  unfold partsMember
  split
  · trivial
  · exact ⟨parts_valid parts, trivial⟩

theorem Record.members_valid (r : Record) (crc : Option UInt32) :
    Valid (.obj (r.members crc)) := by
  refine validMembers_append (validMembers_append (validMembers_append (validMembers_append
    (validMembers_append (validMembers_append (validMembers_append (validMembers_append ?_
    (partsMember_valid _)) (omitStr_valid _ _)) (omitStr_valid _ _)) (omitStr_valid _ _))
    (omitZero_valid _ _)) (omitStr_valid _ _)) (omitStr_valid _ _)) (crcMember_valid _)
  exact ⟨trivial, trivial, trivial, trivial, trivial⟩

@[simp] theorem fieldOf_omitStr (k' : String) (s : Bytes) (k : String) :
    fieldOf (omitStr k' s) k = if s ≠ [] ∧ k' = k then some (jsonStr s) else none := by
  by_cases hs : s = []
  · simp [omitStr, hs, fieldOf_nil]
  · simp [omitStr, hs, fieldOf_cons, fieldOf_nil]

@[simp] theorem fieldOf_crcMember (crc : Option UInt32) (k : String) :
    fieldOf (crcMember crc) k =
      if k = "crc" then crc.map fun c => jsonInt c.toNat else none := by
  cases crc with
  | none => simp [crcMember, fieldOf_nil]
  | some c => simp [crcMember, fieldOf_cons, fieldOf_nil, eq_comm]

@[simp] theorem fieldOf_partsMember (parts : List Part) (k : String) :
    fieldOf (partsMember parts) k =
      if parts ≠ [] ∧ "parts" = k then some (.arr (parts.map Part.json)) else none := by
  by_cases h : parts = []
  · simp [partsMember, h, fieldOf_nil]
  · simp [partsMember, h, fieldOf_cons, fieldOf_nil]

section Fields

variable {ms : List (String × Json)} {k : String} {s : Bytes}

theorem readBytes_of (hs : Utf8.isText s = true) (h : fieldOf ms k = some (jsonStr s)) :
    readBytes ms k = .ok s := by
  unfold readBytes strField
  rw [h]
  simp only [jsonStr, ascii_decode hs]

theorem readBytes_omitted (hs : Utf8.isText s = true)
    (h : fieldOf ms k = if s ≠ [] then some (jsonStr s) else none) : readBytes ms k = .ok s := by
  by_cases he : s = []
  · rw [if_neg (by simpa using he)] at h
    unfold readBytes strField
    rw [h, he]
    rfl
  · rw [if_pos he] at h
    exact readBytes_of hs h

theorem readNat_of {n bound : Nat} (hn : n < bound)
    (h : fieldOf ms k = if (n : Int) ≠ 0 then some (jsonInt n) else none) :
    readNat ms k bound = .ok n := by
  unfold readNat
  rw [natField_of_intField (intField_of h)]
  exact if_pos hn

theorem readNat_jsonInt {n bound : Nat} (hn : n < bound) (h : fieldOf ms k = some (jsonInt n)) :
    readNat ms k bound = .ok n := by
  unfold readNat
  rw [natField_of_intField (intField_jsonInt h)]
  exact if_pos hn

theorem readPart_json {p : Part} (h : p.isText = true) : readPart p.json = .ok p := by
  obtain ⟨hc, hd⟩ := Bool.and_eq_true_iff.mp h
  have hknown : known ["c", "n", "d"]
      [("c", jsonStr p.c), ("n", jsonInt p.n.toNat), ("d", jsonStr p.d)] = .ok () := rfl
  have h1 : readBytes [("c", jsonStr p.c), ("n", jsonInt p.n.toNat), ("d", jsonStr p.d)] "c" =
      .ok p.c := readBytes_of hc (by simp [fieldOf_cons, fieldOf_nil])
  have h2 : readNat [("c", jsonStr p.c), ("n", jsonInt p.n.toNat), ("d", jsonStr p.d)] "n"
      (2 ^ 32) = .ok p.n.toNat :=
    readNat_jsonInt p.n.toNat_lt (by simp [fieldOf_cons, fieldOf_nil])
  have h3 : readBytes [("c", jsonStr p.c), ("n", jsonInt p.n.toNat), ("d", jsonStr p.d)] "d" =
      .ok p.d := readBytes_of hd (by simp [fieldOf_cons, fieldOf_nil])
  unfold readPart Part.json
  simp only [hknown, h1, h2, h3, bind, Except.bind, pure, Except.pure]
  rw [UInt32.ofNat_toNat]

theorem mapM_readPart {parts : List Part} (h : ∀ p ∈ parts, p.isText = true) :
    (parts.map Part.json).mapM readPart = .ok parts := by
  induction parts with
  | nil => rfl
  | cons p parts ih =>
    rw [map_cons, mapM_cons, readPart_json (h p mem_cons_self),
      ih fun q hq => h q (mem_cons_of_mem _ hq)]
    rfl

theorem readParts_of {parts : List Part} (hp : ∀ p ∈ parts, p.isText = true)
    (h : fieldOf ms "parts" = if parts ≠ [] then some (.arr (parts.map Part.json)) else none) :
    readParts ms = .ok parts := by
  unfold readParts
  rw [h]
  by_cases he : parts = []
  · rw [if_neg (by simpa using he), he]
  · rw [if_pos he]
    exact mapM_readPart hp

theorem readCRC_of {crc : UInt32} (h : fieldOf ms "crc" = some (jsonInt crc.toNat)) :
    readCRC ms = .ok (some crc) := by
  unfold readCRC
  rw [h, jsonInt]
  simp only [readNat_jsonInt crc.toNat_lt h, Except.map, UInt32.ofNat_toNat]

end Fields

theorem readRecord_members (h : r.IsText) (crc : Option UInt32) :
    readRecord (r.members crc) = .ok r := by
  have h1 : readBytes (r.members crc) "k" = .ok r.k :=
    readBytes_of h.k (by simp [Record.members])
  have h2 : readBytes (r.members crc) "tx" = .ok r.tx :=
    readBytes_of h.tx (by simp [Record.members])
  have h3 : readBytes (r.members crc) "key" = .ok r.key :=
    readBytes_of h.key (by simp [Record.members])
  have h4 : readBytes (r.members crc) "ts" = .ok r.ts :=
    readBytes_of h.ts (by simp [Record.members])
  have h5 : readParts (r.members crc) = .ok r.parts :=
    readParts_of h.parts (by simp [Record.members])
  have h6 : readBytes (r.members crc) "pd" = .ok r.pd :=
    readBytes_omitted h.pd (by simp [Record.members])
  have h7 : readBytes (r.members crc) "why" = .ok r.why :=
    readBytes_omitted h.why (by simp [Record.members])
  have h8 : readBytes (r.members crc) "o" = .ok r.o :=
    readBytes_omitted h.o (by simp [Record.members])
  have h9 : readNat (r.members crc) "rl" (2 ^ 64) = .ok r.rl.toNat :=
    readNat_of r.rl.toNat_lt (by simp [Record.members])
  have h10 : readBytes (r.members crc) "rt" = .ok r.rt :=
    readBytes_omitted h.rt (by simp [Record.members])
  have h11 : readBytes (r.members crc) "rd" = .ok r.rd :=
    readBytes_omitted h.rd (by simp [Record.members])
  unfold readRecord
  simp only [h1, h2, h3, h4, h5, h6, h7, h8, h9, h10, h11, bind, Except.bind, pure, Except.pure]
  rw [UInt64.ofNat_toNat]

theorem known_of (h : ∀ m ∈ ms, m.1 ∈ names) : known names ms = .ok () :=
  if_pos (all_eq_true.mpr fun m hm => contains_iff_mem.mpr (h m hm))

theorem omitted_key {c : Prop} [Decidable c] {j : Json} (h : k ∈ names) :
    ∀ m ∈ if c then [] else [(k, j)], m.1 ∈ names := by
  split
  · exact forall_mem_nil _
  · exact forall_mem_singleton.mpr h

theorem crcMember_key (h : "crc" ∈ names) (crc : Option UInt32) :
    ∀ m ∈ crcMember crc, m.1 ∈ names := by
  cases crc with
  | none => exact forall_mem_nil _
  | some c => exact forall_mem_singleton.mpr h

theorem Record.members_known (r : Record) (crc : Option UInt32) :
    known recordFields (r.members crc) = .ok () := by
  refine known_of ?_
  simp only [Record.members, forall_mem_append]
  refine ⟨⟨⟨⟨⟨⟨⟨⟨?_, omitted_key ?_⟩, omitted_key ?_⟩, omitted_key ?_⟩, omitted_key ?_⟩,
    omitted_key ?_⟩, omitted_key ?_⟩, omitted_key ?_⟩, crcMember_key ?_ crc⟩
  · simp [recordFields]
  all_goals decide

theorem strictUnmarshal_render (hv : Valid (.obj ms)) (hk : known names ms = .ok ()) :
    strictUnmarshal names (Utf8.encode (render (.obj ms))) = .ok ms := by
  have hp : parse (render (.obj ms)) = some (.obj ms) := by
    simpa using parse_render hv (forall_mem_nil _)
  unfold strictUnmarshal
  rw [Utf8.decode_encode, hp]
  simp only [hk, Except.map]

theorem verifyLine_sealed (text : Option UInt32 → List Char) :
    verifyLine text (some (crcOf (text none))) (sealedLine text) = .ok () := by
  simp only [verifyLine, sealedLine, ne_eq, not_true_eq_false, if_false]

theorem bind_ok {ε α β : Type} {x : Except ε α} {f : α → Except ε β} {b : β}
    (h : x >>= f = .ok b) : ∃ a, x = .ok a ∧ f a = .ok b := by
  cases x with
  | error e => cases h
  | ok a => exact ⟨a, rfl, h⟩

theorem isText_readBytes (h : readBytes ms k = .ok s) : Utf8.isText s = true := by
  unfold readBytes at h
  split at h
  · cases h
    exact isText_ascii _
  · cases h

theorem isText_readPart {v : Json} {p : Part} (h : readPart v = .ok p) : p.isText = true := by
  unfold readPart at h
  split at h
  · cases h
    rfl
  · obtain ⟨-, -, h⟩ := bind_ok h
    obtain ⟨c, hc, h⟩ := bind_ok h
    obtain ⟨n, -, h⟩ := bind_ok h
    obtain ⟨d, hd, h⟩ := bind_ok h
    cases h
    exact Bool.and_eq_true_iff.mpr ⟨isText_readBytes hc, isText_readBytes hd⟩
  · cases h

theorem isText_readParts {parts : List Part} (h : readParts ms = .ok parts) :
    ∀ p ∈ parts, p.isText = true := by
  unfold readParts at h
  split at h
  · cases h
    exact forall_mem_nil _
  · cases h
    exact forall_mem_nil _
  · rename_i xs _
    clear * - h
    induction xs generalizing parts with
    | nil =>
      cases h
      exact forall_mem_nil _
    | cons x xs ih =>
      rw [mapM_cons] at h
      obtain ⟨p, hp, h⟩ := bind_ok h
      obtain ⟨ps, hps, h⟩ := bind_ok h
      cases h
      exact forall_mem_cons.mpr ⟨isText_readPart hp, ih hps⟩
  · cases h

theorem isText_readRecord (h : readRecord ms = .ok r) : r.IsText := by
  unfold readRecord at h
  obtain ⟨k, hk, h⟩ := bind_ok h
  obtain ⟨tx, htx, h⟩ := bind_ok h
  obtain ⟨key, hkey, h⟩ := bind_ok h
  obtain ⟨ts, hts, h⟩ := bind_ok h
  obtain ⟨parts, hparts, h⟩ := bind_ok h
  obtain ⟨pd, hpd, h⟩ := bind_ok h
  obtain ⟨why, hwhy, h⟩ := bind_ok h
  obtain ⟨o, ho, h⟩ := bind_ok h
  obtain ⟨rl, -, h⟩ := bind_ok h
  obtain ⟨rt, hrt, h⟩ := bind_ok h
  obtain ⟨rd, hrd, h⟩ := bind_ok h
  cases h
  exact ⟨isText_readBytes hk, isText_readBytes htx, isText_readBytes hkey, isText_readBytes hts,
    isText_readParts hparts, isText_readBytes hpd, isText_readBytes hwhy, isText_readBytes ho,
    isText_readBytes hrt, isText_readBytes hrd⟩

/-- A written record reads back exactly when its strings are text and it passes the checks of a
record. -/
theorem decode_line_iff :
    decodeXTxRecord sha epoch r.line = .ok r ↔ r.IsText ∧ r.check sha epoch = .ok () := by
  constructor
  · intro h
    unfold decodeXTxRecord at h
    obtain ⟨ms, -, h⟩ := bind_ok h
    obtain ⟨r', hr, h⟩ := bind_ok h
    obtain ⟨crc, -, h⟩ := bind_ok h
    obtain ⟨_, -, h⟩ := bind_ok h
    obtain ⟨_, hcheck, h⟩ := bind_ok h
    cases h
    exact ⟨isText_readRecord hr, hcheck⟩
  · rintro ⟨ht, hcheck⟩
    have hline : r.line = Utf8.encode (render (.obj (r.members (some (crcOf (r.text none)))))) := by
      rw [Record.line, sealedLine, Record.text_render ht (some _)]
    have hcrc : readCRC (r.members (some (crcOf (r.text none)))) =
        .ok (some (crcOf (r.text none))) := readCRC_of (by simp [Record.members])
    have hverify := verifyLine_sealed r.text
    unfold decodeXTxRecord
    rw [hline, strictUnmarshal_render (r.members_valid _) (r.members_known _), ← hline]
    simp only [bind, Except.bind, readRecord_members ht, hcrc]
    rw [Record.line, hverify]
    simp only [hcheck, pure, Except.pure]

structure Header.IsText (h : Header) : Prop where
  magic : Utf8.isText h.magic = true
  epoch : Utf8.isText h.epoch = true
  created : Utf8.isText h.created = true

def Header.members (h : Header) (crc : Option UInt32) : List (String × Json) :=
  [("magic", jsonStr h.magic), ("v", jsonInt h.v), ("epoch", jsonStr h.epoch)] ++
    omitZero "gen" h.gen.toNat ++ [("created", jsonStr h.created)] ++ crcMember crc

theorem Header.text_render {h : Header} (ht : h.IsText) (crc : Option UInt32) :
    h.text crc = render (.obj (h.members crc)) := by
  rw [← objectText_render, Header.text, Header.members]
  simp only [map_append, map_cons, map_nil, quote_render ht.magic,
    quote_render ht.epoch, quote_render ht.created, omitNat_render, crcText_render]

theorem Header.members_valid (h : Header) (crc : Option UInt32) :
    Valid (.obj (h.members crc)) := by
  refine validMembers_append (validMembers_append (validMembers_append ?_ (omitZero_valid _ _)) ?_)
    (crcMember_valid _)
  · exact ⟨trivial, jsonInt_valid _, trivial, trivial⟩
  · exact ⟨trivial, trivial⟩

theorem Header.members_known (h : Header) (crc : Option UInt32) :
    known headerFields (h.members crc) = .ok () := by
  refine known_of ?_
  simp only [Header.members, forall_mem_append]
  refine ⟨⟨⟨?_, omitted_key (by decide)⟩, ?_⟩, crcMember_key (by decide) crc⟩
  · simp [headerFields]
  · simp [headerFields]

theorem decode_header {h : Header} (hm : h.magic = xtxJournalMagic) (hv : h.v = xtxJournalVersion)
    (ht : h.IsText) (hcheck : h.check = .ok ()) : decodeXTxHeader h.line = .ok h := by
  have hline : h.line = Utf8.encode (render (.obj (h.members (some (crcOf (h.text none)))))) := by
    rw [Header.line, sealedLine, Header.text_render ht (some _)]
  have hparse : parse (Utf8.decode h.line) =
      some (.obj (h.members (some (crcOf (h.text none))))) := by
    rw [hline, Utf8.decode_encode]
    simpa using parse_render (h.members_valid _) (forall_mem_nil _)
  generalize hms : h.members (some (crcOf (h.text none))) = ms at hline hparse
  have h1 : readBytes ms "magic" = .ok h.magic :=
    readBytes_of ht.magic (by simp [← hms, Header.members])
  have h2 : readInt ms "v" = .ok h.v := by
    unfold readInt
    rw [intField_jsonInt (n := h.v) (by simp [← hms, Header.members])]
    exact if_pos (by rw [hv]; decide)
  have h3 : readBytes ms "epoch" = .ok h.epoch :=
    readBytes_of ht.epoch (by simp [← hms, Header.members])
  have h4 : readNat ms "gen" (2 ^ 64) = .ok h.gen.toNat :=
    readNat_of h.gen.toNat_lt (by simp [← hms, Header.members])
  have h5 : readBytes ms "created" = .ok h.created :=
    readBytes_of ht.created (by simp [← hms, Header.members])
  have h6 : readCRC ms = .ok (some (crcOf (h.text none))) :=
    readCRC_of (by simp [← hms, Header.members])
  have hread : readHeader ms = .ok h := by
    unfold readHeader
    simp only [h1, h2, h3, h4, h5, bind, Except.bind, pure, Except.pure]
    rw [UInt64.ofNat_toNat]
  have hstrict : strictUnmarshal headerFields h.line = .ok ms := by
    rw [hline]
    exact strictUnmarshal_render (hms ▸ h.members_valid _) (hms ▸ h.members_known _)
  have hsealed : readSealedHeader h.line = .ok h := by
    unfold readSealedHeader
    simp only [hstrict, hread, h6, bind, Except.bind]
    rw [Header.line, verifyLine_sealed]
    simp only [hcheck, pure, Except.pure]
  have hprobe : probeHeader h.line = .ok (h.magic, h.v) := by
    unfold probeHeader
    rw [hparse]
    simp only [h1, h2, bind, Except.bind, pure, Except.pure]
  unfold decodeXTxHeader
  rw [hprobe]
  simp only [hm, hv, hsealed, ne_eq, not_true_eq_false, if_false, Except.mapError]

end Scriva.Decisions
