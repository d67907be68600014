import Scriva.JournalFile

namespace Scriva.Decisions

open JsonText List
open Utf8 (Printable quote_printable)

variable {sha : Bytes → Bytes} {epoch : Bytes}

theorem natText_printable (n : Int) : Printable (render (jsonInt n)) := by
  have hnum : ∀ c : Char, isNumChar c = true → 32 ≤ c.toNat := by
    intro c hc
    by_contra hlt
    have hbelow : ∀ m < 32, isNumChar (Char.ofNat m) = false := by decide
    have := hbelow c.toNat (by omega)
    rw [Char.ofNat_toNat] at this
    rw [this] at hc
    cases hc
  intro c hc
  rw [jsonInt, render] at hc
  exact hnum c ((jsonInt_valid n).2 c hc)

theorem renderString_printable (k : String) : Printable (renderString k) := by
  have h := Utf8.quote_encode k.toList
  rw [String.ofList_toList] at h
  rw [← h]
  exact quote_printable _

theorem elemTexts_printable {xs : List (List Char)} (h : ∀ x ∈ xs, Printable x) :
    Printable (elemTexts xs) := by
  induction xs with
  | nil => exact forall_mem_nil _
  | cons x xs ih =>
    obtain ⟨hx, hxs⟩ := forall_mem_cons.mp h
    cases xs with
    | nil => exact hx
    | cons y xs => exact forall_mem_append.mpr ⟨hx, forall_mem_cons.mpr ⟨by decide, ih hxs⟩⟩

theorem memberTexts_eq (ms : List (String × List Char)) :
    memberTexts ms = elemTexts (ms.map fun m => renderString m.1 ++ ':' :: m.2) := by
  induction ms with
  | nil => rfl
  | cons m ms ih =>
    cases ms with
    | nil => rfl
    | cons m' ms => simpa [memberTexts, elemTexts] using ih

/-- An object is printable if the texts of its members are. -/
theorem objectText_printable {ms : List (String × List Char)} (h : ∀ m ∈ ms, Printable m.2) :
    Printable (objectText ms) := by
  have hmembers : Printable (memberTexts ms) := by
    rw [memberTexts_eq]
    refine elemTexts_printable (forall_mem_map.mpr fun m hm => ?_)
    exact forall_mem_append.mpr ⟨renderString_printable _, forall_mem_cons.mpr ⟨by decide, h m hm⟩⟩
  exact forall_mem_cons.mpr ⟨by decide, forall_mem_append.mpr ⟨hmembers, Utf8.printable_of_all rfl⟩⟩

theorem Part.text_printable (p : Part) : Printable p.text :=
  objectText_printable (by simp [quote_printable, natText, natText_printable])

section

variable {k : String} {s : Bytes} {n : Nat} {crc : Option UInt32} {parts : List Part}

theorem omitString_printable : ∀ m ∈ omitString k s, Printable m.2 := by
  unfold omitString
  split
  · exact forall_mem_nil _
  · exact forall_mem_singleton.mpr (quote_printable _)

theorem omitNat_printable : ∀ m ∈ omitNat k n, Printable m.2 := by
  unfold omitNat
  split
  · exact forall_mem_nil _
  · exact forall_mem_singleton.mpr (natText_printable _)

theorem crcText_printable : ∀ m ∈ crcText crc, Printable m.2 := by
  cases crc with
  | none => exact forall_mem_nil _
  | some c => exact forall_mem_singleton.mpr (natText_printable _)

theorem partsText_printable : ∀ m ∈ partsText parts, Printable m.2 := by
  unfold partsText
  split
  · exact forall_mem_nil _
  · have hparts : Printable (elemTexts (parts.map Part.text)) :=
      elemTexts_printable (forall_mem_map.mpr fun p _ => p.text_printable)
    refine forall_mem_singleton.mpr (forall_mem_cons.mpr ⟨by decide, ?_⟩)
    exact forall_mem_append.mpr ⟨hparts, Utf8.printable_of_all rfl⟩

end

theorem Record.text_printable (r : Record) (crc : Option UInt32) : Printable (r.text crc) := by
  refine objectText_printable ?_
  simp only [forall_mem_append]
  refine ⟨⟨⟨⟨⟨⟨⟨⟨?_, partsText_printable⟩, omitString_printable⟩, omitString_printable⟩,
    omitString_printable⟩, omitNat_printable⟩, omitString_printable⟩, omitString_printable⟩,
    crcText_printable⟩
  simp [quote_printable]

theorem Header.text_printable (h : Header) (crc : Option UInt32) : Printable (h.text crc) := by
  refine objectText_printable ?_
  simp only [forall_mem_append]
  refine ⟨⟨⟨?_, omitNat_printable⟩, forall_mem_singleton.mpr (quote_printable _)⟩, crcText_printable⟩
  simp [quote_printable, natText_printable]

theorem newline_notMem_sealed {text : Option UInt32 → List Char}
    (h : ∀ crc, Printable (text crc)) : 10 ∉ sealedLine text := by
  intro hmem
  obtain ⟨c, hc, hcn⟩ := Utf8.ascii_mem_encode hmem (by decide)
  have := h _ c hc
  rw [hcn] at this
  exact absurd this (by decide)

/-- A record is one line of the file. -/
theorem newline_notMem_line (r : Record) : 10 ∉ r.line :=
  newline_notMem_sealed r.text_printable

theorem newline_notMem_header (h : Header) : 10 ∉ h.line :=
  newline_notMem_sealed h.text_printable

theorem sealed_head (ms : Option UInt32 → List (String × List Char)) :
    ∃ rest, sealedLine (fun crc => objectText (ms crc)) = 123 :: rest :=
  ⟨_, rfl⟩

theorem allZero_line (r : Record) : allZero r.line = false := by
  obtain ⟨rest, h⟩ := sealed_head fun crc =>
    [("k", Utf8.quote r.k), ("tx", Utf8.quote r.tx), ("key", Utf8.quote r.key),
      ("ts", Utf8.quote r.ts)] ++ partsText r.parts ++ omitString "pd" r.pd ++
    omitString "why" r.why ++ omitString "o" r.o ++ omitNat "rl" r.rl.toNat ++
    omitString "rt" r.rt ++ omitString "rd" r.rd ++ crcText crc
  have hline : r.line = 123 :: rest := h
  rw [hline]
  simp [allZero]

theorem splitLine_none {bs : Bytes} : splitLine bs = none ↔ 10 ∉ bs := by
  induction bs with
  | nil => simp [splitLine]
  | cons b bs ih =>
    unfold splitLine
    by_cases hb : b = 10
    · simp [hb]
    · simp [hb, ih, eq_comm]

/-- The first line of a file ends at the first newline. -/
theorem splitLine_append {line : Bytes} (h : 10 ∉ line) (rest : Bytes) :
    splitLine (line ++ 10 :: rest) = some (line, rest) := by
  induction line with
  | nil => simp [splitLine]
  | cons b line ih =>
    have hb : b ≠ 10 := fun hb => h (hb ▸ mem_cons_self)
    rw [cons_append, splitLine, if_neg hb, ih fun hm => h (mem_cons_of_mem _ hm)]
    rfl

def Reads (sha : Bytes → Bytes) (epoch : Bytes) (r : Record) : Prop :=
  decodeXTxRecord sha epoch r.line = .ok r ∧ r.line.length ≤ xtxMaxJournalRecord

def linesOf (rs : List Record) : Bytes :=
  rs.flatMap encodeXTxRecord

theorem linesOf_cons (r : Record) (rs : List Record) :
    linesOf (r :: rs) = r.line ++ 10 :: linesOf rs := by
  simp [linesOf, encodeXTxRecord]

theorem linesOf_append (rs rs' : List Record) : linesOf (rs ++ rs') = linesOf rs ++ linesOf rs' :=
  flatMap_append

def Parsed.behind (p : Parsed) (rs : List Record) (t : Table) : Parsed :=
  { p with records := p.records ++ rs, table := t, validLen := p.validLen + (linesOf rs).length }

variable {fuel : Nat} {p : Parsed}

theorem parse_line {r : Record} {t : Table} (hr : Reads sha epoch r) (ht : p.table.apply r = .ok t)
    (rest : Bytes) :
    parseRecords sha epoch (fuel + 1) p (r.line ++ 10 :: rest) =
      parseRecords sha epoch fuel (p.behind [r] t) rest := by
  have hsplit := splitLine_append (newline_notMem_line r) rest
  have hlen : (linesOf [r]).length = r.line.length + 1 := by
    rw [linesOf_cons, length_append]
    rfl
  have hfits : ¬xtxMaxJournalRecord < r.line.length := Nat.not_lt.mpr hr.2
  cases hb : r.line ++ 10 :: rest with
  | nil => simp at hb
  | cons b bs =>
    rw [hb] at hsplit
    rw [parseRecords, hsplit]
    simp only [hfits, if_false, allZero_line, Bool.false_eq_true, and_false, hr.1, ht]
    rw [Parsed.behind, hlen, Nat.add_assoc]

/-- Whole lines are read into the table they stand for. -/
theorem parse_lines {rs : List Record} {t : Table} {rest : Bytes} (hr : ∀ r ∈ rs, Reads sha epoch r)
    (ht : p.table.fold rs = .ok t) (hf : (linesOf rs ++ rest).length ≤ fuel) :
    ∃ fuel', rest.length ≤ fuel' ∧ parseRecords sha epoch fuel p (linesOf rs ++ rest) =
      parseRecords sha epoch fuel' (p.behind rs t) rest := by
  induction rs generalizing fuel p with
  | nil =>
    cases ht
    refine ⟨fuel, hf, ?_⟩
    simp [linesOf, Parsed.behind]
  | cons r rs ih =>
    obtain ⟨t1, h1, ht⟩ := bind_ok ht
    rw [linesOf_cons, append_assoc, cons_append] at hf ⊢
    rw [length_append, length_cons] at hf
    cases fuel with
    | zero => omega
    | succ fuel =>
      have hrest : (linesOf rs ++ rest).length ≤ fuel := by omega
      rw [parse_line (hr r mem_cons_self) h1]
      obtain ⟨fuel', hf', heq⟩ := ih (p := p.behind [r] t1)
        (fun x hx => hr x (mem_cons_of_mem _ hx)) ht hrest
      refine ⟨fuel', hf', heq.trans ?_⟩
      have hsum : (linesOf (r :: rs)).length = (linesOf [r]).length + (linesOf rs).length := by
        rw [← length_append, ← linesOf_append]
        rfl
      simp only [Parsed.behind, hsum, append_assoc, singleton_append, Nat.add_assoc]

/-- A last line without its newline is torn. -/
theorem parse_torn {rest : Bytes} (h : 10 ∉ rest) (hne : rest ≠ []) (hf : rest.length ≤ fuel) :
    parseRecords sha epoch fuel p rest = .ok { p with torn := true } := by
  cases rest with
  | nil => exact absurd rfl hne
  | cons b rest =>
    cases fuel with
    | zero => simp at hf
    | succ fuel => rw [parseRecords, splitLine_none.mpr h]

/-- So is one of zeros, which a file system leaves behind. -/
theorem parse_zeros {m : Nat} (hm : 0 < m) (hmax : m ≤ xtxMaxJournalRecord) (hf : m < fuel) :
    parseRecords sha epoch fuel p (List.replicate m 0 ++ [10]) =
      .ok { p with torn := true } := by
  have hno : (10 : UInt8) ∉ List.replicate m 0 := by
    intro h
    exact absurd (eq_of_mem_replicate h) (by decide)
  have hsplit := splitLine_append hno []
  have hzero : allZero (List.replicate m 0) = true := by
    simp [allZero, Nat.pos_iff_ne_zero.mp hm]
  cases fuel with
  | zero => omega
  | succ fuel =>
    cases hb : List.replicate m 0 ++ [(10 : UInt8)] with
    | nil => simp at hb
    | cons b bs =>
      rw [hb] at hsplit
      rw [parseRecords, hsplit]
      simp only [length_replicate, Nat.not_lt.mpr hmax, if_false, hzero, and_self, if_true]

end Scriva.Decisions
