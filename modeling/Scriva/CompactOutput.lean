import Scriva.DecidedHistories
import Scriva.RoundTrip

namespace Scriva

open List

def LogLine.text (l : LogLine) : Except WireErr (List Char) :=
  match l.tx with
  | none => encode l.entry
  | some tx => encodeStamped (l.entry.stamped tx)

/-- What a scan makes of a line that was written; a line that cannot be written, or that a merge
cannot read, shows here as one that cannot be read. -/
def LogLine.readBack (l : LogLine) : Except WireErr LogLine := do
  let p ← decodeSegmentLine (← l.text)
  return ⟨p.1, p.2⟩

def readSegments (ts : List TempSegment) : Except WireErr (List LogLine) :=
  (tempLines ts).mapM LogLine.readBack

/-- The data of the line decodes, and its stamp and its time can be written. -/
def LogLine.Printable (l : LogLine) : Prop :=
  l.decodes = true ∧
    match l.tx with
    | none => StrictTime l.entry.ts ∧ l.entry.ts.offset % 60 = 0
    | some tx => tx.Valid ∧ Rfc3339.Printable l.entry.ts

theorem encodeStamped_valid {e : Entry} {tx : TxStamp} {text : List Char}
    (h : encodeStamped (e.stamped tx) = .ok text) : tx.Valid := by
  unfold encodeStamped Entry.stamped checksumV2 at h
  by_cases hrun : tx.n = 0 ∨ tx.n ≤ tx.i
  · rw [if_pos hrun] at h
    cases h
  · by_cases hlen : txidLen tx.t = 0 ∨ xtxMaxTxIDLen < txidLen tx.t
    · rw [if_neg hrun, if_pos hlen] at h
      cases h
    · unfold TxStamp.Valid
      omega

theorem readBack_eq_ok {l : LogLine} : l.readBack = .ok l ↔
    ∃ text, l.text = .ok text ∧ decodeSegmentLine text = .ok (l.entry, l.tx) := by
  unfold LogLine.readBack
  cases htext : l.text with
  | error err => exact ⟨nofun, fun ⟨_, h, _⟩ => nomatch h⟩
  | ok text =>
    cases hdec : decodeSegmentLine text with
    | error err =>
      refine ⟨fun h => (by simp [bind, Except.bind, hdec] at h), fun ⟨text', h, h'⟩ => ?_⟩
      cases h
      cases hdec.symm.trans h'
    | ok p =>
      simp only [bind, Except.bind, pure, Except.pure, hdec, Except.ok.injEq]
      constructor
      · rintro rfl
        exact ⟨text, rfl, hdec⟩
      · rintro ⟨text', rfl, h'⟩
        rw [Except.ok.inj (hdec.symm.trans h')]

theorem decodable_iff {data : Option Data} (hd : DecodedData data) :
    decodable data = true ↔ data ≠ some [] := by
  cases data with
  | none => simp [decodable]
  | some m =>
    refine ⟨fun h => ?_, fun h => decodable_decoded (hd m rfl).2 (by simpa using h)⟩
    rintro ⟨⟩
    cases h

/-- `decodes` says of a line with data what reading its text shows. -/
theorem readBack_iff {l : LogLine} (hd : DecodedData l.entry.data) :
    l.readBack = .ok l ↔ l.Printable := by
  obtain ⟨e, tx⟩ := l
  rw [readBack_eq_ok, LogLine.Printable, LogLine.decodes, decodable_iff hd]
  cases tx with
  | none => exact plain_roundTrip_iff hd
  | some tx =>
    by_cases hv : tx.Valid
    · refine (stamped_roundTrip_iff hd hv).trans ⟨?_, ?_⟩
      · rintro ⟨hdata, hts⟩
        exact ⟨hdata, hv, hts⟩
      · rintro ⟨hdata, -, hts⟩
        exact ⟨hdata, hts⟩
    · constructor
      · rintro ⟨text, h, -⟩
        exact absurd (encodeStamped_valid h) hv
      · rintro ⟨-, h, -⟩
        exact absurd h hv

theorem readSegments_eq_ok (ts : List TempSegment) :
    readSegments ts = .ok (tempLines ts) ↔ ∀ l ∈ tempLines ts, l.readBack = .ok l := by
  unfold readSegments
  constructor
  · intro h
    exact forall₂_same.mp (Traverse.forall₂_of_mapM_ok h)
  · intro h
    have hmap := Traverse.mapM_eq_pure (g := id) h
    rwa [map_id] at hmap

/-- The segments that a compaction writes are within the cap and have names of their own. They are
written, and hold the entries with their stamps, in order, exactly when every line is short enough
and can be read back. -/
theorem writeCompactEntries_packed (c : Encoding) (maxSize : Nat) {maxSegs : Nat}
    (hmax : 1 ≤ maxSegs) {entries : List LogLine}
    (hd : ∀ l ∈ entries, DecodedData l.entry.data) :
    (∀ ts, writeCompactEntries c maxSize maxSegs entries = some ts →
      ts.length ≤ maxSegs ∧ (ts.map TempSegment.name).Nodup) ∧
    ((∃ ts, writeCompactEntries c maxSize maxSegs entries = some ts ∧
        readSegments ts = .ok entries) ↔
      ∀ l ∈ entries, c.len l ≤ maxScanTokenSize ∧ l.Printable) := by
  constructor
  · intro ts hts
    obtain ⟨-, rfl⟩ := writeCompactEntries_eq_some.mp hts
    exact ⟨packed_length c maxSize hmax entries, packed_names c maxSize maxSegs entries⟩
  · have hread : readSegments (packed c maxSize maxSegs entries) = .ok entries ↔
        ∀ l ∈ entries, l.Printable := by
      have hlines := readSegments_eq_ok (packed c maxSize maxSegs entries)
      rw [packed_lines] at hlines
      exact hlines.trans (forall₂_congr fun l hl => readBack_iff (hd l hl))
    rw [forall₂_and, ← hread]
    constructor
    · rintro ⟨ts, hts, h⟩
      obtain ⟨hlen, rfl⟩ := writeCompactEntries_eq_some.mp hts
      exact ⟨hlen, h⟩
    · rintro ⟨hlen, h⟩
      exact ⟨_, writeCompactEntries_eq_some.mpr ⟨hlen, rfl⟩, h⟩

def sampleLines : List LogLine :=
  [⟨sampleEntry none, none⟩, ⟨sampleEntry (some [("n", .null)]), some ⟨"a", 0, 1⟩⟩]

theorem writeCompactEntries_packed_sample :
    ∃ ts, writeCompactEntries byteLines 1 1 sampleLines = some ts ∧ ts.length ≤ 1 ∧
      readSegments ts = .ok sampleLines := by
  have hd : ∀ l ∈ sampleLines, DecodedData l.entry.data := by
    intro l hl m hm
    rcases mem_cons.mp hl with rfl | hl
    · cases hm
    · rw [mem_singleton.mp hl] at hm
      cases hm
      exact ⟨pairwise_singleton _ _, trivial, trivial⟩
  obtain ⟨hcap, hheld⟩ := writeCompactEntries_packed byteLines 1 (le_refl 1) hd
  obtain ⟨ts, hts, hread⟩ := hheld.mpr fun l hl => by
    rcases mem_cons.mp hl with rfl | hl
    · exact ⟨by decide, rfl, by decide, by decide⟩
    · rw [mem_singleton.mp hl]
      exact ⟨by decide, rfl, by decide, by decide⟩
  exact ⟨ts, hts, (hcap ts hts).1, hread⟩

/-- An entry with an empty map, which a migration makes of a record without data, is written as a
line that does not read back. -/
theorem writeCompactEntries_emptyData :
    (writeCompactEntries byteLines 1 1 [⟨sampleEntry (some []), none⟩]).map readSegments =
      some (.error .corruptEntry) := by
  decide +kernel

end Scriva
