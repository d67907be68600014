import Scriva.JournalCuts

namespace Scriva.Decisions

open JsonText List Option Function

variable {sha : Bytes → Bytes} {epoch : Bytes}

theorem hexDigit_lower (n : Nat) : isLowerHex [hexDigit (n % 16)] = true := by
  have h : ∀ m < 16, isLowerHex [hexDigit m] = true := by decide
  exact h _ (Nat.mod_lt _ (by decide))

theorem hexDigits_lower (k n : Nat) : isLowerHex (hexDigits k n) = true := by
  induction k generalizing n with
  | zero => rfl
  | succ k ih =>
    have h := hexDigit_lower n
    simp only [isLowerHex, hexDigits, all_append, Bool.and_eq_true] at ih h ⊢
    exact ⟨ih _, h⟩

@[simp] theorem length_hexDigits (k n : Nat) : (hexDigits k n).length = k := by
  induction k generalizing n with
  | zero => rfl
  | succ k ih => rw [hexDigits, length_append, ih, length_singleton]

theorem lowerHex_ascii {s : Bytes} (h : isLowerHex s = true) : ∀ b ∈ s, b.toNat < 128 := by
  intro b hb
  have := all_eq_true.mp h b hb
  simp only [Bool.or_eq_true, Bool.and_eq_true, decide_eq_true_eq] at this
  rcases this with ⟨-, hle⟩ | ⟨-, hle⟩
  · have : b.toNat ≤ 57 := hle
    omega
  · have : b.toNat ≤ 102 := hle
    omega

def InYears (now : Instant) : Prop :=
  0 ≤ now.val.year ∧ now.val.year ≤ 9999

instance (now : Instant) : Decidable (InYears now) :=
  inferInstanceAs (Decidable (_ ∧ _))

theorem clock_parses_iff (now : Instant) :
    (Rfc3339.parse (Utf8.decode now.text)).isNone = false ↔ InYears now := by
  rw [Instant.text, Utf8.decode_encode]
  constructor
  · intro h
    refine Rfc3339.parse_format_year fun hn => ?_
    rw [hn] at h
    cases h
  · rintro ⟨h0, h1⟩
    rw [Rfc3339.parse_format_zone h0 h1, Rfc3339.zoneText, if_pos now.property]
    rfl

variable {seed : UInt64} {now : Instant} {rs : List Record} {t : Table} {r : Record}
  {j j' : Journal}

theorem newHeader_decodes (h : InYears now) :
    decodeXTxHeader (newHeader seed now).line = .ok (newHeader seed now) := by
  have hlower := hexDigits_lower xtxEpochHexLen seed.toNat
  have htext : (newHeader seed now).IsText :=
    ⟨isText_ascii _, Utf8.isText_ascii (lowerHex_ascii hlower), Utf8.isText_encode _⟩
  refine decode_header rfl rfl htext ?_
  unfold Header.check
  rw [if_neg (by simp [newHeader, hlower]), newHeader, (clock_parses_iff now).mpr h]
  rfl

theorem newHeader_starts (seed : UInt64) (now : Instant) :
    headerPrefix <+: (newHeader seed now).line := by
  have hmagic : Utf8.quote xtxJournalMagic = "\"SCRIVA-XTX\"".toList := by decide
  have htext : ∀ crc, "\x7b\"magic\":\"SCRIVA-XTX\"".toList <+: (newHeader seed now).text crc := by
    intro crc
    simp only [Header.text, newHeader, objectText, cons_append, memberTexts, hmagic]
    exact ⟨_, rfl⟩
  obtain ⟨rest, hrest⟩ := htext (some (crcOf ((newHeader seed now).text none)))
  rw [Header.line, sealedLine, ← hrest, Utf8.encode, flatMap_append]
  exact prefix_append _ _

def within : Nat → List Record → List Record
  | _, [] => []
  | n, r :: rs =>
    if (encodeXTxRecord r).length ≤ n then r :: within (n - (encodeXTxRecord r).length) rs else []

theorem within_isPrefix (n : Nat) (rs : List Record) : within n rs <+: rs := by
  induction rs generalizing n with
  | nil => exact nil_prefix
  | cons r rs ih =>
    unfold within
    split
    · exact prefix_cons_inj r |>.mpr (ih _)
    · exact nil_prefix

theorem within_all {n : Nat} (h : (linesOf rs).length ≤ n) : within n rs = rs := by
  induction rs generalizing n with
  | nil => rfl
  | cons r rs ih =>
    have hlines : linesOf (r :: rs) = encodeXTxRecord r ++ linesOf rs := by simp [linesOf]
    rw [hlines, length_append] at h
    rw [within, if_pos (by omega), ih (by omega)]

theorem take_lines (n : Nat) (rs : List Record) :
    ∃ rest, (linesOf rs).take n = linesOf (within n rs) ++ rest ∧ 10 ∉ rest := by
  induction rs generalizing n with
  | nil => exact ⟨[], by simp [linesOf, within], by simp⟩
  | cons r rs ih =>
    have hlines : linesOf (r :: rs) = encodeXTxRecord r ++ linesOf rs := by simp [linesOf]
    unfold within
    split
    · next hle =>
      obtain ⟨rest, heq, hno⟩ := ih (n - (encodeXTxRecord r).length)
      refine ⟨rest, ?_, hno⟩
      rw [hlines, take_append, take_of_length_le hle, heq]
      simp [linesOf]
    · next hlt =>
      have hn : n ≤ r.line.length := by
        have : (encodeXTxRecord r).length = r.line.length + 1 := by simp [encodeXTxRecord]
        omega
      refine ⟨r.line.take n, ?_, fun h => newline_notMem_line r (mem_of_mem_take h)⟩
      rw [hlines, encodeXTxRecord, append_assoc, take_append_of_le_length hn]
      rfl

def Journal.start (j : Journal) : Nat :=
  (encodeXTxHeader j.hdr).length

def Journal.kept (j : Journal) (n : Nat) : List Record :=
  within (n - j.start) j.written

def Journal.validLen (j : Journal) (n : Nat) : Nat :=
  j.start + (linesOf (j.kept n)).length

/-- What a crash may put behind a cut: zeros if the beginning of the header is whole, or a line of
zeros behind a whole line. -/
def Journal.Survives (j : Journal) (n : Nat) : Fill → Prop
  | .nothing => True
  | .zeros m => m = 0 ∨ n = 0 ∨ headerPrefix.length ≤ n
  | .line m => 0 < m ∧ m ≤ xtxMaxJournalRecord ∧ j.start ≤ n ∧
      j.validLen n = min n j.file.length

instance (j : Journal) (n : Nat) : ∀ fill, Decidable (j.Survives n fill)
  | .nothing => inferInstanceAs (Decidable True)
  | .zeros _ => inferInstanceAs (Decidable (_ ∨ _))
  | .line _ => inferInstanceAs (Decidable (_ ∧ _))

/-- The file holds a header and the written records, all of which read back, and the table is the
fold of the installed ones. -/
structure Sound (sha : Bytes → Bytes) (j : Journal) : Prop where
  header : decodeXTxHeader j.hdr.line = .ok j.hdr
  starts : headerPrefix <+: j.hdr.line
  file : j.file = encodeXTxHeader j.hdr ++ linesOf j.written
  reads : ∀ r ∈ j.written, Reads sha j.hdr.epoch r
  table : newXTxTable.fold j.records = .ok j.table
  folds : ∃ t, newXTxTable.fold j.written = .ok t
  clear : j.poisoned = false → j.written = j.records

theorem sound_created (h : InYears now) :
    Sound sha (createXTxJournal seed now) where
  header := newHeader_decodes h
  starts := newHeader_starts seed now
  file := (append_nil _).symm
  reads := forall_mem_nil _
  table := rfl
  folds := ⟨_, rfl⟩
  clear := fun _ => rfl

theorem fold_append {t' : Table} {rs' : List Record} (h : t.fold (rs ++ rs') = .ok t') :
    ∃ u, t.fold rs = .ok u ∧ u.fold rs' = .ok t' := by
  rw [Table.fold, foldlM_append] at h
  exact bind_ok h

theorem fold_concat {u v : Table} (h : t.fold rs = .ok u) (hr : u.apply r = .ok v) :
    t.fold (rs ++ [r]) = .ok v := by
  rw [Table.fold, foldlM_append, ← Table.fold, h]
  change (u.apply r >>= pure) = _
  rw [hr]
  rfl

theorem fold_isPrefix {t' : Table} {rs' : List Record} (hp : rs <+: rs') (h : t.fold rs' = .ok t') :
    ∃ u, t.fold rs = .ok u := by
  obtain ⟨rest, rfl⟩ := hp
  obtain ⟨u, hu, -⟩ := fold_append h
  exact ⟨u, hu⟩

section Cuts

variable {j : Journal} {n : Nat}

theorem tornHeader_zeros {line : Bytes} {m : Nat} (hp : headerPrefix <+: line)
    (hm : m = 0 ∨ n = 0 ∨ headerPrefix.length ≤ n) :
    line.take n ++ List.replicate m 0 = [] ∨
      tornHeaderPrefix (line.take n ++ List.replicate m 0) = true := by
  by_cases h0 : n = 0
  · cases m with
    | zero => simp [h0]
    | succ m => right; simp [h0, tornHeaderPrefix, allZero]
  · right
    obtain ⟨rest, hrest⟩ := hp
    rw [tornHeaderPrefix, Bool.or_eq_true]
    right
    by_cases hle : headerPrefix.length ≤ n
    · -- The whole beginning of a header is there, whatever follows it.
      have htake : line.take n = headerPrefix ++ rest.take (n - headerPrefix.length) := by
        rw [← hrest, take_append, take_of_length_le hle]
      rw [htake, append_assoc]
      split
      · exact isPrefixOf_iff_prefix.mpr (prefix_append _ _)
      · next hlen =>
        have hnil : rest.take (n - headerPrefix.length) ++ List.replicate m 0 = [] := by
          rw [length_append] at hlen
          exact eq_nil_of_length_eq_zero (by omega)
        rw [hnil]
        simp
    · have hm0 : m = 0 := by
        rcases hm with hm | hm | hm
        · exact hm
        · exact absurd hm h0
        · exact absurd hm hle
      have htake : line.take n = headerPrefix.take n := by
        rw [← hrest, take_append_of_le_length (by omega)]
      have hlen : (headerPrefix.take n).length = n := by
        rw [length_take]
        omega
      rw [hm0, replicate_zero, append_nil, htake, if_neg (by omega), hlen]
      exact beq_self_eq_true _

theorem Sound.parse_header_cut (hs : Sound sha j) {fill : Fill} (hf : j.Survives n fill)
    (hn : n < j.start) : parseXTxJournal sha (j.cut n fill) = .ok tornCreation := by
  have hlen : n ≤ j.hdr.line.length := by
    rw [Journal.start, encodeXTxHeader, length_append] at hn
    exact Nat.le_of_lt_succ hn
  have htake : j.file.take n = j.hdr.line.take n := by
    rw [hs.file, encodeXTxHeader, append_assoc, take_append_of_le_length hlen]
  obtain ⟨m, hm, hcut⟩ : ∃ m, (m = 0 ∨ n = 0 ∨ headerPrefix.length ≤ n) ∧
      j.cut n fill = j.hdr.line.take n ++ List.replicate m 0 := by
    cases fill with
    | nothing => exact ⟨0, Or.inl rfl, by rw [Journal.cut, htake]; rfl⟩
    | zeros m => exact ⟨m, hf, by rw [Journal.cut, htake]; rfl⟩
    | line m => exact absurd hf.2.2.1 (Nat.not_le.mpr hn)
  have hno : splitLine (j.cut n fill) = none := by
    refine splitLine_none.mpr fun hmem => ?_
    rw [hcut] at hmem
    rcases mem_append.mp hmem with hmem | hmem
    · exact newline_notMem_header j.hdr (mem_of_mem_take hmem)
    · exact absurd (eq_of_mem_replicate hmem) (by decide)
  unfold parseXTxJournal
  refine if_pos ?_
  rcases tornHeader_zeros hs.starts hm with h | h
  · exact Or.inl (hcut ▸ h)
  · exact Or.inr ⟨hno, hcut ▸ h⟩

theorem parse_behind_header {h : Header} (hd : decodeXTxHeader h.line = .ok h) (rest : Bytes) :
    parseXTxJournal sha (encodeXTxHeader h ++ rest) =
      parseRecords sha h.epoch rest.length (parsedHeader h (encodeXTxHeader h).length) rest := by
  have hdata : encodeXTxHeader h ++ rest = h.line ++ 10 :: rest := by simp [encodeXTxHeader]
  have hsplit := splitLine_append (newline_notMem_header h) rest
  have hlen : (encodeXTxHeader h).length = h.line.length + 1 := by simp [encodeXTxHeader]
  unfold parseXTxJournal
  rw [hdata, hsplit, if_neg (by simp), hlen]
  simp only [hd, bind, Except.bind]

theorem Sound.parse_record_cut (hs : Sound sha j) {fill : Fill} (hf : j.Survives n fill)
    (hn : j.start ≤ n) :
    ∃ t, newXTxTable.fold (j.kept n) = .ok t ∧ parseXTxJournal sha (j.cut n fill) =
      .ok { header := j.hdr, records := j.kept n, validLen := j.validLen n,
            torn := decide (j.validLen n < (j.cut n fill).length), tornCreate := false,
            table := t } := by
  have hpre : j.kept n <+: j.written := within_isPrefix _ _
  obtain ⟨u, hu⟩ := hs.folds
  obtain ⟨t, ht⟩ := fold_isPrefix hpre hu
  refine ⟨t, ht, ?_⟩
  obtain ⟨tail, htail, hno⟩ := take_lines (n - j.start) j.written
  have hcut : j.cut n fill = encodeXTxHeader j.hdr ++ (linesOf (j.kept n) ++
      (tail ++ fill.bytes)) := by
    rw [Journal.cut, hs.file, take_append, take_of_length_le hn]
    change _ ++ (linesOf j.written).take (n - j.start) ++ _ = _
    rw [htail]
    simp only [append_assoc]
    rfl
  have hlen : (j.cut n fill).length = j.validLen n + (tail ++ fill.bytes).length := by
    rw [hcut, length_append, length_append, Journal.validLen, Journal.start]
    omega
  have hreads : ∀ r ∈ j.kept n, Reads sha j.hdr.epoch r := fun r hr => hs.reads r (hpre.subset hr)
  have hfuel : (linesOf (j.kept n) ++ (tail ++ fill.bytes)).length ≤
      (linesOf (j.kept n) ++ (tail ++ fill.bytes)).length := Nat.le_refl _
  obtain ⟨fuel, hfuel, hlines⟩ := parse_lines (p := parsedHeader j.hdr j.start) hreads ht hfuel
  have hend : ∀ b, parseRecords sha j.hdr.epoch fuel ((parsedHeader j.hdr j.start).behind
      (j.kept n) t) (tail ++ fill.bytes) =
        .ok { (parsedHeader j.hdr j.start).behind (j.kept n) t with torn := b } →
      b = decide (j.validLen n < (j.cut n fill).length) →
      parseXTxJournal sha (j.cut n fill) = .ok
        { header := j.hdr, records := j.kept n, validLen := j.validLen n,
          torn := decide (j.validLen n < (j.cut n fill).length), tornCreate := false,
          table := t } := by
    intro b hb hbt
    rw [← hbt, hcut, parse_behind_header hs.header]
    exact hlines.trans hb
  by_cases hempty : tail ++ fill.bytes = []
  · refine hend false ?_ ?_
    · rw [hempty]
      cases fuel <;> rfl
    · rw [hlen, hempty]
      simp
  · have hlt : decide (j.validLen n < (j.cut n fill).length) = true := by
      rw [decide_eq_true_eq, hlen]
      exact Nat.lt_add_of_pos_right (length_pos_iff.mpr hempty)
    refine hend true ?_ hlt.symm
    have hzeros : ∀ m, (10 : UInt8) ∉ List.replicate m 0 := fun m h =>
      absurd (eq_of_mem_replicate h) (by decide)
    cases fill with
    | nothing => exact parse_torn (by simpa [Fill.bytes] using hno) hempty hfuel
    | zeros m =>
      refine parse_torn (fun h => ?_) hempty hfuel
      rcases mem_append.mp h with h | h
      · exact hno h
      · exact hzeros m h
    | line m =>
      obtain ⟨hm, hmax, -, hend⟩ := hf
      -- The cut stands at the end of a line, so nothing is left in front of the zeros.
      have hfile : (j.file.take n).length = j.validLen n + tail.length := by
        have := hlen
        rw [Journal.cut, length_append, length_append] at this
        omega
      have htail0 : tail = [] := by
        rw [length_take] at hfile
        exact eq_nil_of_length_eq_zero (by omega)
      rw [htail0] at hfuel ⊢
      refine parse_zeros hm hmax ?_
      rw [nil_append, Fill.bytes, length_append, length_replicate] at hfuel
      exact hfuel

theorem Sound.parse_whole (hs : Sound sha j) : ∃ t, parseXTxJournal sha j.file =
    .ok { header := j.hdr, records := j.written, validLen := j.file.length, torn := false,
          tornCreate := false, table := t } := by
  have hlen : j.file.length = j.start + (linesOf j.written).length := by
    rw [hs.file, length_append]
    rfl
  have hkept : j.kept j.file.length = j.written := within_all (by omega)
  have hvalid : j.validLen j.file.length = j.file.length := by
    rw [Journal.validLen, hkept, hlen]
  have hcut : j.cut j.file.length .nothing = j.file := by
    rw [Journal.cut, take_length]
    exact append_nil _
  obtain ⟨t, -, hp⟩ := hs.parse_record_cut (show j.Survives j.file.length .nothing from trivial) (by omega)
  rw [hcut, hkept, hvalid] at hp
  refine ⟨t, hp.trans ?_⟩
  rw [decide_eq_false (Nat.lt_irrefl _)]

end Cuts

structure Quiet (j j' : Journal) : Prop where
  hdr : j'.hdr = j.hdr
  file : j'.file = j.file
  table : j'.table = j.table
  records : j'.records = j.records
  poisoned : j'.poisoned = j.poisoned
  written : j'.written = j.written

theorem Quiet.refl (j : Journal) : Quiet j j :=
  ⟨rfl, rfl, rfl, rfl, rfl, rfl⟩

theorem Sound.quiet (hs : Sound sha j) (h : Quiet j j') : Sound sha j' where
  header := by rw [h.hdr]; exact hs.header
  starts := by rw [h.hdr]; exact hs.starts
  file := by rw [h.file, h.hdr, h.written]; exact hs.file
  reads := by rw [h.hdr, h.written]; exact hs.reads
  table := by rw [h.records, h.table]; exact hs.table
  folds := by rw [h.written]; exact hs.folds
  clear := by rw [h.poisoned, h.written, h.records]; exact hs.clear

theorem Sound.append (hs : Sound sha j) (hp : j.poisoned = false) (hr : Reads sha j.hdr.epoch r)
    (ht : j.table.apply r = .ok t) (synced : Bool) : Sound sha (j.append r synced).journal := by
  have hfile : j.file ++ encodeXTxRecord r =
      encodeXTxHeader j.hdr ++ linesOf (j.written ++ [r]) := by
    rw [hs.file, linesOf_append, append_assoc]
    simp [linesOf]
  have hreads : ∀ x ∈ j.written ++ [r], Reads sha j.hdr.epoch x := by
    intro x hx
    rcases Runs.mem_concat hx with hx | rfl
    · exact hs.reads x hx
    · exact hr
  have hfold : newXTxTable.fold (j.records ++ [r]) = .ok t := fold_concat hs.table ht
  have hfolds : newXTxTable.fold (j.written ++ [r]) = .ok t := by
    rw [hs.clear hp]
    exact hfold
  cases synced with
  | true =>
    simp only [Journal.append, if_true, ht]
    exact ⟨hs.header, hs.starts, hfile, hreads, hfold, ⟨t, hfolds⟩, fun _ => by
      change j.written ++ [r] = j.records ++ [r]
      rw [hs.clear hp]⟩
  | false =>
    simp only [Journal.append, Bool.false_eq_true, if_false]
    exact ⟨hs.header, hs.starts, hfile, hreads, hs.table, ⟨t, hfolds⟩, fun h => by cases h⟩

theorem apply_first (h : t.byTx r.tx = none) (hl : r.bound = true → t.byLSN r.rl = none) :
    ∃ t', t.apply r = .ok t' := by
  obtain ⟨d, hd⟩ : ∃ d, t.decisionFor r >>= (fun d => d.absorb r) = .ok d := by
    unfold Table.decisionFor
    rw [h]
    simp only [bind, Except.bind, Decision.absorb, Decision.commit]
    by_cases hc : r.k = kindCommit
    · by_cases hrl : r.rl = 0
      · simp [hc, hrl]
      · simp [hc, hrl]
    · by_cases ha : r.k = kindAbort
      · simp only [if_neg hc, if_pos ha]
        exact ⟨_, rfl⟩
      · simp only [if_neg hc, if_neg ha]
        exact ⟨_, rfl⟩
  obtain ⟨d0, h0, hd⟩ := bind_ok hd
  have hlsn : ¬(r.bound ∧ (t.byLSN r.rl).any (· ≠ r.tx)) := by
    rintro ⟨hb, hany⟩
    rw [hl hb] at hany
    cases hany
  unfold Table.apply
  simp only [h0, hd, bind, Except.bind, if_neg hlsn]
  exact ⟨_, rfl⟩

theorem apply_retire {d : Decision} (h : t.byTx r.tx = some d) (hk : r.k = kindRetire)
    (ho : d.outcome = r.o) (hkey : d.key = r.key) : ∃ t', t.apply r = .ok t' := by
  have hc : r.k ≠ kindCommit := by rw [hk]; decide
  have ha : r.k ≠ kindAbort := by rw [hk]; decide
  have hout : r.outcome = r.o := if_pos hk
  have hd : t.decisionFor r = .ok d := by
    unfold Table.decisionFor
    simp only [h, hout, ho, hkey, ne_eq, not_true_eq_false, if_false]
  have hb : r.bound = false := by simp [Record.bound, hc]
  have hab : d.absorb r = .ok { d with retired := true } := by
    rw [Decision.absorb, if_neg hc, if_neg ha]
  unfold Table.apply
  simp only [hd, hab, hb, bind, Except.bind, Bool.false_eq_true, false_and, if_false]
  exact ⟨_, rfl⟩

inductive Appends (sha : Bytes → Bytes) (j : Journal) : Act → Record → Prop
  | commit {tx key : Bytes} {parts : List Part} {bind : Option Bind} (now : Instant)
      (synced : Bool) (hp : j.pending tx = some key) (hkey : key.length ≤ xtxMaxKeyLen)
      (hparts : validateParts parts = true)
      (hbind : ∀ b ∈ bind, b.lsn ≠ 0 ∧ b.leadTx ≠ [] ∧ b.digest ≠ []) :
      Appends sha j (.commit tx key parts bind now synced) (commitRecord sha now tx key parts bind)
  | abort {tx key why : Bytes} (now : Instant) (synced : Bool) (hkey : key.length ≤ xtxMaxKeyLen)
      (hwhy : why ∈ abortReasons) (htx : (parseTxID tx).map Prod.fst = some j.hdr.epoch) :
      Appends sha j (.abort tx key why now synced) (abortRecord now tx key why)
  | retire {tx : Bytes} {d : Decision} (now : Instant) (synced : Bool)
      (hd : j.table.byTx tx = some d) :
      Appends sha j (.retire tx now synced) (retireRecord now tx d)

def PendingFrom (j j' : Journal) : Prop :=
  ∀ tx key, j'.pending tx = some key → j.pending tx = some key ∨
    (∃ seq, tx = formatTxID j.hdr.epoch seq) ∧ key.length ≤ xtxMaxKeyLen

/-- What a call does: it appends nothing, or a record that the table takes. -/
def Does (sha : Bytes → Bytes) (j : Journal) (a : Act) (rep : Reply) : Prop :=
  PendingFrom j rep.journal ∧ ((rep.appended = none ∧ Quiet j rep.journal) ∨
    ∃ r synced t, j.poisoned = false ∧ j.table.apply r = .ok t ∧ Appends sha j a r ∧
      rep.appended = some r ∧ Quiet (j.append r synced).journal rep.journal)

theorem append_spec (j : Journal) (r : Record) (synced : Bool) :
    (j.append r synced).journal.pending = j.pending ∧
    (j.append r synced).journal.file = j.file ++ encodeXTxRecord r ∧
    (j.append r synced).appended = some r := by
  unfold Journal.append
  dsimp only
  split
  · split <;> exact ⟨rfl, rfl, rfl⟩
  · exact ⟨rfl, rfl, rfl⟩

section Calls

variable {a : Act} {tx key : Bytes}

theorem does_nothing (sha : Bytes → Bytes) (j : Journal) (a : Act) (e : Option Refusal) :
    Does sha j a ⟨j, none, e⟩ :=
  ⟨fun _ _ h => Or.inl h, Or.inl ⟨rfl, Quiet.refl j⟩⟩

theorem does_append (synced : Bool) (hp : ¬j.poisoned = true) (ht : ∃ t, j.table.apply r = .ok t)
    (ha : Appends sha j a r) : Does sha j a (j.append r synced) := by
  obtain ⟨hpending, -, happended⟩ := append_spec j r synced
  obtain ⟨t, ht⟩ := ht
  refine ⟨fun tx key h => Or.inl (by rwa [hpending] at h), Or.inr ?_⟩
  exact ⟨r, synced, t, by simpa using hp, ht, ha, happended, Quiet.refl _⟩

theorem Does.settled {rep : Reply} (h : Does sha j a rep) (hr : rep.appended ≠ none) :
    Does sha j a { rep with journal := rep.journal.settled tx } := by
  obtain ⟨hp, ⟨hnone, -⟩ | ⟨r, synced, t, hpo, ht, ha, happ, hq⟩⟩ := h
  · exact absurd hnone hr
  · refine ⟨fun tx' key hk => ?_, Or.inr ⟨r, synced, t, hpo, ht, ha, happ, ?_⟩⟩
    · have hk : update rep.journal.pending tx none tx' = some key := hk
      by_cases he : tx' = tx
      · rw [he, update_self] at hk
        cases hk
      · rw [update_of_ne he] at hk
        exact hp tx' key hk
    · exact ⟨hq.hdr, hq.file, hq.table, hq.records, hq.poisoned, hq.written⟩

theorem allocateTxID_does (j : Journal) (key : Bytes) :
    Does sha j (.allocate key) (j.allocateTxID key) := by
  unfold Journal.allocateTxID
  split_ifs with h1 h2
  · exact does_nothing ..
  · exact does_nothing ..
  · refine ⟨fun tx k htx => ?_, Or.inl ⟨rfl, rfl, rfl, rfl, rfl, rfl, rfl⟩⟩
    dsimp only at htx
    by_cases he : tx = formatTxID j.hdr.epoch j.nextSeq
    · subst he
      rw [update_self] at htx
      cases htx
      exact Or.inr ⟨⟨_, rfl⟩, Nat.not_lt.mp h1⟩
    · rw [update_of_ne he] at htx
      exact Or.inl htx

theorem commitPreparedBound_does {parts : List Part} {bind : Option Bind} {synced : Bool}
    (hpend : j.pending tx = some key) (hnew : j.table.byTx tx = none) :
    Does sha j (.commit tx key parts bind now synced)
      (j.commitPreparedBound sha tx key parts bind now synced) := by
  unfold Journal.commitPreparedBound
  by_cases h1 : xtxMaxKeyLen < key.length
  · rw [if_pos h1]
    exact does_nothing ..
  rw [if_neg h1]
  split_ifs with h2 h3 h4 h5
  · exact does_nothing ..
  · exact does_nothing ..
  · exact does_nothing ..
  · exact does_nothing ..
  all_goals
    have hlsn : (commitRecord sha now tx key parts bind).bound = true →
        j.table.byLSN (commitRecord sha now tx key parts bind).rl = none := by
      intro hb
      cases bind with
      | none => cases hb
      | some b => exact Option.not_isSome_iff_eq_none.mp h5
    have hbind : ∀ b ∈ bind, b.lsn ≠ 0 ∧ b.leadTx ≠ [] ∧ b.digest ≠ [] := by
      intro b hb
      rw [hb] at h4
      simpa [and_assoc] using h4
    have hdoes := does_append synced h3 (apply_first hnew hlsn)
      (Appends.commit now synced hpend (Nat.not_lt.mp h1) (by simpa using h2) hbind)
  · refine hdoes.settled ?_
    rw [(append_spec ..).2.2]
    exact some_ne_none _
  · exact hdoes

theorem abort_does {why : Bytes} {synced : Bool} (hkey : key.length ≤ xtxMaxKeyLen) :
    Does sha j (.abort tx key why now synced) (j.abort tx key why now synced) := by
  unfold Journal.abort
  by_cases h1 : why ∈ abortReasons
  · rw [if_neg (not_not.mpr h1)]
    split_ifs with h2 h3
    · exact does_nothing ..
    · exact does_nothing ..
    · cases hd : j.table.byTx tx with
      | some d =>
        dsimp only
        split <;> exact does_nothing ..
      | none =>
        exact does_append synced h2 (apply_first (r := abortRecord now tx key why) hd nofun)
          (Appends.abort now synced hkey h1 (not_not.mp h3))
  · rw [if_pos h1]
    exact does_nothing ..

theorem retire_does {synced : Bool} :
    Does sha j (.retire tx now synced) (j.retire tx now synced) := by
  unfold Journal.retire
  split_ifs with h1
  · exact does_nothing ..
  · cases hd : j.table.byTx tx with
    | none => exact does_nothing ..
    | some d =>
      dsimp only
      split
      · exact does_nothing ..
      · exact does_append synced h1 (apply_retire (r := retireRecord now tx d) hd rfl rfl rfl)
          (Appends.retire now synced hd)

theorem call_appends {rep : Reply} (h : j.call sha a = some rep)
    (hopen : ∀ n fill seed now, a ≠ .reopen n fill seed now) : Does sha j a rep := by
  cases a with
  | allocate key =>
    cases h
    exact allocateTxID_does j key
  | observe seq =>
    cases h
    dsimp only [Journal.observeSeq]
    split
    · exact ⟨fun _ _ h => Or.inl h, Or.inl ⟨rfl, rfl, rfl, rfl, rfl, rfl, rfl⟩⟩
    · exact does_nothing ..
  | reopen n fill seed now => exact absurd rfl (hopen n fill seed now)
  | commit tx key parts bind now synced =>
    obtain ⟨⟨hpend, hnew⟩, rfl⟩ := Runs.guarded h
    exact commitPreparedBound_does hpend hnew
  | abort tx key why now synced =>
    obtain ⟨hkey, rfl⟩ := Runs.guarded h
    exact abort_does hkey
  | retire tx now synced =>
    cases h
    exact retire_does

end Calls

def Journal.Opens (j : Journal) : Act → Prop
  | .reopen n fill _ now => j.Survives n fill ∧ InYears now
  | _ => True

def Journal.Readable (sha : Bytes → Bytes) (j : Journal) (a : Act) : Prop :=
  (∀ rep ∈ j.call sha a, ∀ r ∈ rep.appended, Reads sha j.hdr.epoch r) ∧ j.Opens a

instance (r : Record) : Decidable (Reads sha epoch r) :=
  inferInstanceAs (Decidable (_ ∧ _))

instance (j : Journal) : ∀ a, Decidable (j.Opens a)
  | .reopen .. => inferInstanceAs (Decidable (_ ∧ _))
  | .allocate _ | .commit .. | .abort .. | .retire .. | .observe _ =>
    inferInstanceAs (Decidable True)

instance (j : Journal) (a : Act) : Decidable (j.Readable sha a) :=
  inferInstanceAs (Decidable ((∀ rep ∈ _, ∀ r ∈ _, Reads _ _ r) ∧ _))

theorem Sound.reopened {n : Nat} {fill : Fill} (hs : Sound sha j) (hf : j.Survives n fill)
    (hn : j.start ≤ n) (h : openXTxJournal sha (j.cut n fill) seed now = .ok j') :
    j'.hdr = j.hdr ∧ j'.file = j.file.take (j.validLen n) ∧ j'.written = j.kept n ∧
      j'.records = j.kept n ∧ j'.poisoned = false ∧
      newXTxTable.fold (j.kept n) = .ok j'.table := by
  obtain ⟨t, ht, hp⟩ := hs.parse_record_cut hf hn
  unfold openXTxJournal at h
  rw [hp] at h
  cases h
  refine ⟨rfl, ?_, rfl, rfl, rfl, ht⟩
  obtain ⟨tail, htail, -⟩ := take_lines (n - j.start) j.written
  -- The part in use ends in front of the cut, so what stands behind the cut does not matter.
  have hle : j.validLen n ≤ (j.file.take n).length := by
    rw [hs.file, take_append, take_of_length_le hn, length_append]
    change j.start + _ ≤ j.start + ((linesOf j.written).take (n - j.start)).length
    rw [htail, length_append]
    exact Nat.add_le_add_left (Nat.le_add_right _ _) _
  change (j.cut n fill).take (j.validLen n) = _
  rw [Journal.cut, take_append_of_le_length hle, take_take]
  rw [length_take] at hle
  rw [Nat.min_eq_left (by omega)]

theorem Sound.take_validLen (hs : Sound sha j) (n : Nat) :
    j.file.take (j.validLen n) = encodeXTxHeader j.hdr ++ linesOf (j.kept n) := by
  obtain ⟨rest, hrest⟩ := within_isPrefix (n - j.start) j.written
  have hlines : linesOf j.written = linesOf (j.kept n) ++ linesOf rest := by
    rw [← linesOf_append]
    exact congrArg linesOf hrest.symm
  rw [hs.file, hlines, ← append_assoc]
  exact take_left' (by rw [length_append]; rfl)

theorem sound_step {a : Act} (hs : Sound sha j) (hok : j.Readable sha a)
    (h : j.step sha a = some j') : Sound sha j' := by
  obtain ⟨rep, hrep, rfl⟩ := map_eq_some_iff.mp h
  by_cases hopen : ∀ n fill seed now, a ≠ .reopen n fill seed now
  · rcases (call_appends hrep hopen).2 with ⟨-, hq⟩ | ⟨r, synced, t, hp, ht, -, happ, hq⟩
    · exact hs.quiet hq
    · exact (hs.append hp (hok.1 rep hrep r happ) ht synced).quiet hq
  · obtain ⟨n, fill, seed, now, rfl⟩ : ∃ n fill seed now, a = .reopen n fill seed now := by
      by_contra hne
      exact hopen fun n fill seed now he => hne ⟨n, fill, seed, now, he⟩
    obtain ⟨hf, hyears⟩ := hok.2
    obtain ⟨j', hj', rfl⟩ := map_eq_some_iff.mp hrep
    have hj' : openXTxJournal sha (j.cut n fill) seed now = .ok j' := by
      cases ho : openXTxJournal sha (j.cut n fill) seed now with
      | error e => rw [ho] at hj'; cases hj'
      | ok x => rw [ho] at hj'; cases hj'; rfl
    by_cases hn : n < j.start
    · have hp := hs.parse_header_cut hf hn
      unfold openXTxJournal at hj'
      rw [hp] at hj'
      cases hj'
      exact sound_created hyears
    · obtain ⟨hhdr, hfile, hwritten, hrecords, hpoison, hfold⟩ :=
        hs.reopened hf (Nat.not_lt.mp hn) hj'
      have hpre : j.kept n <+: j.written := within_isPrefix _ _
      exact {
        header := by rw [hhdr]; exact hs.header
        starts := by rw [hhdr]; exact hs.starts
        file := by rw [hfile, hhdr, hwritten, hs.take_validLen]
        reads := by
          rw [hwritten, hhdr]
          exact fun r hr => hs.reads r (hpre.subset hr)
        table := by rw [hrecords]; exact hfold
        folds := ⟨_, by rw [hwritten]; exact hfold⟩
        clear := fun _ => by rw [hwritten, hrecords] }

/-- After any run of calls and crashes, the file cut off at any byte reads as an unfinished
creation or as the records in front of the cut, with their table; the journal opened on it appends
behind these records. -/
theorem cut_reads_as_kept {seed : UInt64} {start : Instant} {j : Journal} {n : Nat}
    {fill : Fill} (h0 : InYears start)
    (hr : Runs.Reaches (Journal.step sha) (Journal.Readable sha) (createXTxJournal seed start) j)
    (hf : j.Survives n fill) (seed' : UInt64) (now : Instant) :
    (n < j.start → parseXTxJournal sha (j.cut n fill) = .ok tornCreation ∧
      openXTxJournal sha (j.cut n fill) seed' now = .ok (createXTxJournal seed' now)) ∧
    (j.start ≤ n → ∃ t, newXTxTable.fold (j.kept n) = .ok t ∧
      parseXTxJournal sha (j.cut n fill) =
        .ok { header := j.hdr, records := j.kept n, validLen := j.validLen n,
              torn := decide (j.validLen n < (j.cut n fill).length), tornCreate := false,
              table := t } ∧
      ∃ j', openXTxJournal sha (j.cut n fill) seed' now = .ok j' ∧ j'.table = t ∧
        ∀ r synced, (j'.append r synced).journal.file =
          j.file.take (j.validLen n) ++ encodeXTxRecord r) := by
  have hs : Sound sha j := hr.invariant (sound_created h0) sound_step
  constructor
  · intro hn
    have hp := hs.parse_header_cut hf hn
    refine ⟨hp, ?_⟩
    unfold openXTxJournal
    rw [hp]
    rfl
  · intro hn
    obtain ⟨t, ht, hp⟩ := hs.parse_record_cut hf hn
    have hopen : ∃ j', openXTxJournal sha (j.cut n fill) seed' now = .ok j' := by
      unfold openXTxJournal
      rw [hp]
      exact ⟨_, rfl⟩
    obtain ⟨j', hj'⟩ := hopen
    obtain ⟨-, hfile, -, -, -, hfold⟩ := hs.reopened hf hn hj'
    refine ⟨t, ht, hp, j', hj', Except.ok.inj (hfold.symm.trans ht), ?_⟩
    intro r synced
    rw [← hfile]
    exact (append_spec j' r synced).2.1

def sampleHash (bs : Bytes) : Bytes :=
  List.replicate 32 (bs.foldl (· + ·) 0)

def sampleClock : Instant :=
  ⟨Rfc3339.zeroTime, rfl⟩

def sampleTx (seq : UInt64) : Bytes :=
  formatTxID (hexDigits xtxEpochHexLen 7) seq

def sampleCalls : List Act :=
  [.abort (sampleTx 1) (ascii "k") (ascii "io") sampleClock true,
    .retire (sampleTx 1) sampleClock true]

def sampleStart : Journal :=
  createXTxJournal 7 sampleClock

def sampleRun : Option Journal :=
  Runs.run (Journal.step sampleHash) sampleStart sampleCalls

set_option maxRecDepth 100000 in
theorem sampleCalls_readable :
    Runs.Meets (Journal.step sampleHash) (Journal.Readable sampleHash) sampleStart sampleCalls := by
  decide +kernel

theorem cut_reads_as_kept_sample : ∃ j, sampleRun = some j ∧
    ∃ p, parseXTxJournal sampleHash (j.cut (j.file.length - 9) (.zeros 4)) = .ok p ∧
      p.records = j.written.take 1 ∧ p.torn = true := by
  obtain ⟨j, hj, hr, hf, hn, hkept, hlen⟩ := Runs.reached (Journal.step sampleHash)
    (Journal.Readable sampleHash) sampleStart sampleCalls (fun j =>
      j.Survives (j.file.length - 9) (.zeros 4) ∧ j.start ≤ j.file.length - 9 ∧
        j.kept (j.file.length - 9) = j.written.take 1 ∧
        j.validLen (j.file.length - 9) < (j.cut (j.file.length - 9) (.zeros 4)).length)
    (by decide +kernel)
  obtain ⟨t, -, hp, -⟩ := (cut_reads_as_kept (by decide) hr hf 0 sampleClock).2 hn
  exact ⟨j, hj, _, hp, hkept, decide_eq_true hlen⟩

def errOf : Except ParseErr Parsed → Option ParseErr
  | .error e => some e
  | .ok _ => none

theorem error_of_errOf {x : Except ParseErr Parsed} {e : ParseErr} (h : errOf x = some e) :
    x = .error e := by
  cases x with
  | error e' =>
    cases h
    rfl
  | ok p => cases h

set_option maxRecDepth 100000 in
/-- A record cut off in front of its last byte and filled up with zeros to a line of its own is
taken for corruption. -/
theorem zero_filled_record_refused : ∃ j, sampleRun = some j ∧
    Runs.Meets (Journal.step sampleHash) (Journal.Readable sampleHash) sampleStart sampleCalls ∧
    parseXTxJournal sampleHash (j.cut (j.file.length - 2) (.line 3)) =
      .error (.corrupt (j.validLen (j.file.length - 2)) .parse) := by
  obtain ⟨j, hj, h⟩ : ∃ j ∈ sampleRun,
      errOf (parseXTxJournal sampleHash (j.cut (j.file.length - 2) (.line 3))) =
        some (.corrupt (j.validLen (j.file.length - 2)) .parse) := by
    decide +kernel
  exact ⟨j, hj, sampleCalls_readable, error_of_errOf h⟩

end Scriva.Decisions
