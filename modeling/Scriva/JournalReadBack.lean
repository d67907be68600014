import Scriva.JournalRuns

namespace Scriva.Decisions

open JsonText List Option

variable {sha : Bytes → Bytes} {epoch : Bytes}

def Ours (epoch tx : Bytes) : Prop :=
  (parseTxID tx).map Prod.fst = some epoch

def WellFormed (epoch : Bytes) : Prop :=
  epoch.length = xtxEpochHexLen ∧ isLowerHex epoch = true

theorem formatTxID_ours (h : WellFormed epoch) (seq : UInt64) :
    Ours epoch (formatTxID epoch seq) := by
  obtain ⟨hlen, hlower⟩ := h
  have htake : (formatTxID epoch seq).take xtxEpochHexLen = epoch := by
    rw [formatTxID, ← hlen, take_left]
  have hdrop : (formatTxID epoch seq).drop (xtxEpochHexLen + 1) =
      hexDigits xtxSeqHexLen seq.toNat := by
    rw [formatTxID, ← hlen, ← drop_drop, drop_left]
    rfl
  have hdash : (formatTxID epoch seq)[xtxEpochHexLen]? = some 45 := by
    rw [formatTxID, ← hlen, List.getElem?_append_right (Nat.le_refl _), Nat.sub_self]
    rfl
  have htotal : (formatTxID epoch seq).length = xtxEpochHexLen + 1 + xtxSeqHexLen := by
    rw [formatTxID, length_append, length_cons, length_hexDigits, hlen]
    omega
  unfold Ours parseTxID
  rw [htake, hdrop, if_pos ⟨htotal, hdash, hlower, hexDigits_lower _ _⟩]
  rfl

variable {tx key : Bytes} {t : Table} {r : Record} {d : Decision} {now : Instant} {j : Journal}
  {a : Act}

theorem Ours.isText (h : Ours epoch tx) : Utf8.isText tx = true := by
  unfold Ours parseTxID at h
  split at h
  · next hp =>
    obtain ⟨-, hdash, hfront, hback⟩ := hp
    refine Utf8.isText_ascii fun b hb => ?_
    rw [← take_append_drop xtxEpochHexLen tx, drop_eq_getElem?_toList_append, hdash] at hb
    rcases mem_append.mp hb with hb | hb
    · exact lowerHex_ascii hfront b hb
    rcases mem_append.mp hb with hb | hb
    · rw [mem_singleton.mp hb]
      decide
    · exact lowerHex_ascii hback b hb
  · cases h

structure Record.Fits (epoch : Bytes) (r : Record) : Prop where
  tx : Ours epoch r.tx
  key : r.key.length ≤ xtxMaxKeyLen
  outcome : r.outcome = kindCommit ∨ r.outcome = kindAbort

def Table.Known (epoch : Bytes) (t : Table) : Prop :=
  ∀ tx d, t.byTx tx = some d →
    Ours epoch tx ∧ d.key.length ≤ xtxMaxKeyLen ∧ (d.outcome = kindCommit ∨ d.outcome = kindAbort)

theorem decisionFor_key (h : t.decisionFor r = .ok d) : d.key = r.key ∧ d.outcome = r.outcome := by
  unfold Table.decisionFor at h
  split at h
  · cases h
    exact ⟨rfl, rfl⟩
  · split_ifs at h with h1 h2
    cases h
    exact ⟨not_not.mp h2, not_not.mp h1⟩

theorem absorb_key {d' : Decision} (h : d.absorb r = .ok d') :
    d'.key = d.key ∧ d'.outcome = d.outcome := by
  unfold Decision.absorb at h
  split_ifs at h with h1 h2 h3
  · unfold Decision.commit at h
    dsimp only at h
    split_ifs at h <;> (cases h; exact ⟨rfl, rfl⟩)
  · cases h
    exact ⟨rfl, rfl⟩
  · cases h
    exact ⟨rfl, rfl⟩
  · cases h
    exact ⟨rfl, rfl⟩

theorem apply_byTx {t' : Table} (h : t.apply r = .ok t') :
    ∃ d, t'.byTx = Function.update t.byTx r.tx (some d) ∧ d.key = r.key ∧ d.outcome = r.outcome := by
  unfold Table.apply at h
  obtain ⟨d, hd, h⟩ := bind_ok h
  obtain ⟨d', hd', h⟩ := bind_ok h
  split_ifs at h
  cases h
  obtain ⟨hk, ho⟩ := decisionFor_key hd
  obtain ⟨hk', ho'⟩ := absorb_key hd'
  exact ⟨d', rfl, hk'.trans hk, ho'.trans ho⟩

theorem Table.Known.apply {t' : Table} (ht : t.Known epoch) (hr : r.Fits epoch)
    (h : t.apply r = .ok t') : t'.Known epoch := by
  obtain ⟨d, hbyTx, hkey, hout⟩ := apply_byTx h
  intro tx d' hd'
  rw [hbyTx] at hd'
  by_cases he : tx = r.tx
  · subst he
    rw [Function.update_self] at hd'
    cases hd'
    exact ⟨hr.tx, hkey ▸ hr.key, hout ▸ hr.outcome⟩
  · rw [Function.update_of_ne he] at hd'
    exact ht tx d' hd'

theorem Record.fits_of_check (h : r.check sha epoch = .ok ()) : r.Fits epoch := by
  unfold Record.check at h
  split_ifs at h with h1 h2 h3
  refine ⟨not_not.mp h1, Nat.not_lt.mp h2, ?_⟩
  unfold Record.checkKind at h
  by_cases hc : r.k = kindCommit
  · left
    rw [Record.outcome, if_neg (by rw [hc]; decide), hc]
  by_cases ha : r.k = kindAbort
  · right
    rw [Record.outcome, if_neg (by rw [ha]; decide), ha]
  by_cases hk : r.k = kindRetire
  · rw [if_neg hc, if_neg ha, if_pos hk] at h
    split_ifs at h with h4 h5
    rw [Record.outcome, if_pos hk]
    by_cases ho : r.o = kindCommit
    · exact Or.inl ho
    · right
      by_contra hne
      exact h5 ⟨ho, hne⟩
  · rw [if_neg hc, if_neg ha, if_neg hk] at h
    cases h

theorem check_of_decode {line : Bytes} (h : decodeXTxRecord sha epoch line = .ok r) :
    r.check sha epoch = .ok () := by
  unfold decodeXTxRecord at h
  obtain ⟨ms, -, h⟩ := bind_ok h
  obtain ⟨r', -, h⟩ := bind_ok h
  obtain ⟨crc, -, h⟩ := bind_ok h
  obtain ⟨_, -, h⟩ := bind_ok h
  obtain ⟨_, hcheck, h⟩ := bind_ok h
  cases h
  exact hcheck

theorem parseRecords_known {fuel : Nat} {p p' : Parsed} {rest : Bytes} (hp : p.table.Known epoch)
    (h : parseRecords sha epoch fuel p rest = .ok p') :
    p'.header = p.header ∧ p'.tornCreate = p.tornCreate ∧ p'.table.Known epoch := by
  induction fuel generalizing p rest with
  | zero =>
    rw [parseRecords] at h
    cases h
    exact ⟨rfl, rfl, hp⟩
  | succ fuel ih =>
    cases rest with
    | nil =>
      rw [parseRecords] at h
      · cases h
        exact ⟨rfl, rfl, hp⟩
      · exact fun h => by cases h
    | cons b rest =>
      rw [parseRecords] at h
      split at h
      · cases h
        exact ⟨rfl, rfl, hp⟩
      split_ifs at h with h1 h2
      · cases h
        exact ⟨rfl, rfl, hp⟩
      split at h
      · cases h
      next r hr =>
      split at h
      · cases h
      next t ht =>
      have ht' : t.Known epoch := hp.apply (Record.fits_of_check (check_of_decode hr)) ht
      exact ih (p := { p with records := _, table := t, validLen := _ }) ht' h

theorem wellFormed_of_decode {line : Bytes} {h : Header} (hd : decodeXTxHeader line = .ok h) :
    WellFormed h.epoch := by
  unfold decodeXTxHeader at hd
  split at hd
  · cases hd
  split_ifs at hd
  cases hs : readSealedHeader line with
  | error e =>
    rw [hs] at hd
    cases hd
  | ok h' =>
    rw [hs] at hd
    cases hd
    unfold readSealedHeader at hs
    obtain ⟨ms, -, hs⟩ := bind_ok hs
    obtain ⟨h', -, hs⟩ := bind_ok hs
    obtain ⟨crc, -, hs⟩ := bind_ok hs
    obtain ⟨_, -, hs⟩ := bind_ok hs
    obtain ⟨_, hcheck, hs⟩ := bind_ok hs
    cases hs
    unfold Header.check at hcheck
    split_ifs at hcheck with h1 h2
    rw [not_or] at h1
    exact ⟨not_not.mp h1.1, by simpa using h1.2⟩

structure Journal.Known (j : Journal) : Prop where
  epoch : WellFormed j.hdr.epoch
  pending : ∀ tx key, j.pending tx = some key →
    Ours j.hdr.epoch tx ∧ key.length ≤ xtxMaxKeyLen
  table : j.table.Known j.hdr.epoch

theorem known_created (seed : UInt64) (now : Instant) : (createXTxJournal seed now).Known where
  epoch := ⟨length_hexDigits _ _, hexDigits_lower _ _⟩
  pending := fun _ _ h => by cases h
  table := fun _ _ h => by cases h

theorem known_opened {data : Bytes} {seed : UInt64} (h : openXTxJournal sha data seed now = .ok j) :
    j.Known := by
  unfold openXTxJournal at h
  obtain ⟨p, hp, h⟩ := bind_ok h
  split_ifs at h with hc
  · cases h
    exact known_created seed now
  cases h
  unfold parseXTxJournal at hp
  split_ifs at hp with h0
  · cases hp
    exact absurd rfl hc
  split at hp
  · cases hp
  obtain ⟨hd, hhd, hp⟩ := bind_ok hp
  have hempty : newXTxTable.Known hd.epoch := fun _ _ h => by cases h
  obtain ⟨hheader, -, htable⟩ := parseRecords_known hempty hp
  have he : p.header = hd := hheader
  exact ⟨by rw [he]; exact wellFormed_of_decode hhd, nofun,
    by rw [he]; exact htable⟩

theorem Appends.fits (h : Appends sha j a r) (hj : j.Known) : r.Fits j.hdr.epoch := by
  cases h with
  | commit now synced hp hkey =>
    exact ⟨(hj.pending _ _ hp).1, hkey, Or.inl rfl⟩
  | abort now synced hkey _ htx => exact ⟨htx, hkey, Or.inr rfl⟩
  | retire now synced hd =>
    obtain ⟨hours, hkey, hout⟩ := hj.table _ _ hd
    exact ⟨hours, hkey, hout⟩

theorem Journal.Known.append (hj : j.Known) (hr : r.Fits j.hdr.epoch) (synced : Bool) :
    (j.append r synced).journal.Known := by
  unfold Journal.append
  dsimp only
  split
  · cases ht : j.table.apply r with
    | ok t => exact ⟨hj.epoch, hj.pending, hj.table.apply hr ht⟩
    | error e => exact ⟨hj.epoch, hj.pending, hj.table⟩
  · exact ⟨hj.epoch, hj.pending, hj.table⟩

theorem Journal.Known.quiet {j' k : Journal} (hj : j.Known) (hk : k.Known) (hh : k.hdr = j.hdr)
    (hq : Quiet k j') (hp : PendingFrom j j') : j'.Known where
  epoch := by rw [hq.hdr]; exact hk.epoch
  pending := by
    intro tx key h
    rw [hq.hdr, hh]
    rcases hp tx key h with h | ⟨⟨seq, rfl⟩, hkey⟩
    · exact hj.pending tx key h
    · exact ⟨formatTxID_ours hj.epoch seq, hkey⟩
  table := by rw [hq.hdr, hq.table]; exact hk.table

theorem append_hdr (j : Journal) (r : Record) (synced : Bool) :
    (j.append r synced).journal.hdr = j.hdr := by
  unfold Journal.append
  dsimp only
  split
  · split <;> rfl
  · rfl

theorem reopen_or (a : Act) : (∃ n fill seed now, a = .reopen n fill seed now) ∨
    ∀ n fill seed now, a ≠ .reopen n fill seed now := by
  cases a with
  | reopen n fill seed now => exact Or.inl ⟨n, fill, seed, now, rfl⟩
  | _ => exact Or.inr fun _ _ _ _ h => by cases h

theorem known_step {j' : Journal} (hj : j.Known) (h : j.step sha a = some j') : j'.Known := by
  obtain ⟨rep, hrep, rfl⟩ := map_eq_some_iff.mp h
  rcases reopen_or a with ⟨n, fill, seed, now, rfl⟩ | hopen
  · obtain ⟨j', hj', rfl⟩ := map_eq_some_iff.mp hrep
    cases ho : openXTxJournal sha (j.cut n fill) seed now with
    | error e =>
      rw [ho] at hj'
      cases hj'
    | ok x =>
      rw [ho] at hj'
      cases hj'
      exact known_opened ho
  · obtain ⟨hp, ⟨-, hq⟩ | ⟨r, synced, t, -, -, hr, -, hq⟩⟩ := call_appends hrep hopen
    · exact hj.quiet hj rfl hq hp
    · exact hj.quiet (hj.append (hr.fits hj) synced) (append_hdr j r synced) hq hp

/-- What a call must be given for its record to read back: text as key and names, a clock in the
years of a timestamp, a short leader's id and a digest in the binding. -/
def Journal.Clean (j : Journal) : Act → Prop
  | .commit _ key parts bind now _ =>
    InYears now ∧ Utf8.isText key = true ∧ (∀ p ∈ parts, Utf8.isText p.c = true) ∧
      ∀ b ∈ bind, Utf8.isText b.leadTx = true ∧ b.leadTx.length ≤ xtxMaxTxIDLen ∧
        isDigest b.digest = true
  | .abort _ key _ now _ => InYears now ∧ Utf8.isText key = true
  | .retire tx now _ => InYears now ∧ ∀ d ∈ j.table.byTx tx, Utf8.isText d.key = true
  | _ => True

instance (j : Journal) : ∀ a, Decidable (j.Clean a)
  | .commit .. => inferInstanceAs (Decidable (_ ∧ _ ∧ (∀ p ∈ _, _) ∧ ∀ b ∈ _, _))
  | .abort .. => inferInstanceAs (Decidable (_ ∧ _))
  | .retire .. => inferInstanceAs (Decidable (_ ∧ ∀ d ∈ _, _))
  | .allocate _ | .observe _ | .reopen .. => inferInstanceAs (Decidable True)

theorem unhex_ascii {c : UInt8} (h : (unhex c).isSome = true) : c.toNat < 128 := by
  unfold unhex at h
  split_ifs at h with h1 h2 h3
  · have : c.toNat ≤ 57 := h1.2
    omega
  · have : c.toNat ≤ 102 := h2.2
    omega
  · have : c.toNat ≤ 70 := h3.2
    omega
  · cases h

theorem hexBytes_ascii {s d : Bytes} (h : hexBytes s = some d) : ∀ c ∈ s, c.toNat < 128 := by
  induction s using hexBytes.induct generalizing d with
  | case1 => exact forall_mem_nil _
  | case2 a => cases h
  | case3 a b rest ih =>
    rw [hexBytes] at h
    obtain ⟨high, ha, h⟩ := bind_eq_some_iff.mp h
    obtain ⟨low, hb, h⟩ := bind_eq_some_iff.mp h
    obtain ⟨d', hd', -⟩ := bind_eq_some_iff.mp h
    intro c hc
    rcases mem_cons.mp hc with rfl | hc
    · exact unhex_ascii (by rw [ha]; rfl)
    rcases mem_cons.mp hc with rfl | hc
    · exact unhex_ascii (by rw [hb]; rfl)
    · exact ih hd' c hc

theorem isText_digest {s : Bytes} (h : isDigest s = true) : Utf8.isText s = true := by
  unfold isDigest at h
  cases hs : hexBytes s with
  | none =>
    rw [hs] at h
    cases h
  | some d => exact Utf8.isText_ascii (hexBytes_ascii hs)

theorem isText_hexText (bs : Bytes) : Utf8.isText (hexText bs) = true := by
  refine Utf8.isText_ascii fun b hb => ?_
  obtain ⟨c, -, hb⟩ := mem_flatMap.mp hb
  exact lowerHex_ascii (hexDigits_lower 2 c.toNat) b hb

theorem check_iff (hr : r.Fits epoch) (hts : r.ts = now.text) :
    r.check sha epoch = .ok () ↔ InYears now ∧ r.checkKind sha = .ok () := by
  have htx : (parseTxID r.tx).map Prod.fst = some epoch := hr.tx
  unfold Record.check
  rw [if_neg (not_not_intro htx), if_neg (Nat.not_lt.mpr hr.key), hts]
  by_cases hy : InYears now
  · simp [(clock_parses_iff now).mpr hy, hy]
  · have hnone : (Rfc3339.parse (Utf8.decode now.text)).isNone = true := by
      by_contra h
      exact hy ((clock_parses_iff now).mp (Bool.eq_false_of_not_eq_true h))
    simp [hnone, hy]

theorem commit_checkKind {parts : List Part} {bind : Option Bind}
    (hparts : validateParts parts = true)
    (hbind : ∀ b ∈ bind, b.lsn ≠ 0 ∧ b.leadTx ≠ [] ∧ b.digest ≠ []) :
    (commitRecord sha now tx key parts bind).checkKind sha = .ok () ↔
      ∀ b ∈ bind, b.leadTx.length ≤ xtxMaxTxIDLen ∧ isDigest b.digest = true := by
  cases bind with
  | none => simp [Record.checkKind, commitRecord, newRecord, hparts]
  | some b =>
    obtain ⟨h1, h2, h3⟩ := hbind b rfl
    by_cases hlen : xtxMaxTxIDLen < b.leadTx.length
    · simp [Record.checkKind, commitRecord, newRecord, h1, h2, h3, hlen, Nat.not_le.mpr hlen]
    · by_cases hd : isDigest b.digest = true
      · simp [Record.checkKind, commitRecord, newRecord, h1, h2, h3, hlen, Nat.not_lt.mp hlen, hd,
          hparts]
      · simp [Record.checkKind, commitRecord, newRecord, h1, h2, h3, hlen, hd]

theorem abort_checkKind {why : Bytes} (hwhy : why ∈ abortReasons) :
    (abortRecord now tx key why).checkKind sha = .ok () := by
  have hk : kindAbort ≠ kindCommit := by decide
  simp [Record.checkKind, abortRecord, newRecord, hk, hwhy]

theorem retire_checkKind (hout : d.outcome = kindCommit ∨ d.outcome = kindAbort) :
    (retireRecord now tx d).checkKind sha = .ok () := by
  have h1 : kindRetire ≠ kindCommit := by decide
  have h2 : kindRetire ≠ kindAbort := by decide
  rcases hout with h | h
  · simp [Record.checkKind, retireRecord, newRecord, h1, h2, h]
  · simp [Record.checkKind, retireRecord, newRecord, h1, h2, h]

theorem bind_isText {bind : Option Bind}
    (h : ∀ b ∈ bind, Utf8.isText b.leadTx = true ∧ b.leadTx.length ≤ xtxMaxTxIDLen ∧
      isDigest b.digest = true) :
    Utf8.isText (bind.elim [] Bind.leadTx) = true ∧
      Utf8.isText (bind.elim [] Bind.digest) = true := by
  cases bind with
  | none => exact ⟨rfl, rfl⟩
  | some b =>
    obtain ⟨hlead, -, hdigest⟩ := h b rfl
    exact ⟨hlead, isText_digest hdigest⟩

theorem validateParts_digest {parts : List Part} (h : validateParts parts = true) :
    ∀ p ∈ parts, isDigest p.d = true := by
  intro p hp
  simp only [validateParts, Bool.and_eq_true] at h
  have := all_eq_true.mp h.1.2 p hp
  simp only [Bool.and_eq_true] at this
  exact this.2

theorem Appends.reads_iff (h : Appends sha j a r) (hj : j.Known) :
    decodeXTxRecord sha j.hdr.epoch r.line = .ok r ↔ j.Clean a := by
  have hfits := h.fits hj
  have htx := hfits.tx.isText
  rw [decode_line_iff]
  cases h with
  | commit now synced hp hkey hparts hbind =>
    rw [check_iff hfits rfl, commit_checkKind hparts hbind]
    constructor
    · rintro ⟨ht, hy, hb⟩
      refine ⟨hy, ht.key, fun p hp => ?_, fun b hbm => ⟨?_, hb b hbm⟩⟩
      · exact (Bool.and_eq_true_iff.mp (ht.parts p hp)).1
      · have hrt := ht.rt
        rw [hbm] at hrt
        exact hrt
    · rintro ⟨hy, hk, hnames, hb⟩
      obtain ⟨hlead, hdigest⟩ := bind_isText hb
      refine ⟨⟨isText_ascii _, htx, hk, Utf8.isText_encode _, fun p hp => ?_, isText_hexText _, rfl,
        rfl, hlead, hdigest⟩, hy, fun b hbm => (hb b hbm).2⟩
      exact Bool.and_eq_true_iff.mpr
        ⟨hnames p hp, isText_digest (validateParts_digest hparts p hp)⟩
  | abort now synced hkey hwhy =>
    have hreason : ∀ why ∈ abortReasons, Utf8.isText why = true := by
      intro why h
      obtain ⟨s, -, rfl⟩ := mem_map.mp h
      exact isText_ascii s
    rw [check_iff hfits rfl, abort_checkKind hwhy]
    constructor
    · rintro ⟨ht, hy, -⟩
      exact ⟨hy, ht.key⟩
    · rintro ⟨hy, hk⟩
      exact ⟨⟨isText_ascii _, htx, hk, Utf8.isText_encode _, forall_mem_nil _, rfl,
        hreason _ hwhy, rfl, rfl, rfl⟩, hy, rfl⟩
  | retire now synced hd =>
    obtain ⟨-, -, hout⟩ := hj.table _ _ hd
    rw [check_iff hfits rfl, retire_checkKind hout]
    constructor
    · rintro ⟨ht, hy, -⟩
      refine ⟨hy, fun d' hd' => ?_⟩
      cases hd.symm.trans hd'
      exact ht.key
    · rintro ⟨hy, hk⟩
      have houttext : ∀ o, o = kindCommit ∨ o = kindAbort → Utf8.isText o = true := by
        rintro o (rfl | rfl)
        · exact isText_ascii _
        · exact isText_ascii _
      exact ⟨⟨isText_ascii _, htx, hk _ hd, Utf8.isText_encode _, forall_mem_nil _, rfl, rfl,
        houttext _ hout, rfl, rfl⟩, hy, rfl⟩

def Journal.Short (sha : Bytes → Bytes) (j : Journal) (a : Act) : Prop :=
  ∀ rep ∈ j.call sha a, ∀ r ∈ rep.appended, r.line.length ≤ xtxMaxJournalRecord

theorem Journal.Known.appends {rep : Reply} (h : j.call sha a = some rep)
    (hr : rep.appended = some r) : Appends sha j a r := by
  rcases reopen_or a with ⟨n, fill, seed, now, rfl⟩ | hopen
  · obtain ⟨j', -, rfl⟩ := map_eq_some_iff.mp h
    cases hr
  · rcases (call_appends h hopen).2 with ⟨hnone, -⟩ | ⟨r', synced, t, -, -, happ, hr', -⟩
    · cases hnone.symm.trans hr
    · cases hr'.symm.trans hr
      exact happ

/-- In every run, a record that was appended reads back exactly if its call was clean; and in a
run of clean calls with short lines, the file parses as all that was written. -/
theorem appended_reads_back_iff (seed : UInt64) (start : Instant) :
    (∀ j, Runs.Reaches (Journal.step sha) (fun _ _ => True) (createXTxJournal seed start) j →
      ∀ a rep r, j.call sha a = some rep → rep.appended = some r →
        (decodeXTxRecord sha j.hdr.epoch r.line = .ok r ↔ j.Clean a)) ∧
    (InYears start → ∀ j, Runs.Reaches (Journal.step sha)
        (fun j a => j.Clean a ∧ j.Short sha a ∧ j.Opens a) (createXTxJournal seed start) j →
      ∃ t, parseXTxJournal sha j.file =
        .ok { header := j.hdr, records := j.written, validLen := j.file.length, torn := false,
              tornCreate := false, table := t }) := by
  constructor
  · intro j hr a rep r hrep hr'
    have hj : j.Known := hr.invariant (known_created seed start) fun h _ hs => known_step h hs
    exact (Journal.Known.appends hrep hr').reads_iff hj
  · intro h0 j hr
    obtain ⟨hs, -⟩ : Sound sha j ∧ j.Known := by
      refine hr.invariant (I := fun j => Sound sha j ∧ j.Known)
        ⟨sound_created h0, known_created seed start⟩ ?_
      rintro j a j' ⟨hs, hj⟩ ⟨hclean, hshort, hopens⟩ hstep
      refine ⟨sound_step hs ⟨fun rep hrep r hr => ⟨?_, hshort rep hrep r hr⟩, hopens⟩ hstep,
        known_step hj hstep⟩
      exact ((Journal.Known.appends hrep hr).reads_iff hj).mpr hclean
    exact hs.parse_whole

def sampleParts : List Part :=
  [⟨ascii "a", 1, List.replicate 64 48⟩]

def sampleAllocated (key : Bytes) : Journal :=
  (sampleStart.allocateTxID key).journal

def sampleCommit (key : Bytes) : Act :=
  .commit (sampleTx 1) key sampleParts none sampleClock true

theorem sampleAllocated_reached {ok : Journal → Act → Prop} (hok : ok sampleStart (.allocate key)) :
    Runs.Reaches (Journal.step sampleHash) ok sampleStart (sampleAllocated key) :=
  Runs.Reaches.refl.step hok rfl

theorem sampleCommit_appends (h : key = ascii "k" ∨ key = [255]) :
    ∃ rep, (sampleAllocated key).call sampleHash (sampleCommit key) = some rep ∧ rep.err = none ∧
      rep.appended = some (commitRecord sampleHash sampleClock (sampleTx 1) key sampleParts none) := by
  show ∃ rep ∈ (sampleAllocated key).call sampleHash (sampleCommit key), _
  rcases h with rfl | rfl
  · decide +kernel
  · decide +kernel

theorem appended_reads_back_sample :
    ∃ rep r, (sampleAllocated (ascii "k")).call sampleHash (sampleCommit (ascii "k")) = some rep ∧
      rep.appended = some r ∧
      decodeXTxRecord sampleHash (sampleAllocated (ascii "k")).hdr.epoch r.line = .ok r := by
  obtain ⟨rep, hrep, -, hr⟩ := sampleCommit_appends (Or.inl rfl)
  refine ⟨rep, _, hrep, hr, ?_⟩
  refine ((appended_reads_back_iff 7 sampleClock).1 _ (sampleAllocated_reached trivial) _ _ _ hrep
    hr).mpr ?_
  decide +kernel

set_option maxRecDepth 100000 in
/-- A key of one byte that is no text: the commit reports no error, its line does not read back,
and the next open refuses the file. -/
theorem invalid_key_unreadable :
    ∃ rep r, (sampleAllocated [255]).call sampleHash (sampleCommit [255]) = some rep ∧
      rep.err = none ∧ rep.appended = some r ∧
      decodeXTxRecord sampleHash (sampleAllocated [255]).hdr.epoch r.line ≠ .ok r ∧
      parseXTxJournal sampleHash rep.journal.file =
        .error (.corrupt sampleStart.start .checksum) := by
  obtain ⟨rep, hrep, herr, hr⟩ := sampleCommit_appends (Or.inr rfl)
  have hreach : Runs.Reaches (Journal.step sampleHash) (fun _ _ => True) sampleStart
      (sampleAllocated [255]) := sampleAllocated_reached trivial
  have hknown : (sampleAllocated [255]).Known :=
    hreach.invariant (known_created 7 sampleClock) fun h _ hs => known_step h hs
  have hopen : (((sampleAllocated [255]).call sampleHash (sampleCommit [255])).bind fun rep =>
      errOf (parseXTxJournal sampleHash rep.journal.file)) =
      some (.corrupt sampleStart.start .checksum) := by
    decide +kernel
  refine ⟨rep, _, hrep, herr, hr, fun h => ?_, ?_⟩
  · have hclean := ((Journal.Known.appends hrep hr).reads_iff hknown).mp h
    exact absurd hclean (by decide +kernel)
  · rw [hrep] at hopen
    exact error_of_errOf hopen

end Scriva.Decisions
