import Scriva.CompactWrite

namespace Scriva

open KeyedLog List Option

/-- A line after re-encryption: only the form of the data and the epoch may have changed. -/
structure Migrated (enc : Option Encryptor) (p q : LogLine) : Prop where
  id : q.id = p.id
  op : q.entry.op = p.entry.op
  rev : q.entry.rev = p.entry.rev
  expiresAt : q.entry.expiresAt = p.entry.expiresAt
  isPlain : q.isPlain = p.isPlain
  data : (q.entry.data = p.entry.data ∧ q.entry.epoch = p.entry.epoch) ∨
    ∃ k plain, enc = some k ∧ p.isPlain = true ∧ p.entry.op ≠ .delete ∧
      p.entry.epoch ≠ k.epoch ∧ q.entry.epoch = k.epoch ∧
      k.materialize p.entry.data = some plain ∧ k.encrypt plain = some q.entry.data

/-- A line that decodes and holds what a decoder has read; where a pass re-encrypts it, it can be
stored again. -/
def LogLine.Readable (enc : Option Encryptor) (l : LogLine) : Prop :=
  l.decodes = true ∧ persistedData l.entry.data = l.entry.data ∧
    ∀ k ∈ enc, l.isPlain = true → l.entry.op ≠ .delete → l.entry.epoch ≠ k.epoch →
      k.Restores l.entry.data

instance (enc : Option Encryptor) (l : LogLine) : Decidable (l.Readable enc) :=
  inferInstanceAs (Decidable (_ ∧ _ ∧ ∀ k ∈ enc, _))

variable {enc : Option Encryptor} {d : Decisions} {ls : List LogLine}

/-- A readable line is still so after re-encryption, and its data are read as before. -/
theorem Migrated.readable {p q : LogLine} (hm : Migrated enc p q) (hp : p.Readable enc) :
    q.Readable enc ∧
      ∀ k ∈ enc, k.materialize q.entry.data = k.materialize p.entry.data := by
  obtain ⟨hdec, hread, hstore⟩ := hp
  rcases hm.data with ⟨hdata, hepoch⟩ | ⟨k, plain, rfl, hplain, hop, hne, hepoch, hmat, hseal⟩
  · refine ⟨⟨?_, ?_, ?_⟩, fun k _ => by rw [hdata]⟩
    · rw [LogLine.decodes, hdata]
      exact hdec
    · rw [hdata, hread]
    · rw [hm.isPlain, hm.op, hdata, hepoch]
      exact hstore
  · obtain ⟨hback, hqdec, hqread⟩ := Encryptor.reencrypted hdec hread
      (hstore k rfl hplain hop hne) hmat hseal
    refine ⟨⟨hqdec, hqread, ?_⟩, ?_⟩
    · intro k' hk' _ _ hold
      cases hk'
      exact absurd hepoch hold
    · intro k' hk'
      cases hk'
      exact hback.trans hmat.symm

inductive Compacted (enc : Option Encryptor) (now : Int) : List LogLine → List LogLine → Prop
  | absent : Compacted enc now [] []
  | kept {Y : List LogLine} {p q : LogLine} (hm : Migrated enc p q) :
      Compacted enc now (Y ++ [p]) (Y.filter (fun l => !l.isPlain) ++ [q])
  | dropped {Y : List LogLine} {p : LogLine} (hplain : ∀ l ∈ Y ++ [p], l.isPlain = true)
      (hgone : p.entry.op = .delete ∨ expired p.entry.expiresAt now = true) :
      Compacted enc now (Y ++ [p]) []

theorem evidence_ofId (d : Decisions) (id : Nat) (ls : List LogLine) :
    ofId d id (resolveScan d ls).evidence = (ofId d id ls).filter fun l => !l.isPlain := by
  rw [resolveScan_evidence]
  unfold ofId
  rw [List.filter_filter, List.filter_filter]
  refine filter_congr fun l _ => ?_
  cases hv : l.visible d <;> simp [isEvidence, hv, Bool.and_comm]

theorem lastOf_settles (d : Decisions) (id : Nat) (ls : List LogLine) :
    lastOf (settles d id) ls = (ofId d id ls).getLast? := by
  have hs : settles d id = fun l => l.id == id && l.visible d := by
    funext l
    cases hp : l.isPlain with
    | false => simp [settles, hp]
    | true => simp [settles, hp, LogLine.visible_of_isPlain hp d]
  rw [hs]
  rfl

theorem resolveLines_ofId (d : Decisions) (ls : List LogLine) (now : Int) (id : Nat) :
    ofId d id (resolveLines ls d now) = ((ofId d id ls).filter fun l => !l.isPlain) ++
      (((((ofId d id ls).getLast?.filter LogLine.isPlain).map LogLine.entry).filter
        (survives (resolveScan d ls) now)).map fun e => (⟨e, none⟩ : LogLine)).toList := by
  rw [resolveLines, ofId_append, evidence_ofId, resolvePlain_ofId, resolveScan_latest,
    lastOf_settles]

theorem noEvidence_plain {id : Nat} (h : (resolveScan d ls).hasEvidence id = false) :
    ∀ l ∈ ofId d id ls, l.isPlain = true := by
  intro l hl
  obtain ⟨hmem, hl⟩ := mem_filter.mp hl
  simp only [Bool.and_eq_true, beq_iff_eq] at hl
  rw [resolveScan_hasEvidence] at h
  by_contra hp
  have := any_eq_false.mp h l hmem
  simp [isEvidence, hl.1, hl.2, hp] at this

theorem resolved_dropped {now : Int} {id : Nat} {p : LogLine}
    (hev : (resolveScan d ls).hasEvidence id = false) (hlast : (ofId d id ls).getLast? = some p)
    (hgone : p.entry.op = .delete ∨ expired p.entry.expiresAt now = true) :
    ofId d id (resolveLines ls d now) = [] := by
  have hplain := noEvidence_plain hev
  have hnil : (ofId d id ls).filter (fun l => !l.isPlain) = [] :=
    filter_eq_nil_iff.mpr fun l hl => by simp [hplain l hl]
  have hp := hplain p (mem_of_getLast? hlast)
  have hid : p.entry.id = id := by
    have := (mem_filter.mp (mem_of_getLast? hlast)).2
    simp only [Bool.and_eq_true, beq_iff_eq] at this
    exact this.1
  have hs : survives (resolveScan d ls) now p.entry = false := by
    rcases hgone with h | h <;> simp [survives, hid, hev, h]
  rw [resolveLines_ofId, hnil, hlast]
  simp [Option.filter, hp, hs]

/-- Re-encryption of a line, which stays as it is where that would fail. -/
def migrate (enc : Option Encryptor) (l : LogLine) : LogLine :=
  (reencryptLine enc l).getD l

theorem reencryptForMigration_eq {ls' : List LogLine}
    (h : reencryptForMigration enc ls = some ls') : ls' = ls.map (migrate enc) := by
  have hall := (Traverse.forall₂_of_mapM_some h).imp fun l l' hl' =>
    show migrate enc l = l' by rw [migrate, hl']; rfl
  rw [← forall₂_map_left_iff, forall₂_eq_eq_eq] at hall
  exact hall.symm

theorem migrate_spec (enc : Option Encryptor) (l : LogLine) :
    Migrated enc l (migrate enc l) ∧ (migrate enc l).tx = l.tx := by
  have hsame : Migrated enc l l := ⟨rfl, rfl, rfl, rfl, rfl, Or.inl ⟨rfl, rfl⟩⟩
  unfold migrate reencryptLine
  cases enc with
  | none => exact ⟨hsame, rfl⟩
  | some k =>
    simp only
    split
    · exact ⟨hsame, rfl⟩
    · next hold =>
      push Not at hold
      cases hre : k.reencrypt l.entry.data with
      | none => exact ⟨hsame, rfl⟩
      | some stored =>
        obtain ⟨plain, hplain, henc⟩ := bind_eq_some_iff.mp hre
        have htx : l.tx = none := Option.not_isSome_iff_eq_none.mp hold.1
        have hplainLine : l.isPlain = true := by
          rw [LogLine.isPlain, htx]
        exact ⟨⟨rfl, rfl, rfl, rfl, rfl, Or.inr ⟨k, plain, rfl, hplainLine, hold.2.1, hold.2.2,
          rfl, hplain, henc⟩⟩, rfl⟩

theorem migrate_stamped (enc : Option Encryptor) {l : LogLine} (h : l.isPlain = false) :
    migrate enc l = l := by
  have htx : l.tx.isSome = true := by
    cases htx : l.tx with
    | none => simp [LogLine.isPlain, htx] at h
    | some tx => rfl
  unfold migrate reencryptLine
  cases enc with
  | none => rfl
  | some k => simp [htx]

theorem ofId_migrate (enc : Option Encryptor) (d : Decisions) (id : Nat) (ls : List LogLine) :
    ofId d id (ls.map (migrate enc)) = (ofId d id ls).map (migrate enc) := by
  unfold ofId
  rw [List.filter_map]
  congr 1
  refine filter_congr fun l _ => ?_
  obtain ⟨hm, htx⟩ := migrate_spec enc l
  simp only [Function.comp_apply, LogLine.visible, htx, hm.id]

theorem resolved_compacted (enc : Option Encryptor) (d : Decisions) (ls : List LogLine)
    (now : Int) (id : Nat) :
    Compacted enc now (ofId d id ls) (ofId d id ((resolveLines ls d now).map (migrate enc))) := by
  have hst : ∀ Y : List LogLine, (Y.filter fun l => !l.isPlain).map (migrate enc) =
      Y.filter fun l => !l.isPlain := by
    intro Y
    conv_rhs => rw [← map_id (Y.filter fun l => !l.isPlain)]
    refine map_congr_left fun l hl => ?_
    exact migrate_stamped enc (by simpa using (mem_filter.mp hl).2)
  rw [ofId_migrate, resolveLines_ofId, map_append, hst]
  rcases eq_nil_or_concat' (ofId d id ls) with hX | ⟨Y, p, hX⟩
  · rw [hX]
    exact .absent
  · rw [hX]
    cases hp : p.isPlain with
    | false =>
      have hkept := @Compacted.kept enc now Y p p ⟨rfl, rfl, rfl, rfl, rfl, Or.inl ⟨rfl, rfl⟩⟩
      simpa [Option.filter, hp] using hkept
    | true =>
      simp only [List.getLast?_append, List.getLast?_singleton, Option.some_or, Option.filter, hp,
        if_true, map_some, filter_append, filter_singleton]
      cases hs : survives (resolveScan d ls) now p.entry with
      | true =>
        obtain ⟨hm, -⟩ := migrate_spec enc ⟨p.entry, none⟩
        have hkept := @Compacted.kept enc now Y p (migrate enc ⟨p.entry, none⟩)
          ⟨hm.id, hm.op, hm.rev, hm.expiresAt, hm.isPlain.trans hp.symm, by
            rw [hp]
            exact hm.data⟩
        simpa using hkept
      | false =>
        -- without evidence of the id nothing of it is left
        have hpmem : p ∈ ofId d id ls := by simp [hX]
        have hid : p.entry.id = id := by
          have := (mem_filter.mp hpmem).2
          simp only [Bool.and_eq_true, beq_iff_eq] at this
          exact this.1
        simp only [survives, hid, Bool.or_eq_false_iff, Bool.not_eq_false', Bool.or_eq_true,
          beq_iff_eq] at hs
        have hplain := noEvidence_plain hs.1
        rw [hX] at hplain
        have hnil : Y.filter (fun l => !l.isPlain) = [] :=
          filter_eq_nil_iff.mpr fun l hl => by simp [hplain l (by simp [hl])]
        simpa [hnil] using Compacted.dropped hplain hs.2

theorem compactSegments_log {c : Encoding} {maxSize : Nat} {segs segs' : List Segment} {now : Int}
    (h : compactSegments c enc maxSize segs d now = some segs') :
    logOf segs' = (resolveLines (logOf segs) d now).map (migrate enc) ∧
      (segs'.map Segment.num).Sublist (segs.map Segment.num) := by
  unfold compactSegments at h
  obtain ⟨entries, hentries, h⟩ := bind_eq_some_iff.mp h
  obtain ⟨temps, htemps, h⟩ := bind_eq_some_iff.mp h
  obtain ⟨-, rfl⟩ := writeCompactEntries_eq_some.mp htemps
  simp only [Option.pure_def] at h
  obtain ⟨hlen, h⟩ := ite_none_left_eq_some.mp h
  cases h
  rw [renamed_log (by omega), packed_lines, reencryptForMigration_eq hentries]
  exact ⟨rfl, renamed_nums _ _⟩

end Scriva
