import Scriva.Compacted

namespace Scriva

open KeyedLog List

section

variable {d : Decisions} {ls : List LogLine} {now : Int} {l : LogLine}

theorem mem_byId {ids : List Nat} {m : Nat → Option Entry} {e : Entry} (h : e ∈ byId ids m) :
    ∃ k, m k = some e := by
  obtain ⟨k, -, hk⟩ := mem_filterMap.mp h
  exact ⟨k, hk⟩

theorem mem_resolvePlain (h : l ∈ resolvePlain ls d now) :
    ∃ p, lastOf (settles d l.id) ls = some p ∧ p.isPlain = true ∧ l = ⟨p.entry, none⟩ := by
  obtain ⟨e, he, rfl⟩ := mem_map.mp h
  obtain ⟨k, hk⟩ := mem_byId (mem_filter.mp he).1
  have hid := (resolveScan_latest_id hk).1
  rw [resolveScan_latest] at hk
  obtain ⟨p, hp, rfl⟩ := Option.map_eq_some_iff.mp hk
  obtain ⟨hlast, hplain⟩ := Option.filter_eq_some_iff.mp hp
  have hkey : LogLine.id ⟨p.entry, none⟩ = k := hid
  exact ⟨p, by rw [hkey]; exact hlast, hplain, rfl⟩

theorem resolvePlain_ids (ls : List LogLine) (d : Decisions) (now : Int) :
    (resolvePlain ls d now).Pairwise fun a b => a.id ≠ b.id := by
  have hnodup : ((ls.map LogLine.id).dedup.insertionSort (· ≤ ·)).Nodup :=
    (perm_insertionSort _ _).nodup_iff.mpr (nodup_dedup _)
  unfold resolvePlain byId
  refine pairwise_map.mpr (List.Pairwise.filter _ (pairwise_filterMap.mpr ?_))
  refine hnodup.imp fun {k k'} hne e he e' he' heq => hne ?_
  have hk := (resolveScan_latest_id he).1
  have hk' := (resolveScan_latest_id he').1
  have heq : e.id = e'.id := heq
  rw [← hk, ← hk', heq]

theorem mem_resolveLines (h : l ∈ resolveLines ls d now) :
    ∃ p ∈ ls, p.entry = l.entry ∧ (p.visible d = true ∨ p.undecided d = true) ∧
      (l.visible d = true → p.visible d = true) := by
  unfold resolveLines at h
  rw [resolveScan_evidence] at h
  rcases mem_append.mp h with h | h
  · obtain ⟨hl, hev⟩ := mem_filter.mp h
    refine ⟨l, hl, rfl, ?_, id⟩
    simpa [isEvidence] using (Bool.and_eq_true_iff.mp hev).2
  · obtain ⟨p, hlast, hplain, rfl⟩ := mem_resolvePlain h
    have hv := p.visible_of_isPlain hplain d
    exact ⟨p, (lastOf_some hlast).1, rfl, Or.inl hv, fun _ => hv⟩

theorem resolveLines_readable {enc : Option Encryptor} (h : ∀ l ∈ ls, l.Readable enc)
    (hl : l ∈ (resolveLines ls d now).map (migrate enc)) : l.Readable enc := by
  obtain ⟨q, hq, rfl⟩ := mem_map.mp hl
  refine ((migrate_spec enc q).1.readable ?_).1
  unfold resolveLines at hq
  rw [resolveScan_evidence] at hq
  rcases mem_append.mp hq with hq | hq
  · exact h q (mem_filter.mp hq).1
  · obtain ⟨p, hlast, hplain, rfl⟩ := mem_resolvePlain hq
    obtain ⟨hdec, hread, hstore⟩ := h p (lastOf_some hlast).1
    exact ⟨hdec, hread, fun k hk _ => hstore k hk hplain⟩

theorem resolveLines_pairwise {P : Entry → Entry → Prop}
    (h : ls.Pairwise fun a b => a.id = b.id → P a.entry b.entry)
    (hd : ∀ l ∈ ls, l.undecided d = false) (now : Int) :
    (resolveLines ls d now).Pairwise fun a b => a.id = b.id → P a.entry b.entry := by
  unfold resolveLines
  rw [resolveScan_evidence]
  refine pairwise_append.mpr ⟨h.sublist filter_sublist, ?_, fun v hv p hp heq => ?_⟩
  · exact (resolvePlain_ids ls d now).imp fun hne heq => absurd heq hne
  · -- a kept stamped line is committed, so it stands before the plain line that settles the id
    obtain ⟨hv, hev⟩ := mem_filter.mp hv
    obtain ⟨q, hlast, hplain, rfl⟩ := mem_resolvePlain hp
    have hvis : v.visible d = true := by
      simpa [hd v hv] using (Bool.and_eq_true_iff.mp hev).2
    obtain ⟨pre, post, hsplit, -, hpost⟩ := lastOf_split hlast
    have hset : settles d (LogLine.id ⟨q.entry, none⟩) v = true := by
      simp [settles, hvis, heq]
    rw [hsplit] at h hv
    rcases mem_append.mp hv with hpre | hrest
    · exact (pairwise_append.mp h).2.2 v hpre q (by simp) heq
    · rcases mem_cons.mp hrest with rfl | hin
      · simp [isEvidence, hplain] at hev
      · rw [hpost v hin] at hset
        cases hset

end

theorem mem_compactSegments {c : Encoding} {enc : Option Encryptor} {maxSize : Nat}
    {segs segs' : List Segment} {d : Decisions} {now : Int} {l : LogLine}
    (h : compactSegments c enc maxSize segs d now = some segs') (hl : l ∈ logOf segs') :
    ∃ p ∈ logOf segs, p.id = l.id ∧ p.entry.op = l.entry.op ∧ p.entry.rev = l.entry.rev ∧
      (p.visible d = true ∨ p.undecided d = true) ∧ (l.visible d = true → p.visible d = true) := by
  rw [(compactSegments_log h).1] at hl
  obtain ⟨q, hq, rfl⟩ := mem_map.mp hl
  obtain ⟨p, hp, hentry, hcount, hvis⟩ := mem_resolveLines hq
  obtain ⟨hm, htx⟩ := migrate_spec enc q
  refine ⟨p, hp, ?_, ?_, ?_, hcount, fun hv => hvis ?_⟩
  · rw [LogLine.id, hentry]
    exact hm.id.symm
  · rw [hentry, hm.op]
  · rw [hentry, hm.rev]
  · unfold LogLine.visible at hv ⊢
    rwa [htx] at hv

end Scriva
