import Scriva.IndexMatchesLog
import Scriva.SidxMatchesLog

namespace Scriva

open List

section Writes

variable {cfg : Config} {all : Bool} {s s' : Collection} {fields : List String}
  {data stored : Option Data} {ch : Change}

/-- An encryptor leaves the fields it does not seal. -/
theorem StoredAs.clear (h : StoredAs cfg data stored)
    (hclear : ∀ f ∈ fields, cfg.isEncryptedField f = false) (hd : Textual fields data) :
    Clear fields data stored ∧ Textual fields stored := by
  rcases h with ⟨rfl, rfl⟩ | ⟨key, plain, hidden, hseal, rfl, rfl⟩
  · exact ⟨fun _ _ => rfl, hd⟩
  · have hc := (sealed_clear hclear hseal).keepKey key
    have hhidden : Textual [] hidden :=
      sealed_textual (by simp) ⟨keysAscend_of_keepKey hd.1, by simp⟩ hseal
    refine ⟨hc, (textual_keepKey hhidden key).1, fun f hf => ?_⟩
    rw [hc f hf]
    exact hd.2 f hf

/-- What an event tells of an indexed field is what its line stores. -/
theorem Tells.faithful {ev : WatchEvent} (h : Tells cfg ev ch)
    (hclear : ∀ f ∈ fields, cfg.isEncryptedField f = false)
    (hd : ev.op ≠ .delete → Textual fields ev.data) : Faithful fields ch := by
  intro hop f hf
  have hne : ev.op ≠ .delete := h.op ▸ hop
  obtain ⟨hdata, hst⟩ := h.data hne
  obtain ⟨hc, htext⟩ := hst.clear hclear (hd hne)
  rw [← hdata]
  exact hc.bucketKey htext hf

theorem SidxInv.frame (h : SidxInv cfg all s) {n : Nat} (hn : s.idSeq ≤ n) (now : Int) :
    SidxInv cfg all { s with idSeq := n, now := now } :=
  ⟨h.tracks.frame hn s.sidxs now, h.clear, h.sidxs⟩

theorem keepKeyOf_textual (s : Collection) {op : TxOp} (hd : Textual fields op.data) :
    Textual fields (s.keepKeyOf op).data := by
  unfold Collection.keepKeyOf
  split
  · exact textual_keepKey hd _
  · exact hd

theorem ensureIndex_watched {unique : Bool} {x : SecondaryIndex}
    (h : x ∈ (s.ensureIndex field unique).watched all) :
    x ∈ s.watched all ∨ x = (SecondaryIndex.empty field unique).rebuild s.segments s.decisions := by
  unfold Collection.ensureIndex at h
  split at h
  · exact Or.inl h
  · obtain ⟨hx, hsel⟩ := mem_filter.mp h
    rcases mem_append.mp hx with hx | hx
    · exact Or.inl (mem_filter.mpr ⟨hx, hsel⟩)
    · exact Or.inr (mem_singleton.mp hx)

theorem ensureIndex_fields {f : String} {unique : Bool}
    (h : f ∈ (s.ensureIndex field unique).fields all) : f ∈ s.fields all ∨ f = field := by
  obtain ⟨x, hx, rfl⟩ := mem_map.mp h
  rcases ensureIndex_watched hx with hx | rfl
  · exact Or.inl (mem_map_of_mem hx)
  · exact Or.inr rfl

/-- A new index is built from the log. -/
theorem SidxInv.ensureIndex (h : SidxInv cfg all s) (hclear : cfg.isEncryptedField field = false)
    (unique : Bool) : SidxInv cfg all (s.ensureIndex field unique) := by
  refine ⟨h.tracks.ensureIndex field unique, fun f hf => ?_, fun x hx => ?_⟩
  · rcases ensureIndex_fields hf with hf | rfl
    · exact h.clear f hf
    · exact hclear
  · have hsame : (s.ensureIndex field unique).segments = s.segments ∧
        (s.ensureIndex field unique).decisions = s.decisions := by
      obtain ⟨xs, hxs⟩ := ensureIndex_eq s field unique
      rw [hxs]
      exact ⟨rfl, rfl⟩
    rw [hsame.1, hsame.2]
    rcases ensureIndex_watched hx with hx | rfl
    · exact h.sidxs x hx
    · rfl

theorem key_clear (cfg : Config) : cfg.isEncryptedField keyField = false := by
  unfold Config.isEncryptedField
  cases cfg.enc with
  | none => rfl
  | some k => exact k.key_clear

theorem SidxInv.ensureKey (h : SidxInv cfg all s) : SidxInv cfg all (s.ensureIndex keyField true) :=
  h.ensureIndex (key_clear cfg) true

theorem textual_ensureKey (h : Textual (s.fields all) data) :
    Textual ((s.ensureIndex keyField true).fields all) data :=
  textual_key h fun _ => ensureIndex_fields

theorem SidxInv.dropIndex (h : SidxInv cfg all s) (hs : s.dropIndex field = some s') :
    SidxInv cfg all s' := by
  obtain ⟨-, hs⟩ := Option.ite_none_right_eq_some.mp hs
  cases hs
  have hsub : ∀ x ∈ Collection.watched
      { s with sidxs := s.sidxs.filter fun x => x.field != field } all, x ∈ s.watched all := by
    intro x hx
    obtain ⟨hx, hsel⟩ := mem_filter.mp hx
    exact mem_filter.mpr ⟨(mem_filter.mp hx).1, hsel⟩
  refine ⟨h.tracks.frame (le_refl _) _ s.now, fun f hf => ?_, fun x hx => h.sidxs x (hsub x hx)⟩
  obtain ⟨x, hx, rfl⟩ := mem_map.mp hf
  exact h.clear x.field (mem_map_of_mem (hsub x hx))

theorem replChange_faithful {e : Entry} (hd : e.op ≠ .delete → Textual fields e.data) :
    Faithful fields (replChange s e) :=
  fun hop _ hf => bucketKey_persisted (hd hop) hf

/-- A rebuild depends on the records only. -/
theorem SecondaryIndex.rebuild_congr {x : SecondaryIndex} {segs segs' : List Segment}
    {d d' : Decisions} (h : records d (logOf segs) = records d' (logOf segs')) :
    x.rebuild segs d = x.rebuild segs' d' := by
  have hlatest : latestData d (logOf segs) = latestData d' (logOf segs') := by
    funext id
    rw [latestData_eq, latestData_eq, h]
  unfold SecondaryIndex.rebuild
  rw [hlatest]

theorem SidxInv.same (h : SidxInv cfg all s) {t : Collection} (ht : Tracks t)
    (hx : t.sidxs = s.sidxs)
    (hr : records t.decisions t.log = records s.decisions s.log) : SidxInv cfg all t := by
  have hwatch : t.watched all = s.watched all := by rw [Collection.watched, hx]; rfl
  refine ⟨ht, ?_, fun x hmem => ?_⟩
  · rw [Collection.fields, hwatch]
    exact h.clear
  · rw [SecondaryIndex.rebuild_congr hr]
    exact h.sidxs x (hwatch ▸ hmem)

theorem SidxInv.rebuilt {t : Collection} (ht : Tracks t.rebuilt)
    (hclear : ∀ f ∈ t.fields all, cfg.isEncryptedField f = false) : SidxInv cfg all t.rebuilt := by
  refine ⟨ht, fun f hf => ?_, fun y hy => ?_⟩
  · obtain ⟨y, hy, rfl⟩ := mem_map.mp hf
    obtain ⟨hy, hsel⟩ := mem_filter.mp hy
    obtain ⟨x, hx, rfl⟩ := mem_map.mp hy
    exact hclear x.field (mem_map_of_mem (mem_filter.mpr ⟨hx, hsel⟩))
  · obtain ⟨x, -, rfl⟩ := mem_map.mp (mem_filter.mp hy).1
    rfl

/-- A pass keeps the records, so the indexes built anew agree. -/
theorem SidxInv.compact (h : SidxInv cfg all s) {k : Nat} {at_ : Int}
    (hs : s.compact cfg k at_ = some s') : SidxInv cfg all s' := by
  have ht := h.tracks.compact hs
  obtain ⟨segs, -, rfl, -⟩ := compact_spec hs
  exact SidxInv.rebuilt ht h.clear

theorem SidxInv.reopen (h : SidxInv cfg all s) {idSeq : Nat} {now : Int}
    (hs : s.reopen idSeq now = some s') : SidxInv cfg all s' := by
  have ht := h.tracks.reopen hs
  obtain ⟨-, rfl⟩ := guard_some hs
  exact SidxInv.rebuilt ht h.clear

end Writes

end Scriva
