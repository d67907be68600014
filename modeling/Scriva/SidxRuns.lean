import Scriva.IndexRuns
import Scriva.SidxWrites

namespace Scriva

open Option

/-- No write stores an empty map, and what it brings to an indexed field (or one with a unique
index) prints alike before and after it; inserts name ids that are free, and an envelope adds an id
at most once. -/
def CollectionOp.SidxSound (cfg : Config) (all : Bool) (s : Collection) : CollectionOp → Prop
  | .insert data _ _ => cfg.Reads (s.fields all) data
  | .insertWithKey _ data _ => Textual (s.fields all) data
  | .update id data _ =>
    Textual (s.fields all) data ∧ cfg.Stores (s.preserveReserved id data)
  | .updateWithExpiry id data _ _ =>
    Textual (s.fields all) data ∧ cfg.Stores (s.preserveReserved id data)
  | .updateByKey _ data _ => Textual (s.fields all) data
  | .upsert _ data _ => Textual (s.fields all) data
  | .compareAndSwap _ data _ _ => Textual (s.fields all) data
  | .insertMany _ records _ _ => ∀ data ∈ records, cfg.Reads (s.fields all) data
  | .commitTx _ ops _ =>
    s.InsertsUnused ops ∧ ∀ op ∈ ops, op.kind ≠ .delete → cfg.Reads (s.fields all) op.data
  | .commitXTx _ ops _ =>
    (∀ op ∈ ops, op.op = .insert → s.index op.id = none) ∧
      ∀ op ∈ ops, op.op ≠ .delete → cfg.Reads (s.fields all) op.data
  | .applyEntry e _ => e.op ≠ .delete → Textual (s.fields all) e.data ∧ e.data ≠ some []
  | .applyReplicatedTx _ es _ =>
    AddsNew (indexed s) (replChanges s es) ∧
      ∀ e ∈ es, e.op ≠ .delete → Textual (s.fields all) e.data ∧ e.data ≠ some []
  | _ => True

instance decidableSidxSound (cfg : Config) (all : Bool) (s : Collection) :
    ∀ op : CollectionOp, Decidable (op.SidxSound cfg all s) := by
  rintro (_ | _ | _ | _) <;> dsimp only [CollectionOp.SidxSound] <;> infer_instance

variable {cfg : Config} {all : Bool} {s t : Collection}

theorem xtxEvent_textual {r : Readings} {o : XTxOp} (h : Textual (s.fields all) o.data) :
    Textual (s.fields all) (s.xtxEvent r o).data := by
  unfold Collection.xtxEvent
  dsimp only
  split
  · exact textual_keepKey h _
  · exact h

theorem events_textual {op : CollectionOp} {ev : WatchEvent} (hok : op.SidxSound cfg all s)
    (h : ev ∈ op.events s) (hop : ev.op ≠ .delete) : Textual (s.fields all) ev.data := by
  cases op with
  | insert =>
    cases List.mem_singleton.mp h
    exact hok.1
  | insertWithKey key =>
    cases List.mem_singleton.mp h
    exact textual_stampKey hok key
  | update | updateWithExpiry =>
    cases List.mem_singleton.mp h
    exact textual_keepKey hok.1 _
  | delete =>
    cases List.mem_singleton.mp h
    exact absurd rfl hop
  | deleteByKey | reap =>
    obtain ⟨id, -, rfl⟩ := List.mem_map.mp h
    exact absurd rfl hop
  | updateByKey key =>
    obtain ⟨id, -, rfl⟩ := List.mem_map.mp h
    exact textual_keepKey (textual_stampKey hok key) _
  | upsert key data r =>
    unfold CollectionOp.events at h
    dsimp only at h
    split at h <;>
    · cases List.mem_singleton.mp h
      exact textual_stampKey hok key
  | compareAndSwap key =>
    obtain ⟨id, -, rfl⟩ := List.mem_map.mp h
    exact textual_stampKey hok key
  | insertMany txid records explicit r =>
    obtain ⟨o, ho, rfl⟩ := List.mem_map.mp h
    obtain ⟨p, hp, rfl⟩ := List.mem_map.mp ho
    exact (hok p.1 (List.fst_mem_of_mem_zipIdx hp)).1
  | commitTx txid ops r =>
    unfold CollectionOp.events at h
    dsimp only at h
    split at h
    · obtain ⟨o, ho, rfl⟩ := List.mem_map.mp h
      exact xtxEvent_textual (hok.2 o ho hop).1
    · obtain ⟨o', ho', rfl⟩ := List.mem_map.mp h
      obtain ⟨o, ho, rfl⟩ := List.mem_map.mp ho'
      have hkind : (s.keepKeyOf o).kind ≠ .delete := hop
      have hev : (s.keepKeyOf o).event.data = (s.keepKeyOf o).data := if_neg hkind
      rw [(keepKeyOf_kind s o).1] at hkind
      rw [hev]
      exact keepKeyOf_textual s (hok.2 o ho hkind).1
  | commitXTx txid ops r =>
    obtain ⟨o, ho, rfl⟩ := List.mem_map.mp h
    exact xtxEvent_textual (hok.2 o ho hop).1
  | _ => cases h

theorem SidxInv.base (h : SidxInv cfg all s) (op : CollectionOp) : SidxInv cfg all (op.base s) := by
  rcases base_cases s op with hs | hs
  · rw [hs]
    exact h
  · rw [hs]
    exact h.ensureKey

theorem textual_base {data : Option Data} (h : Textual (s.fields all) data) (op : CollectionOp) :
    Textual ((op.base s).fields all) data := by
  rcases base_cases s op with hs | hs
  · rw [hs]
    exact h
  · rw [hs]
    exact textual_ensureKey h

variable {ls : List Line} {chs : List Change} {op : CollectionOp}

theorem Appended.sidxInv (ha : Appended s ls chs t)
    (hx : t.sidxs = (op.base s).sidxs.map fun x => chs.foldl SecondaryIndex.put x)
    (hi : SidxInv cfg all s) (hids : ∀ ch ∈ chs, ch.entry.id ≤ t.idSeq)
    (hnew : AddsNew (indexed s) chs)
    (hf : ∀ ch ∈ chs, Faithful ((op.base s).fields all) ch) : SidxInv cfg all t := by
  have hb := hi.base op
  have hw := ha.base hx
  obtain ⟨xs, hxs⟩ := base_eq s op
  rw [hxs] at hb hw hf
  exact hw.sidxInv hb ⟨ha.counter, fun _ => hids⟩ hnew hf

theorem WritesLocally.sidxInv (hw : WritesLocally cfg op s ls chs t) (hi : SidxInv cfg all s)
    (hl : op.isLocalWrite = true) (hok : op.SidxSound cfg all s) : SidxInv cfg all t := by
  have hsound : op.IndexSound s := by
    cases op with
    | commitTx | commitXTx => exact hok.1
    | applyEntry | applyReplicatedTx => cases hl
    | _ => trivial
  obtain ⟨hadds, hids⟩ := hw.free hi.tracks.bounded hsound
  refine hw.toAppended.sidxInv hw.sidxs hi hids hadds fun ch hch => ?_
  obtain ⟨ev, hev, htell⟩ := Traverse.forall₂_mem hw.told hch
  exact htell.faithful (hi.base op).clear fun hop => textual_base (events_textual hok hev hop) op

theorem replicated_sidxInv (hr : op.isReplicated = true) (hi : SidxInv cfg all s)
    (hok : op.SidxSound cfg all s) (h : s.step cfg op = some t) : SidxInv cfg all t := by
  obtain ⟨ls, ha, hx, hids⟩ := step_replicated hr h
  have hsound : AddsNew (indexed s) (replChanges s op.carried) ∧
      ∀ e ∈ op.carried, e.op ≠ .delete → Textual (s.fields all) e.data := by
    cases op with
    | applyEntry e r =>
      refine ⟨?_, fun e' he' hop => ?_⟩
      · refine addsNew_of_nodup ?_ fun ch hch _ hfresh => ?_
        · rw [replChanges_entries]
          exact ((List.filter_sublist).map _).nodup (List.nodup_singleton _)
        · obtain ⟨e', -, rfl⟩ := List.mem_map.mp hch
          simpa [replChange, indexed] using hfresh
      · cases List.mem_singleton.mp he'
        exact (hok hop).1
    | applyReplicatedTx txid es r => exact ⟨hok.1, fun e he hop => (hok.2 e he hop).1⟩
    | _ => cases hr
  refine ha.sidxInv hx hi (hids hi.tracks.bounded) hsound.1 fun ch hch => ?_
  obtain ⟨e, he, rfl⟩ := List.mem_map.mp hch
  exact replChange_faithful fun hop =>
    textual_base (hsound.2 e (List.mem_filter.mp he).1 hop) op

theorem ensureIndex_clear {f : String}
    (h : ¬ (cfg.isEncryptedField f || !s.buildable f) = true) : cfg.isEncryptedField f = false :=
  (Bool.or_eq_false_iff.mp (Bool.eq_false_iff.mpr h)).1

theorem step_sidxInv (hi : SidxInv cfg all s) (hok : op.SidxSound cfg all s)
    (h : s.step cfg op = some t) : SidxInv cfg all t := by
  rcases op.kinds with hk | hk | hk | hk | ⟨k, at_, rfl⟩
  · cases op with
    | reserveID =>
      cases h
      exact hi.frame (Nat.le_succ _) s.now
    | rotate =>
      cases h
      exact hi.same hi.tracks.rotate rfl (congrArg (records s.decisions) (rotateSegment_log s))
    | reopen idSeq now => exact hi.reopen h
    | _ => cases hk
  · obtain ⟨ls, chs, hw⟩ := step_locally hk h
    exact hw.sidxInv hi hk hok
  · exact replicated_sidxInv hk hi hok h
  · cases op with
    | tick later =>
      obtain ⟨-, rfl⟩ := Runs.guarded h
      exact hi.frame (le_refl _) later
    | decideElsewhere txid v =>
      obtain ⟨hnew, rfl⟩ := Runs.guarded h
      exact hi.same (hi.tracks.decide hnew v) rfl (records_congr fun l hl => visible_set hnew v hl)
    | ensureIndex field unique =>
      obtain ⟨hclear, rfl⟩ := Runs.barred h
      exact hi.ensureIndex (ensureIndex_clear hclear) unique
    | dropIndex field => exact hi.dropIndex h
    | _ => cases hk
  · exact hi.compact h

def members (ops : List CollectionOp) (field key : String) (id : Nat) :
    Option (Bool × Bool) :=
  (Runs.run (Collection.step plainConfig) emptyCollection ops).bind fun s =>
    (s.sidx field).map fun x =>
      (x.buckets key id, (x.rebuild s.segments s.decisions).buckets key id)

end Scriva
