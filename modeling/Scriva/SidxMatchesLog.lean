import Scriva.StoredText

namespace Scriva

open KeyedLog List

variable {x : SecondaryIndex}

theorem SecondaryIndex.remove_absent {id : Nat} (h : x.reverse id = none) : x.remove id = x := by
  simp [SecondaryIndex.remove, h]

theorem SecondaryIndex.indexEntry_eq {id : Nat} (h : x.reverse id = none) (data : Option Data) :
    x.indexEntry id data = x.updateEntry id data := by
  unfold SecondaryIndex.indexEntry SecondaryIndex.updateEntry
  cases (data.getD []).get x.field with
  | none => exact (SecondaryIndex.remove_absent h).symm
  | some v =>
    show x.add v id = x.update id v
    unfold SecondaryIndex.add SecondaryIndex.update
    rw [SecondaryIndex.remove_absent h]
    simp only [h]

theorem SecondaryIndex.put_field (x : SecondaryIndex) (ch : Change) :
    (x.put ch).field = x.field ∧ (x.put ch).unique = x.unique := by
  have hadd : ∀ v id, (x.add v id).field = x.field ∧ (x.add v id).unique = x.unique := by
    intro v id
    unfold SecondaryIndex.add
    split <;> exact ⟨rfl, rfl⟩
  have hput : (if ch.fresh then x.indexEntry ch.entry.id ch.data
        else x.updateEntry ch.entry.id ch.data).field = x.field ∧
      (if ch.fresh then x.indexEntry ch.entry.id ch.data
        else x.updateEntry ch.entry.id ch.data).unique = x.unique := by
    unfold SecondaryIndex.indexEntry SecondaryIndex.updateEntry
    cases ch.fresh <;> cases (ch.data.getD []).get x.field <;> simp [hadd]
  unfold SecondaryIndex.put
  cases ch.entry.op with
  | delete => exact x.remove_field _
  | insert => exact hput
  | update => exact hput

theorem SecondaryIndex.putAll_field (x : SecondaryIndex) (chs : List Change) :
    (chs.foldl SecondaryIndex.put x).field = x.field ∧
      (chs.foldl SecondaryIndex.put x).unique = x.unique := by
  induction chs generalizing x with
  | nil => exact ⟨rfl, rfl⟩
  | cons ch chs ih =>
    obtain ⟨hf, hu⟩ := ih (x.put ch)
    exact ⟨hf.trans (x.put_field ch).1, hu.trans (x.put_field ch).2⟩

def Change.shown (ch : Change) : LogLine :=
  { entry := { ch.entry with data := ch.data }, tx := none }

theorem SecondaryIndex.put_eq_replayOne {ch : Change}
    (h : ch.entry.op ≠ .delete → ch.fresh = true → x.reverse ch.entry.id = none) :
    x.put ch = x.replayOne ch.shown.entry := by
  have hput : ch.entry.op ≠ .delete →
      (if ch.fresh then x.indexEntry ch.entry.id ch.data
        else x.updateEntry ch.entry.id ch.data) = x.updateEntry ch.entry.id ch.data := by
    intro hop
    by_cases hf : ch.fresh = true
    · rw [if_pos hf, SecondaryIndex.indexEntry_eq (h hop hf)]
    · rw [if_neg hf]
  have hshown : ch.shown.entry.op = ch.entry.op := rfl
  unfold SecondaryIndex.put SecondaryIndex.replayOne
  rw [hshown]
  cases hop : ch.entry.op with
  | delete => rfl
  | insert | update => exact hput (by simp [hop])

def Faithful (fields : List String) (ch : Change) : Prop :=
  ch.entry.op ≠ .delete → ∀ f ∈ fields, bucketKey f (persistedData ch.entry.data) =
    bucketKey f ch.data

theorem SecondaryIndex.put_spec {l : Line} {ch : Change}
    (h : ch.entry.op ≠ .delete → ch.fresh = true → x.reverse ch.entry.id = none)
    (hl : l.entry = ch.entry.persisted) (hf : Faithful [x.field] ch) :
    (x.put ch).reverse =
      apply LogLine.id (fun l _ => l.bucket x.field) x.reverse l.toLogLine ∧
    (x.Consistent → (x.put ch).Consistent) := by
  obtain ⟨-, -, hrev, hc⟩ := x.replayOne_spec ch.shown
  rw [SecondaryIndex.put_eq_replayOne h]
  refine ⟨hrev.trans ?_, hc⟩
  have hbucket : ch.shown.bucket x.field = l.toLogLine.bucket x.field := by
    unfold LogLine.bucket
    by_cases hop : ch.entry.op = .delete
    · simp [hl, Entry.persisted, Change.shown, hop]
    · simp [hl, Entry.persisted, Change.shown, hop, hf hop x.field (by simp)]
  have hid : l.toLogLine.id = ch.entry.id := by rw [LogLine.id, hl]; rfl
  funext k
  show (if ch.entry.id = k then ch.shown.bucket x.field else x.reverse k) =
    if l.toLogLine.id = k then l.toLogLine.bucket x.field else x.reverse k
  rw [hbucket, hid]

theorem putRun_sidx {ls : List Line} {chs : List Change} (hcarry : Carry ls chs) {d : Decisions}
    (hv : ∀ l ∈ ls, l.toLogLine.visible d = true) {present : Nat → Bool} (hc : x.Consistent)
    (hp : ∀ id, present id = false → x.reverse id = none) (hnew : AddsNew present chs)
    (hf : ∀ ch ∈ chs, Faithful [x.field] ch) :
    (chs.foldl SecondaryIndex.put x).reverse =
      bucketReplay x.field x.reverse d (ls.map Line.toLogLine) ∧
    (chs.foldl SecondaryIndex.put x).Consistent := by
  induction hcarry generalizing x present with
  | nil => exact ⟨rfl, hc⟩
  | @cons l ch ls chs hl _ ih =>
    have hfield := (x.put_field ch).1
    obtain ⟨hrev, hcons⟩ := SecondaryIndex.put_spec
      (fun hop hfr => hp _ (hnew.1 hop hfr)) hl (hf ch (by simp))
    have hid : l.toLogLine.id = ch.entry.id := by rw [LogLine.id, hl]; rfl
    -- an id that is absent behind the change was absent, or the change deleted it
    have habsent : ∀ id, Function.update present ch.entry.id (ch.entry.op != .delete) id = false →
        (x.put ch).reverse id = none := by
      intro id hnone
      rw [hrev]
      by_cases hk : id = ch.entry.id
      · subst hk
        have hdel : ch.entry.op = .delete := by simpa using hnone
        simp [apply, hid, LogLine.bucket, hl, Entry.persisted, hdel]
      · rw [apply_of_ne (by rw [hid]; exact Ne.symm hk)]
        rw [Function.update_of_ne hk] at hnone
        exact hp id hnone
    obtain ⟨hrev', hcons'⟩ := ih (fun l hl => hv l (by simp [hl])) (hcons hc)
      habsent hnew.2 (fun ch hch => hfield ▸ hf ch (by simp [hch]))
    refine ⟨?_, hcons'⟩
    rw [foldl_cons, hrev', hrev, hfield, map_cons, bucketReplay_cons,
      if_pos (hv l (by simp))]

def Collection.watched (s : Collection) (all : Bool) : List SecondaryIndex :=
  s.sidxs.filter fun x => all || x.unique

def Collection.fields (s : Collection) (all : Bool) : List String :=
  (s.watched all).map SecondaryIndex.field

structure SidxInv (cfg : Config) (all : Bool) (s : Collection) : Prop where
  tracks : Tracks s
  clear : ∀ f ∈ s.fields all, cfg.isEncryptedField f = false
  sidxs : ∀ x ∈ s.watched all, x = x.rebuild s.segments s.decisions

theorem latestData_eq (d : Decisions) (ls : List LogLine) (id : Nat) :
    latestData d ls id = (records d ls id).map Record.data := by
  have hbind : (records d ls id).bind (fun r => some r.data) = latestData d ls id := by
    refine replay_bind (fun l _ v => ?_) _ id
    unfold Record.act
    cases v <;> cases hop : l.entry.op <;> simp
  rw [← hbind, Option.map_eq_bind]
  rfl

section

variable {cfg : Config} {all : Bool} {s s' : Collection} {ls : List Line} {chs : List Change}

theorem rebuilt_reverse {x : SecondaryIndex} (hx : x = x.rebuild s.segments s.decisions)
    (id : Nat) :
    x.reverse id = (records s.decisions s.log id).bind fun r => bucketKey x.field r.data := by
  rw [hx]
  show (latestData s.decisions s.log id).bind _ = _
  rw [latestData_eq, Option.bind_map]
  rfl

theorem SidxInv.reverse (h : SidxInv cfg all s) {x : SecondaryIndex} (hx : x ∈ s.watched all) (id : Nat) :
    x.reverse id = (records s.decisions s.log id).bind fun r => bucketKey x.field r.data :=
  rebuilt_reverse (h.sidxs x hx) id

theorem Wrote.watched (h : Wrote s ls chs s') :
    s'.watched all = (s.watched all).map fun x => chs.foldl SecondaryIndex.put x := by
  unfold Collection.watched
  rw [h.sidxs, filter_map]
  congr 1
  refine filter_congr fun x _ => ?_
  simp [(x.putAll_field chs).2]

theorem Wrote.fields (h : Wrote s ls chs s') : s'.fields all = s.fields all := by
  rw [Collection.fields, h.watched, map_map]
  exact map_congr_left fun x _ => (x.putAll_field chs).1

theorem Wrote.sidx_rebuild (h : Wrote s ls chs s') (ht : Tracks s) (hnew : AddsNew (indexed s) chs)
    {x : SecondaryIndex} (hx : x = x.rebuild s.segments s.decisions)
    (hf : ∀ ch ∈ chs, Faithful [x.field] ch) :
    chs.foldl SecondaryIndex.put x =
      (chs.foldl SecondaryIndex.put x).rebuild s'.segments s'.decisions := by
  have hcons : x.Consistent := by
    rw [hx]
    exact x.rebuild_consistent _ _
  have habsent : ∀ id, indexed s id = false → x.reverse id = none := by
    intro id hid
    have hnone : Scriva.records s.decisions s.log id = none := by
      rw [indexed, ht.present] at hid
      simpa using hid
    rw [rebuilt_reverse hx, hnone]
    rfl
  obtain ⟨hrev, hc⟩ := putRun_sidx h.carry h.visible hcons habsent hnew hf
  refine SecondaryIndex.eq_of_reverse rfl rfl ?_ hc (SecondaryIndex.rebuild_consistent _ _ _)
  have hold : x.reverse = bucketReplay x.field (fun _ => none) s'.decisions s.log := by
    rw [bucketReplay_congr h.before, Collection.log, ← SecondaryIndex.rebuild_reverse]
    exact congrArg SecondaryIndex.reverse hx
  rw [SecondaryIndex.rebuild_reverse, hrev, hold, ← bucketReplay_append, ← h.log,
    (x.putAll_field chs).1]
  rfl

/-- A write updates the indexes as a rebuild would find them. -/
theorem Wrote.sidxInv (h : Wrote s ls chs s') (hi : SidxInv cfg all s) (hc : Counts s chs s')
    (hnew : AddsNew (indexed s) chs) (hf : ∀ ch ∈ chs, Faithful (s.fields all) ch) :
    SidxInv cfg all s' := by
  refine ⟨h.tracks hi.tracks hc, ?_, fun y hy => ?_⟩
  · rw [h.fields]
    exact hi.clear
  rw [h.watched] at hy
  obtain ⟨x, hx, rfl⟩ := mem_map.mp hy
  refine h.sidx_rebuild hi.tracks hnew (hi.sidxs x hx) fun ch hch hop f hfx => ?_
  cases mem_singleton.mp hfx
  exact hf ch hch hop x.field (mem_map_of_mem hx)

end

end Scriva
