import Scriva.LocalWrites

namespace Scriva

open Option

section

variable {cfg : Config} {s t : Collection} {r : Readings}

def CollectionOp.carried : CollectionOp → List Entry
  | .applyEntry e _ => [e]
  | .applyReplicatedTx _ es _ => es
  | _ => []

def CollectionOp.isReplicated : CollectionOp → Bool
  | .applyEntry .. | .applyReplicatedTx .. => true
  | _ => false

theorem applyReplicatedTx_decides {txid : String} {es : List Entry}
    (h : s.applyReplicatedTx cfg txid es r = some t) : Decides s t := by
  obtain ⟨xs, hxs⟩ := ensureKeyIndexFor_eq s es
  obtain ⟨-, h⟩ := guard_bind.mp h
  rw [hxs] at h
  obtain ⟨hnew, h⟩ := guard_bind.mp h
  obtain ⟨-, h⟩ := guard_bind.mp h
  obtain ⟨-, rfl⟩ := guard_some h
  refine Or.inr ⟨txid, .commit, hnew, ?_⟩
  rw [commitRun_eq]
  rfl

theorem applyEntry_decisions {e : Entry} (h : s.applyEntry cfg e r = some t) :
    t.decisions = s.decisions := by
  obtain ⟨xs, hxs⟩ := ensureKeyIndexFor_eq s [e]
  obtain ⟨-, h⟩ := guard_bind.mp h
  rw [hxs] at h
  simp only at h
  split at h
  · cases h
    rfl
  · obtain ⟨-, rfl⟩ := guard_some h
    rfl

theorem replicated_appended {es : List Entry} {u : Collection} {ls : List Line} (hd : Decides s u)
    (hc : Counts (s.ensureKeyIndexFor es) (replChanges (s.ensureKeyIndexFor es) es) u)
    (hw : Wrote (s.ensureKeyIndexFor es) ls (replChanges (s.ensureKeyIndexFor es) es) u)
    (now : Int) :
    Appended s ls (replChanges s es) { u with now := now } ∧
      u.sidxs = (s.ensureKeyIndexFor es).sidxs.map
        (fun x => (replChanges s es).foldl SecondaryIndex.put x) ∧
      (Bounded s → ∀ ch ∈ replChanges s es, ch.entry.id ≤ u.idSeq) := by
  obtain ⟨xs, hxs⟩ := ensureKeyIndexFor_eq s es
  rw [hxs] at hc hw ⊢
  have hw : Wrote { s with sidxs := xs, idSeq := s.idSeq } ls (replChanges s es) u := hw
  exact ⟨hw.appended hd hc.1 now, hw.sidxs, hc.2⟩

/-- A replicated write appends the entries that are not older than what the collection has. -/
theorem step_replicated {op : CollectionOp} (hr : op.isReplicated = true)
    (h : s.step cfg op = some t) :
    ∃ ls, Appended s ls (replChanges s op.carried) t ∧
      t.sidxs = (op.base s).sidxs.map
        (fun x => (replChanges s op.carried).foldl SecondaryIndex.put x) ∧
      (Bounded s → ∀ ch ∈ replChanges s op.carried, ch.entry.id ≤ t.idSeq) := by
  cases op with
  | applyEntry e r =>
    obtain ⟨-, u, hu, rfl⟩ := during_some h
    obtain ⟨hc, ls, hw⟩ := applyEntry_spec hu
    exact ⟨ls, replicated_appended (Or.inl (applyEntry_decisions hu)) hc hw r.late⟩
  | applyReplicatedTx txid es r =>
    obtain ⟨-, u, hu, rfl⟩ := during_some h
    obtain ⟨hc, ls, hw⟩ := applyReplicatedTx_spec hu
    exact ⟨ls, replicated_appended (applyReplicatedTx_decides hu) hc hw r.late⟩
  | _ => cases hr

def CollectionOp.isStill : CollectionOp → Bool
  | .tick .. | .decideElsewhere .. | .ensureIndex .. | .dropIndex .. => true
  | _ => false

theorem step_still {op : CollectionOp} (hq : op.isStill = true) (h : s.step cfg op = some t) :
    Appended s [] [] t := by
  cases op with
  | decideElsewhere txid v =>
    obtain ⟨hnew, rfl⟩ := Runs.guarded h
    exact ⟨.nil, rfl, by simp, rfl, rfl, by simp, Or.inr ⟨txid, v, hnew, rfl⟩, le_refl _⟩
  | tick | ensureIndex | dropIndex =>
    obtain ⟨n, xs, now, hn, -, rfl⟩ := step_frame rfl h
    exact ⟨.nil, rfl, by simp, rfl, rfl, by simp, Or.inl rfl, hn⟩
  | _ => cases hq

def CollectionOp.isUpkeep : CollectionOp → Bool
  | .reserveID | .rotate | .reopen .. => true
  | _ => false

theorem CollectionOp.kinds (op : CollectionOp) : op.isUpkeep = true ∨ op.isLocalWrite = true ∨
    op.isReplicated = true ∨ op.isStill = true ∨ ∃ k at_, op = .compact k at_ := by
  cases op <;> simp [isUpkeep, isLocalWrite, isReplicated, isStill]

def CollectionOp.relays : CollectionOp → Bool
  | .rotate | .compact .. | .reopen .. => true
  | _ => false

theorem step_appended {op : CollectionOp} (hop : op.relays = false) (h : s.step cfg op = some t) :
    ∃ ls chs, Appended s ls chs t := by
  rcases op.kinds with hk | hk | hk | hk | ⟨k, at_, rfl⟩
  · cases op with
    | reserveID =>
      cases h
      exact ⟨[], [], .nil, rfl, by simp, rfl, rfl, by simp, Or.inl rfl, Nat.le_succ _⟩
    | rotate | reopen => cases hop
    | _ => cases hk
  · obtain ⟨ls, chs, hw⟩ := step_locally hk h
    exact ⟨ls, chs, hw.toAppended⟩
  · obtain ⟨ls, ha, -⟩ := step_replicated hk h
    exact ⟨ls, _, ha⟩
  · exact ⟨[], [], step_still hk h⟩
  · cases hop

end

end Scriva
