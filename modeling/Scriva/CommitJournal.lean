import Scriva.CommitTable

namespace Scriva.CommitKeys

open Decisions Durable List Option Function

/-- What the file may be read as: the records of the table and at most one more, whose key is free
if it is a COMMIT. -/
def Fits (rs v : List Decisions.Record) : Prop :=
  v = rs ∨ ∃ r, v = rs ++ [r] ∧ Decides r ∧ (r.k = kindCommit → r.key ≠ [] → KeyFree rs r.key)

structure XTxJournal.Sound (j : XTxJournal) : Prop where
  versions : ∀ v ∈ j.file.versions, Fits j.records v
  decides : ∀ r ∈ j.records, Decides r
  once : KeyOnce j.records
  table : newXTxTable.fold j.records = .ok j.table

def XTxJournal.Level (j : XTxJournal) : Prop :=
  j.poisoned = false → j.file.current = j.records

structure XTxJournal.Admits (j : XTxJournal) (r : Decisions.Record) : Prop where
  decides : Decides r
  unbound : r.rl = 0
  undecided : j.table.byTx r.tx = none
  free : r.k = kindCommit → r.key ≠ [] → KeyFree j.records r.key

structure Appended (j j' : XTxJournal) (r : Decisions.Record) (w : Written) : Prop where
  records : j'.records = if w = .installed then j.records ++ [r] else j.records
  byTx : ∀ tx, tx ≠ r.tx → j'.table.byTx tx = j.table.byTx tx
  table : w ≠ .installed → j'.table = j.table
  issued : j'.issued = j.issued
  fits : w ≠ .conflict

section Append

variable {j j' : XTxJournal} {r : Decisions.Record} {f : Faults} {w : Written}

theorem appendLine_sound (hj : j.Sound) (hcur : j.file.current = j.records) (hr : j.Admits r) :
    (j.appendLine r f).1.Sound ∧
    (∃ file poisoned, (j.appendLine r f).1 = { j with file := file, poisoned := poisoned }) ∧
    ((j.appendLine r f).2 = true → (j.appendLine r f).1.file.current = j.records ++ [r]) ∧
    ((j.appendLine r f).2 = false → (j.appendLine r f).1.Level) := by
  have hmore : Fits j.records (j.records ++ [r]) := Or.inr ⟨r, rfl, hr.decides, hr.free⟩
  have hfile : ∀ v ∈ (if f.write = .failed then j.file else j.file.append r).versions,
      Fits j.records v := by
    intro v hv
    split_ifs at hv with hf
    · exact hj.versions v hv
    · rcases File.mem_append.mp hv with rfl | hv
      · rw [hcur]
        exact hmore
      · exact hj.versions v hv
  have hcut : (if f.write = .failed then j.file else j.file.append r).current.take
      j.file.current.length = j.records := by
    split_ifs with hf
    · rw [take_length, hcur]
    · rw [hcur]
      show (j.file.current ++ [r]).take _ = _
      rw [hcur, take_left]
  unfold XTxJournal.appendLine
  by_cases hok : f.write = .ok
  · simp only [hok, if_true]
    rw [hok] at hfile
    refine ⟨⟨hfile, hj.decides, hj.once, hj.table⟩, ⟨_, _, rfl⟩, fun _ => ?_, nofun⟩
    show j.file.current ++ [r] = _
    rw [hcur]
  · simp only [hok, if_false]
    refine ⟨⟨?_, hj.decides, hj.once, hj.table⟩, ⟨_, _, rfl⟩, nofun, ?_⟩
    · intro v hv
      by_cases ht : f.truncate = .failed
      · rw [if_pos ht] at hv
        exact hfile v hv
      · rw [if_neg ht] at hv
        rcases File.mem_truncate.mp hv with rfl | hv
        · rw [hcut]
          exact Or.inl rfl
        · exact hfile v hv
    · intro _ hpo
      have ht : f.truncate = .ok := by simpa using hpo
      dsimp only
      rw [ht, if_neg (by decide)]
      exact hcut

theorem appendDecision_spec (hj : j.Sound) (hcur : j.file.current = j.records) (hr : j.Admits r)
    (h : j.appendDecision r f = (j', w)) : j'.Sound ∧ j'.Level ∧ Appended j j' r w := by
  obtain ⟨hsound, ⟨file, poisoned, hline⟩, happ, hlevel⟩ := appendLine_sound (f := f) hj hcur hr
  have hmore : Fits j.records (j.records ++ [r]) := Or.inr ⟨r, rfl, hr.decides, hr.free⟩
  unfold XTxJournal.appendDecision at h
  cases hb : (j.appendLine r f).2 with
  | false =>
    simp only [hb, Bool.not_false, if_true] at h
    cases h
    refine ⟨hsound, hlevel hb, ?_⟩
    rw [hline]
    exact ⟨rfl, fun _ _ => rfl, fun _ => rfl, rfl, by decide⟩
  | true =>
    have hcurrent := happ hb
    simp only [hb, Bool.not_true, Bool.false_eq_true, if_false] at h
    rw [hline] at h hsound hcurrent
    unfold XTxJournal.syncLocked at h
    by_cases hs : f.sync = .ok
    · have hbound : r.bound = false := by
        simp [Decisions.Record.bound, hr.unbound]
      obtain ⟨t, ht⟩ := apply_first hr.undecided fun hb => absurd hb (by simp [hbound])
      simp only [hs, decide_true, Bool.not_true, Bool.false_eq_true, if_false, reduceCtorEq,
        XTxJournal.installLocked, ht] at h
      cases h
      refine ⟨⟨?_, ?_, hj.once.concat hr.free, fold_concat hj.table ht⟩, fun _ => hcurrent,
        rfl, ?_, fun h => absurd rfl h, rfl, by decide⟩
      · intro v hv
        obtain rfl := File.mem_sync.mp hv
        exact Or.inl hcurrent
      · intro x hx
        rcases Runs.mem_concat hx with hx | rfl
        · exact hj.decides x hx
        · exact hr.decides
      · intro tx hne
        obtain ⟨d, hbyTx, -, -⟩ := apply_byTx ht
        show t.byTx tx = _
        rw [hbyTx, update_of_ne hne]
    · simp only [hs, decide_false, Bool.not_false, if_true, ne_eq, not_false_eq_true,
        decide_true] at h
      cases h
      refine ⟨⟨?_, hj.decides, hj.once, hj.table⟩, (fun hp => by cases hp),
        rfl, fun _ _ => rfl, fun _ => rfl, rfl, by decide⟩
      intro v hv
      dsimp only at hv
      split_ifs at hv with hf
      · exact hsound.versions v hv
      · obtain rfl := File.mem_sync.mp hv
        rw [hcurrent]
        exact hmore

theorem statusByKey_spec (hj : j.Sound) (hne : key ≠ []) :
    ((j.statusByKey key).1 = .committed → (key, (j.statusByKey key).2) ∈ commitsOf j.records) ∧
    ((j.statusByKey key).1 ≠ .committed → KeyFree j.records key) := by
  have hidx : Indexes j.records j.table := Indexes.fold hj.decides hj.once hj.table
  have hfree : (∀ tx, j.table.byKey key = some tx → ∀ d, j.table.byTx tx = some d →
      d.outcome ≠ kindCommit) → KeyFree j.records key := by
    intro hno r hr hk hkey
    obtain ⟨d, hd, hdk, hdo⟩ := hidx.entered r hr
    have hkeyed := hidx.keyed r.tx d hd (hdo.trans hk) (by rw [hdk, hkey]; exact hne)
    rw [hdk, hkey] at hkeyed
    exact hno r.tx hkeyed d hd (hdo.trans hk)
  unfold XTxJournal.statusByKey
  rw [if_neg hne]
  cases hkey : j.table.byKey key with
  | some tx =>
    obtain ⟨d, hd, hdk⟩ := hidx.known key tx hkey
    simp only [hd, elim_some]
    unfold statusOf
    by_cases hcommit : d.outcome = kindCommit
    · rw [if_pos hcommit]
      refine ⟨fun _ => ?_, fun h => absurd rfl h⟩
      obtain ⟨r, hr, hrtx, hrkey, hrk⟩ := hidx.decided tx d hd
      exact mem_commitsOf.mpr ⟨r, hr, hrk.trans hcommit, hrkey.trans hdk, hrtx⟩
    · rw [if_neg hcommit]
      refine ⟨nofun, fun _ => hfree fun tx' htx' d' hd' => ?_⟩
      cases hkey.symm.trans htx'
      cases hd.symm.trans hd'
      exact hcommit
  | none =>
    refine ⟨fun h => ?_, fun _ => hfree fun tx htx => ?_⟩
    · dsimp only at h
      cases hf : j.pending.find? fun p => p.2 = key with
      | none | some p => rw [hf] at h; cases h
    · cases hkey.symm.trans htx

end Append

end Scriva.CommitKeys
