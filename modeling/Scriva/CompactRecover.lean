import Scriva.CompactSwap

namespace Scriva

open List Option

variable {c : Encoding} {enc : Option Encryptor} {maxSize : Nat} {d : Decisions}
  {s t : CompactState}

theorem Removing.swapped {toCompact : List Nat} {temps : List TempSegment} {m : Nat}
    (h : Removing s toCompact temps [] m) (phase : Phase) :
    Swapped { s with sealed := toCompact.take temps.length ++ s.sealed.drop toCompact.length,
                     phase := phase } := by
  refine ⟨?_, _, h.manifest, h.renamed, fun n hn => ?_⟩
  · show toCompact.take temps.length ++ s.sealed.drop toCompact.length = _
    rw [h.sealed, drop_left, numsBelow_split _ h.le_top, h.left, append_nil]
  · rw [manifestOf_removals h.nodup] at hn
    exact h.gone n hn not_mem_nil

/-- A manifest that passes the recovery's check has been carried out. -/
theorem Manifest.done_of_isDone {m : Manifest} {dir : Dir} (h : m.isDone dir = true) :
    m.Done dir := by
  simp only [Manifest.isDone, Manifest.renamesDone, Bool.and_eq_true, List.all_eq_true,
    isNone_iff_eq_none] at h
  exact ⟨h.1, h.2⟩

theorem Manifest.Done.discard {m : Manifest} {dir : Dir} (h : m.Done dir) (kept : List TempName) :
    m.Done (dir.discardCompactTemps kept) := by
  refine ⟨fun r hr => ?_, h.removed⟩
  show (if r.1 ∈ kept then dir.temps r.1 else none) = none
  rw [h.renamed r hr, ite_self]

section Steps

variable (h : CompactInv c enc maxSize d s)
include h

theorem installStep_inv (hs : installStep s = some t) :
    CompactInv c enc maxSize d t := by
  unfold installStep at hs
  split at hs
  · next toCompact temps hph =>
    obtain ⟨hd, m, hr⟩ := h.when hph
    cases hs
    exact ⟨⟨hd.topSeg, hd.above, hd.seq, hd.wf, hd.stands⟩, hr.swapped _⟩
  · cases hs

theorem rebuildStep_inv {ok : Bool}
    (hs : rebuildStep s ok = some t) : CompactInv c enc maxSize d t := by
  unfold rebuildStep at hs
  split at hs
  · next hph =>
    obtain ⟨hd, hp⟩ := h.when hph
    cases ok with
    | true => cases hs; exact ⟨hd.phase _ _, hp⟩
    | false => cases hs; exact ⟨hd.phase _ _, Or.inl rfl⟩
  · cases hs

theorem persistIndexStep_inv {ok : Bool}
    (hs : persistIndexStep s ok = some t) : CompactInv c enc maxSize d t := by
  unfold persistIndexStep at hs
  split at hs
  · next hph =>
    obtain ⟨hd, hp⟩ := h.when hph
    cases ok with
    | true => cases hs; exact ⟨hd.phase _ _, hp⟩
    | false => cases hs; exact ⟨hd.phase _ _, Or.inr hp.1⟩
  · cases hs

theorem persistSecondaryStep_inv {ok : Bool}
    (hs : persistSecondaryStep s ok = some t) : CompactInv c enc maxSize d t := by
  unfold persistSecondaryStep at hs
  split at hs
  · next hph =>
    obtain ⟨hd, hp⟩ := h.when hph
    cases ok with
    | true => cases hs; exact ⟨hd.phase _ _, hp⟩
    | false => cases hs; exact ⟨hd.phase _ _, Or.inr hp.1⟩
  · cases hs

/-- An open does what a rename left undone. -/
theorem rollRenameStep_inv {f : TempName}
    (hs : rollRenameStep s f = some t) : CompactInv c enc maxSize d t := by
  have hd := h.dir
  unfold rollRenameStep at hs
  split at hs
  · next m hph hm =>
    obtain ⟨r, hr, rfl⟩ := map_eq_some_iff.mp hs
    exact .of (hd.rename hm (mem_of_find?_eq_some hr) _) hph trivial
  · cases hs

theorem rollRemoveStep_inv {n : Nat}
    (hs : rollRemoveStep s n = some t) : CompactInv c enc maxSize d t := by
  have hd := h.dir
  unfold rollRemoveStep at hs
  split at hs
  · next m hph hm =>
    obtain ⟨hcond, rfl⟩ := Runs.guarded hs
    have hmem : n ∈ m.removals := of_decide_eq_true (Bool.and_eq_true_iff.mp hcond).2
    exact .of (hd.remove hm hmem _) hph trivial
  · cases hs

theorem rollDiscardStep_inv {kept : List TempName}
    (hs : rollDiscardStep s kept = some t) : CompactInv c enc maxSize d t := by
  have hd := h.dir
  unfold rollDiscardStep at hs
  split at hs
  · next hph hm =>
    cases hs
    exact .of (hd.temps hm _ _) hph trivial
  · next m hph hm =>
    obtain ⟨hcond, rfl⟩ := Runs.guarded hs
    have hdone := Manifest.done_of_isDone hcond
    refine .of (hd.below (s.dir.discardCompactTemps kept) rfl rfl (fun _ _ => rfl) ?_ _) hph trivial
    rw [rolled_some hm, hdone.rolledAt,
      rolled_some (show (s.dir.discardCompactTemps kept).manifest = some m from hm),
      (hdone.discard kept).rolledAt]
    rfl
  · cases hs

/-- The manifest is cleared when it is rolled forward. -/
theorem rollClearStep_inv (hs : rollClearStep s = some t) :
    CompactInv c enc maxSize d t := by
  have hd := h.dir
  unfold rollClearStep at hs
  split at hs
  · next m hph hm =>
    obtain ⟨hcond, rfl⟩ := Runs.guarded hs
    have hstands := hd.stands
    rw [rolled_some hm, (Manifest.done_of_isDone hcond).rolledAt] at hstands
    exact .of (hd.cleared hstands _ s.swapFailed) hph trivial
  · cases hs

/-- An open finds the records of before. -/
theorem reopenStep_inv (hs : reopenStep s = some t) :
    CompactInv c enc maxSize d t := by
  have hd := h.dir
  unfold reopenStep at hs
  split at hs
  · cases hs
    exact ⟨⟨hd.topSeg, hd.above, le_refl _, hd.wf, hd.stands⟩, Or.inr rfl⟩
  · cases hs

end Steps

end Scriva
