import Scriva.CompactSteps

namespace Scriva

open List Function

variable {c : Encoding} {enc : Option Encryptor} {maxSize : Nat} {d : Decisions}
  {s t : CompactState}

variable {dir : Dir} {m : Manifest} {ok : Bool} {f : TempName} {n : Nat}

/-- Without a manifest the files are as the collection says. -/
theorem DirInv.layoutStands (h : DirInv enc d s) (hm : s.dir.manifest = none) :
    LayoutStands enc d s := by
  have hstands := h.stands
  rw [rolled_none hm] at hstands
  exact hstands

theorem DirInv.cleared (h : DirInv enc d s) (hl : LayoutStands enc d s) (phase : Phase)
    (failed : Bool) :
    DirInv enc d { s with dir := { s.dir with manifest := none }, phase := phase,
                          swapFailed := failed } := by
  refine ⟨h.topSeg, h.above, h.seq, fun m hm => (nomatch hm), ?_⟩
  rw [rolled_none rfl]
  exact hl

/-- Writing the manifest settles what the swap will leave. -/
theorem DirInv.manifest (h : DirInv enc d s) (hq : s.dir.manifest = none) {m : Nat}
    {toCompact : List Nat} {temps : List TempSegment} {entries : List LogLine}
    (ht : HasTemps s temps) (hr : ResolvedFrom enc d s m toCompact entries)
    (hlines : tempLines temps = entries) (hprep : Prepared s.dir m toCompact temps)
    (phase : Phase) :
    DirInv enc d { s with dir := { s.dir with manifest := some (manifestOf toCompact temps) },
                          phase := phase } := by
  refine ⟨h.topSeg, h.above, h.seq, fun k hk => ?_, ?_⟩
  · cases hk
    exact hprep.wf
  · obtain ⟨hm, -, i, hi, hentries⟩ := hr
    have hle : m ≤ s.dir.top + 1 := by omega
    have hstands := h.stands
    rw [rolled_none hq, logBelow_split _ hle] at hstands
    show Stands enc d s.now s.written
      (logBelow (rolledAt (manifestOf toCompact temps) s.dir) (s.dir.top + 1))
    rw [logBelow_split _ hle, hprep.rolled_log ht, hlines, hentries,
      logBetween_congr fun k hk _ => hprep.rolled_above hk s.dir]
    exact hstands.compact hi

/-- A swap that is through leaves the layout of its manifest. -/
theorem Swapped.layoutStands (h : Swapped s) (hd : DirInv enc d s) : LayoutStands enc d s := by
  obtain ⟨-, m, hm, hdone⟩ := h
  have hstands := hd.stands
  rw [rolled_some hm, hdone.rolledAt] at hstands
  exact hstands

theorem rename_top (dir : Dir) (f : TempName) (n : Nat) :
    (dir.rename f n).top = dir.top ∧ (dir.rename f n).manifest = dir.manifest := by
  unfold Dir.rename
  cases dir.temps f <;> exact ⟨rfl, rfl⟩

theorem rename_segs {k : Nat} (h : k ≠ n) : (dir.rename f n).segs k = dir.segs k := by
  unfold Dir.rename
  cases dir.temps f with
  | none => rfl
  | some ls => exact update_of_ne h _ _

/-- A rename of the manifest changes nothing of what it rolls forward to. -/
theorem DirInv.rename (h : DirInv enc d s) (hm : s.dir.manifest = some m) (hr : (f, n) ∈ m.renames)
    (phase : Phase) : DirInv enc d { s with dir := s.dir.rename f n, phase := phase } := by
  have hlt : n < s.dir.top := (h.wf m hm).final_lt _ hr
  obtain ⟨htop, hman⟩ := rename_top s.dir f n
  refine h.below _ htop hman (fun k hk => rename_segs (by omega)) ?_ phase
  rw [rolled_some hm, rolled_some (hman.trans hm)]
  exact rolledAt_rename (h.wf m hm) s.dir hr

theorem DirInv.remove (h : DirInv enc d s) (hm : s.dir.manifest = some m) (hn : n ∈ m.removals)
    (phase : Phase) : DirInv enc d { s with dir := s.dir.remove n, phase := phase } := by
  have hlt := (h.wf m hm).removal_lt n hn
  refine h.below (s.dir.remove n) rfl rfl (fun k hk => update_of_ne (by omega) _ _) ?_ phase
  rw [rolled_some hm, rolled_some (show (s.dir.remove n).manifest = some m from hm)]
  exact rolledAt_remove hn

theorem rename_mem {toCompact : List Nat} {temps : List TempSegment} {i : Nat} {f : TempSegment}
    (hf : temps[i]? = some f) (hn : toCompact[i]? = some n) :
    (f.name, n) ∈ (manifestOf toCompact temps).renames := by
  have hzip : (temps.zip toCompact)[i]? = some (f, n) := List.getElem?_zip_eq_some.mpr ⟨hf, hn⟩
  exact mem_map.mpr ⟨(f, n), mem_of_getElem? hzip, rfl⟩

theorem numsBelow_rename (hn : (dir.segs n).isSome = true) (m : Nat) :
    numsBelow (dir.rename f n).segs m = numsBelow dir.segs m := by
  unfold Dir.rename
  cases dir.temps f with
  | none => rfl
  | some ls =>
    refine numsBelow_congr fun k _ => ?_
    by_cases hk : k = n
    · subst hk; simp [hn]
    · simp [update_of_ne hk]

theorem rename_temps (n : Nat) (g : TempName) (h : g = f ∨ dir.temps g = none) :
    (dir.rename f n).temps g = none := by
  unfold Dir.rename
  cases hf : dir.temps f with
  | none =>
    rcases h with rfl | h
    · exact hf
    · exact h
  | some ls =>
    by_cases hg : g = f
    · simp [hg]
    · simp [update_of_ne hg, h.resolve_left hg]

/-- A removal takes one number away. -/
theorem numsBelow_remove (dir : Dir) (n m : Nat) :
    numsBelow (dir.remove n).segs m = (numsBelow dir.segs m).filter (· ≠ n) := by
  unfold numsBelow
  rw [filter_filter]
  refine filter_congr fun k _ => ?_
  by_cases hk : k = n
  · simp [Dir.remove, hk]
  · simp [Dir.remove, hk]

section Steps

variable (h : CompactInv c enc maxSize d s)
include h

theorem writeManifestStep_inv {placed : Bool}
    (hs : writeManifestStep s ok placed = some t) : CompactInv c enc maxSize d t := by
  unfold writeManifestStep at hs
  split at hs
  · next toCompact temps hph =>
    obtain ⟨hd, hp⟩ := h.when hph
    obtain ⟨hq, ht, m, entries, hr, hlines, hprep⟩ := hp
    have hlayout := hd.layoutStands hq.1
    cases ok with
    | true =>
      cases hs
      exact ⟨hd.manifest hq.1 ht hr hlines hprep _, rfl, hq.2, hlayout, m, hprep.1, hprep.2,
        hprep.3, hprep.4⟩
    | false =>
      cases placed with
      | true =>
        cases hs
        exact ⟨hd.manifest hq.1 ht hr hlines hprep _, hq.2, hlayout⟩
      | false =>
        cases hs
        exact ⟨hd.phase _ _, hq.2, hlayout⟩
  · cases hs

/-- The manifest goes only when its work is done. -/
theorem clearStep_inv {gone : Bool}
    (hs : clearStep s ok gone = some t) : CompactInv c enc maxSize d t := by
  unfold clearStep at hs
  split at hs
  · next marks hph =>
    obtain ⟨hd, hp⟩ := h.when hph
    obtain ⟨hsealed, hlayout⟩ := hp
    cases ok with
    | true =>
      cases hs
      exact ⟨hd.cleared hlayout _ _, rfl, hsealed⟩
    | false =>
      cases gone with
      | true =>
        cases hs
        exact ⟨hd.cleared hlayout _ _, Or.inr hsealed⟩
      | false =>
        cases hs
        exact ⟨hd.phase _ _, Or.inr hsealed⟩
  · next hph =>
    obtain ⟨hd, hp⟩ := h.when hph
    have hlayout := hp.layoutStands hd
    cases ok with
    | true =>
      cases hs
      exact ⟨hd.cleared hlayout _ _, Or.inr hp.1⟩
    | false =>
      cases gone with
      | true =>
        cases hs
        exact ⟨hd.cleared hlayout _ _, Or.inr hp.1⟩
      | false =>
        cases hs
        exact ⟨hd.phase _ _, Or.inr hp.1⟩
  · cases hs

theorem cleanupStep_inv {kept : List TempName}
    (hs : cleanupStep s kept = some t) : CompactInv c enc maxSize d t := by
  unfold cleanupStep at hs
  split at hs
  · next hph =>
    obtain ⟨hd, hp⟩ := h.when hph
    cases hs
    exact ⟨hd.temps hp.1 _ _, Or.inr hp.2⟩
  · cases hs

theorem lockStep_inv (hs : lockStep s = some t) :
    CompactInv c enc maxSize d t := by
  unfold lockStep at hs
  split at hs
  · next toCompact temps hph =>
    obtain ⟨hd, hp⟩ := h.when hph
    cases hs
    obtain ⟨hm, hsealed, hlayout, hprep⟩ := hp
    exact ⟨hd.phase _ _, hm, hsealed, fun _ => hlayout, hprep, by simp⟩
  · cases hs

theorem renameStep_inv (hs : renameStep s ok = some t) :
    CompactInv c enc maxSize d t := by
  unfold renameStep at hs
  split at hs
  · next toCompact temps i hph =>
    obtain ⟨hd, hp⟩ := h.when hph
    obtain ⟨hm, hsealed, hlayout, ⟨m, hprep⟩, htemps⟩ := hp
    cases hf : temps[i]? with
    | none => simp [hf] at hs
    | some f =>
      cases hn : toCompact[i]? with
      | none => simp [hf, hn] at hs
      | some n =>
        simp only [hf, hn] at hs
        cases ok with
        | true =>
          simp only [if_true, Option.ite_none_right_eq_some] at hs
          obtain ⟨-, hs⟩ := hs
          cases hs
          have hr := rename_mem hf hn
          have hseg := (hprep.lt (mem_of_getElem? hn)).2
          obtain ⟨htop, hman⟩ := rename_top s.dir f.name n
          refine ⟨hd.rename hm hr _, hman.trans hm, ?_, fun hi => (nomatch hi), ⟨m, ?_⟩, ?_⟩
          · show s.sealed = numsBelow _ (s.dir.rename f.name n).top
            rw [htop, numsBelow_rename hseg]
            exact hsealed
          · exact ⟨by rw [htop]; exact hprep.le_top, by rw [numsBelow_rename hseg]; exact hprep.nums,
              hprep.length, hprep.names⟩
          · intro g hg
            rw [take_add_one, hf, mem_append] at hg
            refine rename_temps n g.name (hg.symm.imp (fun hg => ?_) (htemps g))
            simp only [Option.toList_some, mem_singleton] at hg
            rw [hg]
        | false =>
          simp only [Bool.false_eq_true, if_false] at hs
          split at hs
          · next hi =>
            cases hs
            exact ⟨hd.phase _ _, hsealed, hlayout hi⟩
          · cases hs
            exact ⟨hd.phase _ _, Or.inl rfl⟩
  · cases hs

theorem syncDirStep_inv (hs : syncDirStep s ok = some t) :
    CompactInv c enc maxSize d t := by
  unfold syncDirStep at hs
  split at hs
  · next toCompact temps i hph =>
    obtain ⟨hd, hp⟩ := h.when hph
    obtain ⟨hm, hsealed, -, ⟨m, hprep⟩, htemps⟩ := hp
    obtain ⟨hi, hs⟩ := Option.ite_none_right_eq_some.mp hs
    cases ok with
    | true =>
      cases hs
      have hrem := manifestOf_removals hprep.nodup temps
      refine ⟨hd.phase _ _, m, hm, fun r hr => ?_, hprep.le_top, hprep.nodup, ?_, ?_, ?_, ?_⟩
      · obtain ⟨p, hp, rfl⟩ := mem_map.mp hr
        refine htemps p.1 ?_
        rw [hi, take_length]
        exact (of_mem_zip hp).1
      · show s.sealed = _
        rw [hsealed, numsBelow_split _ hprep.le_top, ← hprep.nums]
      · rw [hrem, take_append_drop, ← hprep.nums]
      · intro n hn hnot
        rw [hrem] at hnot
        exact absurd hn hnot
      · intro n hn
        rw [hrem] at hn
        exact ⟨(hprep.lt (mem_of_mem_drop hn)).1, hn⟩
    | false =>
      cases hs
      exact ⟨hd.phase _ _, Or.inl rfl⟩
  · cases hs

theorem removeStep_inv
    (hs : removeStep s true = some t) : CompactInv c enc maxSize d t := by
  unfold removeStep at hs
  split at hs
  · next toCompact temps n todo hph =>
    obtain ⟨hd, m, hr⟩ := h.when hph
    cases hs
    obtain ⟨hnm, hndrop⟩ := hr.todo_lt n (by simp)
    have hnodup : (toCompact.take temps.length ++ n :: todo).Nodup := by
      rw [← hr.left]
      exact numsBelow_nodup _ _
    refine ⟨hd.remove hr.manifest ?_ _, m, hr.manifest, hr.renamed, hr.le_top, hr.nodup, ?_, ?_,
      ?_, fun k hk => hr.todo_lt k (by simp [hk])⟩
    · rw [manifestOf_removals hr.nodup]
      exact hndrop
    · show s.sealed = _
      rw [hr.sealed]
      congr 1
      refine filter_congr fun k hk => ?_
      rw [mem_range'_1] at hk
      simp [Dir.remove, update_of_ne (show k ≠ n by omega)]
    · have hnot := nodup_middle.mp hnodup
      rw [nodup_cons] at hnot
      have hself : (toCompact.take temps.length ++ todo).filter (· ≠ n) =
          toCompact.take temps.length ++ todo :=
        filter_eq_self.mpr fun k hk => by
          simpa using fun (heq : k = n) => hnot.1 (heq ▸ hk)
      show numsBelow (s.dir.remove n).segs m = _
      rw [numsBelow_remove, hr.left, filter_append, filter_cons_of_neg (by simp),
        ← filter_append, hself]
    · intro k hk hnot
      by_cases hkn : k = n
      · subst hkn; simp [Dir.remove]
      · refine (update_of_ne hkn _ _).trans (hr.gone k hk ?_)
        simp [hkn, hnot]
  · cases hs

end Steps

end Scriva
