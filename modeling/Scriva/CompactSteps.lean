import Scriva.CompactInvariant
import Scriva.Lib.Runs

namespace Scriva

open Option Function

section Invariant

variable (c : Encoding) (enc : Option Encryptor) (maxSize : Nat) (d : Decisions)

structure DirInv (s : CompactState) : Prop where
  topSeg : (s.dir.segs s.dir.top).isSome = true
  above : ∀ n, s.dir.top < n → s.dir.segs n = none
  seq : s.dir.top ≤ s.segSeq
  wf : ∀ m, s.dir.manifest = some m → m.WF s.dir.top
  stands : Stands enc d s.now s.written (logBelow s.dir.rolled (s.dir.top + 1))

def SealedOk (s : CompactState) : Prop :=
  s.sealed = numsBelow s.dir.segs s.dir.top

def LayoutStands (s : CompactState) : Prop :=
  Stands enc d s.now s.written s.dir.log

def ResolvedFrom (s : CompactState) (m : Nat) (toCompact : List Nat) (entries : List LogLine) :
    Prop :=
  m ≤ s.dir.top ∧ toCompact = numsBelow s.dir.segs m ∧
    ∃ t ≤ s.now, entries = (resolveLines (logBelow s.dir.segs m) d t).map (migrate enc)

def Quiet (s : CompactState) : Prop :=
  s.dir.manifest = none ∧ SealedOk s

def HasTemps (s : CompactState) (temps : List TempSegment) : Prop :=
  ∀ t ∈ temps, s.dir.temps t.name = some t.lines

def Swapped (s : CompactState) : Prop :=
  SealedOk s ∧ ∃ m, s.dir.manifest = some m ∧ m.Done s.dir

structure Removing (s : CompactState) (toCompact : List Nat) (temps : List TempSegment)
    (todo : List Nat) (m : Nat) : Prop where
  manifest : s.dir.manifest = some (manifestOf toCompact temps)
  renamed : ∀ r ∈ (manifestOf toCompact temps).renames, s.dir.temps r.1 = none
  le_top : m ≤ s.dir.top
  nodup : toCompact.Nodup
  sealed : s.sealed = toCompact ++
    (List.range' m (s.dir.top - m)).filter fun k => (s.dir.segs k).isSome
  left : numsBelow s.dir.segs m = toCompact.take temps.length ++ todo
  gone : ∀ n ∈ toCompact.drop temps.length, n ∉ todo → s.dir.segs n = none
  todo_lt : ∀ n ∈ todo, n < m ∧ n ∈ toCompact.drop temps.length

def PhaseInv (s : CompactState) : Phase → Prop
  | .down => True
  | .idle => s.swapFailed = true ∨ SealedOk s
  | .started toCompact => Quiet s ∧ ∃ m ≤ s.dir.top, toCompact = numsBelow s.dir.segs m
  | .resolved toCompact entries => Quiet s ∧ ∃ m, ResolvedFrom enc d s m toCompact entries
  | .writing toCompact entries => Quiet s ∧ ∃ m, ResolvedFrom enc d s m toCompact entries
  | .written toCompact temps => Quiet s ∧ HasTemps s temps ∧ ∃ m entries,
      ResolvedFrom enc d s m toCompact entries ∧
        temps = packed c maxSize toCompact.length entries
  | .leased toCompact temps => Quiet s ∧ HasTemps s temps ∧ ∃ m entries,
      ResolvedFrom enc d s m toCompact entries ∧ tempLines temps = entries ∧
        Prepared s.dir m toCompact temps
  | .intent toCompact temps => s.dir.manifest = some (manifestOf toCompact temps) ∧ SealedOk s ∧
      LayoutStands enc d s ∧ ∃ m, Prepared s.dir m toCompact temps
  | .retiring _ => SealedOk s ∧ LayoutStands enc d s
  | .cleaning => Quiet s
  | .swapping toCompact temps i => s.dir.manifest = some (manifestOf toCompact temps) ∧
      SealedOk s ∧ (i = 0 → LayoutStands enc d s) ∧ (∃ m, Prepared s.dir m toCompact temps) ∧
      ∀ t ∈ temps.take i, s.dir.temps t.name = none
  | .removing toCompact temps todo => ∃ m, Removing s toCompact temps todo m
  | .installed => Swapped s
  | .persisting => Swapped s
  | .persistingSecondary => Swapped s
  | .clearing => Swapped s

structure CompactInv (s : CompactState) : Prop where
  dir : DirInv enc d s
  phase : PhaseInv c enc maxSize d s s.phase

end Invariant

variable {c : Encoding} {enc : Option Encryptor} {maxSize : Nat} {d : Decisions}
  {s t : CompactState} {p : Phase}

theorem CompactInv.when (h : CompactInv c enc maxSize d s) (hph : s.phase = p) :
    DirInv enc d s ∧ PhaseInv c enc maxSize d s p :=
  ⟨h.dir, hph ▸ h.phase⟩

theorem CompactInv.of (hd : DirInv enc d t) (hph : t.phase = p) (hp : PhaseInv c enc maxSize d t p) :
    CompactInv c enc maxSize d t :=
  ⟨hd, hph ▸ hp⟩

section Growth

variable (hg : Grows s.dir t.dir)
include hg

theorem ResolvedFrom.grows {m : Nat} {toCompact : List Nat} {entries : List LogLine}
    (hnow : s.now ≤ t.now) (h : ResolvedFrom enc d s m toCompact entries) :
    ResolvedFrom enc d t m toCompact entries := by
  obtain ⟨hm, hnums, i, hi, hentries⟩ := h
  refine ⟨hm.trans hg.top, ?_, i, hi.trans hnow, ?_⟩
  · rw [hg.numsBelow hm, hnums]
  · rw [hg.logBelow hm, hentries]

theorem HasTemps.grows {temps : List TempSegment} (h : HasTemps s temps) : HasTemps t temps := by
  intro f hf
  rw [hg.temps]
  exact h f hf

theorem Quiet.grows (h : Quiet s) (hs : SealedOk t) : Quiet t :=
  ⟨hg.manifest.trans h.1, hs⟩

theorem Swapped.grows (hwf : ∀ m, s.dir.manifest = some m → m.WF s.dir.top) (h : Swapped s)
    (hs : SealedOk t) : Swapped t := by
  obtain ⟨-, m, hm, hdone⟩ := h
  exact ⟨hs, m, hg.manifest.trans hm, hg.done (hwf m hm) hdone⟩

theorem PhaseInv.grows (hwf : ∀ m, s.dir.manifest = some m → m.WF s.dir.top)
    (hnow : s.now ≤ t.now) (hfailed : t.swapFailed = s.swapFailed)
    (hunlocked : p.unlocked = true) (hsealed : SealedOk s → SealedOk t)
    (hlayout : LayoutStands enc d s → LayoutStands enc d t)
    (h : PhaseInv c enc maxSize d s p) : PhaseInv c enc maxSize d t p := by
  cases p with
  | down | swapping | removing | installed => cases hunlocked
  | idle => exact h.imp (hfailed.trans ·) hsealed
  | started toCompact =>
    obtain ⟨hq, m, hm, hnums⟩ := h
    exact ⟨hq.grows hg (hsealed hq.2), m, hm.trans hg.top, by rw [hg.numsBelow hm, hnums]⟩
  | resolved toCompact entries | writing toCompact entries =>
    obtain ⟨hq, m, hr⟩ := h
    exact ⟨hq.grows hg (hsealed hq.2), m, hr.grows hg hnow⟩
  | written toCompact temps =>
    obtain ⟨hq, ht, m, entries, hr, htemps⟩ := h
    exact ⟨hq.grows hg (hsealed hq.2), ht.grows hg, m, entries, hr.grows hg hnow, htemps⟩
  | leased toCompact temps =>
    obtain ⟨hq, ht, m, entries, hr, hlines, hprep⟩ := h
    exact ⟨hq.grows hg (hsealed hq.2), ht.grows hg, m, entries, hr.grows hg hnow, hlines,
      hg.prepared hprep⟩
  | intent toCompact temps =>
    obtain ⟨hm, hs, hl, m, hprep⟩ := h
    exact ⟨hg.manifest.trans hm, hsealed hs, hlayout hl, m, hg.prepared hprep⟩
  | retiring marks => exact ⟨hsealed h.1, hlayout h.2⟩
  | cleaning => exact h.grows hg (hsealed h.2)
  | persisting | persistingSecondary | clearing =>
    exact h.grows hg hwf (hsealed h.1)

end Growth

theorem rolled_none {dir : Dir} (h : dir.manifest = none) : dir.rolled = dir.segs := by
  unfold Dir.rolled
  rw [h]

theorem rolled_some {dir : Dir} {m : Manifest} (h : dir.manifest = some m) : dir.rolled = rolledAt m dir := by
  unfold Dir.rolled
  rw [h]

/-- A change of the directory below its top segment that recovery does not see. -/
theorem DirInv.below (h : DirInv enc d s) (dir : Dir) (htop : dir.top = s.dir.top)
    (hman : dir.manifest = s.dir.manifest) (hsegs : ∀ k, s.dir.top ≤ k → dir.segs k = s.dir.segs k)
    (hroll : dir.rolled = s.dir.rolled) (phase : Phase) :
    DirInv enc d { s with dir := dir, phase := phase } := by
  refine ⟨?_, fun n (hn : dir.top < n) => ?_, htop.trans_le h.seq,
    fun m (hm : dir.manifest = some m) => htop.symm ▸ h.wf m (hman.symm.trans hm), ?_⟩
  · show (dir.segs dir.top).isSome = true
    rw [htop, hsegs _ (le_refl _)]
    exact h.topSeg
  · rw [htop] at hn
    exact (hsegs n hn.le).trans (h.above n hn)
  · show Stands enc d s.now s.written (logBelow dir.rolled (dir.top + 1))
    rw [hroll, htop]
    exact h.stands

theorem DirInv.temps (h : DirInv enc d s) (hm : s.dir.manifest = none)
    (temps : TempName → Option (List Line)) (phase : Phase) :
    DirInv enc d { s with dir := { s.dir with temps := temps }, phase := phase } := by
  refine h.below { s.dir with temps := temps } rfl rfl (fun _ _ => rfl) ?_ phase
  rw [rolled_none hm]
  exact rolled_none hm

theorem DirInv.phase (h : DirInv enc d s) (phase : Phase) (failed : Bool) :
    DirInv enc d { s with phase := phase, swapFailed := failed } :=
  ⟨h.topSeg, h.above, h.seq, h.wf, h.stands⟩

theorem tempFiles_append {temps : List TempSegment} (h : (temps.map TempSegment.name).Nodup)
    (leftover : List TempSegment) {t : TempSegment} (ht : t ∈ temps) :
    tempFiles (temps ++ leftover) t.name = some t.lines := by
  unfold tempFiles
  rw [List.find?_append]
  cases hf : temps.find? (fun f => f.name == t.name) with
  | none =>
    have := List.find?_eq_none.mp hf t ht
    simp at this
  | some f =>
    have hname : f.name = t.name := by simpa using List.find?_some hf
    rw [List.inj_on_of_nodup_map h (List.mem_of_find?_eq_some hf) ht hname]
    rfl

section Steps

variable (h : CompactInv c enc maxSize d s)
include h

theorem appendStep_inv {l : LogLine}
    (hl : FitsLog enc d s.written l) (hs : appendStep c s l = some t) :
    CompactInv c enc maxSize d t := by
  obtain ⟨hd, hp⟩ := h
  obtain ⟨hunlocked, rfl⟩ := Runs.guarded hs
  have hg := grows_append s.dir (c.line l)
  refine ⟨⟨?_, fun n hn => ?_, hd.seq, hd.wf, ?_⟩, ?_⟩
  · simp [Dir.append]
  · exact (update_of_ne (by simp only [Dir.append] at hn; omega) _ _).trans (hd.above n hn)
  · have hlog := append_rolled_log hd.wf (c.line l)
    have hstands := hd.stands.append hl
    rw [← Encoding.line_toLogLine c l, ← hlog] at hstands
    exact hstands
  · refine hp.grows hg hd.wf (le_refl _) rfl hunlocked (fun hsealed => ?_) fun hlayout => ?_
    · exact hsealed.trans (hg.numsBelow (le_refl _)).symm
    · show Stands enc d s.now (s.written ++ [l])
        (logBelow (s.dir.append (c.line l)).segs (s.dir.top + 1))
      rw [append_log]
      exact Stands.append hlayout hl

theorem rotateStep_inv {ok : Bool}
    (hs : rotateStep s ok = some t) : CompactInv c enc maxSize d t := by
  obtain ⟨hd, hp⟩ := h
  obtain ⟨hunlocked, hs⟩ := ite_none_right_eq_some.mp hs
  cases ok with
  | false =>
    cases hs
    have hseq := hd.seq
    refine ⟨⟨hd.topSeg, hd.above, ?_, hd.wf, hd.stands⟩, ?_⟩
    · simp only
      omega
    · exact hp.grows (grows_refl s.dir) hd.wf (le_refl s.now) rfl hunlocked id id
  | true =>
    cases hs
    have hn : s.dir.top < s.segSeq + 1 := by
      have := hd.seq
      omega
    have hg := grows_rotate hn
    refine ⟨⟨?_, fun n hgt => ?_, le_refl _, fun m hm => (hd.wf m hm).grows hn.le, ?_⟩, ?_⟩
    · simp [Dir.rotate]
    · have hgt : s.segSeq + 1 < n := hgt
      exact (update_of_ne (by omega) _ _).trans (hd.above n (by omega))
    · show Stands enc d s.now s.written
        (logBelow (s.dir.rotate (s.segSeq + 1)).rolled (s.segSeq + 1 + 1))
      rw [rotate_rolled_log hd.wf hd.above hn]
      exact hd.stands
    · have hlow : ∀ k ≤ s.dir.top, (s.dir.rotate (s.segSeq + 1)).segs k = s.dir.segs k :=
        fun k hk => update_of_ne (by omega) _ _
      have hmid : ∀ k, s.dir.top < k → k < s.segSeq + 1 →
          (s.dir.rotate (s.segSeq + 1)).segs k = none := fun k hk hkn =>
        (update_of_ne (by omega) _ _).trans (hd.above k hk)
      refine hp.grows hg hd.wf (le_refl _) rfl hunlocked (fun hsealed => ?_) fun hlayout => ?_
      · show s.sealed ++ [s.dir.top] = numsBelow (s.dir.rotate (s.segSeq + 1)).segs (s.segSeq + 1)
        rw [numsBelow_extend hn fun k hk hkn => hmid k hk hkn, numsBelow_succ,
          hg.numsBelow (le_refl _), hlow _ (le_refl _), hd.topSeg, hsealed]
        rfl
      · show Stands enc d s.now s.written
          (logBelow (s.dir.rotate (s.segSeq + 1)).segs (s.segSeq + 1 + 1))
        rw [rotate_log hn hlow hmid (update_self _ _ _)]
        exact hlayout

theorem tickStep_inv {later : Int} (hle : s.now ≤ later) :
    CompactInv c enc maxSize d { s with now := later } := by
  obtain ⟨hd, hp⟩ := h
  refine ⟨⟨hd.topSeg, hd.above, hd.seq, hd.wf, hd.stands.later hle⟩, ?_⟩
  cases hu : s.phase.unlocked with
  | true =>
    exact hp.grows (grows_refl s.dir) hd.wf hle rfl hu id fun hlayout => Stands.later hlayout hle
  | false =>
    show PhaseInv c enc maxSize d _ s.phase
    cases hph : s.phase with
    | down => trivial
    | swapping toCompact temps i =>
      rw [hph] at hp
      obtain ⟨hm, hsealed, hlayout, hprep, htemps⟩ := hp
      exact ⟨hm, hsealed, fun hi => (hlayout hi).later hle, hprep, htemps⟩
    | removing toCompact temps todo =>
      rw [hph] at hp
      obtain ⟨m, hr⟩ := hp
      exact ⟨m, ⟨hr.manifest, hr.renamed, hr.le_top, hr.nodup, hr.sealed, hr.left, hr.gone,
        hr.todo_lt⟩⟩
    | installed =>
      rw [hph] at hp
      exact hp
    | _ => rw [hph] at hu; cases hu

theorem startStep_inv (hm : s.dir.manifest = none)
    (hs : startStep s = some t) : CompactInv c enc maxSize d t := by
  unfold startStep at hs
  split at hs
  · next hph =>
    obtain ⟨hd, hp⟩ := h.when hph
    obtain ⟨hok, rfl⟩ := Runs.barred hs
    simp only [Bool.or_eq_true, not_or] at hok
    have hsealed : SealedOk s := hp.resolve_left hok.1
    exact ⟨hd.phase _ _, ⟨hm, hsealed⟩, s.dir.top, le_refl _, hsealed⟩
  · cases hs

theorem resolveStage_inv {ok : Bool}
    (hs : resolveStage enc d s ok = some t) : CompactInv c enc maxSize d t := by
  unfold resolveStage at hs
  split at hs
  · next toCompact hph =>
    obtain ⟨hd, hp⟩ := h.when hph
    obtain ⟨hq, m, hm, hnums⟩ := hp
    have hidle : CompactInv c enc maxSize d { s with phase := .idle } :=
      ⟨hd.phase _ _, Or.inr hq.2⟩
    cases ok with
    | false =>
      cases hs
      exact hidle
    | true =>
      cases hr : reencryptForMigration enc (resolveCompactEntries (s.dir.read toCompact) d s.now) with
      | none =>
        simp only [hr] at hs
        cases hs
        exact hidle
      | some entries =>
        simp only [hr] at hs
        cases hs
        refine ⟨hd.phase _ _, hq, m, hm, hnums, s.now, le_refl _, ?_⟩
        rw [reencryptForMigration_eq hr, resolveCompactEntries, hnums, logOf_read]
  · cases hs

theorem discardStep_inv {ok : Bool} {kept : List TempName}
    (hs : discardStep s ok kept = some t) : CompactInv c enc maxSize d t := by
  unfold discardStep at hs
  split at hs
  · next toCompact entries hph =>
    obtain ⟨hd, hp⟩ := h.when hph
    obtain ⟨hq, hr⟩ := hp
    cases ok with
    | true =>
      cases hs
      exact ⟨hd.temps hq.1 _ _, hq, hr⟩
    | false =>
      cases hs
      exact ⟨hd.temps hq.1 _ _, Or.inr hq.2⟩
  · cases hs

theorem writeSomeStep_inv {files : List TempSegment}
    (hs : writeSomeStep s files = some t) : CompactInv c enc maxSize d t := by
  unfold writeSomeStep at hs
  split at hs
  · next toCompact entries hph =>
    obtain ⟨hd, hp⟩ := h.when hph
    cases hs
    exact .of (hd.temps hp.1.1 _ _) hph hp
  · cases hs

theorem writeFailStep_inv {files : List TempSegment}
    (hs : writeFailStep s files = some t) : CompactInv c enc maxSize d t := by
  unfold writeFailStep at hs
  split at hs
  · next toCompact entries hph =>
    obtain ⟨hd, hp⟩ := h.when hph
    cases hs
    exact ⟨hd.temps hp.1.1 _ _, hp.1⟩
  · cases hs

theorem writeDoneStep_inv {leftover : List TempSegment}
    (hs : writeDoneStep c maxSize s leftover = some t) : CompactInv c enc maxSize d t := by
  unfold writeDoneStep at hs
  split at hs
  · next toCompact entries hph =>
    obtain ⟨hd, hp⟩ := h.when hph
    obtain ⟨temps, htemps, rfl⟩ := Option.map_eq_some_iff.mp hs
    obtain ⟨-, rfl⟩ := writeCompactEntries_eq_some.mp htemps
    obtain ⟨hq, m, hr⟩ := hp
    refine ⟨hd.temps hq.1 _ _, hq, fun f hf => ?_, m, entries, hr, rfl⟩
    exact tempFiles_append (packed_names c maxSize _ _) leftover hf
  · cases hs

theorem leaseStep_inv {ok : Bool}
    (hs : leaseStep s ok = some t) : CompactInv c enc maxSize d t := by
  unfold leaseStep at hs
  split at hs
  · next toCompact temps hph =>
    obtain ⟨hd, hp⟩ := h.when hph
    obtain ⟨hq, ht, m, entries, hr, htemps⟩ := hp
    split at hs
    · next hok =>
      cases hs
      simp only [Bool.and_eq_true, decide_eq_true_eq] at hok
      refine ⟨hd.phase _ _, hq, ht, m, entries, hr, ?_, hr.1, hr.2.1, hok.2, ?_⟩
      · rw [htemps, packed_lines]
      · rw [htemps]
        exact packed_names c maxSize _ _
    · cases hs
      exact ⟨hd.phase _ _, hq⟩
  · cases hs

end Steps

end Scriva
