import Scriva.CompactLayout
import Scriva.KeptLines
import Scriva.StandsFor

namespace Scriva

open List Function

/-- A log that stands for what was written, id by id, and can be read. -/
structure Stands (enc : Option Encryptor) (d : Decisions) (now : Int)
    (written log : List LogLine) : Prop where
  each : ∀ id, StandsFor enc now (ofId d id written) (ofId d id log)
  readable : ∀ l ∈ log, l.Readable enc

def FitsLog (enc : Option Encryptor) (d : Decisions) (written : List LogLine) (l : LogLine) :
    Prop :=
  l.Readable enc ∧ (l.visible d = true → Fits (ofId d l.id written) l)

section Stands

variable {enc : Option Encryptor} {d : Decisions} {now : Int} {written log : List LogLine}

theorem Stands.later (h : Stands enc d now written log) {now' : Int} (hle : now ≤ now') :
    Stands enc d now' written log :=
  ⟨fun id => (h.each id).later hle, h.readable⟩

theorem Stands.append (h : Stands enc d now written log) {l : LogLine}
    (hl : FitsLog enc d written l) : Stands enc d now (written ++ [l]) (log ++ [l]) := by
  refine ⟨fun id => ?_, fun l' hl' => (Runs.mem_concat hl').elim (h.readable l') fun he => he ▸ hl.1⟩
  rw [ofId_append, ofId_append]
  by_cases hv : l.visible d = true
  · by_cases hid : l.id = id
    · subst hid
      have hone : ofId d l.id [l] = [l] := by simp [ofId, hv]
      rw [hone]
      exact (h.each l.id).append (hl.2 hv)
    · have hnone : ofId d id [l] = [] := by simp [ofId, hid]
      rw [hnone, append_nil, append_nil]
      exact h.each id
  · have hnone : ofId d id [l] = [] := by simp [ofId, hv]
    rw [hnone, append_nil, append_nil]
    exact h.each id

theorem Stands.compact {older newer : List LogLine} {t : Int}
    (h : Stands enc d now written (older ++ newer)) (ht : t ≤ now) :
    Stands enc d now written ((resolveLines older d t).map (migrate enc) ++ newer) := by
  have holder : ∀ l ∈ older, l.Readable enc := fun l hl => h.readable l (mem_append_left _ hl)
  refine ⟨fun id => ?_, fun l hl => ?_⟩
  · have hid := h.each id
    rw [ofId_append] at hid ⊢
    exact hid.compact ((resolved_compacted enc d older t id).later ht) fun l hl =>
      holder l (mem_filter.mp hl).1
  · rcases mem_append.mp hl with hl | hl
    · exact resolveLines_readable holder hl
    · exact h.readable l (mem_append_right _ hl)

end Stands

structure Grows (dir dir' : Dir) : Prop where
  top : dir.top ≤ dir'.top
  segs : ∀ n < dir.top, dir'.segs n = dir.segs n
  temps : dir'.temps = dir.temps
  manifest : dir'.manifest = dir.manifest

theorem grows_refl (dir : Dir) : Grows dir dir :=
  ⟨le_refl _, fun _ _ => rfl, rfl, rfl⟩

theorem grows_append (dir : Dir) (l : Line) : Grows dir (dir.append l) :=
  ⟨le_refl _, fun n hn => update_of_ne (by omega) _ _, rfl, rfl⟩

variable {dir dir' : Dir} {n m : Nat}

theorem grows_rotate (h : dir.top < n) : Grows dir (dir.rotate n) :=
  ⟨h.le, fun k hk => update_of_ne (by omega) _ _, rfl, rfl⟩

theorem Grows.numsBelow (h : Grows dir dir') (hm : m ≤ dir.top) :
    numsBelow dir'.segs m = numsBelow dir.segs m :=
  numsBelow_congr fun k hk => by rw [h.segs k (by omega)]

theorem Grows.logBelow (h : Grows dir dir') (hm : m ≤ dir.top) :
    logBelow dir'.segs m = logBelow dir.segs m :=
  logBelow_congr fun k hk => h.segs k (by omega)

theorem Grows.prepared (h : Grows dir dir') {toCompact : List Nat} {temps : List TempSegment}
    (hp : Prepared dir m toCompact temps) : Prepared dir' m toCompact temps :=
  ⟨hp.le_top.trans h.top, by rw [h.numsBelow hp.le_top, hp.nums], hp.length, hp.names⟩

theorem Grows.done (h : Grows dir dir') {m : Manifest} (hwf : m.WF dir.top) (hd : m.Done dir) :
    m.Done dir' :=
  ⟨fun r hr => by rw [h.temps]; exact hd.renamed r hr,
   fun n hn => by rw [h.segs n (hwf.removal_lt n hn)]; exact hd.removed n hn⟩

theorem Manifest.WF.grows {m : Manifest} {top top' : Nat} (h : m.WF top) (hle : top ≤ top') :
    m.WF top' :=
  { h with final_lt := fun r hr => (h.final_lt r hr).trans_le hle
           removal_lt := fun n hn => (h.removal_lt n hn).trans_le hle }

/-- Writes to the active segment leave the outcome of the manifest alone. -/
theorem Grows.rolled (h : Grows dir dir') (hn : n < dir.top) : dir'.rolled n = dir.rolled n := by
  unfold Dir.rolled
  rw [h.manifest]
  cases hm : dir.manifest with
  | none => exact h.segs n hn
  | some m => simp only [rolledAt, h.temps, h.segs n hn]

theorem rolled_above (dir : Dir) {bound : Nat} (hwf : ∀ m, dir.manifest = some m → m.WF bound)
    (hn : bound ≤ n) : dir.rolled n = dir.segs n := by
  unfold Dir.rolled
  cases hm : dir.manifest with
  | none => rfl
  | some m =>
    refine rolledAt_other (fun r hr heq => ?_) fun hmem => ?_
    · have := (hwf m hm).final_lt r hr
      omega
    · have := (hwf m hm).removal_lt n hmem
      omega

theorem append_rolled_log (hwf : ∀ m, dir.manifest = some m → m.WF dir.top) (l : Line) :
    logBelow (dir.append l).rolled (dir.top + 1) =
      logBelow dir.rolled (dir.top + 1) ++ [l.toLogLine] := by
  have hlow : logBelow (dir.append l).rolled dir.top = logBelow dir.rolled dir.top :=
    logBelow_congr fun k hk => (grows_append dir l).rolled hk
  rw [logBelow_succ, logBelow_succ, hlow, append_assoc, linesAt, linesAt,
    rolled_above (dir.append l) hwf (le_refl _), rolled_above dir hwf (le_refl _)]
  simp [Dir.append]

theorem rotate_log {segs : Nat → Option (List Line)} {top : Nat} (hn : top < n)
    {segs' : Nat → Option (List Line)} (hlow : ∀ k ≤ top, segs' k = segs k)
    (hmid : ∀ k, top < k → k < n → segs' k = none) (hnew : segs' n = some []) :
    logBelow segs' (n + 1) = logBelow segs (top + 1) := by
  have hext : logBelow segs' n = logBelow segs' (top + 1) :=
    logBelow_extend hn fun k hk hkn => hmid k (by omega) hkn
  rw [logBelow_succ, hext, linesAt, hnew]
  simp only [Option.getD_some, map_nil, append_nil]
  exact logBelow_congr fun k hk => hlow k (by omega)

theorem rotate_rolled_log (hwf : ∀ m, dir.manifest = some m → m.WF dir.top)
    (habove : ∀ n, dir.top < n → dir.segs n = none) (hn : dir.top < n) :
    logBelow (dir.rotate n).rolled (n + 1) = logBelow dir.rolled (dir.top + 1) := by
  have hsegs : ∀ k, dir.top ≤ k → (dir.rotate n).rolled k = (dir.rotate n).segs k := fun k hk =>
    rolled_above (dir.rotate n) hwf hk
  refine rotate_log hn (fun k hk => ?_) (fun k hk hkn => ?_) ?_
  · rcases Nat.lt_or_ge k dir.top with hlt | hge
    · exact (grows_rotate hn).rolled hlt
    · rw [hsegs k hge, rolled_above dir hwf hge]
      exact update_of_ne (by omega) _ _
  · rw [hsegs k hk.le]
    exact (update_of_ne (by omega) _ _).trans (habove k hk)
  · rw [hsegs n hn.le]
    exact update_self _ _ _

end Scriva
