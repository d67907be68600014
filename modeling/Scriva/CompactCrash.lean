import Scriva.CompactRecover
import Scriva.DecidedHistories

namespace Scriva

structure Dir.Opened (dir : Dir) : Prop where
  topSeg : (dir.segs dir.top).isSome = true
  above : ∀ n, dir.top < n → dir.segs n = none
  manifest : dir.manifest = none

def opened (dir : Dir) (now : Int) : CompactState :=
  { dir := dir, sealed := numsBelow dir.segs dir.top, segSeq := dir.top, swapFailed := false,
    phase := .idle, now := now, written := dir.log }

/-- Each line of a live record outruns its revision, and nothing follows a plain delete that
follows a transaction's line. -/
def Ordered (d : Decisions) (log : List LogLine) : Prop :=
  ∀ id, RevsAscend (ofId d id log) ∧ NotRecreated (ofId d id log)

/-- No pass starts over a manifest, no removal fails, and the lines written are in order and can be
read. -/
def CompactStep.Sound (enc : Option Encryptor) (d : Decisions) (s : CompactState) :
    CompactStep → Prop
  | .start => s.dir.manifest = none
  | .remove ok => ok = true
  | .append l => FitsLog enc d s.written l
  | _ => True

instance (enc : Option Encryptor) (d : Decisions) (s : CompactState) :
    ∀ a : CompactStep, Decidable (a.Sound enc d s)
  | .start => inferInstanceAs (Decidable (_ = none))
  | .remove ok => inferInstanceAs (Decidable (ok = true))
  | .append l => inferInstanceAs
      (Decidable (l.Readable enc ∧ (l.visible d = true → (_ → _ ≠ 0 → _ < _) ∧ _ = false)))
  | .rotate _ | .tick _ | .resolve _ | .discard _ _ | .writeSome _ | .writeDone _ | .writeFail _
  | .lease _ | .writeManifest _ _ | .clear _ _ | .cleanup _ | .lock | .rename _ | .syncDir _
  | .install | .rebuild _ | .persistIndex _ | .persistSecondary _ | .crash | .rollRename _
  | .rollRemove _ | .rollDiscard _ | .rollClear | .reopen => inferInstanceAs (Decidable True)

section Run

variable {c : Encoding} {enc : Option Encryptor} {maxSize : Nat} {d : Decisions}
  {s t : CompactState}

theorem opened_inv {dir : Dir} (h : dir.Opened) (ho : Ordered d dir.log)
    (hread : ∀ l ∈ dir.log, l.Readable enc) (now : Int) :
    CompactInv c enc maxSize d (opened dir now) := by
  refine ⟨⟨h.topSeg, h.above, le_refl _, fun m hm => ?_, ?_⟩, Or.inr rfl⟩
  · have hm : dir.manifest = some m := hm
    rw [h.manifest] at hm
    cases hm
  · show Stands enc d now dir.log (logBelow dir.rolled (dir.top + 1))
    rw [rolled_none h.manifest]
    exact ⟨fun id => standsFor_self enc now (ho id).1 (ho id).2, hread⟩

theorem compactStep_inv {a : CompactStep} (h : CompactInv c enc maxSize d s)
    (hok : a.Sound enc d s) (hs : compactStep c enc maxSize d s a = some t) :
    CompactInv c enc maxSize d t := by
  cases a with
  | append l => exact appendStep_inv h hok hs
  | rotate ok => exact rotateStep_inv h hs
  | tick later =>
    obtain ⟨hle, rfl⟩ := Runs.guarded hs
    exact tickStep_inv h hle
  | start => exact startStep_inv h hok hs
  | resolve ok => exact resolveStage_inv h hs
  | discard ok kept => exact discardStep_inv h hs
  | writeSome files => exact writeSomeStep_inv h hs
  | writeDone leftover => exact writeDoneStep_inv h hs
  | writeFail files => exact writeFailStep_inv h hs
  | lease ok => exact leaseStep_inv h hs
  | writeManifest ok placed => exact writeManifestStep_inv h hs
  | clear ok gone => exact clearStep_inv h hs
  | cleanup kept => exact cleanupStep_inv h hs
  | lock => exact lockStep_inv h hs
  | rename ok => exact renameStep_inv h hs
  | syncDir ok => exact syncDirStep_inv h hs
  | remove ok =>
    have hok : ok = true := hok
    subst hok
    exact removeStep_inv h hs
  | install => exact installStep_inv h hs
  | rebuild ok => exact rebuildStep_inv h hs
  | persistIndex ok => exact persistIndexStep_inv h hs
  | persistSecondary ok => exact persistSecondaryStep_inv h hs
  | crash =>
    cases hs
    exact .of (h.dir.phase .down s.swapFailed) rfl trivial
  | rollRename f => exact rollRenameStep_inv h hs
  | rollRemove n => exact rollRemoveStep_inv h hs
  | rollDiscard kept => exact rollDiscardStep_inv h hs
  | rollClear => exact rollClearStep_inv h hs
  | reopen => exact reopenStep_inv h hs

theorem Stands.shows {now : Int} {written log : List LogLine} (h : Stands enc d now written log)
    (id : Nat) : visibleAt enc now (records d log id) = visibleAt enc now (records d written id) := by
  rw [records_eq_recordOf, records_eq_recordOf]
  exact (h.each id).shows

/-- Wherever a run is cut, recovery ends with segments whose lines decode and that show the records
written so far; and so do the segments themselves while there is no manifest. -/
theorem recovered_shows_written {dir : Dir} {now : Int} (h : dir.Opened)
    (ho : Ordered d dir.log) (hread : ∀ l ∈ dir.log, l.Readable enc)
    (hr : Runs.Reaches (compactStep c enc maxSize d) (CompactStep.Sound enc d) (opened dir now) s) :
    (∀ l ∈ (recoverCompaction s.dir).log, l.decodes = true) ∧
      (∀ id, visibleAt enc s.now (records d (recoverCompaction s.dir).log id) =
        visibleAt enc s.now (records d s.written id)) ∧
      (s.dir.manifest = none → (∀ l ∈ s.dir.log, l.decodes = true) ∧
        ∀ id, visibleAt enc s.now (records d s.dir.log id) =
          visibleAt enc s.now (records d s.written id)) := by
  have hd := (hr.invariant (opened_inv h ho hread now) compactStep_inv).dir
  have hlog : (recoverCompaction s.dir).log = logBelow s.dir.rolled (s.dir.top + 1) := by
    rw [Dir.log, recoverCompaction_top, recoverCompaction_segs hd.wf]
  rw [hlog]
  refine ⟨fun l hl => (hd.stands.readable l hl).1, hd.stands.shows, fun hm => ?_⟩
  have hlayout := hd.layoutStands hm
  exact ⟨fun l hl => (hlayout.readable l hl).1, hlayout.shows⟩

end Run

def lineOf (op : Op) (rev : Nat) (tx : Option TxStamp) : LogLine :=
  { entry := { id := 1, op := op, ts := Rfc3339.zeroTime, rev := rev,
               data := some [("n", .str (toString rev))], epoch := 0, expiresAt := 0 }
    tx := tx }

def oneByte : Encoding :=
  byteLines

def smallDir : Dir :=
  { top := 3
    segs := fun n => [(1, [oneByte.line (lineOf .insert 1 none)]),
      (2, [oneByte.line (lineOf .update 2 none)]), (3, [])].lookup n
    temps := fun _ => none
    manifest := none }

def allCommitted : Decisions := some fun _ => some .commit

def swapOver (renames : Nat) : List CompactStep :=
  [.start, .resolve true, .discard true [], .writeDone [], .lease true, .writeManifest true true,
   .lock] ++ List.replicate renames (.rename true) ++ [.syncDir true]

def smallRun (as : List CompactStep) : Option CompactState :=
  Runs.run (compactStep oneByte none 10 allCommitted) (opened smallDir 0) as

def shownOf (s : CompactState) : Option View × Option View :=
  (visibleAt none s.now (records allCommitted (recoverCompaction s.dir).log 1),
   visibleAt none s.now (records allCommitted s.written 1))

theorem smallDir_opened : smallDir.Opened := by
  refine ⟨rfl, fun n hn => ?_, rfl⟩
  have hn : 3 < n := hn
  have hnone : ¬ n = 1 ∧ ¬ n = 2 ∧ ¬ n = 3 := by omega
  simpa [smallDir] using hnone

theorem smallDir_ordered : Ordered allCommitted smallDir.log := by
  intro id
  by_cases hid : id = 1
  · subst hid; decide
  · have hnone : ofId allCommitted id smallDir.log = [] := by
      refine List.filter_eq_nil_iff.mpr fun l hl => ?_
      have : l.id = 1 := by revert l; decide
      simp [this, Ne.symm hid]
    rw [hnone]
    exact ⟨trivial, rfl⟩

theorem recovered_after_renames : ∃ t,
    smallRun (.append (lineOf .update 3 none) :: swapOver 1 ++ [.crash]) = some t ∧
      visibleAt none t.now (records allCommitted (recoverCompaction t.dir).log 1) =
        visibleAt none t.now (records allCommitted t.written 1) := by
  obtain ⟨t, ht, hr, -⟩ := Runs.reached (compactStep oneByte none 10 allCommitted)
    (CompactStep.Sound none allCommitted) (opened smallDir 0)
    (.append (lineOf .update 3 none) :: swapOver 1 ++ [.crash]) (fun _ => True) (by decide)
  exact ⟨t, ht, (recovered_shows_written smallDir_opened smallDir_ordered (by decide) hr).2.1 1⟩

def overManifest : List CompactStep :=
  swapOver 1 ++ [.remove true, .install, .rebuild true, .persistIndex false, .start, .resolve true,
    .discard true [], .writeSome [⟨⟨1, false⟩, []⟩], .crash]

def unremoved : List CompactStep :=
  swapOver 1 ++ [.remove false, .install, .rebuild true, .persistIndex true,
    .persistSecondary true, .clear true true, .append (lineOf .delete 0 none), .rotate true] ++
  swapOver 0 ++ [.remove true, .remove true, .install, .crash]

def recreated : List CompactStep :=
  [.append (lineOf .update 3 (some ⟨"t", 0, 1⟩)), .append (lineOf .delete 0 none),
    .append (lineOf .insert 1 none), .rotate true] ++ swapOver 1 ++ [.crash]

/-- A record lost, a record back from the dead, and a revision raised. -/
theorem recovery_shows_otherwise :
    (smallRun overManifest).map shownOf =
        some (none, some ⟨some (some [("n", .str "2")]), 2, 0⟩) ∧
      (smallRun unremoved).map shownOf =
        some (some ⟨some (some [("n", .str "2")]), 2, 0⟩, none) ∧
      (smallRun recreated).map shownOf =
        some (some ⟨some (some [("n", .str "1")]), 4, 0⟩,
          some ⟨some (some [("n", .str "1")]), 1, 0⟩) := by
  decide

end Scriva
