import Scriva.StoreRecovery

namespace Scriva

open Option

/-- Inserted ids that the caller names come from the counter and are used once; a rotation whose
`meta.json` is not written seals no id above the saved counter; a crash loses no such id. -/
def StoreOp.IdSound (x : Store) : StoreOp → Prop
  | .write op => op.supplied.Nodup ∧ ∀ id ∈ op.supplied, id ∈ x.reserved
  | .leaveRun _ ops _ => ∀ op ∈ ops, op.op = .insert → op.id ∈ x.reserved
  | .rotate metaWritten => metaWritten = true ∨ ∀ n ∈ x.saved, ∀ l ∈ x.col.active.lines,
      l.toLogLine.Counts x.col.decisions → l.entry.id ≤ n
  | .crash kept _ _ => CrashSound x kept
  | _ => True

structure Store.Created (x : Store) : Prop where
  opened : x.col.Opened
  empty : x.col.log = []
  unused : x.reserved = [] ∧ x.used = []

section

variable {cfg : Config} {x y : Store} {t : Collection}

theorem IdInv.reserveID (hi : IdInv x) :
    IdInv { x with col := { x.col with idSeq := x.col.idSeq + 1 }
                   reserved := x.reserved ++ [x.col.idSeq + 1] } := by
  refine ⟨hi.tracks.frame (Nat.le_succ _) x.col.sidxs x.col.now,
    fun id hid => (hi.used_le id hid).trans (Nat.le_succ _),
    fun l hl hc => (hi.lines_le l hl hc).trans (Nat.le_succ _), hi.shown_used, hi.sealed_saved,
    hi.used_saved, fun id hid => ?_⟩
  rcases Runs.mem_concat hid with hid | rfl
  · have hres := hi.reserved_le id hid
    exact ⟨hres.1.trans (Nat.le_succ _), hres.2⟩
  · refine ⟨le_refl _, fun hused => ?_⟩
    have hle := hi.used_le _ hused
    omega

theorem IdInv.rotate (hi : IdInv x) {saved : Option Nat}
    (hsaved : ∀ n ∈ saved, ∀ l ∈ x.col.log, l.Counts x.col.decisions → l.id ≤ n)
    (hused : ∀ n ∈ saved, ∀ id ∈ x.used, id ≤ n) :
    IdInv { x with col := x.col.rotateSegment, saved := saved } := by
  have hlog := rotateSegment_log x.col
  refine ⟨hi.tracks.rotate, hi.used_le, fun l hl hc => ?_, fun l hl hv => ?_,
    hsaved, fun n hn id hid => Or.inl (hused n hn id hid), hi.reserved_le⟩
  · exact hi.lines_le l (hlog ▸ hl) hc
  · exact hi.shown_used l (hlog ▸ hl) hv

theorem IdInv.writeMeta (hi : IdInv x) : IdInv { x with saved := some x.col.idSeq } := by
  refine ⟨hi.tracks, hi.used_le, hi.lines_le, hi.shown_used, fun n hn l hl hc => ?_,
    fun n hn id hid => ?_, hi.reserved_le⟩
  · cases hn
    exact hi.lines_le l (sealed_mem_log hl) hc
  · cases hn
    exact Or.inl (hi.used_le id hid)

theorem IdInv.write {op : CollectionOp} (hi : IdInv x)
    (hok : ∀ id ∈ op.supplied, id ∈ x.reserved) (hup : op.isUpkeep = false)
    (h : x.col.step cfg op = some t) :
    IdInv { x with
      col := t
      reserved := x.reserved.filter (!((newLines x.col t).map fun l => l.entry.id).contains ·)
      used := x.used ++ (newLines x.col t).map fun l => l.entry.id } := by
  rcases op.kinds with hk | hk | hk | hk | ⟨k, at_, rfl⟩
  · rw [hup] at hk
    cases hk
  · obtain ⟨ls, chs, hw⟩ := step_locally hk h
    rw [hw.newLines]
    refine hi.appended hw.toAppended fun ch hch => ?_
    rcases hw.reached hi.tracks.bounded ch hch with hle | hgiven
    · exact hle
    · exact (hi.reserved_le _ (hok _ hgiven)).1.trans hw.counter
  · obtain ⟨ls, ha, -, hids⟩ := step_replicated hk h
    rw [ha.newLines]
    exact hi.appended ha (hids hi.tracks.bounded)
  · have ha := step_still hk h
    rw [ha.newLines]
    exact hi.appended ha (by simp)
  · rw [compact_newLines h]
    simpa using hi.compact h

theorem IdInv.leaveRun {txid : String} {ops : List XTxOp} {r : Readings} (hi : IdInv x)
    (hok : ∀ op ∈ ops, op.op = .insert → op.id ∈ x.reserved)
    (h : x.col.during r (x.col.leaveRun cfg txid ops r) = some t) (keep : Nat → Bool) :
    IdInv { x with col := t, reserved := x.reserved.filter keep } := by
  obtain ⟨-, u, hu, rfl⟩ := during_some h
  obtain ⟨-, ls, chs, hchs, hl⟩ := leaveRun_left hu r.late
  have hops : ∀ ch ∈ chs, ch.entry.id ≤ x.col.idSeq := by
    intro ch hch
    obtain ⟨op, hop, hspec⟩ := Traverse.forall₂_mem hchs hch
    rw [hspec.id]
    by_cases hk : op.op = .insert
    · exact (hi.reserved_le _ (hok op hop hk)).1
    · obtain ⟨loc, hloc, -⟩ := hspec.target hk
      exact hi.tracks.bounded op.id (by simp [hloc])
  exact hi.leftRun hl (hl.carry.id_le hops) keep

instance (d : Decisions) (l : LogLine) : Decidable (l.Counts d) :=
  inferInstanceAs (Decidable (_ ∨ _))

instance (x : Store) (kept : Nat) : Decidable (CrashSound x kept) :=
  match h : x.saved with
  | some n => decidable_of_iff (∀ l ∈ x.col.active.lines.drop kept,
      l.toLogLine.visible x.col.decisions = true → l.entry.id ≤ n) (by rw [CrashSound, h])
  | none => decidable_of_iff (∀ id ∈ x.used,
      ∃ l ∈ logOf x.col.sealed ++ (x.col.active.lines.take kept).map Line.toLogLine,
        l.visible x.col.decisions = true ∧ id ≤ l.id) (by rw [CrashSound, h])

instance : ∀ (x : Store) (op : StoreOp), Decidable (op.IdSound x) := by
  rintro x (_ | _ | _ | _ | _ | _ | _) <;> dsimp only [StoreOp.IdSound] <;> infer_instance

def emptyStore : Store :=
  { col := emptyCollection, saved := some 0, reserved := [], used := [] }

theorem emptyStore_created : emptyStore.Created :=
  ⟨emptyCollection_opened, rfl, rfl, rfl⟩

def storeInsert (now : Int) : StoreOp :=
  .write (.insert (some [("n", .int now)]) 0 (readingsAt now))

def inserted (ops : List StoreOp) (op : StoreOp) : Option (List (Nat × Bool × Bool)) :=
  (Runs.run (Store.step plainConfig) emptyStore ops).bind fun x =>
    (x.step plainConfig op).map fun y => (insertIDs (newLines x.col y.col)).map fun id =>
      (id, x.used.contains id, (x.col.index id).isSome)

end

end Scriva
