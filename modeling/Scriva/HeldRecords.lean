import Scriva.IndexMatchesLog
import Scriva.Lib.Versioned

namespace Scriva

open KeyedLog Versioned Option

def IndexEntry.place (e : IndexEntry) : Nat × Nat × Int × Nat :=
  (e.seg, e.offset, e.expiresAt, e.epoch)

def Collection.held (s : Collection) (id : Nat) : Option Record :=
  (s.index id).bind fun ix => (readEntry s.segments ix).map fun e =>
    { data := e.data, rev := ix.rev, expiresAt := ix.expiresAt, epoch := ix.epoch }

/-- The index in memory points where a rebuild of the log would, whatever the revisions. -/
structure Placed (s : Collection) : Prop where
  tracks : Tracks s
  place : ∀ id, (s.index id).map IndexEntry.place =
    (Index.rebuild s.segments s.decisions id).map IndexEntry.place

def revised (m : Index) (R : Records) (id : Nat) : Option Record :=
  (m id).bind fun ix => (R id).map fun r => { r with rev := ix.rev }

theorem Placed.held {s : Collection} (h : Placed s) :
    s.held = revised s.index (records s.decisions s.log) := by
  funext id
  have hplace := h.place id
  have hlook := lookup_eq_records h.tracks.ascending s.decisions id
  unfold Collection.held revised
  unfold lookup at hlook
  cases hix : s.index id with
  | none => rfl
  | some ix =>
    rw [hix] at hplace
    obtain ⟨ix', hix', heq⟩ := map_eq_some_iff.mp hplace.symm
    simp only [IndexEntry.place, Prod.mk.injEq] at heq
    obtain ⟨hseg, hoff, hexp, hepoch⟩ := heq
    have hread : readEntry s.segments ix' = readEntry s.segments ix := by
      unfold readEntry
      rw [hseg, hoff]
    rw [hix', bind_some, hread] at hlook
    show _ = (records s.decisions (logOf s.segments) id).map _
    rw [← hlook, bind_some, Option.map_map, ← hexp, ← hepoch]
    rfl

theorem Placed.held_stat {s : Collection} (h : Placed s) (id : Nat) :
    (s.held id).map Record.stat = (s.index id).map IndexEntry.stat := by
  have hplace := h.place id
  have hstat := rebuild_stat h.tracks.ascending s.decisions id
  rw [h.held, revised]
  cases hix : s.index id with
  | none => rfl
  | some ix =>
    rw [hix] at hplace
    obtain ⟨ix', hix', heq⟩ := map_eq_some_iff.mp hplace.symm
    rw [hix'] at hstat
    obtain ⟨r, hr, hrs⟩ := map_eq_some_iff.mp hstat.symm
    have hr : records s.decisions s.log id = some r := hr
    simp only [IndexEntry.place, IndexEntry.stat, Record.stat, Prod.mk.injEq] at heq hrs
    rw [hr]
    simp [Record.stat, IndexEntry.stat, hrs, heq]

def Entry.shown (e : Entry) : Record :=
  { data := persistedData e.data, rev := e.rev, expiresAt := e.expiresAt, epoch := e.epoch }

def Entry.update (e : Entry) : Update Nat Record :=
  { key := e.id, value := if e.op = .delete then none else some e.shown }

section

variable {s s' : Collection} {ls : List Line} {chs : List Change}

theorem revised_put {m : Index} {R : Records} {l : Line} {ch : Change}
    (hl : l.entry = ch.entry.persisted) (num off : Nat) :
    revised (m.put num off ch.entry)
        (apply LogLine.id (fun l => Record.act l.entry) R l.toLogLine) =
      assign (revised m R) ch.entry.update := by
  funext id
  rw [assign_apply, put_eq, apply_stored R hl]
  unfold revised
  by_cases hk : id = ch.entry.id
  · subst hk
    cases hop : ch.entry.op <;>
      simp [Entry.update, Entry.shown, Record.act, Entry.persisted, hop]
  · rw [Function.update_of_ne hk, Function.update_of_ne hk]
    simp [Entry.update, Ne.symm hk]

theorem revised_putRun (hc : Carry ls chs) (m : Index) (R : Records) (num off : Nat) :
    revised (m.putRun num off ls chs)
        (replay LogLine.id (fun l => Record.act l.entry) R (ls.map Line.toLogLine)) =
      after (revised m R) (chs.map fun ch => ch.entry.update) := by
  induction hc generalizing m R off with
  | nil => rfl
  | @cons l ch ls chs hl _ ih =>
    rw [putRun_cons, List.map_cons, KeyedLog.replay_cons, ih, revised_put hl]
    rfl

theorem putRun_place (hc : Carry ls chs) {d : Decisions}
    (hv : ∀ l ∈ ls, l.toLogLine.visible d = true) {m m' : Index}
    (h : ∀ id, (m id).map IndexEntry.place = (m' id).map IndexEntry.place) (num off id : Nat) :
    (m.putRun num off ls chs id).map IndexEntry.place =
      (m'.replay d (placed num off ls) id).map IndexEntry.place := by
  induction hc generalizing m m' off with
  | nil => exact h id
  | @cons l ch ls chs hl _ ih =>
    have hvl : Located.visible d ⟨num, off, l.toLogLine⟩ = true := hv l (by simp)
    rw [putRun_cons, placed_cons, replay_cons, if_pos hvl]
    refine ih (fun l hl => hv l (by simp [hl])) (fun k => ?_) _
    show _ = (applyOne m' num off l.entry k).map _
    rw [put_eq, hl]
    unfold applyOne
    by_cases hk : k = ch.entry.id
    · subst hk
      cases hop : ch.entry.op <;> simp [Entry.persisted, hop, IndexEntry.place]
    · cases hop : ch.entry.op <;>
        simpa [Entry.persisted, hop, Function.update_of_ne hk] using h k

theorem Wrote.placed (h : Wrote s ls chs s') (hp : Placed s) (hc : Counts s chs s') :
    Placed s' := by
  refine ⟨h.tracks hp.tracks hc, fun id => ?_⟩
  rw [h.index, h.rebuild hp.tracks.ascending]
  exact putRun_place h.carry h.visible hp.place _ _ id

theorem Wrote.held (h : Wrote s ls chs s') (hp : Placed s) (hc : Counts s chs s') :
    s'.held = after s.held (chs.map fun ch => ch.entry.update) := by
  rw [(h.placed hp hc).held, hp.held, h.index, h.records]
  exact revised_putRun h.carry _ _ _ _

theorem Placed.frame (h : Placed s) {n : Nat} (hn : s.idSeq ≤ n) (xs : List SecondaryIndex)
    (now : Int) : Placed { s with idSeq := n, sidxs := xs, now := now } :=
  ⟨h.tracks.frame hn xs now, h.place⟩

end

end Scriva
