import Scriva.Index

namespace Scriva

open KeyedLog List Option

def readEntry (segs : List Segment) (ix : IndexEntry) : Option Entry :=
  (findSegment segs ix.seg).bind fun s =>
    ((withOffsets 0 s.lines).find? fun p => p.1 == ix.offset).map fun p => p.2.entry

/-- A record as the rebuilt index finds it: revision, deadline and epoch from the index, the
data from the place it points at. -/
def lookup (segs : List Segment) (d : Decisions) (id : Nat) : Option Record :=
  (Index.rebuild segs d id).bind fun ix => (readEntry segs ix).map fun e =>
    { data := e.data, rev := ix.rev, expiresAt := ix.expiresAt, epoch := ix.epoch }

theorem readEntry_located {segs : List Segment} (h : Ascending segs) {x : Located}
    (hx : x ∈ located segs) (rev : Nat) (expiresAt : Int) (epoch : Nat) :
    readEntry segs ⟨x.seg, x.offset, rev, expiresAt, epoch⟩ = some x.line.entry := by
  obtain ⟨s, hs, hxs, -⟩ := located_seg hx
  obtain ⟨p, hp, rfl⟩ := mem_map.mp hxs
  unfold readEntry
  simp only [findSegment_of_mem h hs, bind_some]
  cases hf : (withOffsets 0 s.lines).find? (fun q => q.1 == p.1) with
  | none =>
    have := List.find?_eq_none.mp hf p hp
    simp at this
  | some q =>
    have hq := mem_of_find?_eq_some hf
    have hoff : q.1 = p.1 := by simpa using List.find?_some hf
    have hmem : ∀ r ∈ withOffsets 0 s.lines, (⟨s.num, r.1, r.2.toLogLine⟩ : Located) ∈ located segs :=
      fun r hr => mem_flatMap.mpr ⟨s, hs, mem_map.mpr ⟨r, hr, rfl⟩⟩
    have heq := located_inj h (hmem q hq) (hmem p hp) rfl hoff
    simp only [Located.mk.injEq, true_and] at heq
    simp [heq.2]

theorem readEntry_at {segs : List Segment} (h : Ascending segs) {x : Located} {loc : IndexEntry}
    (hx : x ∈ located segs) (hseg : x.seg = loc.seg) (hoff : x.offset = loc.offset) :
    readEntry segs loc = some x.line.entry := by
  have hread := readEntry_located h hx loc.rev loc.expiresAt loc.epoch
  rw [hseg, hoff] at hread
  exact hread

theorem lookup_eq_records {segs : List Segment} (h : Ascending segs) (d : Decisions) (id : Nat) :
    lookup segs d id = records d (logOf segs) id := by
  have hlast : lastVisible d id (logOf segs) =
      (lastOf (fun x => x.id == id && x.visible d) (located segs)).map Located.line := by
    rw [← located_map_line, lastVisible, lastOf_map]
    rfl
  rw [(records_eq d _ id).1, hlast, ← visible_located, lookup, rebuild_eq h, replay_filtered,
    (replay_entryAt _ id).1, lastOf_filter]
  generalize revAfter id (((located segs).filter (·.visible d)).map Located.line) = rev
  cases hx : lastOf (fun x => x.id == id && x.visible d) (located segs) with
  | none => rfl
  | some x =>
    have hmem := (lastOf_some hx).1
    simp only [bind_some, map_some]
    unfold Located.entryAt Located.deletes LogLine.recordAt
    by_cases hop : x.line.entry.op = .delete
    · simp [hop]
    · simp [hop, readEntry_located h hmem]

end Scriva
