import Scriva.Scan

namespace Scriva

open KeyedLog List Option

section

variable {cfg : Config} {s t : Collection} {ls : List Line} {chs : List Change}

variable {id : Nat} {loc : IndexEntry} {segs : List Segment}

/-- A line that stands where an index entry of the record points, and leaves the record there. -/
def PointsAt (id : Nat) (loc : IndexEntry) (x : Located) : Prop :=
  x.seg = loc.seg ∧ x.offset = loc.offset ∧ x.id = id ∧ x.line.entry.op ≠ .delete

structure Addressed (s : Collection) : Prop where
  ascending : Ascending s.segments
  nums : ∀ g ∈ s.segments, g.num ≤ s.segSeq
  sited : ∀ id loc, s.index id = some loc → ∃ x ∈ located s.segments, PointsAt id loc x

theorem putRun_sited (hc : Carry ls chs) {m : Index} {num off : Nat}
    (h : m.putRun num off ls chs id = some loc) :
    m id = some loc ∨ ∃ x ∈ placed num off ls, PointsAt id loc x ∧
      x.line.entry.expiresAt = loc.expiresAt := by
  induction hc generalizing m off with
  | nil => exact Or.inl h
  | @cons l ch ls chs hl _ ih =>
    rw [putRun_cons] at h
    rcases ih h with hm | ⟨x, hx, hpoints⟩
    · rw [put_eq] at hm
      by_cases hid : id = ch.entry.id
      · subst hid
        by_cases hop : ch.entry.op = .delete
        · simp [hop] at hm
        · rw [Function.update_self, if_neg hop] at hm
          cases hm
          refine Or.inr ⟨⟨num, off, l.toLogLine⟩, mem_cons_self, ⟨rfl, rfl, ?_, ?_⟩, ?_⟩
          · show l.entry.id = _
            rw [hl]
            rfl
          · show l.entry.op ≠ _
            rw [hl]
            exact hop
          · show l.entry.expiresAt = _
            rw [hl]
            rfl
      · rw [Function.update_of_ne hid] at hm
        exact Or.inl hm
    · exact Or.inr ⟨x, mem_cons_of_mem _ hx, hpoints⟩

theorem rebuild_shown (ha : Ascending segs) {d : Decisions}
    (h : Index.rebuild segs d id = some loc) :
    ∃ x ∈ located segs, PointsAt id loc x ∧ x.visible d = true := by
  rw [rebuild_eq ha, replay_filtered, (replay_entryAt _ id).1] at h
  obtain ⟨x, hx, hloc⟩ := bind_eq_some_iff.mp h
  obtain ⟨hmem, hid⟩ := lastOf_some hx
  unfold Located.entryAt at hloc
  split at hloc
  · cases hloc
  · next hop =>
    cases hloc
    obtain ⟨hmem, hvis⟩ := mem_filter.mp hmem
    exact ⟨x, hmem, ⟨rfl, rfl, by simpa using hid, by simpa [Located.deletes] using hop⟩, hvis⟩

theorem rebuild_sited (ha : Ascending segs) {d : Decisions}
    (h : Index.rebuild segs d id = some loc) : ∃ x ∈ located segs, PointsAt id loc x := by
  obtain ⟨x, hx, hpoints, -⟩ := rebuild_shown ha h
  exact ⟨x, hx, hpoints⟩

theorem Appended.nums_eq (h : Appended s ls chs t) :
    t.segments.map Segment.num = s.segments.map Segment.num := by
  simp [Collection.segments, h.sealed, h.active]

theorem Appended.located (h : Appended s ls chs t) :
    located t.segments = located s.segments ++ placed s.active.num s.active.size ls :=
  h.wrote.located

theorem Addressed.appended (h : Addressed s) (he : Appended s ls chs t) : Addressed t := by
  have hsub : (t.segments.map Segment.num).Sublist (s.segments.map Segment.num) :=
    he.nums_eq ▸ List.Sublist.refl _
  refine ⟨ascending_nums h.ascending hsub, he.segSeq ▸ nums_le h.nums hsub, fun id loc hloc => ?_⟩
  rw [he.index] at hloc
  rw [he.located]
  rcases putRun_sited he.carry hloc with hold | ⟨x, hx, hpoints, -⟩
  · obtain ⟨x, hx, hpoints⟩ := h.sited id loc hold
    exact ⟨x, mem_append_left _ hx, hpoints⟩
  · exact ⟨x, mem_append_right _ hx, hpoints⟩

theorem rotate_located (s : Collection) :
    located s.rotateSegment.segments = located s.segments := by
  simp [Collection.rotateSegment, Collection.segments, located, locate, withOffsets]

theorem Addressed.rotate (h : Addressed s) : Addressed s.rotateSegment := by
  refine ⟨?_, fun g hg => ?_, fun id loc hloc => ?_⟩
  · refine pairwise_append.mpr ⟨h.ascending, pairwise_singleton _ _, fun a ha b hb => ?_⟩
    cases mem_singleton.mp hb
    exact Nat.lt_succ_of_le (h.nums a ha)
  · rcases Runs.mem_concat hg with hg | rfl
    · exact (h.nums g hg).trans (Nat.le_succ _)
    · exact le_refl _
  · rw [rotate_located]
    exact h.sited id loc hloc

theorem Addressed.compact {k : Nat} {at_ : Int} (h : Addressed s)
    (hs : s.compact cfg k at_ = some t) : Addressed t := by
  obtain ⟨hseq, hindex, hsub⟩ := compact_nums hs
  have ha := ascending_nums h.ascending hsub
  refine ⟨ha, hseq ▸ nums_le h.nums hsub, fun id loc hloc => ?_⟩
  rw [hindex] at hloc
  exact rebuild_sited ha hloc

theorem Addressed.reopen {idSeq : Nat} {now : Int} (h : Addressed s)
    (hs : s.reopen idSeq now = some t) : Addressed t := by
  unfold Collection.reopen at hs
  obtain ⟨-, rfl⟩ := guard_some hs
  exact ⟨h.ascending, h.nums, fun id loc hloc => rebuild_sited h.ascending hloc⟩

/-- Every write leaves the index pointing at lines of its records. -/
theorem step_addressed {op : CollectionOp} (h : Addressed s) (hs : s.step cfg op = some t) :
    Addressed t := by
  by_cases hop : op.relays = false
  · obtain ⟨ls, chs, he⟩ := step_appended hop hs
    exact h.appended he
  · cases op with
    | rotate =>
      cases hs
      exact h.rotate
    | compact k at_ => exact h.compact hs
    | reopen idSeq now => exact h.reopen hs
    | _ => exact absurd rfl hop

theorem Collection.Opened.addressed (h : s.Opened) : Addressed s :=
  ⟨h.ascending, h.nums, fun id loc hloc => by
    rw [h.index] at hloc
    exact rebuild_sited h.ascending hloc⟩

end

end Scriva
