import Scriva.StepEffects

namespace Scriva

open List Option

structure Collection.Opened (s : Collection) : Prop where
  ascending : Ascending s.segments
  nums : ∀ g ∈ s.segments, g.num ≤ s.segSeq
  ids : ∀ id ∈ s.ids, id ≤ s.idSeq
  index : s.index = Index.rebuild s.segments s.decisions
  sidxs : ∀ x ∈ s.sidxs, x = x.rebuild s.segments s.decisions

variable {cfg : Config} {s t : Collection}

theorem Collection.Opened.indexInv (h : s.Opened) : IndexInv s := by
  refine ⟨⟨h.ascending, h.nums, fun id => ?_, fun id hid => ?_⟩, h.index⟩
  · rw [h.index]
    exact rebuild_deadline h.ascending s.decisions id
  · have hdead := congrArg Option.isSome (rebuild_deadline h.ascending s.decisions id)
    rw [isSome_map, isSome_map, ← h.index, hid] at hdead
    obtain ⟨l, hl, rfl⟩ := records_id hdead.symm
    exact h.ids l.id (mem_dedup.mpr (mem_map_of_mem hl))

theorem moved_comp {α : Type} (f : Option Nat → α) (m : Nat → Option Nat) (e : Entry) :
    (fun id => f (moved m e id)) =
      Function.update (fun id => f (m id)) e.id (if e.op = .delete then f none else f (some e.rev)) := by
  rw [← apply_ite]
  exact Function.comp_update f m _ _

/-- Local entries outrun the revisions in the index if their inserts add records. -/
theorem LocalEntries.outrun {given : List Nat} {top : Nat} {m : Nat → Option Nat}
    {chs : List Change} (h : LocalEntries given top m (chs.map Change.entry))
    (hnew : AddsNew (fun id => (m id).isSome) chs)
    (hfresh : ∀ ch ∈ chs, ch.fresh = (ch.entry.op == .insert)) :
    Outrun (fun id => (m id).getD 0) (chs.map Change.entry) := by
  induction chs generalizing m with
  | nil => trivial
  | cons ch chs ih =>
    have hadd : ch.entry.op ≠ .delete → ch.fresh = true → (m ch.entry.id).isSome = false := hnew.1
    refine ⟨fun hop => ?_, ?_⟩
    · show (m ch.entry.id).getD 0 < ch.entry.rev
      have he : LocalEntry given top m ch.entry := h.1
      unfold LocalEntry at he
      have hf := hfresh ch mem_cons_self
      cases hk : ch.entry.op with
      | insert =>
        rw [hk] at he hf
        have hnone : m ch.entry.id = none := by simpa using hadd hop hf
        simp [hnone, he.1]
      | update =>
        rw [hk] at he
        have he : ch.entry.rev = (m ch.entry.id).elim 1 (· + 1) := he
        rw [he]
        cases m ch.entry.id <;> simp
      | delete => exact absurd hk hop
    · have hthere := moved_comp Option.isSome m ch.entry
      have hrev := moved_comp (·.getD 0) m ch.entry
      have hne : (ch.entry.op != .delete) = if ch.entry.op = .delete then false else true := by
        cases ch.entry.op <;> rfl
      have htail := hnew.2
      rw [hne] at htail
      have hout := ih h.2 (hthere ▸ htail) fun c hc => hfresh c (mem_cons_of_mem _ hc)
      rw [hrev] at hout
      exact hout

variable {ls : List Line} {chs : List Change} {op : CollectionOp}

theorem Appended.indexInv (ha : Appended s ls chs t) (hi : IndexInv s)
    (hids : ∀ ch ∈ chs, ch.entry.id ≤ t.idSeq)
    (ho : Outrun (revOf s.index) (chs.map Change.entry)) : IndexInv t :=
  (ha.wrote.indexInv hi ⟨ha.counter, fun _ => hids⟩ ho).frame (le_refl _) t.sidxs t.now

theorem WritesLocally.indexInv (hw : WritesLocally cfg op s ls chs t) (hi : IndexInv s)
    (hok : op.IndexSound s) : IndexInv t := by
  obtain ⟨hadds, hids⟩ := hw.free hi.tracks.bounded hok
  have hrev : revOf s.index = fun id => (revs s.index id).getD 0 := by
    funext id
    unfold revOf revs
    cases s.index id <;> rfl
  have hthere : indexed s = fun id => (revs s.index id).isSome := by
    funext id
    rw [indexed, revs, isSome_map]
  refine hw.toAppended.indexInv hi hids ?_
  rw [hrev]
  rw [hthere] at hadds
  refine hw.entries.outrun hadds fun ch hch => ?_
  obtain ⟨ev, -, htell⟩ := Traverse.forall₂_mem hw.told hch
  rw [htell.fresh, htell.op]

theorem IndexInv.rotate (h : IndexInv s) : IndexInv s.rotateSegment := by
  have ht := h.tracks.rotate
  refine ⟨ht, ?_⟩
  have hloc : located s.rotateSegment.segments = located s.segments := by
    simp [Collection.rotateSegment, Collection.segments, located, locate, withOffsets]
  rw [rebuild_eq ht.ascending, hloc, ← rebuild_eq h.tracks.ascending]
  exact h.index

theorem IndexInv.compact (h : IndexInv s) {k : Nat} {at_ : Int}
    (hs : s.compact cfg k at_ = some t) : IndexInv t :=
  ⟨h.tracks.compact hs, (compact_nums hs).2.1⟩

theorem IndexInv.reopen (h : IndexInv s) {idSeq : Nat} {now : Int}
    (hs : s.reopen idSeq now = some t) : IndexInv t := by
  refine ⟨h.tracks.reopen hs, ?_⟩
  obtain ⟨-, rfl⟩ := guard_some hs
  rfl

def emptyCollection : Collection :=
  { sealed := [], active := { num := 1, lines := [] }, segSeq := 1, idSeq := 0,
    index := fun _ => none, sidxs := [], decisions := some fun _ => none, now := 0 }

theorem emptyCollection_opened : emptyCollection.Opened :=
  ⟨by decide, by decide, by decide, rfl, by simp [emptyCollection]⟩

def plainConfig : Config :=
  { encoding := byteLines, enc := none, defaultTTL := 0, segmentMaxSize := 100 }

def readingsAt (now : Int) : Readings :=
  { ts := Rfc3339.zeroTime, early := now, mid := now, late := now }

def replicated (op : Op) (id rev : Nat) (data : Data) : Entry :=
  { id := id, op := op, ts := Rfc3339.zeroTime, rev := rev, data := some data, epoch := 0,
    expiresAt := 0 }

end Scriva
