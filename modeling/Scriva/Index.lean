import Scriva.Log
import Mathlib.Data.List.Sort

namespace Scriva

open KeyedLog List

/-- Where the latest version of a record stands, with what a read needs before the segment. -/
structure IndexEntry where
  seg : Nat
  offset : Nat
  rev : Nat
  expiresAt : Int
  epoch : Nat
deriving DecidableEq, Repr

abbrev Index := Nat → Option IndexEntry

def Index.empty : Index := fun _ => none

def applyOne (m : Index) (seg off : Nat) (e : Entry) : Index :=
  match e.op with
  | .delete => Function.update m e.id none
  | _ =>
    Function.update m e.id (some
      { seg := seg, offset := off, rev := nextRev ((m e.id).elim 0 IndexEntry.rev) e,
        expiresAt := e.expiresAt, epoch := e.epoch })

def withOffsets : Nat → List Line → List (Nat × Line)
  | _, [] => []
  | off, l :: ls => (off, l) :: withOffsets (off + l.len) ls

def sizeOf (ls : List Line) : Nat :=
  (ls.map Line.len).sum

def Segment.size (s : Segment) : Nat :=
  sizeOf s.lines

/-- `ScanStampedFromOffset`: the lines from a record boundary on. -/
def scanFrom (s : Segment) (start : Nat) : List (Nat × Line) :=
  (withOffsets 0 s.lines).filter fun p => start ≤ p.1

def applyEntries (m : Index) (s : Segment) (start : Nat) (d : Decisions) : Index :=
  (scanFrom s start).foldl
    (fun m p => if entryVisible p.2.tx d then applyOne m s.num p.1 p.2.entry else m) m

def sortSegments (segs : List Segment) : List Segment :=
  segs.insertionSort fun a b => a.num ≤ b.num

def Index.rebuild (segs : List Segment) (d : Decisions) : Index :=
  (sortSegments segs).foldl (fun m s => applyEntries m s 0 d) Index.empty

structure Located where
  seg : Nat
  offset : Nat
  line : LogLine
deriving DecidableEq, Repr

def Located.id (x : Located) : Nat :=
  x.line.id

def Located.visible (d : Decisions) (x : Located) : Bool :=
  x.line.visible d

def locate (s : Segment) : List Located :=
  (withOffsets 0 s.lines).map fun p => ⟨s.num, p.1, p.2.toLogLine⟩

def located (segs : List Segment) : List Located :=
  segs.flatMap locate

def IndexEntry.act (x : Located) (old : Option IndexEntry) : Option IndexEntry :=
  match x.line.entry.op with
  | .delete => none
  | _ =>
    some { seg := x.seg, offset := x.offset, rev := nextRev (old.elim 0 IndexEntry.rev) x.line.entry,
           expiresAt := x.line.entry.expiresAt, epoch := x.line.entry.epoch }

def Index.replay (m : Index) (d : Decisions) (xs : List Located) : Index :=
  KeyedLog.replay Located.id IndexEntry.act m (xs.filter (·.visible d))

theorem applyOne_eq (m : Index) (x : Located) :
    applyOne m x.seg x.offset x.line.entry = apply Located.id IndexEntry.act m x := by
  funext k
  unfold applyOne apply IndexEntry.act Located.id LogLine.id
  by_cases h : x.line.entry.id = k
  · subst h; cases x.line.entry.op <;> simp
  · cases x.line.entry.op <;> simp [h, Function.update_of_ne (Ne.symm h)]

theorem replay_cons (m : Index) (d : Decisions) (x : Located) (xs : List Located) :
    m.replay d (x :: xs) =
      (if x.visible d then applyOne m x.seg x.offset x.line.entry else m).replay d xs := by
  unfold Index.replay
  by_cases h : x.visible d = true
  · rw [filter_cons_of_pos h, KeyedLog.replay_cons, if_pos h, applyOne_eq]
  · rw [filter_cons_of_neg h, if_neg h]

theorem replay_append (m : Index) (d : Decisions) (xs ys : List Located) :
    m.replay d (xs ++ ys) = (m.replay d xs).replay d ys := by
  unfold Index.replay
  rw [filter_append, KeyedLog.replay_append]

theorem replay_congr {m : Index} {d d' : Decisions} {xs : List Located}
    (h : ∀ x ∈ xs, x.visible d = x.visible d') : m.replay d xs = m.replay d' xs := by
  unfold Index.replay
  rw [filter_congr h]

theorem applyEntries_eq (m : Index) (s : Segment) (start : Nat) (d : Decisions) :
    applyEntries m s start d = m.replay d ((locate s).filter fun x => start ≤ x.offset) := by
  unfold applyEntries scanFrom locate
  rw [filter_map]
  have hfun : ((fun x : Located => decide (start ≤ x.offset)) ∘
      fun p : Nat × Line => (⟨s.num, p.1, p.2.toLogLine⟩ : Located)) =
      fun p => decide (start ≤ p.1) := rfl
  rw [hfun]
  generalize (withOffsets 0 s.lines).filter (fun p => decide (start ≤ p.1)) = ps
  induction ps generalizing m with
  | nil => rfl
  | cons p ps ih =>
    rw [foldl_cons, ih, map_cons, replay_cons]
    rfl

theorem applyEntries_zero (m : Index) (s : Segment) (d : Decisions) :
    applyEntries m s 0 d = m.replay d (locate s) := by
  rw [applyEntries_eq]
  simp

theorem foldl_applyEntries (m : Index) (segs : List Segment) (d : Decisions) :
    segs.foldl (fun m s => applyEntries m s 0 d) m = m.replay d (located segs) := by
  induction segs generalizing m with
  | nil => rfl
  | cons s segs ih =>
    rw [foldl_cons, ih, applyEntries_zero, ← replay_append]
    rfl

/-- Segments as they are opened: ascending numbers, hence distinct names. -/
def Ascending (segs : List Segment) : Prop :=
  segs.Pairwise fun a b => a.num < b.num

instance (segs : List Segment) : Decidable (Ascending segs) :=
  inferInstanceAs (Decidable (List.Pairwise _ _))

variable {segs : List Segment} {x : Located}

theorem withOffsets_append (off : Nat) (xs ys : List Line) :
    withOffsets off (xs ++ ys) = withOffsets off xs ++ withOffsets (off + sizeOf xs) ys := by
  induction xs generalizing off with
  | nil => simp [withOffsets, sizeOf]
  | cons x xs ih =>
    simp only [cons_append, withOffsets, ih, sizeOf, map_cons, sum_cons, Nat.add_assoc]

theorem mem_withOffsets {off : Nat} {ls : List Line} {p : Nat × Line}
    (h : p ∈ withOffsets off ls) : p.2 ∈ ls ∧ off ≤ p.1 ∧ p.1 < off + sizeOf ls := by
  induction ls generalizing off with
  | nil => simp [withOffsets] at h
  | cons l ls ih =>
    have hl := l.len_pos
    have hsize : sizeOf (l :: ls) = l.len + sizeOf ls := by simp [sizeOf]
    rcases mem_cons.mp h with rfl | h
    · exact ⟨by simp, le_refl _, by simp only; omega⟩
    · obtain ⟨hmem, hle, hlt⟩ := ih h
      exact ⟨by simp [hmem], by omega, by omega⟩

theorem withOffsets_map_snd (off : Nat) (ls : List Line) : (withOffsets off ls).map Prod.snd = ls := by
  induction ls generalizing off with
  | nil => rfl
  | cons l ls ih => simp [withOffsets, ih]

theorem located_map_line (segs : List Segment) : (located segs).map Located.line = logOf segs := by
  unfold located logOf locate
  rw [map_flatMap]
  refine flatMap_congr fun s _ => ?_
  rw [map_map]
  conv_rhs => rw [← withOffsets_map_snd 0 s.lines, map_map]
  rfl

theorem mem_located {segs : List Segment} {x : Located} (h : x ∈ located segs) :
    x.line ∈ logOf segs :=
  located_map_line segs ▸ mem_map_of_mem h

theorem visible_located (segs : List Segment) (d : Decisions) :
    ((located segs).filter (·.visible d)).map Located.line = (logOf segs).filter (·.visible d) := by
  rw [← located_map_line, filter_map]
  rfl

theorem locate_tail {a b : Segment} {t : List Line} (hnum : b.num = a.num)
    (hlines : b.lines = a.lines ++ t) :
    locate b = locate a ++ (locate b).filter fun x => a.size ≤ x.offset := by
  have hb : locate b = locate a ++
      (withOffsets (sizeOf a.lines) t).map fun p => ⟨a.num, p.1, p.2.toLogLine⟩ := by
    simp [locate, hlines, withOffsets_append, hnum]
  have hfront : (locate a).filter (fun x => a.size ≤ x.offset) = [] := by
    rw [filter_eq_nil_iff]
    intro x hx
    obtain ⟨p, hp, rfl⟩ := mem_map.mp hx
    have hlt : p.1 < 0 + a.size := (mem_withOffsets hp).2.2
    simpa using hlt
  have hback : ((withOffsets (sizeOf a.lines) t).map fun p =>
      (⟨a.num, p.1, p.2.toLogLine⟩ : Located)).filter (fun x => a.size ≤ x.offset) =
      (withOffsets (sizeOf a.lines) t).map fun p => ⟨a.num, p.1, p.2.toLogLine⟩ := by
    rw [filter_eq_self]
    intro x hx
    obtain ⟨p, hp, rfl⟩ := mem_map.mp hx
    have hle : a.size ≤ p.1 := (mem_withOffsets hp).2.1
    simpa using hle
  rw [hb, filter_append, hfront, hback, nil_append]

def Located.before (x y : Located) : Prop :=
  x.seg < y.seg ∨ x.seg = y.seg ∧ x.offset < y.offset

theorem withOffsets_pairwise (off : Nat) (ls : List Line) :
    (withOffsets off ls).Pairwise fun p q => p.1 < q.1 := by
  induction ls generalizing off with
  | nil => exact List.Pairwise.nil
  | cons l ls ih =>
    refine pairwise_cons.mpr ⟨fun q hq => ?_, ih _⟩
    have := (mem_withOffsets hq).2.1
    have := l.len_pos
    simp only
    omega

theorem located_seg (h : x ∈ located segs) : ∃ s ∈ segs, x ∈ locate s ∧ x.seg = s.num := by
  obtain ⟨s, hs, hx⟩ := mem_flatMap.mp h
  obtain ⟨p, -, rfl⟩ := mem_map.mp hx
  exact ⟨s, hs, hx, rfl⟩

theorem located_append (xs ys : List Segment) : located (xs ++ ys) = located xs ++ located ys := by
  simp [located]

theorem replay_filtered (d : Decisions) (m : Index) (xs : List Located) :
    m.replay d xs = replay Located.id IndexEntry.act m (xs.filter (·.visible d)) := rfl

def Located.deletes (x : Located) : Bool :=
  x.line.entry.op == .delete

def Located.entryAt (rev : Nat) (x : Located) : Option IndexEntry :=
  if x.deletes then none
  else some { seg := x.seg, offset := x.offset, rev := rev, expiresAt := x.line.entry.expiresAt,
              epoch := x.line.entry.epoch }

theorem act_eq_entryAt (x : Located) (old : Option IndexEntry) :
    IndexEntry.act x old = x.entryAt (nextRev (old.elim 0 IndexEntry.rev) x.line.entry) := by
  unfold IndexEntry.act Located.entryAt Located.deletes
  cases hop : x.line.entry.op <;> rfl

/-- A replay leaves each record at its last line. -/
theorem replay_entryAt (xs : List Located) (id : Nat) :
    replay Located.id IndexEntry.act Index.empty xs id =
      (lastOf (fun x => x.id == id) xs).bind (Located.entryAt (revAfter id (xs.map Located.line))) ∧
    (replay Located.id IndexEntry.act Index.empty xs id).elim 0 IndexEntry.rev =
      revAfter id (xs.map Located.line) := by
  induction xs using List.reverseRecOn with
  | nil => exact ⟨rfl, rfl⟩
  | append_singleton xs x ih =>
    obtain ⟨ihat, ihrev⟩ := ih
    rw [replay_concat, apply, lastOf_concat, map_append, map_singleton, revAfter_concat]
    have hxid : x.line.id = x.id := rfl
    by_cases hid : x.id = id
    · simp only [hid, hxid, if_true, beq_self_eq_true, Option.bind_some, act_eq_entryAt, ihrev]
      unfold Located.entryAt Located.deletes revStep
      cases hop : x.line.entry.op <;> simp
    · simp only [hid, hxid, if_false, beq_iff_eq]
      exact ⟨ihat, ihrev⟩

theorem entryAt_eq_none {rev : Nat} : x.entryAt rev = none ↔ x.deletes = true := by
  unfold Located.entryAt
  split <;> simp_all

def findSegment (all : List Segment) (n : Nat) : Option Segment :=
  all.find? fun s => s.num == n

theorem findSegment_some {all : List Segment} {n : Nat} {s : Segment}
    (h : findSegment all n = some s) : s ∈ all ∧ s.num = n :=
  ⟨mem_of_find?_eq_some h, by simpa using List.find?_some h⟩

section Ascending

variable (h : Ascending segs)
include h

theorem sortSegments_of_ascending : sortSegments segs = segs :=
  List.Pairwise.insertionSort_eq (h.imp fun hlt => hlt.le)

/-- A rebuild is a replay of the visible lines. -/
theorem rebuild_eq (d : Decisions) :
    Index.rebuild segs d = Index.empty.replay d (located segs) := by
  rw [Index.rebuild, sortSegments_of_ascending h, foldl_applyEntries]

theorem located_pairwise : (located segs).Pairwise Located.before := by
  induction segs with
  | nil => exact List.Pairwise.nil
  | cons s segs ih =>
    obtain ⟨hs, hsegs⟩ := pairwise_cons.mp h
    refine pairwise_append.mpr ⟨?_, ih hsegs, ?_⟩
    · exact pairwise_map.mpr ((withOffsets_pairwise 0 s.lines).imp fun hlt => Or.inr ⟨rfl, hlt⟩)
    · intro x hx y hy
      obtain ⟨p, -, rfl⟩ := mem_map.mp hx
      obtain ⟨s', hs', -, hseg⟩ := located_seg hy
      exact Or.inl (hseg ▸ hs s' hs')

theorem located_places_nodup :
    ((located segs).map fun x => (x.seg, x.offset)).Nodup := by
  refine pairwise_map.mpr ((located_pairwise h).imp fun {x y} hb heq => ?_)
  obtain ⟨hseg, hoff⟩ := Prod.mk.inj heq
  rcases hb with hb | hb <;> omega

theorem located_inj {y : Located} (hx : x ∈ located segs)
    (hy : y ∈ located segs) (hseg : x.seg = y.seg) (hoff : x.offset = y.offset) : x = y :=
  inj_on_of_nodup_map (located_places_nodup h) hx hy (Prod.ext hseg hoff)

theorem ascending_inj {a b : Segment} (ha : a ∈ segs) (hb : b ∈ segs)
    (hnum : a.num = b.num) : a = b :=
  inj_on_of_nodup_map (pairwise_map.mpr (h.imp fun hlt => hlt.ne)) ha hb hnum

theorem findSegment_of_mem {s : Segment} (hs : s ∈ segs) :
    findSegment segs s.num = some s := by
  cases hf : findSegment segs s.num with
  | none =>
    have := List.find?_eq_none.mp hf s hs
    simp at this
  | some s' =>
    obtain ⟨hs', hnum⟩ := findSegment_some hf
    rw [ascending_inj h hs' hs hnum]

end Ascending

end Scriva
