import Scriva.Resolve
import Scriva.Index
import Scriva.SealedRecords

namespace Scriva

open List

structure Encoding where
  len : LogLine → Nat
  len_pos : ∀ l, 0 < len l

def Encoding.line (c : Encoding) (l : LogLine) : Line :=
  { l with len := c.len l, len_pos := c.len_pos l }

@[simp] theorem Encoding.line_toLogLine (c : Encoding) (l : LogLine) : (c.line l).toLogLine = l := rfl

/-- Whether the line of an entry decodes. -/
def LogLine.decodes (l : LogLine) : Bool :=
  decodable l.entry.data

def Encryptor.reencrypt (k : Encryptor) (stored : Option Data) : Option (Option Data) :=
  (k.materialize stored).bind k.encrypt

/-- One entry brought to the current policy; stamped lines and deletes stay as they are. -/
def reencryptLine (enc : Option Encryptor) (l : LogLine) : Option LogLine :=
  match enc with
  | none => some l
  | some k =>
    if l.tx.isSome ∨ l.entry.op = .delete ∨ l.entry.epoch = k.epoch then some l
    else (k.reencrypt l.entry.data).map fun stored =>
      { l with entry := { l.entry with data := stored, epoch := k.epoch } }

def reencryptForMigration (enc : Option Encryptor) (ls : List LogLine) : Option (List LogLine) :=
  ls.mapM (reencryptLine enc)

structure TempName where
  num : Nat
  merged : Bool
deriving DecidableEq, Repr

structure TempSegment where
  name : TempName
  lines : List Line
deriving DecidableEq, Repr

def TempSegment.size (t : TempSegment) : Nat :=
  sizeOf t.lines

/-- Appends entries to the current file, rotating once it is full while more files are allowed. -/
def packEntries (maxSize maxSegs : Nat) (segs : List TempSegment) (current : TempSegment) :
    List Line → List TempSegment
  | [] => segs ++ [current]
  | l :: ls =>
    if maxSize ≤ current.size ∧ (maxSegs = 0 ∨ segs.length + 1 < maxSegs) then
      packEntries maxSize maxSegs (segs ++ [current])
        { name := ⟨current.name.num + 1, false⟩, lines := [l] } ls
    else packEntries maxSize maxSegs segs { current with lines := current.lines ++ [l] } ls

def mergeSegments (c : Encoding) (a b : TempSegment) : TempSegment :=
  { name := { a.name with merged := true }
    lines := (a.lines ++ b.lines).map fun l => c.line l.toLogLine }

def rebalance (c : Encoding) (maxSize : Nat) : List TempSegment → List TempSegment
  | [] => []
  | [s] => [s]
  | s :: next :: rest =>
    if maxSize / 10 ≤ s.size then s :: rebalance c maxSize (next :: rest)
    else if s.size + next.size ≤ maxSize then mergeSegments c s next :: rebalance c maxSize rest
    else s :: rebalance c maxSize (next :: rest)

def packed (c : Encoding) (maxSize maxSegs : Nat) (entries : List LogLine) : List TempSegment :=
  if entries.isEmpty then []
  else rebalance c maxSize
    (packEntries maxSize maxSegs [] ⟨⟨1, false⟩, []⟩ (entries.map c.line))

/-- The longest line that a scan can read, its newline included. -/
def maxScanTokenSize : Nat :=
  16 * 1024 * 1024

/-- An append refuses a line that no scan could read back, and the pass ends there. -/
def writeCompactEntries (c : Encoding) (maxSize maxSegs : Nat) (entries : List LogLine) :
    Option (List TempSegment) :=
  if entries.any fun l => maxScanTokenSize < c.len l then none
  else some (packed c maxSize maxSegs entries)

def renamed (segs : List Segment) (temps : List TempSegment) : List Segment :=
  segs.zipWith (fun s t => { num := s.num, lines := t.lines }) temps

/-- The segments a pass puts in the place of the sealed ones it was given; none when it fails
before the swap. -/
def compactSegments (c : Encoding) (enc : Option Encryptor) (maxSize : Nat) (segs : List Segment)
    (d : Decisions) (now : Int) : Option (List Segment) := do
  let entries ← reencryptForMigration enc (resolveCompactEntries segs d now)
  let temps ← writeCompactEntries c maxSize segs.length entries
  if segs.length < temps.length then none
  else return renamed segs temps

def tempLines (ts : List TempSegment) : List LogLine :=
  ts.flatMap fun t => t.lines.map Line.toLogLine

theorem packEntries_lines (maxSize maxSegs : Nat) (segs : List TempSegment) (current : TempSegment)
    (ls : List Line) :
    tempLines (packEntries maxSize maxSegs segs current ls) =
      tempLines (segs ++ [current]) ++ ls.map Line.toLogLine := by
  induction ls generalizing segs current with
  | nil => simp [packEntries]
  | cons l ls ih =>
    rw [packEntries]
    split
    · rw [ih]
      simp [tempLines]
    · rw [ih]
      simp [tempLines]

/-- Rebalancing moves lines and changes none. -/
theorem rebalance_lines (c : Encoding) (maxSize : Nat) (ts : List TempSegment) :
    tempLines (rebalance c maxSize ts) = tempLines ts := by
  fun_induction rebalance c maxSize ts with
  | case1 => rfl
  | case2 => rfl
  | case3 s next rest hbig ih =>
    simp only [tempLines, flatMap_cons] at ih ⊢
    rw [ih]
  | case4 s next rest hbig hfit ih =>
    simp only [tempLines, flatMap_cons] at ih ⊢
    rw [ih]
    simp [mergeSegments, Function.comp_def]
  | case5 s next rest hbig hfit ih =>
    simp only [tempLines, flatMap_cons] at ih ⊢
    rw [ih]

variable {maxSize maxSegs : Nat}

theorem writeCompactEntries_eq_some {c : Encoding} {entries : List LogLine}
    {ts : List TempSegment} :
    writeCompactEntries c maxSize maxSegs entries = some ts ↔
      (∀ l ∈ entries, c.len l ≤ maxScanTokenSize) ∧ packed c maxSize maxSegs entries = ts := by
  unfold writeCompactEntries
  rw [Option.ite_none_left_eq_some, Option.some.injEq, Bool.not_eq_true, any_eq_false]
  simp only [decide_eq_true_eq, Nat.not_lt]

theorem packed_lines (c : Encoding) (maxSize maxSegs : Nat) (entries : List LogLine) :
    tempLines (packed c maxSize maxSegs entries) = entries := by
  unfold packed
  split
  · next h => simp [List.isEmpty_iff.mp h, tempLines]
  · rw [rebalance_lines, packEntries_lines]
    simp [tempLines, Function.comp_def]

theorem packEntries_names {segs : List TempSegment} {current : TempSegment} {ls : List Line}
    (h : (segs ++ [current]).Pairwise fun a b => a.name.num < b.name.num) :
    (packEntries maxSize maxSegs segs current ls).Pairwise fun a b => a.name.num < b.name.num := by
  induction ls generalizing segs current with
  | nil => exact h
  | cons l ls ih =>
    rw [packEntries]
    split
    · refine ih (pairwise_append.mpr ⟨h, by simp, ?_⟩)
      intro a ha b hb
      cases mem_singleton.mp hb
      rcases mem_append.mp ha with ha | ha
      · have := (pairwise_append.mp h).2.2 a ha current (by simp)
        simp only
        omega
      · cases mem_singleton.mp ha
        simp
    · refine ih (pairwise_append.mpr ⟨(pairwise_append.mp h).1, by simp, ?_⟩)
      intro a ha b hb
      cases mem_singleton.mp hb
      exact (pairwise_append.mp h).2.2 a ha current (by simp)

theorem rebalance_names (c : Encoding) (maxSize : Nat) (ts : List TempSegment) :
    ((rebalance c maxSize ts).map fun t => t.name.num).Sublist (ts.map fun t => t.name.num) := by
  fun_induction rebalance c maxSize ts with
  | case1 | case2 => exact List.Sublist.refl _
  | case3 s next rest hbig ih => exact ih.cons_cons _
  | case4 s next rest hbig hfit ih => exact (ih.cons _).cons_cons _
  | case5 s next rest hbig hfit ih => exact ih.cons_cons _

theorem packed_names (c : Encoding) (maxSize maxSegs : Nat) (entries : List LogLine) :
    ((packed c maxSize maxSegs entries).map TempSegment.name).Nodup := by
  have hnums : ((packed c maxSize maxSegs entries).map fun t => t.name.num).Nodup := by
    unfold packed
    split
    · simp
    · refine (rebalance_names c maxSize _).nodup (pairwise_map.mpr ?_)
      exact (packEntries_names (by simp)).imp fun h => h.ne
  rw [← Function.comp_def TempName.num TempSegment.name, ← map_map] at hnums
  exact hnums.of_map

theorem packEntries_length {segs : List TempSegment} {current : TempSegment} {ls : List Line}
    (h : segs.length + 1 ≤ maxSegs) :
    (packEntries maxSize maxSegs segs current ls).length ≤ maxSegs := by
  induction ls generalizing segs current with
  | nil => simpa [packEntries] using h
  | cons l ls ih =>
    rw [packEntries]
    split
    · next hrot =>
      refine ih ?_
      rw [length_append, length_singleton]
      omega
    · exact ih h

theorem rebalance_length (c : Encoding) (maxSize : Nat) (ts : List TempSegment) :
    (rebalance c maxSize ts).length ≤ ts.length := by
  have hnames := (rebalance_names c maxSize ts).length_le
  rwa [length_map, length_map] at hnames

theorem packed_length (c : Encoding) (maxSize : Nat) (hmax : 1 ≤ maxSegs) (entries : List LogLine) :
    (packed c maxSize maxSegs entries).length ≤ maxSegs := by
  unfold packed
  split
  · exact Nat.zero_le _
  · exact (rebalance_length c maxSize _).trans (packEntries_length hmax)

theorem renamed_log {segs : List Segment} {temps : List TempSegment}
    (h : temps.length ≤ segs.length) : logOf (renamed segs temps) = tempLines temps := by
  induction segs generalizing temps with
  | nil =>
    cases temps with
    | nil => rfl
    | cons t ts => simp at h
  | cons s segs ih =>
    cases temps with
    | nil => rfl
    | cons t ts =>
      have hts : ts.length ≤ segs.length := by simpa using h
      have := ih hts
      simp only [renamed, logOf, tempLines, zipWith_cons_cons, flatMap_cons] at this ⊢
      rw [this]

theorem renamed_nums (segs : List Segment) (temps : List TempSegment) :
    ((renamed segs temps).map Segment.num).Sublist (segs.map Segment.num) := by
  induction segs generalizing temps with
  | nil => simp [renamed]
  | cons s segs ih =>
    cases temps with
    | nil => simp [renamed]
    | cons t ts => exact (ih ts).cons_cons s.num

end Scriva
