import Scriva.CompactWrite

namespace Scriva

open List Function

/-- The intent of a swap: the temp files with the segments they become, and the segments that
go. -/
structure Manifest where
  renames : List (TempName × Nat)
  removals : List Nat
deriving DecidableEq, Repr

/-- A collection directory: segment files up to the newest number, temp files, the manifest. -/
structure Dir where
  top : Nat
  segs : Nat → Option (List Line)
  temps : TempName → Option (List Line)
  manifest : Option Manifest

def Dir.rename (dir : Dir) (t : TempName) (n : Nat) : Dir :=
  match dir.temps t with
  | none => dir
  | some ls =>
    { dir with segs := Function.update dir.segs n (some ls),
               temps := Function.update dir.temps t none }

def Dir.remove (dir : Dir) (n : Nat) : Dir :=
  { dir with segs := Function.update dir.segs n none }

/-- `discardCompactTemps`; on an error some of the files are still there. -/
def Dir.discardCompactTemps (dir : Dir) (kept : List TempName) : Dir :=
  { dir with temps := fun t => if t ∈ kept then dir.temps t else none }

def recoverCompaction (dir : Dir) : Dir :=
  match dir.manifest with
  | none => dir.discardCompactTemps []
  | some m =>
    let renamed := m.renames.foldl (fun dir r => dir.rename r.1 r.2) dir
    let removed := m.removals.foldl Dir.remove renamed
    { removed.discardCompactTemps [] with manifest := none }

def numsBelow (segs : Nat → Option (List Line)) (m : Nat) : List Nat :=
  (List.range m).filter fun n => (segs n).isSome

def linesAt (segs : Nat → Option (List Line)) (n : Nat) : List LogLine :=
  ((segs n).getD []).map Line.toLogLine

def logBelow (segs : Nat → Option (List Line)) (m : Nat) : List LogLine :=
  (List.range m).flatMap (linesAt segs)

def Dir.log (dir : Dir) : List LogLine :=
  logBelow dir.segs (dir.top + 1)

def Dir.read (dir : Dir) (nums : List Nat) : List Segment :=
  nums.map fun n => { num := n, lines := (dir.segs n).getD [] }

def Dir.append (dir : Dir) (l : Line) : Dir :=
  { dir with segs := Function.update dir.segs dir.top (some ((dir.segs dir.top).getD [] ++ [l])) }

def Dir.rotate (dir : Dir) (n : Nat) : Dir :=
  { dir with top := n, segs := Function.update dir.segs n (some []) }

def rolledAt (m : Manifest) (dir : Dir) (n : Nat) : Option (List Line) :=
  if n ∈ m.removals then none
  else match m.renames.find? fun r => r.2 == n with
    | some r => (dir.temps r.1).or (dir.segs n)
    | none => dir.segs n

def Dir.rolled (dir : Dir) : Nat → Option (List Line) :=
  match dir.manifest with
  | none => dir.segs
  | some m => rolledAt m dir

/-- A manifest as a pass writes it: no name twice, and only segments older than the newest. -/
structure Manifest.WF (m : Manifest) (top : Nat) : Prop where
  temps : (m.renames.map Prod.fst).Nodup
  finals : (m.renames.map Prod.snd).Nodup
  disjoint : ∀ r ∈ m.renames, r.2 ∉ m.removals
  final_lt : ∀ r ∈ m.renames, r.2 < top
  removal_lt : ∀ n ∈ m.removals, n < top

variable {m : Manifest} {n : Nat} {dir : Dir}

theorem find_final {top : Nat} (h : m.WF top) {t : TempName} (hr : (t, n) ∈ m.renames) :
    m.renames.find? (fun r => r.2 == n) = some (t, n) := by
  cases hf : m.renames.find? (fun r => r.2 == n) with
  | none =>
    have := List.find?_eq_none.mp hf (t, n) hr
    simp at this
  | some r =>
    have hmem := mem_of_find?_eq_some hf
    have hn : r.2 = n := by simpa using List.find?_some hf
    rw [inj_on_of_nodup_map h.finals hmem hr hn]

theorem foldl_rename_segs {rs : List (TempName × Nat)} (ht : (rs.map Prod.fst).Nodup)
    (hn : (rs.map Prod.snd).Nodup) (dir : Dir) (n : Nat) :
    (rs.foldl (fun dir r => dir.rename r.1 r.2) dir).segs n =
      match rs.find? fun r => r.2 == n with
      | some r => (dir.temps r.1).or (dir.segs n)
      | none => dir.segs n := by
  induction rs generalizing dir with
  | nil => rfl
  | cons r rs ih =>
    rw [map_cons, nodup_cons] at ht hn
    rw [foldl_cons, ih ht.2 hn.2]
    by_cases hrn : r.2 = n
    · have hnone : rs.find? (fun r => r.2 == n) = none := by
        refine List.find?_eq_none.mpr fun r' hr' => ?_
        have : r'.2 ≠ r.2 := fun heq => hn.1 (heq ▸ mem_map_of_mem hr')
        simpa [← hrn] using this
      rw [hnone, List.find?_cons_of_pos (by simpa using hrn)]
      unfold Dir.rename
      cases htemp : dir.temps r.1 <;> simp [hrn, htemp]
    · rw [List.find?_cons_of_neg (by simpa using hrn)]
      have hseg : (dir.rename r.1 r.2).segs n = dir.segs n := by
        unfold Dir.rename
        cases dir.temps r.1 <;> simp [update_of_ne (Ne.symm hrn)]
      rw [hseg]
      cases hf : rs.find? (fun r => r.2 == n) with
      | none => rfl
      | some r' =>
        have hne : r'.1 ≠ r.1 := fun heq =>
          ht.1 (heq ▸ mem_map_of_mem (mem_of_find?_eq_some hf))
        have htemp : (dir.rename r.1 r.2).temps r'.1 = dir.temps r'.1 := by
          unfold Dir.rename
          cases dir.temps r.1 <;> simp [update_of_ne hne]
        simp only [htemp]

theorem foldl_remove_segs (ns : List Nat) (dir : Dir) (n : Nat) :
    (ns.foldl Dir.remove dir).segs n = if n ∈ ns then none else dir.segs n := by
  induction ns generalizing dir with
  | nil => rfl
  | cons k ns ih =>
    rw [foldl_cons, ih]
    by_cases hk : n = k
    · subst hk; simp [Dir.remove]
    · simp [Dir.remove, hk]

/-- A recovery leaves the segments with the manifest carried out. -/
theorem recoverCompaction_segs (h : ∀ m, dir.manifest = some m → m.WF dir.top) :
    (recoverCompaction dir).segs = dir.rolled := by
  unfold recoverCompaction Dir.rolled
  cases hm : dir.manifest with
  | none => rfl
  | some m =>
    funext n
    have hwf := h m hm
    simp only [Dir.discardCompactTemps, foldl_remove_segs,
      foldl_rename_segs hwf.temps hwf.finals, rolledAt]

theorem recoverCompaction_top (dir : Dir) : (recoverCompaction dir).top = dir.top := by
  have hrename : ∀ (rs : List (TempName × Nat)) (dir : Dir),
      (rs.foldl (fun dir r => dir.rename r.1 r.2) dir).top = dir.top := by
    intro rs
    induction rs with
    | nil => intro dir; rfl
    | cons r rs ih =>
      intro dir
      rw [foldl_cons, ih]
      unfold Dir.rename
      split <;> rfl
  have hremove : ∀ (ns : List Nat) (dir : Dir), (ns.foldl Dir.remove dir).top = dir.top := by
    intro ns
    induction ns with
    | nil => intro dir; rfl
    | cons n ns ih => intro dir; exact ih (dir.remove n)
  unfold recoverCompaction
  split
  · rfl
  · exact (hremove _ _).trans (hrename _ _)

theorem rolledAt_rename {top : Nat} (h : m.WF top) (dir : Dir) {t : TempName}
    (hr : (t, n) ∈ m.renames) : rolledAt m (dir.rename t n) = rolledAt m dir := by
  unfold Dir.rename
  cases htemp : dir.temps t with
  | none => rfl
  | some ls =>
    funext k
    unfold rolledAt
    by_cases hk : k ∈ m.removals
    · simp [hk]
    · simp only [hk, if_false]
      by_cases hkn : k = n
      · subst hkn
        simp [find_final h hr, htemp]
      · cases hf : m.renames.find? (fun r => r.2 == k) with
        | none => simp [update_of_ne hkn]
        | some r =>
          have hmem := mem_of_find?_eq_some hf
          have hrk : r.2 = k := by simpa using List.find?_some hf
          have hne : r.1 ≠ t := by
            intro heq
            have := inj_on_of_nodup_map h.temps hmem hr heq
            exact hkn (by rw [← hrk, this])
          simp [update_of_ne hkn, update_of_ne hne]

theorem rolledAt_remove (hn : n ∈ m.removals) : rolledAt m (dir.remove n) = rolledAt m dir := by
  funext k
  unfold rolledAt Dir.remove
  by_cases hk : k ∈ m.removals
  · simp [hk]
  · have hkn : k ≠ n := fun heq => hk (heq ▸ hn)
    simp only [hk, if_false, update_of_ne hkn]

structure Manifest.Done (m : Manifest) (dir : Dir) : Prop where
  renamed : ∀ r ∈ m.renames, dir.temps r.1 = none
  removed : ∀ n ∈ m.removals, dir.segs n = none

theorem Manifest.Done.rolledAt (h : m.Done dir) : rolledAt m dir = dir.segs := by
  funext n
  unfold Scriva.rolledAt
  by_cases hn : n ∈ m.removals
  · simp [hn, h.removed n hn]
  · simp only [hn, if_false]
    cases hf : m.renames.find? (fun r => r.2 == n) with
    | none => rfl
    | some r => simp [h.renamed r (mem_of_find?_eq_some hf)]

theorem rolledAt_other (hr : ∀ r ∈ m.renames, r.2 ≠ n) (hn : n ∉ m.removals) :
    rolledAt m dir n = dir.segs n := by
  unfold rolledAt
  rw [if_neg hn, List.find?_eq_none.mpr fun r hmem => by simpa using hr r hmem]

end Scriva
