import Scriva.CompactMachine

namespace Scriva

open List

variable {segs segs' : Nat → Option (List Line)} {m n : Nat}

theorem numsBelow_congr (h : ∀ k < m, (segs k).isSome = (segs' k).isSome) :
    numsBelow segs m = numsBelow segs' m :=
  filter_congr fun k hk => h k (List.mem_range.mp hk)

theorem logBelow_congr (h : ∀ k < m, segs k = segs' k) : logBelow segs m = logBelow segs' m := by
  refine flatMap_congr fun k hk => ?_
  rw [linesAt, linesAt, h k (List.mem_range.mp hk)]

theorem logBelow_succ (segs : Nat → Option (List Line)) (m : Nat) :
    logBelow segs (m + 1) = logBelow segs m ++ linesAt segs m := by
  simp [logBelow, range_succ]

theorem numsBelow_succ (segs : Nat → Option (List Line)) (m : Nat) :
    numsBelow segs (m + 1) = numsBelow segs m ++ if (segs m).isSome then [m] else [] := by
  simp [numsBelow, range_succ, filter_singleton]

def logBetween (segs : Nat → Option (List Line)) (m n : Nat) : List LogLine :=
  (List.range' m (n - m)).flatMap (linesAt segs)

theorem range_split (hmn : m ≤ n) : List.range n = List.range m ++ List.range' m (n - m) := by
  have happ := @List.range'_append 0 m (n - m) 1
  simp only [one_mul, Nat.zero_add] at happ
  rw [range_eq_range', range_eq_range', happ, Nat.add_sub_cancel' hmn]

theorem logBelow_split (segs : Nat → Option (List Line)) (hmn : m ≤ n) :
    logBelow segs n = logBelow segs m ++ logBetween segs m n := by
  unfold logBelow logBetween
  rw [range_split hmn, flatMap_append]

theorem logBetween_congr (h : ∀ k, m ≤ k → k < n → segs k = segs' k) :
    logBetween segs m n = logBetween segs' m n := by
  refine flatMap_congr fun k hk => ?_
  rw [mem_range'_1] at hk
  rw [linesAt, linesAt, h k hk.1 (by omega)]

theorem numsBelow_split (segs : Nat → Option (List Line)) (hmn : m ≤ n) :
    numsBelow segs n =
      numsBelow segs m ++ (List.range' m (n - m)).filter fun k => (segs k).isSome := by
  unfold numsBelow
  rw [range_split hmn, filter_append]

/-- Numbers without a segment count for nothing. -/
theorem numsBelow_extend (hmn : m ≤ n) (h : ∀ k, m ≤ k → k < n → segs k = none) :
    numsBelow segs n = numsBelow segs m := by
  rw [numsBelow_split segs hmn, filter_eq_nil_iff.mpr, append_nil]
  intro k hk
  rw [mem_range'_1] at hk
  simp [h k hk.1 (by omega)]

theorem logBelow_extend (hmn : m ≤ n) (h : ∀ k, m ≤ k → k < n → segs k = none) :
    logBelow segs n = logBelow segs m := by
  rw [logBelow_split segs hmn, logBetween, flatMap_eq_nil_iff.mpr, append_nil]
  intro k hk
  rw [mem_range'_1] at hk
  rw [linesAt, h k hk.1 (by omega)]
  rfl

theorem mem_numsBelow : n ∈ numsBelow segs m ↔ n < m ∧ (segs n).isSome = true := by
  simp [numsBelow]

theorem numsBelow_nodup (segs : Nat → Option (List Line)) (m : Nat) : (numsBelow segs m).Nodup :=
  nodup_range.filter _

theorem flatMap_numsBelow (f : Nat → List LogLine) (h : ∀ k < m, segs k = none → f k = []) :
    (numsBelow segs m).flatMap f = (List.range m).flatMap f := by
  induction m with
  | zero => rfl
  | succ m ih =>
    rw [numsBelow_succ, range_succ, flatMap_append, flatMap_append,
      ih fun k hk => h k (by omega)]
    cases hm : segs m with
    | none => simp [h m (by omega) hm]
    | some ls => simp

/-- Reading the numbered files in order gives the log below a number. -/
theorem logOf_read (dir : Dir) (m : Nat) :
    logOf (dir.read (numsBelow dir.segs m)) = logBelow dir.segs m := by
  have hmap : logOf (dir.read (numsBelow dir.segs m)) =
      (numsBelow dir.segs m).flatMap (linesAt dir.segs) := by
    simp [logOf, Dir.read, flatMap_map]
    rfl
  rw [hmap, flatMap_numsBelow]
  · rfl
  · intro k _ hk
    simp [linesAt, hk]

theorem append_log (dir : Dir) (l : Line) :
    logBelow (dir.append l).segs (dir.top + 1) = logBelow dir.segs (dir.top + 1) ++ [l.toLogLine] := by
  rw [logBelow_succ, logBelow_succ]
  have hlow : logBelow (dir.append l).segs dir.top = logBelow dir.segs dir.top := by
    refine logBelow_congr fun k hk => ?_
    simp [Dir.append, Function.update_of_ne (show k ≠ dir.top by omega)]
  rw [hlow, append_assoc]
  simp [linesAt, Dir.append]

theorem zip_finals (temps : List TempSegment) (toCompact : List Nat) :
    ((temps.zip toCompact).map fun p => (p.1.name, p.2)).map Prod.snd =
      toCompact.take temps.length := by
  induction temps generalizing toCompact with
  | nil => simp
  | cons t temps ih =>
    cases toCompact with
    | nil => simp
    | cons n toCompact => simpa using ih toCompact

theorem zip_names {temps : List TempSegment} {toCompact : List Nat}
    (h : temps.length ≤ toCompact.length) :
    ((temps.zip toCompact).map fun p => (p.1.name, p.2)).map Prod.fst =
      temps.map TempSegment.name := by
  have hfst := congrArg (map TempSegment.name) (map_fst_zip h)
  rwa [map_map] at hfst ⊢

theorem filter_not_take {P : List Nat} (h : P.Nodup) (k : Nat) :
    P.filter (fun n => n ∉ P.take k) = P.drop k := by
  induction P generalizing k with
  | nil => simp
  | cons a P ih =>
    obtain ⟨ha, hP⟩ := nodup_cons.mp h
    cases k with
    | zero => simp
    | succ k =>
      rw [take_succ_cons, drop_succ_cons, filter_cons_of_neg (by simp), ← ih hP k]
      refine filter_congr fun n hn => ?_
      have : n ≠ a := fun heq => ha (heq ▸ hn)
      simp [this]

/-- What the outputs do not replace is removed. -/
theorem manifestOf_removals {P : List Nat} (h : P.Nodup) (temps : List TempSegment) :
    (manifestOf P temps).removals = P.drop temps.length := by
  unfold manifestOf
  simp only [zip_finals]
  exact filter_not_take h _

structure Prepared (dir : Dir) (m : Nat) (toCompact : List Nat) (temps : List TempSegment) :
    Prop where
  le_top : m ≤ dir.top
  nums : toCompact = numsBelow dir.segs m
  length : temps.length ≤ toCompact.length
  names : (temps.map TempSegment.name).Nodup

section Prepared

variable {dir : Dir} {toCompact : List Nat} {temps : List TempSegment}

theorem final_mem {r : TempName × Nat}
    (hr : r ∈ (manifestOf toCompact temps).renames) : r.2 ∈ toCompact.take temps.length := by
  rw [← zip_finals]
  exact mem_map_of_mem hr

theorem flatMap_zip {P : List Nat} {temps : List TempSegment} {f : Nat → List LogLine}
    (hlen : temps.length ≤ P.length)
    (hzip : ∀ p ∈ temps.zip P, f p.2 = p.1.lines.map Line.toLogLine)
    (hdrop : ∀ n ∈ P.drop temps.length, f n = []) : P.flatMap f = tempLines temps := by
  induction temps generalizing P with
  | nil => simpa [tempLines] using hdrop
  | cons t temps ih =>
    cases P with
    | nil => simp at hlen
    | cons n P =>
      rw [flatMap_cons, hzip (t, n) (by simp)]
      rw [ih (by simpa using hlen) (fun p hp => hzip p (by simp [hp])) (by simpa using hdrop)]
      rfl

section Prepared

variable (h : Prepared dir m toCompact temps)
include h

theorem Prepared.nodup : toCompact.Nodup := by
  rw [h.nums]
  exact numsBelow_nodup _ _

theorem Prepared.lt {n : Nat} (hn : n ∈ toCompact) :
    n < m ∧ (dir.segs n).isSome = true := by
  rw [h.nums] at hn
  exact mem_numsBelow.mp hn

theorem Prepared.wf :
    (manifestOf toCompact temps).WF dir.top := by
  have hrem := manifestOf_removals h.nodup temps
  have hle := h.le_top
  refine ⟨?_, ?_, fun r hr => ?_, fun r hr => ?_, fun n hn => ?_⟩
  · have hnames : (manifestOf toCompact temps).renames.map Prod.fst = temps.map TempSegment.name :=
      zip_names h.length
    rw [hnames]
    exact h.names
  · have hfinals : (manifestOf toCompact temps).renames.map Prod.snd =
        toCompact.take temps.length := zip_finals temps toCompact
    rw [hfinals]
    exact (take_sublist _ _).nodup h.nodup
  · rw [hrem]
    intro hdrop
    have hsplit := h.nodup
    rw [← take_append_drop temps.length toCompact] at hsplit
    exact disjoint_of_nodup_append hsplit (final_mem hr) hdrop
  · have := (h.lt (mem_of_mem_take (final_mem hr))).1
    omega
  · rw [hrem] at hn
    have := (h.lt (mem_of_mem_drop hn)).1
    omega

/-- Segments above the pass stay as they are. -/
theorem Prepared.rolled_above {n : Nat} (hn : m ≤ n)
    (dir' : Dir) : rolledAt (manifestOf toCompact temps) dir' n = dir'.segs n := by
  refine rolledAt_other (fun r hr heq => ?_) fun hmem => ?_
  · have := (h.lt (mem_of_mem_take (final_mem hr))).1
    omega
  · rw [manifestOf_removals h.nodup temps] at hmem
    have := (h.lt (mem_of_mem_drop hmem)).1
    omega

/-- Rolled forward, the compacted part is what the outputs hold. -/
theorem Prepared.rolled_log
    (htemps : ∀ t ∈ temps, dir.temps t.name = some t.lines) :
    logBelow (rolledAt (manifestOf toCompact temps) dir) m = tempLines temps := by
  have hrem := manifestOf_removals h.nodup temps
  have hout : ∀ k < m, dir.segs k = none →
      linesAt (rolledAt (manifestOf toCompact temps) dir) k = [] := by
    intro k _ hk
    have hnot : k ∉ toCompact := fun hmem => by
      have := (h.lt hmem).2
      rw [hk] at this
      cases this
    rw [linesAt, rolledAt_other, hk]
    · rfl
    · exact fun r hr heq => hnot (heq ▸ mem_of_mem_take (final_mem hr))
    · rw [hrem]
      exact fun hmem => hnot (mem_of_mem_drop hmem)
  rw [logBelow, ← flatMap_numsBelow _ hout, ← h.nums]
  refine flatMap_zip h.length (fun p hp => ?_) fun n hn => ?_
  · have hr : (p.1.name, p.2) ∈ (manifestOf toCompact temps).renames :=
      mem_map.mpr ⟨p, hp, rfl⟩
    have hnotrem := h.wf.disjoint _ hr
    unfold linesAt rolledAt
    rw [if_neg hnotrem, find_final h.wf hr]
    simp [htemps p.1 (of_mem_zip hp).1]
  · rw [← hrem] at hn
    simp [linesAt, rolledAt, hn]

end Prepared

end Prepared

end Scriva
