import Mathlib.Data.List.Basic

namespace Scriva.SegmentTail

open List Option

abbrev newline : UInt8 := 10

/-- The last newline among the first bytes of a chunk, searched from their end. -/
def lastNewline (b : List UInt8) : Nat → Option Nat
  | 0 => none
  | i + 1 => if b[i]? = some newline then some i else lastNewline b i

/-- The loop over the chunks: each round reads from an earlier offset to the end of the file. -/
def searchBack (file : List UInt8) (offset : Int) : Option Nat :=
  let start := if offset < 0 then 0 else offset.toNat
  let b := file.drop start
  match lastNewline b b.length with
  | some i => some (start + i + 1)
  | none => if h : start = 0 then none else searchBack file (start - 512)
termination_by offset.toNat
decreasing_by
  have hstart : start = if offset < 0 then 0 else offset.toNat := rfl
  split at hstart <;> omega

/-- The file behind the call and the size it returns. -/
def recoverPartialLine (file : List UInt8) : List UInt8 × Nat :=
  if file.length = 0 then (file, 0)
  else if file[file.length - 1]? = some newline then (file, file.length)
  else
    match searchBack file (file.length - 512) with
    | some size => (file.take size, size)
    | none => (file.take 0, 0)

theorem lastNewline_spec (b : List UInt8) (n : Nat) :
    (∀ j, (lastNewline b n).elim 0 (· + 1) ≤ j → j < n → b[j]? ≠ some newline) ∧
      ∀ i ∈ lastNewline b n, b[i]? = some newline := by
  induction n with
  | zero => exact ⟨fun j _ hj => by omega, nofun⟩
  | succ n ih =>
    rw [lastNewline]
    split
    · next hn =>
      refine ⟨fun j hle hj => ?_, fun i hi => ?_⟩
      · rw [elim_some] at hle
        omega
      · cases hi
        exact hn
    · next hn =>
      refine ⟨fun j hle hj => ?_, ih.2⟩
      by_cases hjn : j = n
      · rw [hjn]
        exact hn
      · exact ih.1 j hle (by omega)

variable {file : List UInt8}

def TornFrom (file : List UInt8) (size : Nat) : Prop :=
  ∀ j, size ≤ j → file[j]? ≠ some newline

theorem searchBack_spec (file : List UInt8) (offset : Int) :
    TornFrom file ((searchBack file offset).getD 0) ∧
      ∀ size ∈ searchBack file offset, 0 < size ∧ file[size - 1]? = some newline := by
  fun_induction searchBack file offset with
  | case1 offset start b i hi =>
    obtain ⟨hrest, hat⟩ := lastNewline_spec b b.length
    rw [hi, elim_some] at hrest
    refine ⟨fun j hj => ?_, fun size hsize => ?_⟩
    · rw [getD_some] at hj
      by_cases hlen : j < start + b.length
      · have hnone := hrest (j - start) (by omega) (by omega)
        rwa [List.getElem?_drop, Nat.add_sub_of_le (by omega)] at hnone
      · have hb : b.length = file.length - start := length_drop
        rw [List.getElem?_eq_none (by omega)]
        exact nofun
    · cases hsize
      have hi := hat i hi
      rw [List.getElem?_drop] at hi
      exact ⟨by omega, hi⟩
  | case2 offset start b hnone hzero =>
    refine ⟨fun j _ => ?_, nofun⟩
    have hb : b = file := by
      show file.drop start = file
      rw [hzero, drop_zero]
    obtain ⟨hrest, -⟩ := lastNewline_spec b b.length
    rw [hnone, hb] at hrest
    by_cases hlen : j < file.length
    · exact hrest j (Nat.zero_le j) hlen
    · rw [List.getElem?_eq_none (by omega)]
      exact nofun
  | case3 offset start b hnone hne ih => exact ih

def Whole (p : List UInt8) : Prop :=
  p = [] ∨ p.getLast? = some newline

theorem recoverPartialLine_cut (file : List UInt8) : ∃ size,
    recoverPartialLine file = (file.take size, size) ∧ TornFrom file size ∧
      (size ≠ 0 → file[size - 1]? = some newline) := by
  unfold recoverPartialLine
  split
  · next hempty =>
    rw [length_eq_zero_iff.mp hempty]
    exact ⟨0, rfl, fun j _ => by simp, fun h => absurd rfl h⟩
  · split
    · next hlast =>
      refine ⟨file.length, by rw [take_length], fun j hj => ?_, fun _ => hlast⟩
      rw [List.getElem?_eq_none hj]
      exact nofun
    · obtain ⟨htorn, hat⟩ := searchBack_spec file (file.length - 512)
      split
      · next size hsize =>
        rw [hsize] at htorn
        exact ⟨size, rfl, htorn, fun _ => (hat size hsize).2⟩
      · next hnone =>
        rw [hnone] at htorn
        exact ⟨0, rfl, htorn, fun h => absurd rfl h⟩

/-- For every file: the call leaves a prefix that is empty or ends with a newline, behind which the
file had no newline, so the longest such prefix, and returns its length. -/
theorem recoverPartialLine_longest (file : List UInt8) :
    (recoverPartialLine file).2 = (recoverPartialLine file).1.length ∧
    Whole (recoverPartialLine file).1 ∧
    (∃ torn, file = (recoverPartialLine file).1 ++ torn ∧ newline ∉ torn) ∧
    (∀ p, p <+: file → Whole p → p <+: (recoverPartialLine file).1) ∧
    (Whole file → (recoverPartialLine file).1 = file) := by
  obtain ⟨size, heq, htorn, hat⟩ := recoverPartialLine_cut file
  rw [heq]
  have hle : size ≤ file.length := by
    by_cases hzero : size = 0
    · omega
    · obtain ⟨hlt, -⟩ := List.getElem?_eq_some_iff.mp (hat hzero)
      omega
  have hlen : (file.take size).length = size := length_take_of_le hle
  have hlongest : ∀ p, p <+: file → Whole p → p <+: file.take size := by
    intro p hp hwhole
    refine prefix_of_prefix_length_le hp (List.take_prefix size file) ?_
    rw [hlen]
    rcases hwhole with rfl | hlast
    · exact Nat.zero_le _
    · rw [List.getLast?_eq_getElem?] at hlast
      have hin : file[p.length - 1]? = some newline := by
        obtain ⟨rest, rfl⟩ := hp
        rw [List.getElem?_append_left (List.getElem?_eq_some_iff.mp hlast).1]
        exact hlast
      by_contra hgt
      exact htorn (p.length - 1) (by omega) hin
  refine ⟨hlen.symm, ?_, ⟨file.drop size, (take_append_drop size file).symm, ?_⟩, hlongest, ?_⟩
  · by_cases hzero : size = 0
    · exact Or.inl (by rw [hzero, take_zero])
    · right
      rw [List.getLast?_eq_getElem?, hlen, List.getElem?_take_of_lt (by omega)]
      exact hat hzero
  · intro hmem
    obtain ⟨j, hj⟩ := mem_iff_getElem?.mp hmem
    rw [List.getElem?_drop] at hj
    exact htorn (size + j) (by omega) hj
  · intro hwhole
    have hback := hlongest file (prefix_refl _) hwhole
    exact (List.take_prefix size file).eq_of_length_le hback.length_le

end Scriva.SegmentTail
