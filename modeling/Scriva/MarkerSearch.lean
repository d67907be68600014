import Scriva.EncryptionGate

namespace Scriva.MarkerSearch

open List

def bufSize : Nat := 2 ^ 20

/-- What the `i`-th read returns: at least a byte before the end of the file, and as many more as
`got i` says and the buffer has room for. -/
def readLen (got : Nat → Nat) (i room : Nat) (rest : List UInt8) : Nat :=
  min (max 1 (got i)) (min room rest.length)

/-- The loop, with the part of the buffer in use and the bytes still to be read; none when it does
not return within its fuel. -/
def scan (pat : List UInt8) (got : Nat → Nat) : Nat → Nat → List UInt8 → List UInt8 → Option Bool
  | 0, _, _, _ => none
  | fuel + 1, i, buf, rest =>
    let n := readLen got i (bufSize - buf.length) rest
    let buf := buf ++ rest.take n
    if pat <:+: buf then some true
    else if rest.length = 0 then some false
    else
      let keep := pat.length - 1
      scan pat got fuel (i + 1) (if keep < buf.length then buf.drop (buf.length - keep) else buf)
        (rest.drop n)

def fileContains (pat : List UInt8) (got : Nat → Nat) (fuel : Nat) (file : List UInt8) :
    Option Bool :=
  scan pat got fuel 0 [] file

def encryptionMarkerOnDisk : List UInt8 :=
  Encryption.markerOnDisk.map fun c => c.val.toUInt8

/-- The files of the segments, each with how its reads go. -/
def segmentsHoldEnvelope (fuel : Nat) : List ((Nat → Nat) × List UInt8) → Option Bool
  | [] => some false
  | (got, file) :: files => do
    if ← fileContains encryptionMarkerOnDisk got fuel file then return true
    segmentsHoldEnvelope fuel files

variable {pat seen buf : List UInt8}

/-- The buffer holds the end of what was read: all of it, or as much as a match may need. -/
structure Carries (pat seen buf : List UInt8) : Prop where
  suffix : buf <:+ seen
  enough : buf = seen ∨ buf.length = pat.length - 1
  short : buf.length ≤ pat.length - 1

theorem Carries.append (h : Carries pat seen buf) (chunk : List UInt8) :
    buf ++ chunk <:+ seen ++ chunk := by
  obtain ⟨before, rfl⟩ := h.suffix
  exact ⟨before, by rw [append_assoc]⟩

theorem Carries.infix_iff (h : Carries pat seen buf) (hno : ¬ pat <:+: seen) (chunk : List UInt8) :
    pat <:+: buf ++ chunk ↔ pat <:+: seen ++ chunk := by
  refine ⟨fun hin => hin.trans (h.append chunk).isInfix, fun hin => ?_⟩
  obtain ⟨before, after, heq⟩ := hin
  rcases h.enough with heq' | hlen
  · rw [heq']
    exact ⟨before, after, heq⟩
  · -- A match that ends in front of the chunk would have been found before.
    have hafter : after.length < chunk.length := by
      by_contra hge
      refine hno ?_
      have hpre : before ++ pat <+: seen ++ chunk := ⟨after, heq⟩
      have hle := congrArg List.length heq
      simp only [length_append] at hle
      have hseen : before ++ pat <+: seen :=
        prefix_of_prefix_length_le hpre (prefix_append seen chunk)
          (by rw [length_append]; omega)
      exact (suffix_append before pat).isInfix.trans hseen.isInfix
    have htail : pat ++ after <:+ seen ++ chunk := ⟨before, by rw [← heq, append_assoc]⟩
    have hin := suffix_of_suffix_length_le htail (h.append chunk)
      (by simp only [length_append]; omega)
    exact (prefix_append pat after).isInfix.trans hin.isInfix

theorem Carries.next (h : Carries pat seen buf) (chunk : List UInt8) :
    Carries pat (seen ++ chunk) (if pat.length - 1 < (buf ++ chunk).length then
      (buf ++ chunk).drop ((buf ++ chunk).length - (pat.length - 1)) else buf ++ chunk) := by
  split
  · next hlong =>
    have hlen : ((buf ++ chunk).drop ((buf ++ chunk).length - (pat.length - 1))).length =
        pat.length - 1 := by
      rw [length_drop]
      omega
    exact ⟨(drop_suffix _ _).trans (h.append chunk), Or.inr hlen, hlen.le⟩
  · next hshort =>
    refine ⟨h.append chunk, ?_, by omega⟩
    rcases h.enough with heq | hlen
    · exact Or.inl (by rw [heq])
    · right
      rw [length_append] at hshort ⊢
      omega

theorem scan_eq (hpos : 0 < pat.length) (hsize : pat.length < bufSize) (got : Nat → Nat)
    {fuel i : Nat} {rest : List UInt8} (h : Carries pat seen buf) (hno : ¬ pat <:+: seen)
    (hfuel : rest.length < fuel) :
    scan pat got fuel i buf rest = some (decide (pat <:+: seen ++ rest)) := by
  induction fuel generalizing i seen buf rest with
  | zero => omega
  | succ fuel ih =>
    have hfound := h.infix_iff hno (rest.take (readLen got i (bufSize - buf.length) rest))
    rw [scan]
    split
    · next hin =>
      have hrest : seen ++ rest.take (readLen got i (bufSize - buf.length) rest) <+: seen ++ rest :=
        (prefix_append_right_inj seen).mpr (List.take_prefix _ rest)
      rw [decide_eq_true ((hfound.mp hin).trans hrest.isInfix)]
    · next hout =>
      split
      · next hend =>
        rw [length_eq_zero_iff.mp hend, append_nil, decide_eq_false hno]
      · next hmore =>
        have hshort := h.short
        have hread : 0 < readLen got i (bufSize - buf.length) rest := by
          unfold readLen
          omega
        rw [ih (h.next _) (fun hin => hout (hfound.mpr hin)) (by rw [length_drop]; omega),
          append_assoc, take_append_drop]

theorem fileContains_eq (hpos : 0 < pat.length) (hsize : pat.length < bufSize) (got : Nat → Nat)
    {file : List UInt8} {fuel : Nat} (hfuel : file.length < fuel) :
    fileContains pat got fuel file = some (decide (pat <:+: file)) := by
  have hstart : Carries pat [] [] := ⟨suffix_refl _, Or.inl rfl, Nat.zero_le _⟩
  have hno : ¬ pat <:+: [] := by
    intro hin
    rw [infix_nil.mp hin] at hpos
    cases hpos
  exact scan_eq hpos hsize got hstart hno hfuel

/-- However the reads go, a search returns, with whether the pattern occurs in the file. -/
theorem fileContains_exact :
    (∀ {pat file : List UInt8} {fuel : Nat} (got : Nat → Nat), 0 < pat.length →
      pat.length < bufSize → file.length < fuel →
      fileContains pat got fuel file = some (decide (pat <:+: file))) ∧
    ∀ {files : List ((Nat → Nat) × List UInt8)} {fuel : Nat}, (∀ f ∈ files, f.2.length < fuel) →
      segmentsHoldEnvelope fuel files =
        some (decide (∃ f ∈ files, encryptionMarkerOnDisk <:+: f.2)) := by
  refine ⟨fun got hpos hsize hfuel => fileContains_eq hpos hsize got hfuel, ?_⟩
  intro files fuel hfuel
  induction files with
  | nil => rfl
  | cons f files ih =>
    obtain ⟨hf, hfiles⟩ := forall_mem_cons.mp hfuel
    rw [segmentsHoldEnvelope, fileContains_eq (by decide) (by decide) f.1 hf]
    by_cases hin : encryptionMarkerOnDisk <:+: f.2
    · simp [hin]
    · simp [hin, ih hfiles]

theorem fileContains_across : fileContains [1, 2] (fun _ => 0) 4 [0, 1, 2] = some true :=
  fileContains_exact.1 (fun _ => 0) (by decide) (by decide) (by decide)

end Scriva.MarkerSearch
