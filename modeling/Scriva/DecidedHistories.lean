import Scriva.CompactRecords
import Scriva.KeptLines

namespace Scriva

open List

theorem ascending_compacted {P P' N : List Segment} (h : Ascending (P ++ N))
    (hsub : (P'.map Segment.num).Sublist (P.map Segment.num)) : Ascending (P' ++ N) := by
  have hnums : ((P ++ N).map Segment.num).Pairwise (· < ·) := pairwise_map.mpr h
  rw [map_append] at hnums
  have := hnums.sublist (hsub.append_right (N.map Segment.num))
  rw [← map_append] at this
  exact pairwise_map.mp this

theorem lookup_compacted {c : Encoding} {enc : Option Encryptor} {maxSize : Nat}
    {P P' N : List Segment} {d : Decisions} {now : Int} (hasc : Ascending (P ++ N))
    (h : compactSegments c enc maxSize P d now = some P') (id : Nat) :
    ∃ O, Compacted enc now (ofId d id (logOf P)) O ∧
      lookup (P ++ N) d id = recordOf (ofId d id (logOf P) ++ ofId d id (logOf N)) ∧
      lookup (P' ++ N) d id = recordOf (O ++ ofId d id (logOf N)) ∧
      ((∀ l ∈ logOf P, l.id = id → isEvidence d l = false) →
        ∀ r, recordOf (ofId d id (logOf P)) = some r → expired r.expiresAt now = true → O = []) := by
  obtain ⟨hlog, hsub⟩ := compactSegments_log h
  have happ : ∀ xs ys : List Segment, logOf (xs ++ ys) = logOf xs ++ logOf ys := by
    simp [logOf]
  refine ⟨ofId d id (logOf P'), ?_, ?_, ?_, ?_⟩
  · rw [hlog]
    exact resolved_compacted enc d (logOf P) now id
  · rw [lookup_eq_records hasc, records_eq_recordOf, happ, ofId_append]
  · rw [lookup_eq_records (ascending_compacted hasc hsub), records_eq_recordOf, happ, ofId_append]
  · intro hev r hr hexp
    have hnone : (resolveScan d (logOf P)).hasEvidence id = false := by
      rw [resolveScan_hasEvidence, any_eq_false]
      intro l hl
      by_cases hid : l.id = id
      · simp [hev l hl hid]
      · simp [hid]
    obtain ⟨p, hp, hrec⟩ := Option.bind_eq_some_iff.mp hr
    obtain ⟨-, rfl⟩ := recordAt_some hrec
    rw [hlog, ofId_migrate, resolved_dropped hnone hp (Or.inr hexp)]
    rfl

/-- A pass over the older segments is invisible, up to re-encryption and to expired records that
it keeps because of their transaction lines. -/
theorem compaction_invisible {c : Encoding} {enc : Option Encryptor} {maxSize : Nat}
    {P P' N : List Segment} {d : Decisions} {now : Int} (hasc : Ascending (P ++ N))
    (hread : ∀ l ∈ logOf P, l.Readable enc)
    (h : compactSegments c enc maxSize P d now = some P') (id : Nat) :
    (∀ l ∈ logOf P', l.decodes = true) ∧
    (∀ r, lookup (P ++ N) d id = some r → expired r.expiresAt now = false →
      ∃ r', lookup (P' ++ N) d id = some r' ∧ r'.expiresAt = r.expiresAt ∧ SameData enc r r' ∧
        (RevsAscend (ofId d id (logOf (P ++ N))) → NotRecreated (ofId d id (logOf P)) →
          r'.rev = r.rev)) ∧
    (lookup (P ++ N) d id = none → lookup (P' ++ N) d id = none) ∧
    (∀ r, lookup (P ++ N) d id = some r → expired r.expiresAt now = true →
      ofId d id (logOf N) = [] →
      ((∀ l ∈ logOf P, l.id = id → isEvidence d l = false) → lookup (P' ++ N) d id = none) ∧
      ∀ r', lookup (P' ++ N) d id = some r' → r'.expiresAt = r.expiresAt) := by
  obtain ⟨O, hO, hbefore, hafter, hgone⟩ := lookup_compacted hasc h id
  have happ : ofId d id (logOf (P ++ N)) = ofId d id (logOf P) ++ ofId d id (logOf N) := by
    rw [← ofId_append]
    simp [logOf]
  rw [hbefore, hafter, happ]
  have hP : ∀ l ∈ ofId d id (logOf P), l.Readable enc := fun l hl => hread l (mem_filter.mp hl).1
  refine ⟨fun l hl => ?_, fun r hr hexp => hO.unexpired hP _ hr hexp, hO.absent_stays _, ?_⟩
  · rw [(compactSegments_log h).1] at hl
    exact (resolveLines_readable hread hl).1
  intro r hr hexp hN
  refine ⟨fun hev => ?_, fun r' hr' => hO.deadline hr hr'⟩
  rw [hN, append_nil] at hr
  rw [hN, append_nil, hgone hev r hr hexp]
  rfl

def sampleLine (op : Op) (rev : Nat) (expiresAt : Int) (tx : Option TxStamp) : LogLine :=
  { entry := { id := 1, op := op, ts := Rfc3339.zeroTime, rev := rev,
               data := some [("n", .str (toString rev))], epoch := 0, expiresAt := expiresAt }
    tx := tx }

def byteLines : Encoding :=
  { len := fun _ => 1, len_pos := by simp }

/-- A policy that was taken back at an epoch: what is stored anew is plaintext. -/
def plaintextAt (epoch : Nat) : Encryptor :=
  { policy := { collection := "c", readMode := .fields, writePolicy := .disabled, epoch := epoch }
    cipher := Encryption.clearCipher
    keys := fun _ => some 0
    sealing := fun _ => { keyID := "k", key := 0, nonce := fun _ => 0 }
    installed := Or.inl rfl
    resolves := fun _ => rfl }

def sampleOlder : List Segment :=
  [{ num := 1, lines := [byteLines.line (sampleLine .insert 1 0 (some ⟨"t", 0, 1⟩)),
      byteLines.line (sampleLine .update 2 0 none)] },
   { num := 2, lines := [byteLines.line (sampleLine .update 3 0 none)] }]

def sampleNewer : List Segment :=
  [{ num := 3, lines := [byteLines.line (sampleLine .update 4 0 none)] }]

def committed : Decisions := some fun _ => some .commit

theorem compaction_invisible_sample :
    ∃ P', compactSegments byteLines none 10 sampleOlder committed 7 = some P' ∧
      ∃ r r', lookup (sampleOlder ++ sampleNewer) committed 1 = some r ∧
        lookup (P' ++ sampleNewer) committed 1 = some r' ∧ r'.rev = r.rev := by
  have hpass : compactSegments byteLines none 10 sampleOlder committed 7 =
      some [{ num := 1, lines := [byteLines.line (sampleLine .insert 1 0 (some ⟨"t", 0, 1⟩)),
        byteLines.line (sampleLine .update 3 0 none)] }] := by decide
  have hr : lookup (sampleOlder ++ sampleNewer) committed 1 =
      some ⟨some [("n", .str "4")], 4, 0, 0⟩ := by decide
  obtain ⟨-, hlive, -⟩ := compaction_invisible (N := sampleNewer) (by decide) (by decide) hpass 1
  obtain ⟨r', hr', -, -, hrev⟩ := hlive _ hr (by decide)
  exact ⟨_, hpass, _, r', hr, hr', hrev (by decide) (by decide)⟩

def expiredRun : List Segment :=
  [{ num := 1, lines := [byteLines.line (sampleLine .insert 1 5 (some ⟨"t", 0, 1⟩))] }]

/-- An expired record stays in the index because it was written by a transaction, and a pending
re-encryption shows in the epoch. -/
theorem compaction_visible :
    (lookup expiredRun committed 1 = some ⟨some [("n", .str "1")], 1, 5, 0⟩ ∧ expired 5 7 = true ∧
      (compactSegments byteLines none 10 expiredRun committed 7).map (lookup · committed 1) =
        some (some ⟨some [("n", .str "1")], 1, 5, 0⟩)) ∧
    (lookup sampleNewer committed 1 = some ⟨some [("n", .str "4")], 4, 0, 0⟩ ∧
      (compactSegments byteLines (some (plaintextAt 1)) 10 sampleNewer committed 7).map
        (lookup · committed 1) = some (some ⟨some [("n", .str "4")], 4, 0, 1⟩)) := by
  decide

end Scriva
