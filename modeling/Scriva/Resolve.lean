import Scriva.Log
import Mathlib.Data.List.Sort

namespace Scriva

open KeyedLog List Function

def expired (deadline now : Int) : Bool :=
  deadline ≠ 0 && deadline ≤ now

theorem expired_later {deadline now later : Int} (h : now ≤ later)
    (he : expired deadline now = true) : expired deadline later = true := by
  simp only [expired, Bool.and_eq_true, decide_eq_true_eq] at he ⊢
  exact ⟨he.1, he.2.trans h⟩

/-- The state of the pass over the segments: the latest surviving plain entry of each id, the
stamped lines kept as evidence, and the ids that have some. -/
structure ResolveState where
  latest : Nat → Option Entry
  evidence : List LogLine
  hasEvidence : Nat → Bool

def ResolveState.init : ResolveState :=
  { latest := fun _ => none, evidence := [], hasEvidence := fun _ => false }

def resolveStep (d : Decisions) (s : ResolveState) (l : LogLine) : ResolveState :=
  if l.isPlain then
    { s with latest := Function.update s.latest l.id (some l.entry) }
  else if l.visible d then
    { latest := Function.update s.latest l.id none
      evidence := s.evidence ++ [l]
      hasEvidence := Function.update s.hasEvidence l.id true }
  else if l.undecided d then
    { s with
      evidence := s.evidence ++ [l]
      hasEvidence := Function.update s.hasEvidence l.id true }
  else s

def resolveScan (d : Decisions) (ls : List LogLine) : ResolveState :=
  ls.foldl (resolveStep d) .init

/-- A surviving plain entry is dropped only without evidence for its id, and then when it is a
tombstone or expired. -/
def survives (s : ResolveState) (now : Int) (e : Entry) : Bool :=
  s.hasEvidence e.id || !(e.op == .delete || expired e.expiresAt now)

/-- The entries of a map by ascending key; `ids` lists at least its keys. -/
def byId (ids : List Nat) (m : Nat → Option Entry) : List Entry :=
  (ids.dedup.insertionSort (· ≤ ·)).filterMap m

def resolvePlain (ls : List LogLine) (d : Decisions) (now : Int) : List LogLine :=
  let s := resolveScan d ls
  ((byId (ls.map LogLine.id) s.latest).filter (survives s now)).map fun e => ⟨e, none⟩

def resolveLines (ls : List LogLine) (d : Decisions) (now : Int) : List LogLine :=
  (resolveScan d ls).evidence ++ resolvePlain ls d now

def resolveCompactEntries (segs : List Segment) (d : Decisions) (now : Int) : List LogLine :=
  resolveLines (logOf segs) d now

theorem resolveScan_concat (d : Decisions) (ls : List LogLine) (l : LogLine) :
    resolveScan d (ls ++ [l]) = resolveStep d (resolveScan d ls) l := by
  simp [resolveScan]

def isEvidence (d : Decisions) (l : LogLine) : Bool :=
  !l.isPlain && (l.visible d || l.undecided d)

theorem resolveScan_evidence (d : Decisions) (ls : List LogLine) :
    (resolveScan d ls).evidence = ls.filter (isEvidence d) := by
  induction ls using List.reverseRecOn with
  | nil => rfl
  | append_singleton ls l ih =>
    rw [resolveScan_concat, filter_append, ← ih, resolveStep]
    split_ifs with h1 h2 h3
    · simp [isEvidence, h1]
    · simp [isEvidence, h1, h2]
    · simp [isEvidence, h1, h2, h3]
    · simp [isEvidence, h1, h2, h3]

theorem resolveScan_hasEvidence (d : Decisions) (ls : List LogLine) (id : Nat) :
    (resolveScan d ls).hasEvidence id = ls.any fun l => isEvidence d l && l.id == id := by
  induction ls using List.reverseRecOn with
  | nil => rfl
  | append_singleton ls l ih =>
    rw [resolveScan_concat, any_append, ← ih, resolveStep]
    split_ifs with h1 h2 h3
    · simp [isEvidence, h1]
    · by_cases hid : l.id = id
      · subst hid; simp [isEvidence, h1, h2]
      · simp [isEvidence, h1, hid, update_of_ne (Ne.symm hid)]
    · by_cases hid : l.id = id
      · subst hid; simp [isEvidence, h1, h2, h3]
      · simp [isEvidence, h1, hid, update_of_ne (Ne.symm hid)]
    · simp [isEvidence, h1, h2, h3]

/-- A plain line of the id, or a committed one: what settles `latest[id]`. -/
def settles (d : Decisions) (id : Nat) (l : LogLine) : Bool :=
  l.id == id && (l.isPlain || l.visible d)

theorem resolveScan_latest (d : Decisions) (ls : List LogLine) (id : Nat) :
    (resolveScan d ls).latest id =
      ((lastOf (settles d id) ls).filter LogLine.isPlain).map LogLine.entry := by
  induction ls using List.reverseRecOn with
  | nil => rfl
  | append_singleton ls l ih =>
    rw [resolveScan_concat, lastOf_concat]
    by_cases hid : l.id = id
    · subst hid
      rw [resolveStep]
      split_ifs with h1 hs h2 h3 h4
      · simp [h1]
      · simp [settles, h1] at hs
      · simp [h1]
      · simp [settles, h2] at h3
      all_goals simp_all [settles]
    · have hs : ¬ settles d id l = true := by simp [settles, hid]
      rw [if_neg hs, ← ih, resolveStep]
      split_ifs <;> simp [update_of_ne (Ne.symm hid)]

theorem resolveScan_latest_id {d : Decisions} {ls : List LogLine} {id : Nat} {e : Entry}
    (h : (resolveScan d ls).latest id = some e) : e.id = id ∧ id ∈ ls.map LogLine.id := by
  rw [resolveScan_latest, Option.map_eq_some_iff] at h
  obtain ⟨l, hl, rfl⟩ := h
  obtain ⟨hlast, _⟩ := Option.filter_eq_some_iff.mp hl
  obtain ⟨hmem, hs⟩ := lastOf_some hlast
  have hid : l.id = id := by simpa using (Bool.and_eq_true_iff.mp hs).1
  exact ⟨hid, hid ▸ mem_map_of_mem hmem⟩

theorem byId_filter {ids : List Nat} {m : Nat → Option Entry}
    (hm : ∀ k e, m k = some e → e.id = k ∧ k ∈ ids) (id : Nat) :
    (byId ids m).filter (fun e => e.id == id) = (m id).toList := by
  have key : ∀ L : List Nat, L.Nodup →
      (L.filterMap m).filter (fun e => e.id == id) = if id ∈ L then (m id).toList else [] := by
    intro L hL
    induction L with
    | nil => rfl
    | cons k L ih =>
      obtain ⟨hk, hL⟩ := nodup_cons.mp hL
      have ih := ih hL
      cases hmk : m k with
      | none =>
        rw [filterMap_cons_none hmk, ih]
        by_cases hid : id = k
        · subst hid; simp [hmk]
        · simp [hid]
      | some e =>
        have hek : e.id = k := (hm k e hmk).1
        rw [filterMap_cons_some hmk, filter_cons]
        by_cases hid : id = k
        · subst hid; simp [hek, ih, hk, hmk]
        · simp [hek, ih, hid, Ne.symm hid]
  have hnodup : (ids.dedup.insertionSort (· ≤ ·)).Nodup :=
    (perm_insertionSort _ _).nodup_iff.mpr ids.nodup_dedup
  rw [byId, key _ hnodup]
  split
  · rfl
  · next hnot =>
    cases hmi : m id with
    | none => rfl
    | some e =>
      refine absurd ?_ hnot
      rw [(perm_insertionSort _ _).mem_iff, mem_dedup]
      exact (hm id e hmi).2

theorem resolvePlain_ofId (d' d : Decisions) (ls : List LogLine) (now : Int) (id : Nat) :
    ofId d' id (resolvePlain ls d now) =
      ((((resolveScan d ls).latest id).filter (survives (resolveScan d ls) now)).map
        fun e => (⟨e, none⟩ : LogLine)).toList := by
  have hlat : ∀ k e, (resolveScan d ls).latest k = some e → e.id = k ∧ k ∈ ls.map LogLine.id :=
    fun k e h => resolveScan_latest_id h
  have hvis : ∀ e : Entry, LogLine.visible d' ⟨e, none⟩ = true := fun e => rfl
  have hcomm : ∀ es : List Entry,
      ((es.filter (survives (resolveScan d ls) now)).filter
        ((fun l : LogLine => l.id == id && l.visible d') ∘ fun e => ⟨e, none⟩)) =
      (es.filter fun e => e.id == id).filter (survives (resolveScan d ls) now) := by
    intro es
    rw [filter_filter, filter_filter]
    refine filter_congr fun e _ => ?_
    simp [hvis, LogLine.id, Bool.and_comm]
  unfold ofId resolvePlain
  simp only [filter_map]
  rw [hcomm, byId_filter hlat]
  cases (resolveScan d ls).latest id with
  | none => rfl
  | some e => cases hs : survives (resolveScan d ls) now e <;> simp [Option.filter, hs]

theorem resolvePlain_lastVisible (d' d : Decisions) (ls : List LogLine) (now : Int) (id : Nat) :
    lastVisible d' id (resolvePlain ls d now) =
      (((resolveScan d ls).latest id).filter (survives (resolveScan d ls) now)).map
        fun e => ⟨e, none⟩ := by
  have h : lastVisible d' id (resolvePlain ls d now) =
      (ofId d' id (resolvePlain ls d now)).getLast? := rfl
  rw [h, resolvePlain_ofId]
  cases (((resolveScan d ls).latest id).filter (survives (resolveScan d ls) now)) <;> rfl

/-- What an id sees in the output under a later table: its surviving plain entry, or else the last
of its stamped lines that the table makes visible. -/
theorem resolveLines_lastVisible {d d' : Decisions} (hd : d'.Extends d) (ls : List LogLine)
    (now : Int) (id : Nat) :
    lastVisible d' id (resolveLines ls d now) =
      ((((resolveScan d ls).latest id).filter (survives (resolveScan d ls) now)).map
        fun e => ⟨e, none⟩).or
      (lastOf (fun l => l.id == id && l.visible d' && !l.isPlain) ls) := by
  rw [resolveLines, lastVisible_append, resolvePlain_lastVisible, resolveScan_evidence]
  congr 1
  rw [lastVisible, lastOf_filter]
  refine lastOf_congr fun l _ => ?_
  cases hv : l.visible d' with
  | false => simp
  | true =>
    rcases l.visible_or_undecided hd hv with h | h <;> simp [isEvidence, h]

end Scriva
