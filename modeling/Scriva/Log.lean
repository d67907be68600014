import Scriva.Wire
import Scriva.Lib.KeyedLog

namespace Scriva

open KeyedLog List

inductive Verdict where
  | commit
  | abort
  | retireCommit
  | retireAbort
deriving DecidableEq, Repr

abbrev Decisions := Option (String → Option Verdict)

def Decisions.get (d : Decisions) (t : String) : Option Verdict :=
  d.bind fun f => f t

structure LogLine where
  entry : Entry
  tx : Option TxStamp
deriving DecidableEq, Repr

structure Line extends LogLine where
  len : Nat
  len_pos : 0 < len
deriving DecidableEq, Repr

structure Segment where
  num : Nat
  lines : List Line
deriving DecidableEq, Repr

def logOf (segs : List Segment) : List LogLine :=
  segs.flatMap fun s => s.lines.map Line.toLogLine

def LogLine.isPlain (l : LogLine) : Bool :=
  match l.tx with
  | none => true
  | some tx => tx.t == ""

def entryVisible (tx : Option TxStamp) (d : Decisions) : Bool :=
  match tx with
  | none => true
  | some tx => tx.t == "" || d.get tx.t == some .commit || d.get tx.t == some .retireCommit

def LogLine.visible (d : Decisions) (l : LogLine) : Bool :=
  entryVisible l.tx d

def LogLine.undecided (d : Decisions) (l : LogLine) : Bool :=
  match l.tx with
  | none => false
  | some tx => tx.t != "" && d.get tx.t == none

def Decisions.Extends (d' d : Decisions) : Prop :=
  ∀ t v, d.get t = some v → d'.get t = some v

variable {l : LogLine} {d d' : Decisions}

theorem LogLine.visible_of_isPlain (h : l.isPlain = true) (d : Decisions) : l.visible d = true := by
  unfold isPlain at h
  unfold visible entryVisible
  split at h <;> simp_all

theorem LogLine.isPlain_of_visible_nil (h : l.visible none = true) : l.isPlain = true := by
  cases htx : l.tx with
  | none => simp [isPlain, htx]
  | some tx => simpa [visible, entryVisible, isPlain, htx, Decisions.get] using h

/-- Later decisions hide no line. -/
theorem LogLine.visible_extends (hd : d'.Extends d) (h : l.visible d = true) :
    l.visible d' = true := by
  unfold visible entryVisible at h ⊢
  split at h
  · rfl
  · next tx =>
    simp only [Bool.or_eq_true, beq_iff_eq] at h ⊢
    rcases h with (h | h) | h
    · exact Or.inl (Or.inl h)
    · exact Or.inl (Or.inr (hd _ _ h))
    · exact Or.inr (hd _ _ h)

theorem LogLine.visible_or_undecided (hd : d'.Extends d) (h : l.visible d' = true) :
    l.visible d = true ∨ l.undecided d = true := by
  cases htx : l.tx with
  | none => exact Or.inl (by simp [visible, entryVisible, htx])
  | some tx =>
    simp only [visible, entryVisible, undecided, htx] at h ⊢
    cases hg : d.get tx.t with
    | none => by_cases ht : tx.t = "" <;> simp [ht]
    | some v =>
      rw [hd _ _ hg] at h
      exact Or.inl h

theorem LogLine.undecided_not_visible (h : l.undecided d = true) :
    l.visible d = false ∧ l.isPlain = false := by
  cases htx : l.tx with
  | none => simp [undecided, htx] at h
  | some tx =>
    simp only [undecided, htx, Bool.and_eq_true, bne_iff_ne, beq_iff_eq] at h
    simp [visible, entryVisible, isPlain, htx, h.1, h.2]

structure Record where
  data : Option Data
  rev : Nat
  expiresAt : Int
  epoch : Nat
deriving DecidableEq, Repr

/-- The revision a replayed write gets: one more than before, but never below its own. -/
def nextRev (old : Nat) (e : Entry) : Nat :=
  max (old + 1) e.rev

def Record.act (e : Entry) (old : Option Record) : Option Record :=
  match e.op with
  | .delete => none
  | _ =>
    some { data := e.data, rev := nextRev (old.elim 0 Record.rev) e, expiresAt := e.expiresAt,
           epoch := e.epoch }

def LogLine.id (l : LogLine) : Nat :=
  l.entry.id

abbrev Records := Nat → Option Record

/-- The records of a log under a decision table: last visible writer wins, deletes remove. -/
def records (d : Decisions) (ls : List LogLine) : Records :=
  replay LogLine.id (fun l => Record.act l.entry) (fun _ => none) (ls.filter (·.visible d))

theorem records_append (d : Decisions) (xs ys : List LogLine) :
    records d (xs ++ ys) =
      replay LogLine.id (fun l => Record.act l.entry) (records d xs) (ys.filter (·.visible d)) := by
  unfold records
  rw [filter_append, replay_append]

theorem records_congr {ls : List LogLine} (h : ∀ l ∈ ls, l.visible d = l.visible d') :
    records d ls = records d' ls := by
  unfold records
  rw [filter_congr h]

def lastVisible (d : Decisions) (id : Nat) (ls : List LogLine) : Option LogLine :=
  lastOf (fun l => l.id == id && l.visible d) ls

def Record.live (r : Record) : Option Data × Int :=
  (r.data, r.expiresAt)

def LogLine.live (l : LogLine) : Option (Option Data × Int) :=
  match l.entry.op with
  | .delete => none
  | _ => some (l.entry.data, l.entry.expiresAt)

theorem records_concat (d : Decisions) (ls : List LogLine) (l : LogLine) (id : Nat) :
    records d (ls ++ [l]) id =
      if l.id = id ∧ l.visible d = true then Record.act l.entry (records d ls id)
      else records d ls id := by
  unfold records
  rw [filter_append]
  by_cases hv : l.visible d = true
  · simp only [hv, filter_cons_of_pos, filter_nil, and_true]
    rw [replay_concat, apply]
  · simp [hv]

theorem act_live (e : Entry) (tx : Option TxStamp) (old : Option Record) :
    (Record.act e old).map Record.live = (⟨e, tx⟩ : LogLine).live := by
  unfold Record.act LogLine.live
  cases e.op <;> rfl

theorem records_live (d : Decisions) (ls : List LogLine) (id : Nat) :
    (records d ls id).map Record.live = (lastVisible d id ls).bind LogLine.live := by
  induction ls using List.reverseRecOn with
  | nil => rfl
  | append_singleton ls l ih =>
    rw [records_concat, lastVisible, lastOf_concat]
    by_cases h : l.id = id ∧ l.visible d = true
    · rw [if_pos h, act_live _ l.tx]
      simp [h.1, h.2]
    · rw [if_neg h, ih, if_neg (by simpa using h)]
      rfl

/-- The revision behind one more line of an id: a delete starts over. -/
def revStep (r : Nat) (l : LogLine) : Nat :=
  if l.entry.op = .delete then 0 else nextRev r l.entry

def revAfter (id : Nat) (ls : List LogLine) : Nat :=
  (ls.filter fun l => l.id == id).foldl revStep 0

theorem revAfter_concat (id : Nat) (ls : List LogLine) (l : LogLine) :
    revAfter id (ls ++ [l]) = if l.id = id then revStep (revAfter id ls) l else revAfter id ls := by
  by_cases hid : l.id = id <;> simp [revAfter, hid]

def LogLine.recordAt (rev : Nat) (l : LogLine) : Option Record :=
  if l.entry.op = .delete then none
  else some { data := l.entry.data, rev := rev, expiresAt := l.entry.expiresAt,
              epoch := l.entry.epoch }

theorem act_eq_recordAt (l : LogLine) (old : Option Record) :
    Record.act l.entry old = l.recordAt (nextRev (old.elim 0 Record.rev) l.entry) := by
  unfold Record.act LogLine.recordAt
  cases l.entry.op <;> rfl

/-- The record of an id is the one on its last visible line. -/
theorem records_eq (d : Decisions) (ls : List LogLine) (id : Nat) :
    records d ls id = (lastVisible d id ls).bind
      (LogLine.recordAt (revAfter id (ls.filter (·.visible d)))) ∧
    (records d ls id).elim 0 Record.rev = revAfter id (ls.filter (·.visible d)) := by
  induction ls using List.reverseRecOn with
  | nil => exact ⟨rfl, rfl⟩
  | append_singleton ls l ih =>
    obtain ⟨ihat, ihrev⟩ := ih
    rw [records_concat, lastVisible, lastOf_concat, filter_append]
    by_cases hv : l.visible d = true
    · rw [filter_cons_of_pos hv, filter_nil, revAfter_concat]
      by_cases hid : l.id = id
      · simp only [hid, hv, and_self, if_true, beq_self_eq_true, Bool.and_self, Option.bind_some,
          act_eq_recordAt, ihrev]
        unfold LogLine.recordAt revStep
        by_cases hop : l.entry.op = .delete <;> simp [hop]
      · simp only [hid, hv, false_and, if_false, beq_iff_eq, Bool.and_true]
        exact ⟨ihat, ihrev⟩
    · rw [filter_cons_of_neg hv, filter_nil, append_nil]
      simp only [hv, and_false, if_false, Bool.and_false, Bool.false_eq_true]
      exact ⟨ihat, ihrev⟩

def ofId (d : Decisions) (id : Nat) (ls : List LogLine) : List LogLine :=
  ls.filter fun l => l.id == id && l.visible d

theorem ofId_append (d : Decisions) (id : Nat) (xs ys : List LogLine) :
    ofId d id (xs ++ ys) = ofId d id xs ++ ofId d id ys :=
  filter_append xs ys

def recordOf (ls : List LogLine) : Option Record :=
  ls.getLast?.bind (LogLine.recordAt (ls.foldl revStep 0))

theorem records_eq_recordOf (d : Decisions) (ls : List LogLine) (id : Nat) :
    records d ls id = recordOf (ofId d id ls) := by
  rw [(records_eq d ls id).1, revAfter, filter_filter]
  rfl

theorem lastVisible_append (d : Decisions) (id : Nat) (xs ys : List LogLine) :
    lastVisible d id (xs ++ ys) = (lastVisible d id ys).or (lastVisible d id xs) :=
  lastOf_append xs ys

theorem lastVisible_cons_plain (d : Decisions) {p : LogLine} (hp : p.isPlain = true)
    (post : List LogLine) :
    lastVisible d p.id (p :: post) = (lastVisible d p.id post).or (some p) := by
  rw [lastVisible, lastOf_cons, if_pos (by simp [p.visible_of_isPlain hp])]
  rfl

end Scriva
