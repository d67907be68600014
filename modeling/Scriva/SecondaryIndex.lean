import Scriva.Index

namespace Scriva

open KeyedLog JsonText List

def expDigits (x : Int) : List Char :=
  'e' :: (if x < 0 then '-' else '+') :: Rfc3339.pad 2 x.natAbs

/-- `%v` of a float: the shortest digits, with an exponent below `1e-4` and from `1e+06` on. -/
def floatText (d : Decimal) : List Char :=
  if d.mant ≠ 0 ∧ (d.point - 1 < -4 ∨ 6 ≤ d.point - 1) then
    { d.sciLit with exp := none }.text ++ expDigits (d.point - 1)
  else d.plainLit.text

mutual

def printValue : Value → List Char
  | .null => "<nil>".toList
  | .bool b => (toString b).toList
  | .int n => (intLit n).text
  | .float d => floatText d
  | .str s => s.toList
  | .list xs => '[' :: (printElems xs ++ [']'])
  | .map kvs => "map[".toList ++ printMembers kvs ++ [']']

def printElems : List Value → List Char
  | [] => []
  | [x] => printValue x
  | x :: y :: xs => printValue x ++ ' ' :: printElems (y :: xs)

def printMembers : Data → List Char
  | [] => []
  | [(k, v)] => k.toList ++ ':' :: printValue v
  | (k, v) :: kv :: kvs => k.toList ++ ':' :: (printValue v ++ ' ' :: printMembers (kv :: kvs))

end

def toIndexKey (v : Value) : String :=
  String.ofList (printValue v)

def isString : Value → Bool
  | .str _ => true
  | _ => false

structure SecondaryIndex where
  field : String
  unique : Bool
  buckets : String → Nat → Bool
  reverse : Nat → Option String

def SecondaryIndex.empty (field : String) (unique : Bool) : SecondaryIndex :=
  { field := field, unique := unique, buckets := fun _ _ => false, reverse := fun _ => none }

def acceptsIn (field : String) (v : Value) : Bool :=
  field != keyField || isString v

def setMember (b : String → Nat → Bool) (key : String) (id : Nat) (x : Bool) :
    String → Nat → Bool :=
  fun k i => if k = key ∧ i = id then x else b k i

def SecondaryIndex.add (s : SecondaryIndex) (v : Value) (id : Nat) : SecondaryIndex :=
  if acceptsIn s.field v then
    { s with
      buckets := setMember s.buckets (toIndexKey v) id true
      reverse := Function.update s.reverse id (some (toIndexKey v)) }
  else s

def SecondaryIndex.remove (s : SecondaryIndex) (id : Nat) : SecondaryIndex :=
  match s.reverse id with
  | none => s
  | some key =>
    { s with
      buckets := setMember s.buckets key id false
      reverse := Function.update s.reverse id none }

def SecondaryIndex.update (s : SecondaryIndex) (id : Nat) (v : Value) : SecondaryIndex :=
  if acceptsIn s.field v then
    let buckets := match s.reverse id with
      | none => s.buckets
      | some old => setMember s.buckets old id false
    { s with
      buckets := setMember buckets (toIndexKey v) id true
      reverse := Function.update s.reverse id (some (toIndexKey v)) }
  else s.remove id

def bucketKey (field : String) (data : Option Data) : Option String :=
  ((data.getD []).get field).bind fun v =>
    if acceptsIn field v then some (toIndexKey v) else none

def latestData (d : Decisions) (ls : List LogLine) : Nat → Option (Option Data) :=
  replay LogLine.id (fun l _ => if l.entry.op = .delete then none else some l.entry.data)
    (fun _ => none) (ls.filter (·.visible d))

def SecondaryIndex.rebuild (s : SecondaryIndex) (segs : List Segment) (d : Decisions) :
    SecondaryIndex :=
  let rev := fun id => (latestData d (logOf segs) id).bind (bucketKey s.field)
  { s with buckets := fun key id => rev id == some key, reverse := rev }

/-- One replayed line: an insert or update moves the id, or drops it when the field is absent. -/
def SecondaryIndex.replayOne (s : SecondaryIndex) (e : Entry) : SecondaryIndex :=
  match e.op with
  | .delete => s.remove e.id
  | _ =>
    match (e.data.getD []).get s.field with
    | some v => s.update e.id v
    | none => s.remove e.id

def SecondaryIndex.replay (s : SecondaryIndex) (seg : Segment) (start : Nat) (d : Decisions) :
    SecondaryIndex :=
  (scanFrom seg start).foldl
    (fun s p => if entryVisible p.2.tx d then s.replayOne p.2.entry else s) s

def SecondaryIndex.Consistent (s : SecondaryIndex) : Prop :=
  ∀ key id, s.buckets key id = (s.reverse id == some key)

theorem SecondaryIndex.rebuild_consistent (s : SecondaryIndex) (segs : List Segment)
    (d : Decisions) : (s.rebuild segs d).Consistent :=
  fun _ _ => rfl

theorem SecondaryIndex.remove_reverse (s : SecondaryIndex) (id : Nat) :
    (s.remove id).reverse = Function.update s.reverse id none := by
  unfold SecondaryIndex.remove
  split
  · next h => exact (Function.update_eq_self_iff.mpr h.symm).symm
  · rfl

@[simp] theorem SecondaryIndex.remove_field (s : SecondaryIndex) (id : Nat) :
    (s.remove id).field = s.field ∧ (s.remove id).unique = s.unique := by
  unfold SecondaryIndex.remove
  split <;> exact ⟨rfl, rfl⟩

theorem SecondaryIndex.Consistent.remove {s : SecondaryIndex} (h : s.Consistent) (id : Nat) :
    (s.remove id).Consistent := by
  intro key i
  unfold SecondaryIndex.remove
  split
  · exact h key i
  · next old hold =>
    by_cases hi : i = id
    · subst hi
      have hk := h key i
      rw [hold] at hk
      by_cases hkey : key = old
      · simp [setMember, hkey]
      · simp [setMember, hkey, hk, Ne.symm hkey]
    · simp [setMember, hi, h key i]

theorem SecondaryIndex.update_reverse (s : SecondaryIndex) (id : Nat) (v : Value) :
    (s.update id v).reverse = Function.update s.reverse id
      (if acceptsIn s.field v then some (toIndexKey v) else none) := by
  unfold SecondaryIndex.update
  split
  · rfl
  · exact s.remove_reverse id

@[simp] theorem SecondaryIndex.update_field (s : SecondaryIndex) (id : Nat) (v : Value) :
    (s.update id v).field = s.field ∧ (s.update id v).unique = s.unique := by
  unfold SecondaryIndex.update
  split
  · exact ⟨rfl, rfl⟩
  · exact s.remove_field id

theorem SecondaryIndex.Consistent.update {s : SecondaryIndex} (h : s.Consistent) (id : Nat)
    (v : Value) : (s.update id v).Consistent := by
  unfold SecondaryIndex.update
  split
  · intro key i
    by_cases hi : i = id
    · subst hi
      have hk := h key i
      cases hold : s.reverse i with
      | none =>
        rw [hold] at hk
        by_cases hkey : key = toIndexKey v
        · simp [setMember, hkey]
        · simp [setMember, hkey, hk, Ne.symm hkey]
      | some old =>
        rw [hold] at hk
        by_cases hkey : key = toIndexKey v
        · simp [setMember, hkey]
        · by_cases hko : key = old
          · subst hko; simp [setMember, hkey, Ne.symm hkey]
          · simp [setMember, hkey, hko, hk, Ne.symm hkey, Ne.symm hko]
    · cases s.reverse id <;> simp [setMember, hi, h key i]
  · exact h.remove id

def LogLine.bucket (field : String) (l : LogLine) : Option String :=
  if l.entry.op = .delete then none else bucketKey field l.entry.data

def bucketReplay (field : String) (rev : Nat → Option String) (d : Decisions)
    (ls : List LogLine) : Nat → Option String :=
  replay LogLine.id (fun l _ => l.bucket field) rev (ls.filter (·.visible d))

theorem bucketReplay_append (field : String) (rev : Nat → Option String) (d : Decisions)
    (xs ys : List LogLine) :
    bucketReplay field rev d (xs ++ ys) = bucketReplay field (bucketReplay field rev d xs) d ys := by
  unfold bucketReplay
  rw [filter_append, KeyedLog.replay_append]

theorem bucketReplay_cons (field : String) (rev : Nat → Option String) (d : Decisions)
    (l : LogLine) (ls : List LogLine) :
    bucketReplay field rev d (l :: ls) =
      bucketReplay field
        (if l.visible d then apply LogLine.id (fun l _ => l.bucket field) rev l else rev) d ls := by
  unfold bucketReplay
  by_cases h : l.visible d = true
  · simp only [h, filter_cons_of_pos, if_true, KeyedLog.replay_cons]
  · simp [h]

theorem bucketReplay_congr {field : String} {rev : Nat → Option String} {d d' : Decisions}
    {ls : List LogLine} (h : ∀ l ∈ ls, l.visible d = l.visible d') :
    bucketReplay field rev d ls = bucketReplay field rev d' ls := by
  unfold bucketReplay
  rw [filter_congr h]

theorem SecondaryIndex.rebuild_reverse (s : SecondaryIndex) (segs : List Segment)
    (d : Decisions) :
    (s.rebuild segs d).reverse = bucketReplay s.field (fun _ => none) d (logOf segs) := by
  funext id
  refine replay_bind (fun l _ v => ?_) _ id
  unfold LogLine.bucket
  split <;> rfl

theorem SecondaryIndex.replayOne_spec (s : SecondaryIndex) (l : LogLine) :
    (s.replayOne l.entry).field = s.field ∧ (s.replayOne l.entry).unique = s.unique ∧
    (s.replayOne l.entry).reverse =
      apply LogLine.id (fun l _ => l.bucket s.field) s.reverse l ∧
    (s.Consistent → (s.replayOne l.entry).Consistent) := by
  have happly : apply LogLine.id (fun l _ => l.bucket s.field) s.reverse l =
      Function.update s.reverse l.entry.id (l.bucket s.field) := by
    funext k
    by_cases hk : l.entry.id = k
    · subst hk; simp [apply, LogLine.id]
    · simp [apply, LogLine.id, hk, Function.update_of_ne (Ne.symm hk)]
  rw [happly]
  have hremove : l.bucket s.field = none →
      (s.remove l.entry.id).field = s.field ∧ (s.remove l.entry.id).unique = s.unique ∧
      (s.remove l.entry.id).reverse = Function.update s.reverse l.entry.id (l.bucket s.field) ∧
      (s.Consistent → (s.remove l.entry.id).Consistent) := by
    intro hb
    rw [hb]
    exact ⟨(s.remove_field _).1, (s.remove_field _).2, s.remove_reverse _, fun h => h.remove _⟩
  have hput : l.entry.op ≠ .delete →
      (match (l.entry.data.getD []).get s.field with
        | some v => s.update l.entry.id v
        | none => s.remove l.entry.id) = s.replayOne l.entry := by
    intro hop
    unfold SecondaryIndex.replayOne
    cases h : l.entry.op <;> simp_all
  by_cases hop : l.entry.op = .delete
  · have : s.replayOne l.entry = s.remove l.entry.id := by
      simp [SecondaryIndex.replayOne, hop]
    rw [this]
    exact hremove (by simp [LogLine.bucket, hop])
  · rw [← hput hop]
    cases hv : (l.entry.data.getD []).get s.field with
    | none => exact hremove (by simp [LogLine.bucket, hop, bucketKey, hv])
    | some v =>
      refine ⟨(s.update_field _ v).1, (s.update_field _ v).2, ?_, fun h => h.update _ v⟩
      rw [s.update_reverse]
      simp [LogLine.bucket, hop, bucketKey, hv]

theorem SecondaryIndex.replay_spec (s : SecondaryIndex) (seg : Segment) (start : Nat)
    (d : Decisions) :
    (s.replay seg start d).field = s.field ∧ (s.replay seg start d).unique = s.unique ∧
    (s.replay seg start d).reverse =
      bucketReplay s.field s.reverse d ((scanFrom seg start).map fun p => p.2.toLogLine) ∧
    (s.Consistent → (s.replay seg start d).Consistent) := by
  unfold SecondaryIndex.replay
  generalize scanFrom seg start = ps
  induction ps generalizing s with
  | nil => exact ⟨rfl, rfl, rfl, id⟩
  | cons p ps ih =>
    rw [foldl_cons, map_cons, bucketReplay_cons]
    by_cases hv : p.2.toLogLine.visible d = true
    · have hv' : entryVisible p.2.tx d = true := hv
      rw [if_pos hv, if_pos hv']
      obtain ⟨hf, hu, hr, hc⟩ := s.replayOne_spec p.2.toLogLine
      obtain ⟨hf', hu', hr', hc'⟩ := ih (s.replayOne p.2.entry)
      refine ⟨hf'.trans hf, hu'.trans hu, ?_, fun h => hc' (hc h)⟩
      rw [hr', hf, hr]
    · have hv' : ¬ entryVisible p.2.tx d = true := hv
      rw [if_neg hv, if_neg hv']
      exact ih s

/-- The reverse map determines a consistent index. -/
theorem SecondaryIndex.eq_of_reverse {s t : SecondaryIndex} (hf : s.field = t.field)
    (hu : s.unique = t.unique) (hr : s.reverse = t.reverse) (hs : s.Consistent)
    (ht : t.Consistent) : s = t := by
  obtain ⟨sf, su, sb, sr⟩ := s
  obtain ⟨tf, tu, tb, tr⟩ := t
  cases hf
  cases hu
  cases hr
  have hb : sb = tb := by
    funext k i
    exact (hs k i).trans (ht k i).symm
  rw [hb]

end Scriva
