import Scriva.OrderedView
import Scriva.Lib.Runs
import Mathlib.Data.Finset.Card

namespace Scriva

open List Function

/-- A `SecondaryIndex` with the keys of its map of buckets, whether or not a bucket has an id, and
with the keys that more than one id has. -/
structure BucketIndex extends OrderedIndex where
  keys : List String
  dups : Finset String

/-- What `Load` reads of a file. Older versions wrote no kind. -/
structure SidxFile where
  kind : String
  keys : List String
  entries : List (String × Nat)

def IndexKind.text : IndexKind → String
  | .numeric => "numeric"
  | .string => "string"
  | .mixed => "mixed"
  | .empty => ""

def parseIndexKind (s : String) : IndexKind :=
  if s = "numeric" then .numeric
  else if s = "string" then .string
  else if s = "mixed" then .mixed
  else .empty

def inferKind (parses : String → Bool) (keys : List String) : IndexKind :=
  if keys.all parses then .numeric else .string

namespace BucketIndex

section

variable (x : BucketIndex)

def ids (key : String) : Finset Nat :=
  (x.lookup key).toFinset

def bucket (key : String) : Option (Finset Nat) :=
  if key ∈ x.keys then some (x.ids key) else none

def noteLocked (key : String) : BucketIndex :=
  { x with dups := if 1 < (x.ids key).card then insert key x.dups else x.dups.erase key }

def leave (key : String) (id : Nat) : BucketIndex :=
  let y := x.toOrderedIndex.leave key id
  noteLocked
    { toOrderedIndex := y
      keys := if y.hasBucket key then x.keys else x.keys.filter (· != key)
      dups := x.dups } key

def enter (v : Value) (id : Nat) : BucketIndex :=
  let key := toIndexKey v
  let y := OrderedIndex.observe
    { x.toOrderedIndex with
      entries := x.entries.insert (key, id)
      reverse := Function.update x.reverse id (some key) } v
  noteLocked
    { toOrderedIndex := if key ∈ x.keys then y else y.orderedInsert key (valKind v).2
      keys := if key ∈ x.keys then x.keys else key :: x.keys
      dups := x.dups } key

def add (v : Value) (id : Nat) : BucketIndex :=
  if acceptsIn x.field v then x.enter v id else x

def remove (id : Nat) : BucketIndex :=
  match x.reverse id with
  | none => x
  | some key => { x.leave key id with reverse := Function.update x.reverse id none }

def update (id : Nat) (v : Value) : BucketIndex :=
  if acceptsIn x.field v then
    match x.reverse id with
    | none => x.enter v id
    | some old => (x.leave old id).enter v id
  else x.remove id

def put (e : Entry) : BucketIndex :=
  match e.op, (e.data.getD []).get x.field with
  | .delete, _ => x.remove e.id
  | _, some v => x.update e.id v
  | _, none => x.remove e.id

def replay (ls : List LogLine) (d : Decisions) : BucketIndex :=
  ls.foldl (fun x l => if l.visible d then x.put l.entry else x) x

end

def dupsOf (x : OrderedIndex) (keys : List String) : Finset String :=
  keys.toFinset.filter fun key => 1 < (x.lookup key).toFinset.card

def fresh (x : OrderedIndex) (keys : List String) : BucketIndex :=
  { toOrderedIndex := x, keys := keys, dups := dupsOf x keys }

def new (field : String) (unique : Bool) : BucketIndex :=
  fresh (OrderedIndex.new field unique) []

def rebuild (x : BucketIndex) (ls : List LogLine) (d : Decisions) : BucketIndex :=
  let y := x.toOrderedIndex.rebuild ls d
  fresh y (y.entries.map Prod.fst).dedup

def snapshot (x : BucketIndex) : SidxFile :=
  { kind := x.kind.text, keys := x.keys, entries := x.entries }

def load (x : BucketIndex) (parses : String → Bool) (f : SidxFile) : BucketIndex :=
  let kind := parseIndexKind f.kind
  let kind := if kind = .empty ∧ f.keys ≠ [] then inferKind parses f.keys else kind
  fresh
    { x.toOrderedIndex with
      entries := f.entries
      reverse := fun id => (f.entries.find? (·.2 == id)).map Prod.fst
      kind := kind
      sorted := OrderedIndex.buildSorted f.keys kind } f.keys

/-- What holds of the buckets, the duplicates and the sorted keys, also while an id is moved. -/
structure Tidy (x : BucketIndex) : Prop extends x.toOrderedIndex.Sorted where
  nodup : x.keys.Nodup
  filled : ∀ key, key ∈ x.keys ↔ x.hasBucket key = true
  dups : ∀ key, key ∈ x.dups ↔ 1 < (x.ids key).card

structure Sound (x : BucketIndex) : Prop extends Tidy x where
  relation : ∀ id key, x.reverse id = some key ↔ (key, id) ∈ x.entries

variable {x y : BucketIndex} {key : String} {id : Nat} {v : Value}

theorem Tidy.noted (hd : ∀ k, k ∈ x.dups ↔ 1 < (x.ids k).card) (hdups : y.dups = x.dups)
    (hother : ∀ k i, k ≠ key → ((k, i) ∈ y.entries ↔ (k, i) ∈ x.entries))
    (hs : y.toOrderedIndex.Sorted) (hn : y.keys.Nodup)
    (hf : ∀ k, k ∈ y.keys ↔ y.hasBucket k = true) : (y.noteLocked key).Tidy := by
  refine ⟨hs, hn, hf, fun k => ?_⟩
  show k ∈ (y.noteLocked key).dups ↔ 1 < (y.ids k).card
  unfold noteLocked
  dsimp only
  by_cases hk : k = key
  · subst hk
    split <;> simp [*]
  · have hids : y.ids k = x.ids k := by
      ext i
      simp only [ids, mem_toFinset, OrderedIndex.mem_lookup]
      exact hother k i hk
    split <;> simp [hk, hids, hdups, hd k]

theorem mem_leave {k : String} {i : Nat} : (k, i) ∈ (x.leave key id).entries ↔
    (k, i) ∈ x.entries ∧ (k, i) ≠ (key, id) := by
  show (k, i) ∈ (x.toOrderedIndex.leave key id).entries ↔ _
  rw [(OrderedIndex.leave_rest _ key id).1, mem_filter, bne_iff_ne]

theorem Tidy.leave (h : x.Tidy) (key : String) (id : Nat) : (x.leave key id).Tidy := by
  have hother : ∀ k i, k ≠ key → ((k, i) ∈ (x.leave key id).entries ↔ (k, i) ∈ x.entries) := by
    intro k i hk
    rw [mem_leave]
    exact and_iff_left fun heq => hk (congrArg Prod.fst heq)
  have hbucket : ∀ k, k ≠ key → ((x.leave key id).hasBucket k = true ↔ k ∈ x.keys) := by
    intro k hk
    rw [h.filled, OrderedIndex.hasBucket_iff, OrderedIndex.hasBucket_iff]
    exact exists_congr fun i => hother k i hk
  have hthere : (x.leave key id).hasBucket key = true → key ∈ x.keys := by
    rw [h.filled, OrderedIndex.hasBucket_iff, OrderedIndex.hasBucket_iff]
    exact Exists.imp fun i hi => (mem_leave.mp hi).1
  refine Tidy.noted h.dups rfl hother (h.toSorted.leave key id) ?_ fun k => ?_
  · split
    · exact h.nodup
    · exact h.nodup.filter _
  · show k ∈ (if (x.leave key id).hasBucket key then _ else _) ↔ (x.leave key id).hasBucket k = true
    by_cases hk : k = key
    · subst hk
      split <;> simp_all
    · split <;> simp [hk, hbucket k hk]

theorem enter_eq (h : x.Tidy) (v : Value) (id : Nat) :
    (x.enter v id).toOrderedIndex = x.toOrderedIndex.enter v id := by
  unfold enter noteLocked OrderedIndex.enter
  dsimp only
  simp only [h.filled, List.insert, elem_iff]

theorem Tidy.mem_enter (h : x.Tidy) {k : String} {i : Nat} : (k, i) ∈ (x.enter v id).entries ↔
    (k, i) = (toIndexKey v, id) ∨ (k, i) ∈ x.entries := by
  rw [enter_eq h]
  exact OrderedIndex.mem_enter

theorem Tidy.enter (h : x.Tidy) (v : Value) (id : Nat) : (x.enter v id).Tidy := by
  have heq := enter_eq h v id
  refine Tidy.noted h.dups rfl (fun k i hk => ?_) (heq ▸ h.toSorted.enter v id) ?_ fun k => ?_
  · exact h.mem_enter.trans (or_iff_right fun heq => hk (congrArg Prod.fst heq))
  · split
    · exact h.nodup
    · next hnew => exact h.nodup.cons hnew
  · show k ∈ (if toIndexKey v ∈ x.keys then _ else _) ↔ (x.enter v id).hasBucket k = true
    rw [heq, OrderedIndex.hasBucket_enter, ← h.filled]
    split
    · next hthere => exact ⟨Or.inr, fun hk => hk.elim (fun hk => hk ▸ hthere) fun hk => hk⟩
    · exact mem_cons

theorem leave_reverse (x : BucketIndex) (key : String) (id : Nat) :
    (x.leave key id).reverse = x.reverse := by
  show (x.toOrderedIndex.leave key id).reverse = _
  unfold OrderedIndex.leave OrderedIndex.orderedRemove
  dsimp only
  split_ifs <;> rfl

theorem enter_reverse (x : BucketIndex) (v : Value) (id : Nat) :
    (x.enter v id).reverse = Function.update x.reverse id (some (toIndexKey v)) := by
  unfold enter noteLocked OrderedIndex.orderedInsert
  dsimp only
  split_ifs <;> rfl

/-- The relation with one id left out: it is in no bucket. -/
def Without (id : Nat) (x : BucketIndex) : Prop :=
  ∀ i k, (k, i) ∈ x.entries ↔ i ≠ id ∧ x.reverse i = some k

theorem Sound.without (h : x.Sound) (hnone : x.reverse id = none) : x.Without id := by
  intro i k
  rw [← h.relation, iff_and_self]
  rintro hi rfl
  rw [hnone] at hi
  cases hi

theorem Sound.without_leave (h : x.Sound) (hsome : x.reverse id = some key) :
    (x.leave key id).Without id := by
  intro i k
  rw [mem_leave, leave_reverse, ← h.relation]
  constructor
  · rintro ⟨hi, hne⟩
    refine ⟨fun heq => hne ?_, hi⟩
    subst heq
    rw [Option.some.inj (hi.symm.trans hsome)]
  · rintro ⟨hne, hi⟩
    exact ⟨hi, fun heq => hne (congrArg Prod.snd heq)⟩

theorem Sound.enter (h : x.Tidy) (hw : x.Without id) (v : Value) : (x.enter v id).Sound := by
  refine ⟨h.enter v id, fun i k => ?_⟩
  rw [h.mem_enter, enter_reverse, hw]
  by_cases hi : i = id
  · subst hi
    simp [eq_comm]
  · simp [hi]

theorem Sound.remove (h : x.Sound) (id : Nat) : (x.remove id).Sound := by
  unfold BucketIndex.remove
  split
  · exact h
  · next key hkey =>
    have htidy := h.toTidy.leave key id
    have hsorted := htidy.toSorted
    refine ⟨⟨⟨hsorted.none, hsorted.keys, hsorted.typed, hsorted.ascends⟩, htidy.nodup, htidy.filled,
      htidy.dups⟩, fun i k => ?_⟩
    rw [h.without_leave hkey i k, leave_reverse]
    by_cases hi : i = id
    · subst hi
      simp
    · simp [hi]

theorem Sound.add (h : x.Sound) (hnone : x.reverse id = none) (v : Value) : (x.add v id).Sound := by
  unfold BucketIndex.add
  split
  · exact Sound.enter h.toTidy (h.without hnone) v
  · exact h

theorem Sound.update (h : x.Sound) (id : Nat) (v : Value) : (x.update id v).Sound := by
  unfold BucketIndex.update
  split
  · split
    · next hnone => exact Sound.enter h.toTidy (h.without hnone) v
    · next old hold => exact Sound.enter (h.toTidy.leave old id) (h.without_leave hold) v
  · exact h.remove id

theorem Sound.put (h : x.Sound) (e : Entry) : (x.put e).Sound := by
  unfold BucketIndex.put
  split
  · exact h.remove _
  · exact h.update _ _
  · exact h.remove _

theorem Sound.replay (h : x.Sound) (ls : List LogLine) (d : Decisions) : (x.replay ls d).Sound := by
  unfold BucketIndex.replay
  induction ls generalizing x with
  | nil => exact h
  | cons l ls ih =>
    refine ih ?_
    dsimp only
    split
    · exact h.put l.entry
    · exact h

theorem Sound.fresh {o : OrderedIndex} {keys : List String} (hs : o.Sorted) (hn : keys.Nodup)
    (hf : ∀ key, key ∈ keys ↔ o.hasBucket key = true)
    (hr : ∀ id key, o.reverse id = some key ↔ (key, id) ∈ o.entries) : (fresh o keys).Sound := by
  refine ⟨⟨hs, hn, hf, fun key => ?_⟩, hr⟩
  show key ∈ dupsOf o keys ↔ _
  unfold dupsOf
  rw [Finset.mem_filter, mem_toFinset, hf, OrderedIndex.hasBucket_iff]
  refine and_iff_right_of_imp fun hcard => ?_
  obtain ⟨id, hid⟩ := Finset.card_pos.mp (Nat.zero_lt_of_lt hcard)
  exact ⟨id, OrderedIndex.mem_lookup.mp (mem_toFinset.mp hid)⟩

theorem Sound.rebuild (x : BucketIndex) (ls : List LogLine) (d : Decisions) :
    (x.rebuild ls d).Sound := by
  refine Sound.fresh (OrderedIndex.follows_rebuild _ ls d).toSorted (nodup_dedup _)
    (OrderedIndex.mem_dedup_keys _) fun id key => ?_
  show (fieldValues x.field d ls id).map toIndexKey = some key ↔
    (key, id) ∈ (OrderedIndex.found x.field d ls).map fun p => (toIndexKey p.2, p.1)
  rw [Option.map_eq_some_iff, mem_map]
  constructor
  · rintro ⟨v, hv, rfl⟩
    exact ⟨(id, v), OrderedIndex.mem_found.mpr hv, rfl⟩
  · rintro ⟨⟨i, v⟩, hmem, heq⟩
    cases heq
    exact ⟨v, OrderedIndex.mem_found.mp hmem, rfl⟩

theorem Sound.load (h : y.Sound) (x : BucketIndex) (parses : String → Bool) (kind : String) :
    (x.load parses ⟨kind, y.keys, y.entries⟩).Sound := by
  refine Sound.fresh (OrderedIndex.sorted_built (fun he => ?_) h.nodup h.filled rfl) h.nodup h.filled
    fun id key => ?_
  · have hnil : y.keys = [] := by
      by_contra hne
      unfold inferKind at he
      grind
    refine eq_nil_iff_forall_not_mem.mpr fun ⟨key, id⟩ hmem => ?_
    have hkey := (h.filled key).mpr (OrderedIndex.hasBucket_iff.mpr ⟨id, hmem⟩)
    rw [hnil] at hkey
    cases hkey
  · have hfound : ∀ {p}, y.entries.find? (·.2 == id) = some p → y.reverse id = some p.1 := by
      intro p hp
      have hid : p.2 = id := by simpa using find?_some hp
      exact hid ▸ (h.relation p.2 p.1).mpr (mem_of_find?_eq_some hp)
    rw [← h.relation, Option.map_eq_some_iff]
    constructor
    · rintro ⟨p, hp, rfl⟩
      exact hfound hp
    · intro hr
      have hsome : (y.entries.find? (·.2 == id)).isSome = true :=
        find?_isSome.mpr ⟨(key, id), (h.relation id key).mp hr, by simp⟩
      obtain ⟨p, hp⟩ := Option.isSome_iff_exists.mp hsome
      exact ⟨p, hp, Option.some.inj ((hfound hp).symm.trans hr)⟩

end BucketIndex

/-- An index and the files that hold what it was at some time. -/
structure Kept where
  index : BucketIndex
  files : List SidxFile

namespace Kept

inductive Op where
  | add (v : Value) (id : Nat)
  | update (id : Nat) (v : Value)
  | remove (id : Nat)
  | replay (ls : List LogLine) (d : Decisions)
  | rebuild (ls : List LogLine) (d : Decisions)
  | persist
  | persistLegacy
  | load (n : Nat)

/-- `parses` says which keys `ParseFloat` takes, which matters for a file without a kind. -/
def step (parses : String → Bool) (s : Kept) : Op → Option Kept
  | .add v id => some { s with index := s.index.add v id }
  | .update id v => some { s with index := s.index.update id v }
  | .remove id => some { s with index := s.index.remove id }
  | .replay ls d => some { s with index := s.index.replay ls d }
  | .rebuild ls d => some { s with index := s.index.rebuild ls d }
  | .persist => some { s with files := s.index.snapshot :: s.files }
  | .persistLegacy => some { s with files := { s.index.snapshot with kind := "" } :: s.files }
  | .load n => s.files[n]?.map fun f => { s with index := s.index.load parses f }

def Adds (s : Kept) : Op → Prop
  | .add _ id => s.index.reverse id = none
  | _ => True

instance : ∀ (s : Kept) (op : Op), Decidable (s.Adds op)
  | s, .add _ id => inferInstanceAs (Decidable (s.index.reverse id = none))
  | _, .update .. | _, .remove .. | _, .replay .. | _, .rebuild .. | _, .persist
  | _, .persistLegacy | _, .load .. => inferInstanceAs (Decidable True)

structure Sound (s : Kept) : Prop where
  index : s.index.Sound
  files : ∀ f ∈ s.files, ∃ y : BucketIndex, y.Sound ∧ f.keys = y.keys ∧ f.entries = y.entries

variable {parses : String → Bool} {s t : Kept}

/-- Every operation keeps the bucket maps and the reverse map in agreement. -/
theorem Sound.step (h : s.Sound) {op : Op} (hok : s.Adds op) (hs : s.step parses op = some t) :
    t.Sound := by
  cases op with
  | add v id =>
    cases hs
    exact ⟨h.index.add hok v, h.files⟩
  | update id v =>
    cases hs
    exact ⟨h.index.update id v, h.files⟩
  | remove id =>
    cases hs
    exact ⟨h.index.remove id, h.files⟩
  | replay ls d =>
    cases hs
    exact ⟨h.index.replay ls d, h.files⟩
  | rebuild ls d =>
    cases hs
    exact ⟨BucketIndex.Sound.rebuild _ ls d, h.files⟩
  | persist | persistLegacy =>
    cases hs
    exact ⟨h.index, forall_mem_cons.mpr ⟨⟨s.index, h.index, rfl, rfl⟩, h.files⟩⟩
  | load n =>
    obtain ⟨⟨kind, keys, entries⟩, hf, rfl⟩ := Option.map_eq_some_iff.mp hs
    obtain ⟨y, hy, hkeys, hentries⟩ := h.files _ (mem_of_getElem? hf)
    cases hkeys
    cases hentries
    exact ⟨hy.load s.index parses kind, h.files⟩

theorem sound_new (field : String) (unique : Bool) : Sound ⟨.new field unique, []⟩ := by
  refine ⟨BucketIndex.Sound.fresh ?_ nodup_nil (fun key => ?_) fun id key => ?_, nofun⟩
  · exact ⟨fun _ => rfl, fun _ key => by simp [OrderedIndex.new, OrderedIndex.hasBucket], nofun, .nil⟩
  · simp [OrderedIndex.new, OrderedIndex.hasBucket]
  · simp [OrderedIndex.new]

theorem index_maps_agree {field : String} {unique : Bool}
    (hr : Runs.Reaches (step parses) Adds ⟨.new field unique, []⟩ s) :
    (∀ id key, s.index.reverse id = some key ↔ ∃ ids ∈ s.index.bucket key, id ∈ ids) ∧
      (∀ key, s.index.bucket key ≠ some ∅) ∧
      (∀ key, key ∈ s.index.dups ↔ ∃ ids ∈ s.index.bucket key, 2 ≤ ids.card) ∧
      (s.index.kind ≠ .mixed →
        (s.index.sorted.map OrderedKey.key).Nodup ∧
        (∀ key, key ∈ s.index.sorted.map OrderedKey.key ↔ (s.index.bucket key).isSome = true) ∧
        (∀ k ∈ s.index.sorted, k.val = valForKind s.index.kind k.key) ∧
        s.index.sorted.Pairwise fun a b => orderLessKey a b = true) := by
  obtain ⟨h, -⟩ := hr.invariant (sound_new field unique) fun h hok hs => h.step hok hs
  have hbucket : ∀ (P : Finset Nat → Prop) key, (P (s.index.ids key) → key ∈ s.index.keys) →
      (P (s.index.ids key) ↔ ∃ ids ∈ s.index.bucket key, P ids) := by
    intro P key hthere
    simpa [BucketIndex.bucket] using hthere
  have hids : ∀ {id key}, id ∈ s.index.ids key ↔ (key, id) ∈ s.index.entries := fun {id key} =>
    mem_toFinset.trans OrderedIndex.mem_lookup
  have hmem : ∀ {id key}, id ∈ s.index.ids key → key ∈ s.index.keys := fun hid =>
    (h.filled _).mpr (OrderedIndex.hasBucket_iff.mpr ⟨_, hids.mp hid⟩)
  refine ⟨fun id key => ?_, fun key hempty => ?_, fun key => ?_, fun hm => ⟨?_, fun key => ?_,
    h.typed, h.ascends⟩⟩
  · rw [h.relation, ← hids]
    exact hbucket (id ∈ ·) key hmem
  · obtain ⟨hkey, hids'⟩ := Option.ite_none_right_eq_some.mp hempty
    obtain ⟨id, hid⟩ := OrderedIndex.hasBucket_iff.mp ((h.filled key).mp hkey)
    have hno := hids.mpr hid
    rw [Option.some.inj hids'] at hno
    exact absurd hno (Finset.notMem_empty id)
  · rw [h.dups]
    refine hbucket (1 < Finset.card ·) key fun hcard => ?_
    obtain ⟨id, hid⟩ := Finset.card_pos.mp (Nat.zero_lt_of_lt hcard)
    exact hmem hid
  · refine pairwise_map.mpr (h.ascends.imp_of_mem fun {a b} ha hb hab heq => ?_)
    have hsame : a = b := by
      rw [OrderedIndex.typed_eq (h.typed a ha), OrderedIndex.typed_eq (h.typed b hb), heq]
    rw [hsame, (typed_strict _).irrefl b (h.typed b hb)] at hab
    cases hab
  · rw [mem_map, h.toSorted.keys hm key, ← h.filled]
    simp [BucketIndex.bucket]

theorem index_maps_agree_reloaded :
    ∃ s, Runs.Reaches (step fun _ => false) Adds ⟨.new "city" false, []⟩ s ∧ "a" ∈ s.index.dups ∧
      (∃ ids ∈ s.index.bucket "a", 2 ≤ ids.card) ∧
      (s.index.sorted.map OrderedKey.key).Nodup := by
  obtain ⟨s, -, hr, hdup, hm⟩ := Runs.reached (step fun _ => false) Adds ⟨.new "city" false, []⟩
    [.add (.str "a") 1, .add (.str "a") 2, .add (.str "b") 3, .persist, .update 1 (.str "c"),
      .remove 3, .load 0]
    (fun s => "a" ∈ s.index.dups ∧ s.index.kind ≠ .mixed) (by decide +kernel)
  obtain ⟨-, -, hdups, hsorted⟩ := index_maps_agree hr
  exact ⟨s, hr, hdup, (hdups "a").mp hdup, (hsorted hm).1⟩

end Kept

end Scriva
