import Scriva.Log
import Mathlib.Data.Prod.Lex
import Mathlib.Data.List.Lex
import Mathlib.Data.List.Sort

namespace Scriva.SegmentOrder

open List Option

/-- A file that `seg_*.ndjson` matches: the bytes of its name and its complete lines. -/
structure SegFile where
  name : List Nat
  lines : List LogLine

structure Place where
  file : List Nat
  pos : Nat
  line : LogLine
deriving DecidableEq

def SegFile.places (f : SegFile) : List Place :=
  f.lines.zipIdx.map fun p => ⟨f.name, p.2, p.1⟩

def shown (d : Decisions) (id : Nat) (x : Place) : Bool :=
  x.line.visible d && x.line.entry.id == id

def SegFile.shows (d : Decisions) (id : Nat) (f : SegFile) : Bool :=
  f.places.any (shown d id)

/-- The line that is left of an id when files are replayed in a given order. -/
def latest (d : Decisions) (fs : List SegFile) (id : Nat) : Option Place :=
  ((fs.flatMap SegFile.places).filter (shown d id)).getLast?

section

-- `segmentNum`, which leaves the reading of the number to `fmt.Sscanf`.
variable (segmentNum : List Nat → Option Nat)

/-- The comparison of `sortSegments`: names without a number come last. -/
def segmentLess (a b : SegFile) : Bool :=
  match segmentNum a.name, segmentNum b.name with
  | some n, some m => if n ≠ m then decide (n < m) else decide (a.name < b.name)
  | some _, none => true
  | none, some _ => false
  | none, none => decide (a.name < b.name)

/-- The comparison of `load`, of coordinator recovery and of the verifier, which ignore that a name
has no number. -/
def pathLess (a b : SegFile) : Bool :=
  let n := (segmentNum a.name).getD 0
  let m := (segmentNum b.name).getD 0
  if n ≠ m then decide (n < m) else decide (a.name < b.name)

/-- `sort.SliceStable`. -/
def sortBy (less : SegFile → SegFile → Bool) (fs : List SegFile) : List SegFile :=
  fs.insertionSort fun a b => less b a = false

inductive Reader where
  | primary
  | secondary
  | recovery
  | verifier
deriving DecidableEq

/-- A rebuild of the primary index sorts the files that `load` has listed; one of a secondary index
takes them as they come. -/
def Reader.order : Reader → List SegFile → List SegFile
  | .primary, fs => sortBy (segmentLess segmentNum) (sortBy (pathLess segmentNum) fs)
  | .secondary, fs => sortBy (pathLess segmentNum) fs
  | .recovery, fs => sortBy (pathLess segmentNum) fs
  | .verifier, fs => sortBy (pathLess segmentNum) fs

def Place.lives (x : Place) : Bool :=
  x.line.entry.op != .delete

/-- `streamLive`: the line of an id that the primary index points at. -/
def scanned (d : Decisions) (fs : List SegFile) (id : Nat) : Option Place :=
  ((Reader.secondary.order segmentNum fs).flatMap SegFile.places).find? fun x =>
    x.line.entry.id == id &&
      (latest d (Reader.primary.order segmentNum fs) id).filter Place.lives == some x

/-- Every reader finds the same latest line of every id, and a scan shows it unless it is a delete. -/
def Agree (d : Decisions) (fs : List SegFile) : Prop :=
  (∀ (r r' : Reader) (id : Nat),
    latest d (r.order segmentNum fs) id = latest d (r'.order segmentNum fs) id) ∧
  ∀ (r : Reader) (id : Nat),
    scanned segmentNum d fs id = (latest d (r.order segmentNum fs) id).filter Place.lives

/-- A numbered file shows an id of a file without a number only as number 0, under a name that
comes before that of another such file. -/
def Settled (d : Decisions) (fs : List SegFile) : Prop :=
  ∀ id, ∀ m ∈ fs, m.shows d id = true → ∀ n, segmentNum m.name = some n →
    ∀ u ∈ fs, u.shows d id = true → segmentNum u.name = none →
      n = 0 ∧ ∃ v ∈ fs, v.shows d id = true ∧ segmentNum v.name = none ∧ m.name < v.name

end

section Sorted

variable {K : Type} [LinearOrder K] {key : SegFile → K} {fs : List SegFile} {d : Decisions} {id : Nat}

theorem shows_places {f : SegFile} :
    f.shows d id = true ↔ (f.places.filter (shown d id)) ≠ [] := by
  rw [SegFile.shows, List.any_eq_true, ne_eq, filter_eq_nil_iff]
  simp

theorem latest_eq (d : Decisions) (fs : List SegFile) (id : Nat) :
    latest d fs id = (fs.filter (SegFile.shows d id)).getLast?.bind fun f =>
      (f.places.filter (shown d id)).getLast? := by
  induction fs using List.reverseRecOn with
  | nil => rfl
  | append_singleton fs f ih =>
    unfold latest at ih ⊢
    rw [flatMap_append, filter_append, filter_append, List.getLast?_append, ih,
      flatMap_singleton]
    cases hs : f.shows d id with
    | true =>
      have hne := shows_places.mp hs
      obtain ⟨x, hx⟩ := isSome_iff_exists.mp (List.getLast?_isSome.mpr hne)
      rw [filter_singleton, hs, cond_true, List.getLast?_concat, bind_some, hx]
      rfl
    | false =>
      have hnil : f.places.filter (shown d id) = [] := by
        by_contra hne
        rw [shows_places.mpr hne] at hs
        cases hs
      rw [filter_singleton, hs, cond_false, hnil, List.getLast?_nil, Option.none_or,
        append_nil]

theorem last_shown (hkey : ∀ f ∈ fs, ∀ g ∈ fs, key f = key g → f = g) {u : SegFile} :
    ((fs.insertionSort fun a b => key a ≤ key b).filter (SegFile.shows d id)).getLast? = some u ↔
      (u ∈ fs ∧ u.shows d id = true) ∧ ∀ g ∈ fs, g.shows d id = true → key g ≤ key u := by
  have : Std.Total fun a b : SegFile => key a ≤ key b := ⟨fun a b => le_total _ _⟩
  have : IsTrans SegFile fun a b => key a ≤ key b := ⟨fun _ _ _ => le_trans⟩
  have hsorted := (pairwise_insertionSort (fun a b : SegFile => key a ≤ key b) fs).filter
    (SegFile.shows d id)
  have hmem : ∀ g, g ∈ (fs.insertionSort fun a b => key a ≤ key b).filter (SegFile.shows d id) ↔
      g ∈ fs ∧ g.shows d id = true := by
    intro g
    rw [mem_filter, mem_insertionSort]
  have hlast : ∀ v, ((fs.insertionSort fun a b => key a ≤ key b).filter
      (SegFile.shows d id)).getLast? = some v →
      (v ∈ fs ∧ v.shows d id = true) ∧ ∀ g ∈ fs, g.shows d id = true → key g ≤ key v := by
    intro v hv
    refine ⟨(hmem v).mp (mem_of_getLast? hv), fun g hg hshow => ?_⟩
    obtain ⟨ys, hys⟩ := List.getLast?_eq_some_iff.mp hv
    have hin := (hmem g).mpr ⟨hg, hshow⟩
    rw [hys] at hsorted hin
    rcases mem_append.mp hin with hin | hin
    · exact (pairwise_append.mp hsorted).2.2 g hin v (by simp)
    · rw [mem_singleton.mp hin]
  refine ⟨hlast u, fun ⟨⟨hu, hshow⟩, hmax⟩ => ?_⟩
  have hne : (fs.insertionSort fun a b => key a ≤ key b).filter (SegFile.shows d id) ≠ [] :=
    ne_nil_of_mem ((hmem u).mpr ⟨hu, hshow⟩)
  obtain ⟨v, hv⟩ := isSome_iff_exists.mp (List.getLast?_isSome.mpr hne)
  obtain ⟨⟨hvin, hvshow⟩, hvmax⟩ := hlast v hv
  have heq := hkey u hu v hvin (le_antisymm (hvmax u hu hshow) (hmax v hvin hvshow))
  rw [heq, hv]

end Sorted

section

variable {segmentNum : List Nat → Option Nat} {fs : List SegFile} {d : Decisions} {id : Nat}

def pathKey (segmentNum : List Nat → Option Nat) (f : SegFile) : Nat ×ₗ List Nat :=
  toLex ((segmentNum f.name).getD 0, f.name)

def segmentKey (segmentNum : List Nat → Option Nat) (f : SegFile) : Bool ×ₗ (Nat ×ₗ List Nat) :=
  toLex ((segmentNum f.name).isNone, pathKey segmentNum f)

theorem pathLess_iff (a b : SegFile) :
    pathLess segmentNum a b = true ↔ pathKey segmentNum a < pathKey segmentNum b := by
  unfold pathLess pathKey
  rw [Prod.Lex.toLex_lt_toLex]
  by_cases h : (segmentNum a.name).getD 0 = (segmentNum b.name).getD 0 <;> simp [h]

theorem segmentLess_iff (a b : SegFile) :
    segmentLess segmentNum a b = true ↔ segmentKey segmentNum a < segmentKey segmentNum b := by
  unfold segmentLess segmentKey pathKey
  rw [Prod.Lex.toLex_lt_toLex, Prod.Lex.toLex_lt_toLex]
  cases ha : segmentNum a.name with
  | none => cases hb : segmentNum b.name <;> simp
  | some n =>
    cases hb : segmentNum b.name with
    | none => simp
    | some m => by_cases h : n = m <;> simp [h]

theorem sortBy_key {K : Type} [LinearOrder K] {less : SegFile → SegFile → Bool} {key : SegFile → K}
    (h : ∀ a b, less a b = true ↔ key a < key b) (fs : List SegFile) :
    sortBy less fs = fs.insertionSort fun a b => key a ≤ key b := by
  unfold sortBy
  congr 1
  funext a b
  rw [← not_lt, ← h, Bool.not_eq_true]

theorem mem_path {f : SegFile} : f ∈ sortBy (pathLess segmentNum) fs ↔ f ∈ fs := by
  unfold sortBy
  exact mem_insertionSort _

theorem Settled.path_of_segment (h : Settled segmentNum d fs) {u : SegFile}
    (hu : u ∈ fs ∧ u.shows d id = true)
    (hmax : ∀ g ∈ fs, g.shows d id = true → segmentKey segmentNum g ≤ segmentKey segmentNum u) :
    ∀ g ∈ fs, g.shows d id = true → pathKey segmentNum g ≤ pathKey segmentNum u := by
  intro g hg hshow
  rcases Prod.Lex.toLex_le_toLex.mp (hmax g hg hshow) with hlt | ⟨-, hle⟩
  · -- A numbered file before one without a number.
    obtain ⟨hgnum, hunum⟩ := Bool.lt_iff.mp hlt
    obtain ⟨n, hn⟩ := isSome_iff_exists.mp (by simpa using hgnum)
    have hnone : segmentNum u.name = none := by simpa using hunum
    obtain ⟨rfl, v, hv, hvshow, hvnum, hname⟩ := h id g hg hshow n hn u hu.1 hu.2 hnone
    have hvu : pathKey segmentNum v ≤ pathKey segmentNum u := by
      rcases Prod.Lex.toLex_le_toLex.mp (hmax v hv hvshow) with hlt | ⟨-, hle⟩
      · rw [hvnum, hnone] at hlt
        exact absurd hlt (lt_irrefl _)
      · exact hle
    refine le_trans (le_of_lt ?_) hvu
    unfold pathKey
    rw [Prod.Lex.toLex_lt_toLex, hn, hvnum]
    exact Or.inr ⟨rfl, hname⟩
  · exact hle

theorem latest_file {f : SegFile} {x : Place}
    (h : (f.places.filter (shown d id)).getLast? = some x) : x.file = f.name := by
  have hin := (mem_filter.mp (mem_of_getLast? h)).1
  obtain ⟨p, -, rfl⟩ := mem_map.mp hin
  rfl

section Names

variable (hnames : (fs.map SegFile.name).Nodup)
include hnames

theorem key_inj {f g : SegFile} (hf : f ∈ fs) (hg : g ∈ fs)
    (h : f.name = g.name) : f = g :=
  inj_on_of_nodup_map hnames hf hg h

theorem pathKey_inj :
    ∀ f ∈ fs, ∀ g ∈ fs, pathKey segmentNum f = pathKey segmentNum g → f = g := by
  intro f hf g hg h
  exact key_inj hnames hf hg (congrArg (fun k => (ofLex k).2) h)

theorem segmentKey_inj :
    ∀ f ∈ fs, ∀ g ∈ fs, segmentKey segmentNum f = segmentKey segmentNum g → f = g := by
  intro f hf g hg h
  exact pathKey_inj hnames f hf g hg (congrArg (fun k => (ofLex k).2) h)

theorem path_last {u : SegFile} :
    ((sortBy (pathLess segmentNum) fs).filter (SegFile.shows d id)).getLast? = some u ↔
      (u ∈ fs ∧ u.shows d id = true) ∧
        ∀ g ∈ fs, g.shows d id = true → pathKey segmentNum g ≤ pathKey segmentNum u := by
  rw [sortBy_key pathLess_iff]
  exact last_shown (pathKey_inj hnames)

theorem segment_last {u : SegFile} :
    ((Reader.primary.order segmentNum fs).filter (SegFile.shows d id)).getLast? = some u ↔
      (u ∈ fs ∧ u.shows d id = true) ∧
        ∀ g ∈ fs, g.shows d id = true → segmentKey segmentNum g ≤ segmentKey segmentNum u := by
  have hinj : ∀ f ∈ sortBy (pathLess segmentNum) fs, ∀ g ∈ sortBy (pathLess segmentNum) fs,
      segmentKey segmentNum f = segmentKey segmentNum g → f = g := by
    intro f hf g hg
    exact segmentKey_inj hnames f (mem_path.mp hf) g (mem_path.mp hg)
  show ((sortBy (segmentLess segmentNum) _).filter _).getLast? = _ ↔ _
  rw [sortBy_key segmentLess_iff, last_shown hinj]
  simp only [mem_path]

theorem orders_agree (h : Settled segmentNum d fs) (id : Nat) :
    latest d (Reader.primary.order segmentNum fs) id =
      latest d (sortBy (pathLess segmentNum) fs) id := by
  rw [latest_eq, latest_eq]
  congr 1
  cases hlast : ((Reader.primary.order segmentNum fs).filter (SegFile.shows d id)).getLast? with
  | some u =>
    obtain ⟨hu, hmax⟩ := (segment_last hnames).mp hlast
    exact ((path_last hnames).mpr ⟨hu, h.path_of_segment hu hmax⟩).symm
  | none =>
    have hnil := List.getLast?_eq_none_iff.mp hlast
    refine (List.getLast?_eq_none_iff.mpr (filter_eq_nil_iff.mpr fun f hf => ?_)).symm
    refine filter_eq_nil_iff.mp hnil f ?_
    unfold Reader.order
    exact (mem_insertionSort _).mpr hf

theorem settled_of_agree
    (h : ∀ id, latest d (Reader.primary.order segmentNum fs) id =
      latest d (sortBy (pathLess segmentNum) fs) id) : Settled segmentNum d fs := by
  intro id m hm hmshow n hn u hu hushow hunum
  -- The last file of the primary index is one without a number.
  have hne : (Reader.primary.order segmentNum fs).filter (SegFile.shows d id) ≠ [] := by
    refine ne_nil_of_mem (mem_filter.mpr ⟨?_, hushow⟩)
    unfold Reader.order
    exact (mem_insertionSort _).mpr (mem_path.mpr hu)
  obtain ⟨v, hv⟩ := isSome_iff_exists.mp (List.getLast?_isSome.mpr hne)
  obtain ⟨⟨hvin, hvshow⟩, hvmax⟩ := (segment_last hnames).mp hv
  have hvnum : segmentNum v.name = none := by
    rcases Prod.Lex.toLex_le_toLex.mp (hvmax u hu hushow) with hlt | ⟨heq, -⟩
    · rw [hunum] at hlt
      exact absurd hlt (by simp [Bool.lt_iff])
    · rw [hunum] at heq
      simpa using heq.symm
  -- It is the last file of the other readers too, since they find the same line.
  have hw : ((sortBy (pathLess segmentNum) fs).filter (SegFile.shows d id)).getLast? = some v := by
    have hne' : (sortBy (pathLess segmentNum) fs).filter (SegFile.shows d id) ≠ [] :=
      ne_nil_of_mem (mem_filter.mpr ⟨mem_path.mpr hu, hushow⟩)
    obtain ⟨w, hw⟩ := isSome_iff_exists.mp (List.getLast?_isSome.mpr hne')
    obtain ⟨⟨hwin, -⟩, -⟩ := (path_last hnames).mp hw
    have hsame := h id
    obtain ⟨x, hx⟩ := isSome_iff_exists.mp
      (List.getLast?_isSome.mpr (shows_places.mp hvshow))
    rw [latest_eq, latest_eq, hv, hw, bind_some, bind_some, hx] at hsame
    have hfile := (latest_file hx).symm.trans (latest_file hsame.symm)
    rw [key_inj hnames hvin hwin hfile, hw]
  have hle := ((path_last hnames).mp hw).2 m hm hmshow
  have hdiff : m.name ≠ v.name := by
    intro heq
    rw [heq, hvnum] at hn
    cases hn
  unfold pathKey at hle
  rw [Prod.Lex.toLex_le_toLex, hn, hvnum] at hle
  rcases hle with hlt | ⟨hzero, hname⟩
  · exact absurd hlt (Nat.not_lt_zero n)
  · exact ⟨hzero, v, hvin, hvshow, hvnum, lt_of_le_of_ne hname hdiff⟩

end Names

theorem scanned_eq (d : Decisions) (fs : List SegFile) (id : Nat) :
    scanned segmentNum d fs id =
      (latest d (Reader.primary.order segmentNum fs) id).filter Place.lives := by
  unfold scanned
  cases hidx : (latest d (Reader.primary.order segmentNum fs) id).filter Place.lives with
  | none =>
    refine List.find?_eq_none.mpr fun x _ hx => ?_
    simp at hx
  | some x =>
    obtain ⟨hlast, -⟩ := filter_eq_some_iff.mp hidx
    obtain ⟨hin, hshown⟩ := mem_filter.mp (mem_of_getLast? hlast)
    have hid : (x.line.entry.id == id) = true := (Bool.and_eq_true_iff.mp hshown).2
    have hthere : x ∈ (Reader.secondary.order segmentNum fs).flatMap SegFile.places := by
      obtain ⟨f, hf, hx⟩ := mem_flatMap.mp hin
      unfold Reader.order at hf
      exact mem_flatMap.mpr ⟨f, (mem_insertionSort _).mp hf, hx⟩
    have hfound : (((Reader.secondary.order segmentNum fs).flatMap SegFile.places).find? fun y =>
        y.line.entry.id == id && some x == some y).isSome = true := by
      rw [List.find?_isSome]
      exact ⟨x, hthere, by simp [hid]⟩
    obtain ⟨y, hy⟩ := isSome_iff_exists.mp hfound
    have hboth := List.find?_some hy
    simp only [Bool.and_eq_true, beq_iff_eq, Option.some.injEq] at hboth
    have hsame : x = y := hboth.2
    rw [hy, hsame]

end

/-- For every set of files under different names, and however numbers are read from the names: all
readers find the same latest line of every id exactly if no id of a file without a number is shown
by a numbered one that the readers do not all put before it. -/
theorem readers_agree_iff (segmentNum : List Nat → Option Nat) (d : Decisions) {fs : List SegFile}
    (hnames : (fs.map SegFile.name).Nodup) :
    Agree segmentNum d fs ↔ Settled segmentNum d fs := by
  constructor
  · intro h
    exact settled_of_agree hnames fun id => h.1 .primary .secondary id
  · intro h
    have hall : ∀ (r : Reader) (id : Nat), latest d (r.order segmentNum fs) id =
        latest d (sortBy (pathLess segmentNum) fs) id := by
      intro r id
      cases r with
      | primary => exact orders_agree hnames h id
      | secondary => rfl
      | recovery => rfl
      | verifier => rfl
    refine ⟨fun r r' id => (hall r id).trans (hall r' id).symm, fun r id => ?_⟩
    rw [scanned_eq, hall .primary, hall r]

def digitsNum (name : List Nat) : Option Nat :=
  let digits := (name.drop 4).takeWhile fun b => 48 ≤ b && b ≤ 57
  if digits = [] then none else some (digits.foldl (fun n b => 10 * n + (b - 48)) 0)

def segFile (name : String) (lines : List LogLine) : SegFile :=
  { name := name.toList.map Char.toNat, lines := lines }

def plainLine (id rev : Nat) : LogLine :=
  { entry := { id := id, op := .insert, ts := Rfc3339.zeroTime, rev := rev, data := none, epoch := 0,
               expiresAt := 0 }, tx := none }

theorem readers_agree_sample :
    Agree digitsNum none [segFile "seg_1000000.ndjson" [plainLine 1 3],
      segFile "seg_2.ndjson" [plainLine 1 1], segFile "seg_02.ndjson" [plainLine 1 2],
      segFile "seg_x.ndjson" [plainLine 2 1]] := by
  refine (readers_agree_iff digitsNum none (by decide)).mpr ?_
  intro id m hm hmshow n hn u hu hushow hunum
  have hshow : ∀ name i rev, (segFile name [plainLine i rev]).shows none id = true → i = id := by
    intro name i rev h
    simp [SegFile.shows, SegFile.places, segFile, shown, plainLine] at h
    exact h.2
  simp only [mem_cons, not_mem_nil, or_false] at hm hu
  rcases hu with rfl | rfl | rfl | rfl
  · exact absurd hunum (by decide)
  · exact absurd hunum (by decide)
  · exact absurd hunum (by decide)
  · have hid := hshow _ _ _ hushow
    subst hid
    rcases hm with rfl | rfl | rfl | rfl
    · cases hshow _ _ _ hmshow
    · cases hshow _ _ _ hmshow
    · cases hshow _ _ _ hmshow
    · cases hn

/-- A file without a number holds a line of a record that a numbered one holds too. -/
theorem readers_differ :
    ¬ Agree digitsNum none [segFile "seg_1.ndjson" [plainLine 1 2],
      segFile "seg_x.ndjson" [plainLine 1 1]] := by
  intro h
  have heq := h.1 .primary .verifier 1
  exact absurd heq (by decide)

end Scriva.SegmentOrder
