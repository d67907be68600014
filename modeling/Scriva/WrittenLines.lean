import Scriva.Operations

namespace Scriva

open KeyedLog List

def Carry (ls : List Line) (chs : List Change) : Prop :=
  List.Forall₂ (fun (l : Line) (ch : Change) => l.entry = ch.entry.persisted) ls chs

theorem runLines_carry (cfg : Config) (txid : Option String) (chs : List Change) :
    Carry (runLines cfg txid chs) chs := by
  unfold Carry runLines
  rw [List.forall₂_map_left_iff]
  generalize chs.length = n
  generalize 0 = k
  induction chs generalizing k with
  | nil => exact .nil
  | cons ch chs ih =>
    rw [zipIdx_cons]
    exact .cons rfl (ih (k + 1))

variable {chs : List Change} {ls : List Line} {s s' : Collection}

theorem runLines_tx {cfg : Config} {txid : Option String} {l : Line}
    (h : l ∈ runLines cfg txid chs) : l.tx.map TxStamp.t = txid := by
  obtain ⟨p, -, rfl⟩ := mem_map.mp h
  show (Option.map _ txid).map TxStamp.t = txid
  rw [Option.map_map]
  cases txid <;> rfl

def placed (num off : Nat) (ls : List Line) : List Located :=
  (withOffsets off ls).map fun p => ⟨num, p.1, p.2.toLogLine⟩

theorem placed_cons (num off : Nat) (l : Line) (ls : List Line) :
    placed num off (l :: ls) = ⟨num, off, l.toLogLine⟩ :: placed num (off + l.len) ls := rfl

def Index.putRun (m : Index) (num off : Nat) (ls : List Line) (chs : List Change) : Index :=
  (((withOffsets off ls).map Prod.fst).zip chs).foldl (fun m p => m.put num p.1 p.2.entry) m

theorem putRun_cons (m : Index) (num off : Nat) (l : Line) (ls : List Line) (ch : Change)
    (chs : List Change) :
    m.putRun num off (l :: ls) (ch :: chs) =
      (m.put num off ch.entry).putRun num (off + l.len) ls chs := rfl

theorem foldl_applyChange (ps : List (Nat × Change)) (s : Collection) :
    ps.foldl (fun s p => s.applyChange p.1 p.2) s =
      { s with index := ps.foldl (fun m p => m.put s.active.num p.1 p.2.entry) s.index
               sidxs := s.sidxs.map fun x => ps.foldl (fun x p => x.put p.2) x } := by
  induction ps generalizing s with
  | nil => simp
  | cons p ps ih =>
    rw [foldl_cons, ih]
    simp [Collection.applyChange, Function.comp_def]

theorem foldl_offsets (h : Carry ls chs) (off : Nat) (x : SecondaryIndex) :
    (((withOffsets off ls).map Prod.fst).zip chs).foldl (fun x p => x.put p.2) x =
      chs.foldl SecondaryIndex.put x := by
  induction h generalizing off x with
  | nil => rfl
  | cons _ _ ih => exact ih _ _

theorem putRun_append (h : Carry ls chs) (m : Index) (num off : Nat) (ls' : List Line)
    (chs' : List Change) :
    m.putRun num off (ls ++ ls') (chs ++ chs') =
      (m.putRun num off ls chs).putRun num (off + sizeOf ls) ls' chs' := by
  induction h generalizing m off with
  | nil => rfl
  | cons _ _ ih =>
    rw [cons_append, cons_append, putRun_cons, putRun_cons, ih, sizeOf, sizeOf,
      map_cons, sum_cons, Nat.add_assoc]

/-- The lines of some changes came to the end of the active segment, visible, and the indexes in
memory took them in; nothing else of the log, the indexes or its visibility changed. -/
structure Wrote (s : Collection) (ls : List Line) (chs : List Change) (s' : Collection) : Prop where
  carry : Carry ls chs
  sealed : s'.sealed = s.sealed
  active : s'.active = { s.active with lines := s.active.lines ++ ls }
  segSeq : s'.segSeq = s.segSeq
  index : s'.index = s.index.putRun s.active.num s.active.size ls chs
  sidxs : s'.sidxs = s.sidxs.map fun x => chs.foldl SecondaryIndex.put x
  before : ∀ l ∈ s.log, l.visible s'.decisions = l.visible s.decisions
  visible : ∀ l ∈ ls, l.toLogLine.visible s'.decisions = true

theorem commitRun_eq (cfg : Config) (s : Collection) (txid : Option String) (chs : List Change) :
    s.commitRun cfg txid chs =
      { s.append (runLines cfg txid chs) with
        index := s.index.putRun s.active.num s.active.size (runLines cfg txid chs) chs
        sidxs := s.sidxs.map fun x => chs.foldl SecondaryIndex.put x } := by
  unfold Collection.commitRun
  rw [foldl_applyChange]
  simp only [foldl_offsets (runLines_carry cfg txid chs)]
  rfl

theorem put_eq_commitRun (cfg : Config) (s : Collection) (ch : Change) :
    s.put cfg ch = s.commitRun cfg none [ch] := rfl

theorem wrote_plain (cfg : Config) (s : Collection) (chs : List Change) :
    Wrote s (runLines cfg none chs) chs (s.commitRun cfg none chs) := by
  rw [commitRun_eq]
  refine ⟨runLines_carry .., rfl, rfl, rfl, rfl, rfl, fun _ _ => rfl, fun l hl => ?_⟩
  have htx := runLines_tx hl
  have hnone : l.tx = none := by simpa using htx
  simp [LogLine.visible, entryVisible, hnone]

/-- A plain write appends one line. -/
theorem wrote_put (cfg : Config) (s : Collection) (ch : Change) :
    Wrote s (runLines cfg none [ch]) [ch] (s.put cfg ch) := by
  rw [put_eq_commitRun]
  exact wrote_plain cfg s [ch]

theorem get_set (d : Decisions) (t : String) (v : Verdict) (u : String) :
    (d.set t v).get u = if u = t then some v else d.get u := by
  unfold Decisions.set Decisions.get
  by_cases hu : u = t
  · simp [hu]
  · cases d <;> simp [hu]

theorem visible_set {txid : String} (hnew : s.newTxID txid = true) (v : Verdict) {l : LogLine}
    (hl : l ∈ s.log) : l.visible (s.decisions.set txid v) = l.visible s.decisions := by
  unfold Collection.newTxID at hnew
  simp only [Bool.and_eq_true, all_eq_true] at hnew
  have hne := hnew.2 l hl
  unfold LogLine.visible entryVisible
  cases htx : l.tx with
  | none => rfl
  | some tx =>
    rw [htx] at hne
    have hne : tx.t ≠ txid := by simpa using hne
    simp only [get_set, if_neg hne]

theorem wrote_stamped (cfg : Config) {txid : String} (hnew : s.newTxID txid = true)
    (chs : List Change) :
    Wrote s (runLines cfg (some txid) chs) chs
      ({ s with decisions := s.decisions.set txid .commit }.commitRun cfg (some txid) chs) := by
  rw [commitRun_eq]
  refine ⟨runLines_carry .., rfl, rfl, rfl, rfl, rfl, fun l hl => visible_set hnew _ hl,
    fun l hl => ?_⟩
  have htx := runLines_tx hl
  obtain ⟨tx, htx, ht⟩ := Option.map_eq_some_iff.mp htx
  have hget : (s.decisions.set txid .commit).get tx.t = some .commit := by
    rw [get_set, if_pos ht]
  show LogLine.visible (s.decisions.set txid .commit) l.toLogLine = true
  simp [LogLine.visible, entryVisible, htx, hget]

theorem Wrote.counted (h : Wrote s ls chs s') (n : Nat) (now : Int) :
    Wrote s ls chs { s' with idSeq := n, now := now } :=
  ⟨h.carry, h.sealed, h.active, h.segSeq, h.index, h.sidxs, h.before, h.visible⟩

theorem Wrote.log (h : Wrote s ls chs s') : s'.log = s.log ++ ls.map Line.toLogLine := by
  simp [Collection.log, Collection.segments, logOf, h.sealed, h.active]

theorem Wrote.decodes (h : Wrote s ls chs s') (hs : s.decodes = true)
    (hchs : ∀ ch ∈ chs, decodable ch.entry.data = true) : s'.decodes = true := by
  unfold Collection.decodes at hs ⊢
  rw [h.log, all_append, hs, Bool.true_and, all_map, all_eq_true]
  intro l hl
  obtain ⟨ch, hch, hcarry⟩ := Traverse.forall₂_mem h.carry.flip hl
  have hcarry : l.entry = ch.entry.persisted := hcarry
  show decodable l.entry.data = true
  rw [hcarry, Entry.persisted, decodable_persisted]
  exact hchs ch hch

theorem Wrote.located (h : Wrote s ls chs s') :
    located s'.segments = located s.segments ++ placed s.active.num s.active.size ls := by
  simp [Collection.segments, Scriva.located, h.sealed, h.active, locate, placed,
    withOffsets_append, Segment.size]

theorem Wrote.trans {t u : Collection} {ls' : List Line} {chs' : List Change} (h : Wrote s ls chs t)
    (h' : Wrote t ls' chs' u) (hd : u.decisions = t.decisions) :
    Wrote s (ls ++ ls') (chs ++ chs') u := by
  have hsize : t.active.size = s.active.size + sizeOf ls := by
    simp [h.active, Segment.size, sizeOf]
  have hnum : t.active.num = s.active.num := by rw [h.active]
  refine ⟨rel_append h.carry h'.carry, h'.sealed.trans h.sealed, ?_,
    h'.segSeq.trans h.segSeq, ?_, ?_, fun l hl => ?_, fun l hl => ?_⟩
  · rw [h'.active, h.active, append_assoc]
  · rw [h'.index, h.index, putRun_append h.carry, hsize, hnum]
  · rw [h'.sidxs, h.sidxs, map_map]
    simp [Function.comp_def]
  · rw [hd]
    exact h.before l hl
  · rcases mem_append.mp hl with hl | hl
    · rw [hd]
      exact h.visible l hl
    · exact h'.visible l hl

theorem wrote_nil (s : Collection) : Wrote s [] [] s :=
  ⟨.nil, rfl, by simp, rfl, rfl, by simp, fun _ _ => rfl, by simp⟩

end Scriva
