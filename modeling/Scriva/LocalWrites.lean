import Scriva.CollectionSteps

namespace Scriva

open List

def revs (m : Index) (id : Nat) : Option Nat :=
  (m id).map IndexEntry.rev

def moved (m : Nat → Option Nat) (e : Entry) : Nat → Option Nat :=
  Function.update m e.id (if e.op = .delete then none else some e.rev)

/-- An insert starts at revision 1 under an id above the counter or a supplied one; an update moves
the revision it finds. -/
def LocalEntry (given : List Nat) (top : Nat) (m : Nat → Option Nat) (e : Entry) : Prop :=
  match e.op with
  | .insert => e.rev = 1 ∧ (top < e.id ∨ e.id ∈ given)
  | .update => e.rev = (m e.id).elim 1 (· + 1)
  | .delete => True

def Along (P : (Nat → Option Nat) → Entry → Prop) : (Nat → Option Nat) → List Entry → Prop
  | _, [] => True
  | m, e :: es => P m e ∧ Along P (moved m e) es

abbrev LocalEntries (given : List Nat) (top : Nat) : (Nat → Option Nat) → List Entry → Prop :=
  Along (LocalEntry given top)

def insertedIDs (es : List Entry) : List Nat :=
  (es.filter fun e => e.op == .insert).map Entry.id

def Decides (s t : Collection) : Prop :=
  t.decisions = s.decisions ∨
    ∃ txid v, s.newTxID txid = true ∧ t.decisions = s.decisions.set txid v

/-- The lines of some changes came to the end of the active segment and into the index, whatever
became of the secondary indexes and the clock. -/
structure Appended (s : Collection) (ls : List Line) (chs : List Change) (t : Collection) :
    Prop where
  carry : Carry ls chs
  sealed : t.sealed = s.sealed
  active : t.active = { s.active with lines := s.active.lines ++ ls }
  segSeq : t.segSeq = s.segSeq
  index : t.index = s.index.putRun s.active.num s.active.size ls chs
  visible : ∀ l ∈ ls, l.toLogLine.visible t.decisions = true
  decides : Decides s t
  counter : s.idSeq ≤ t.idSeq

def Change.sort (ch : Change) : Nat × Op :=
  (ch.entry.id, ch.entry.op)

def TxOp.sort (op : TxOp) : Nat × Op :=
  (op.id, op.kind)

def suppliedIDs (ops : List TxOp) : List Nat :=
  (ops.filter fun op => op.kind == .insert).map TxOp.id

def CollectionOp.supplied : CollectionOp → List Nat
  | .commitTx _ ops _ => suppliedIDs ops
  | .commitXTx _ ops _ => (ops.filter fun op => op.op == .insert).map XTxOp.id
  | _ => []

def CollectionOp.isLocalWrite : CollectionOp → Bool
  | .insert .. | .insertWithKey .. | .update .. | .updateWithExpiry .. | .delete ..
  | .updateByKey .. | .deleteByKey .. | .upsert .. | .compareAndSwap .. | .insertMany ..
  | .commitTx .. | .commitXTx .. | .reap .. => true
  | _ => false

def CollectionOp.staged : CollectionOp → List (Nat × Op)
  | .commitTx _ ops _ => ops.map TxOp.sort
  | _ => []

/-- A local write appends what its events tell. Its updates and deletes find their targets, its
inserts have ids of their own, and these are new if the operation says so. -/
structure WritesLocally (cfg : Config) (op : CollectionOp) (s : Collection) (ls : List Line)
    (chs : List Change) (t : Collection) : Prop extends Appended s ls chs t where
  told : List.Forall₂ (Tells cfg) (op.events s) chs
  sidxs : t.sidxs = (op.base s).sidxs.map fun x => chs.foldl SecondaryIndex.put x
  entries : LocalEntries op.supplied s.idSeq (revs s.index) (chs.map Change.entry)
  targets : ∀ ch ∈ chs, ch.entry.op ≠ .insert → (s.index ch.entry.id).isSome = true
  reached : Bounded s → ∀ ch ∈ chs, ch.entry.id ≤ t.idSeq ∨ ch.entry.id ∈ op.supplied
  free : Bounded s → op.IndexSound s →
    AddsNew (indexed s) chs ∧ ∀ ch ∈ chs, ch.entry.id ≤ t.idSeq
  distinct : op.supplied.Nodup → (insertedIDs (chs.map Change.entry)).Nodup
  ordered : ((chs.map Change.entry).map Entry.id).Nodup ∨ chs.map Change.sort = op.staged

section

variable {cfg : Config} {s t u : Collection} {r : Readings} {ls : List Line} {chs : List Change}
  {given : List Nat} {top n : Nat} {op : CollectionOp}

variable {m : Nat → Option Nat} {es : List Entry} {x : Option Int} {data : Option Data}
  {ch : Change} {ops : List TxOp} {txid : String}

theorem Along.imp {P Q : (Nat → Option Nat) → Entry → Prop} (hPQ : ∀ m e, P m e → Q m e)
    (h : Along P m es) : Along Q m es := by
  induction es generalizing m with
  | nil => trivial
  | cons e es ih => exact ⟨hPQ m e h.1, ih h.2⟩

theorem along_of_nodup {P : (Nat → Option Nat) → Entry → Prop}
    (hP : ∀ {m m' e}, m' e.id = m e.id → P m e → P m' e) {m' : Nat → Option Nat}
    (hn : (es.map Entry.id).Nodup) (hm : ∀ e ∈ es, m' e.id = m e.id) (h : ∀ e ∈ es, P m e) :
    Along P m' es := by
  induction es generalizing m' with
  | nil => trivial
  | cons e es ih =>
    obtain ⟨hnot, hn⟩ := nodup_cons.mp hn
    refine ⟨hP (hm e (by simp)) (h e (by simp)), ih hn (fun e' he' => ?_) fun e' he' =>
      h e' (by simp [he'])⟩
    have hne : e'.id ≠ e.id := fun heq => hnot (heq ▸ mem_map_of_mem he')
    rw [moved, Function.update_of_ne hne]
    exact hm e' (by simp [he'])

theorem LocalEntry.congr {m' : Nat → Option Nat} {e : Entry} (hm : m' e.id = m e.id)
    (h : LocalEntry given top m e) : LocalEntry given top m' e := by
  unfold LocalEntry at h ⊢
  rw [hm]
  exact h

theorem revs_put (m : Index) (seg off : Nat) (e : Entry) :
    revs (m.put seg off e) = moved (revs m) e := by
  funext id
  rw [revs, put_eq, moved]
  by_cases hid : id = e.id
  · subst hid
    cases e.op <;> simp
  · simp [Function.update_of_ne hid, revs]

theorem LocalEntries.inserted (h : LocalEntries given top m es) {id : Nat}
    (hid : id ∈ insertedIDs es) : top < id ∨ id ∈ given := by
  induction es generalizing m with
  | nil => cases hid
  | cons e es ih =>
    unfold insertedIDs at hid ih
    by_cases hop : e.op = .insert
    · rw [filter_cons_of_pos (by simp [hop]), map_cons] at hid
      rcases mem_cons.mp hid with rfl | hid
      · have he := h.1
        unfold LocalEntry at he
        rw [hop] at he
        exact he.2
      · exact ih h.2 hid
    · rw [filter_cons_of_neg (by simp [hop])] at hid
      exact ih h.2 hid

theorem Decides.visible (h : Decides s t) {l : LogLine} (hl : l ∈ s.log) :
    l.visible t.decisions = l.visible s.decisions := by
  rcases h with h | ⟨txid, v, hnew, h⟩
  · rw [h]
  · rw [h]
    exact visible_set hnew v hl

theorem Appended.wrote (h : Appended s ls chs t) :
    Wrote s ls chs { t with sidxs := s.sidxs.map fun x => chs.foldl SecondaryIndex.put x } :=
  ⟨h.carry, h.sealed, h.active, h.segSeq, h.index, rfl, fun _ => h.decides.visible, h.visible⟩

theorem Appended.log (h : Appended s ls chs t) : t.log = s.log ++ ls.map Line.toLogLine :=
  h.wrote.log

theorem Wrote.appended {xs : List SecondaryIndex}
    (h : Wrote { s with sidxs := xs, idSeq := n } ls chs u) (hd : Decides s u)
    (hc : s.idSeq ≤ u.idSeq) (now : Int) : Appended s ls chs { u with now := now } :=
  ⟨h.carry, h.sealed, h.active, h.segSeq, h.index, h.visible, hd, hc⟩

/-- What an operation wrote to the collection with its key index made. -/
theorem Appended.base (h : Appended s ls chs t)
    (hx : t.sidxs = (op.base s).sidxs.map fun x => chs.foldl SecondaryIndex.put x) :
    Wrote (op.base s) ls chs t := by
  obtain ⟨xs, hxs⟩ := base_eq s op
  rw [hxs] at hx ⊢
  exact ⟨h.carry, h.sealed, h.active, h.segSeq, h.index, hx, fun _ => h.decides.visible, h.visible⟩

theorem events_updated {ev : WatchEvent} (h : ev ∈ op.events s) (hop : ev.op = .update) :
    ev.id ∈ op.updated s := by
  cases op with
  | insert | insertWithKey | delete =>
    cases mem_singleton.mp h
    cases hop
  | update | updateWithExpiry =>
    cases mem_singleton.mp h
    exact mem_cons_self
  | updateByKey key data r =>
    obtain ⟨id, hid, rfl⟩ := mem_map.mp h
    exact mem_of_head? (guard_bind.mp (Option.mem_toList.mp hid)).2
  | deleteByKey | reap =>
    obtain ⟨id, -, rfl⟩ := mem_map.mp h
    cases hop
  | upsert key data r =>
    unfold CollectionOp.events at h
    dsimp only at h
    split at h
    · next hfound =>
      obtain ⟨id, hhead, hid⟩ := Option.bind_eq_some_iff.mp hfound
      obtain ⟨cur, -, hpair⟩ := Option.map_eq_some_iff.mp hid
      cases mem_singleton.mp h
      cases hpair
      exact mem_of_head? hhead
    · cases mem_singleton.mp h
      cases hop
  | compareAndSwap key data ok r =>
    obtain ⟨id, hid, rfl⟩ := mem_map.mp h
    exact mem_of_head? (Option.mem_toList.mp hid)
  | insertMany txid records explicit r =>
    obtain ⟨o, ho, rfl⟩ := mem_map.mp h
    obtain ⟨p, -, rfl⟩ := mem_map.mp ho
    cases hop
  | commitTx txid ops r =>
    have hmem : ∀ {o : TxOp}, o ∈ ops → o.kind = .update → o.id ∈ updatedIDs ops := fun ho hk =>
      mem_map_of_mem (mem_filter.mpr ⟨ho, by simp [hk]⟩)
    unfold CollectionOp.events at h
    dsimp only at h
    split at h
    · obtain ⟨o, ho, rfl⟩ := mem_map.mp h
      exact hmem ho hop
    · obtain ⟨o', ho', rfl⟩ := mem_map.mp h
      obtain ⟨o, ho, rfl⟩ := mem_map.mp ho'
      show (s.keepKeyOf o).id ∈ _
      rw [(keepKeyOf_kind s o).2]
      exact hmem ho ((keepKeyOf_kind s o).1.symm.trans hop)
  | commitXTx txid ops r =>
    obtain ⟨o, ho, rfl⟩ := mem_map.mp h
    exact mem_map_of_mem (mem_filter.mpr ⟨ho, beq_iff_eq.mpr hop⟩)
  | _ => cases h

theorem WritesLocally.aimed (h : WritesLocally cfg op s ls chs t) (hch : ch ∈ chs)
    (hop : ch.entry.op = .update) : ch.entry.id ∈ op.updated s := by
  obtain ⟨ev, hev, htell⟩ := Traverse.forall₂_mem h.told hch
  rw [← htell.id]
  exact events_updated hev (htell.op.trans hop)

theorem Single.localEntry (h : Single cfg s r x data ch) :
    LocalEntry given s.idSeq (revs s.index) ch.entry := by
  unfold LocalEntry
  cases h with
  | insert hid hop hrev _ _ =>
    rw [hop]
    refine ⟨hrev, Or.inl ?_⟩
    rw [hid]
    exact Nat.lt_succ_self _
  | update hcur hop hrev _ _ _ _ =>
    rw [hop]
    show _ = ((s.index _).map IndexEntry.rev).elim 1 (· + 1)
    rw [hcur]
    exact hrev
  | delete _ hop =>
    rw [hop]
    trivial

theorem Single.target (h : Single cfg s r x data ch) (hop : ch.entry.op ≠ .insert) :
    (s.index ch.entry.id).isSome = true := by
  cases h with
  | insert _ hins _ _ _ => exact absurd hins hop
  | update hcur _ _ _ _ _ _ => simp [hcur]
  | delete hcur _ => exact hcur

theorem Single.addsNew (h : Single cfg s r x data ch) (hb : Bounded s) :
    AddsNew (indexed s) [ch] := by
  refine ⟨fun _ hfresh => ?_, trivial⟩
  cases h with
  | insert hid _ _ _ _ =>
    rw [hid, indexed, Bool.eq_false_iff]
    intro hin
    have := hb _ hin
    omega
  | update => cases hfresh
  | delete => cases hfresh

theorem WroteTo.locally (h : WroteTo (op.events s) cfg (op.base s) r x data u) (now : Int) :
    ∃ ls chs, WritesLocally cfg op s ls chs { u with now := now } := by
  obtain ⟨ls, ch, hsingle, htold, hw, hc⟩ := h.out
  have hd := h.decisions
  have hsidxs := hw.sidxs
  obtain ⟨xs, hxs⟩ := base_eq s op
  rw [hxs] at hsingle hw hc hd
  have hw : Wrote { s with sidxs := xs, idSeq := s.idSeq } ls [ch] u := hw
  refine ⟨ls, [ch], hw.appended (Or.inl hd) hc.1 now, htold, hsidxs,
    ⟨hsingle.localEntry, trivial⟩, fun c hch hop => ?_, fun hb c hch => Or.inl (hc.2 hb c hch),
    fun hb _ => ⟨hsingle.addsNew hb, hc.2 hb⟩, fun _ => ?_, Or.inl (by simp)⟩
  · cases mem_singleton.mp hch
    exact hsingle.target hop
  · cases hop : ch.entry.op <;> simp [insertedIDs, hop]

theorem commitTxOps_told {exp : Int} (h : ops.foldlM (Collection.commitTxOp cfg exp) s = some t) :
    ∃ ls chs, Wrote s ls chs t ∧ t.decisions = s.decisions ∧ t.idSeq = s.idSeq ∧
      List.Forall₂ (Tells cfg) (ops.map TxOp.event) chs ∧
      ((∀ p ∈ ops.map TxOp.sort, p.2 = .insert → top < p.1 ∨ p.1 ∈ given) →
        LocalEntries given top (revs s.index) (chs.map Change.entry)) := by
  induction ops generalizing s with
  | nil =>
    cases h
    exact ⟨[], [], wrote_nil _, rfl, rfl, .nil, fun _ => trivial⟩
  | cons op ops ih =>
    obtain ⟨u, hu, h⟩ := Option.bind_eq_some_iff.mp h
    obtain ⟨ls, ch, hch, hw, hd, hseq⟩ := commitTxOp_spec hu
    obtain ⟨ls', chs, hw', hd', hseq', htold, hloc⟩ := ih h
    refine ⟨ls ++ ls', [ch] ++ chs, hw.trans hw' hd', hd'.trans hd, hseq'.trans hseq,
      .cons hch.tells htold, fun hnew => ⟨?_, ?_⟩⟩
    · show LocalEntry given top (revs s.index) ch.entry
      unfold LocalEntry
      rw [hch.op]
      cases hk : op.kind with
      | insert =>
        rw [hch.id]
        exact ⟨by simp [hch.rev (by simp [hk]), hk], hnew op.sort mem_cons_self hk⟩
      | update =>
        have hrev := hch.rev (by simp [hk])
        rw [hk, if_neg (by decide)] at hrev
        show _ = ((s.index ch.entry.id).map IndexEntry.rev).elim 1 (· + 1)
        rw [hrev, hch.id]
        cases s.index op.id <;> rfl
      | delete => trivial
    · have hnext : revs u.index = moved (revs s.index) ch.entry := by
        obtain ⟨l, hl⟩ : ∃ l, ls = [l] := length_eq_one_iff.mp hw.carry.length_eq
        subst hl
        have hidx : u.index = s.index.put s.active.num s.active.size ch.entry := hw.index
        rw [hidx, revs_put]
      rw [← hnext]
      exact hloc fun p hp => hnew p (mem_cons_of_mem _ hp)

theorem sort_of_told (h : List.Forall₂ (Tells cfg) (ops.map TxOp.event) chs) :
    chs.map Change.sort = ops.map TxOp.sort := by
  induction ops generalizing chs with
  | nil =>
    cases h
    rfl
  | cons op ops ih =>
    obtain ⟨ch, chs, htell, htold, rfl⟩ := List.forall₂_cons_left_iff.mp h
    rw [map_cons, map_cons, ih htold, Change.sort, ← htell.id, ← htell.op]
    rfl

theorem insertedIDs_of_ops (h : chs.map Change.sort = ops.map TxOp.sort) :
    insertedIDs (chs.map Change.entry) = (ops.filter fun op => op.kind == .insert).map TxOp.id := by
  induction chs generalizing ops with
  | nil =>
    cases ops with
    | nil => rfl
    | cons op ops => simp at h
  | cons ch chs ih =>
    cases ops with
    | nil => simp at h
    | cons op ops =>
      simp only [map_cons, List.cons.injEq, Change.sort, TxOp.sort, Prod.mk.injEq] at h
      have ih := ih h.2
      unfold insertedIDs at ih ⊢
      cases hk : op.kind <;> simp [h.1.1, h.1.2, hk, ih]

theorem mem_of_ops (hch : ch ∈ chs) (h : chs.map Change.sort = ops.map TxOp.sort) :
    ∃ op ∈ ops, op.id = ch.entry.id ∧ op.kind = ch.entry.op := by
  have hmem := mem_map_of_mem (f := Change.sort) hch
  rw [h] at hmem
  obtain ⟨op, hop, heq⟩ := mem_map.mp hmem
  exact ⟨op, hop, (Prod.mk.inj heq).1, (Prod.mk.inj heq).2⟩

theorem mem_suppliedIDs {op : TxOp} (h : op ∈ ops) (hk : op.kind = .insert) :
    op.id ∈ suppliedIDs ops :=
  mem_map_of_mem (mem_filter.mpr ⟨h, by simp [hk]⟩)

/-- A legacy batch runs its operations, with the keys that their records have, one by one. -/
theorem commitTxOps_locally {exp : Int} {kept : List TxOp} (hn : s.idSeq ≤ n)
    (hbase : op.base s = s) (hevs : op.events s = kept.map TxOp.event)
    (hkept : kept.map TxOp.sort = ops.map TxOp.sort)
    (hins : ∀ o ∈ ops, o.kind = .insert → s.idSeq < o.id ∧ o.id ≤ n ∨ o.id ∈ op.supplied)
    (hthere : ∀ o ∈ ops, o.kind ≠ .insert → (s.index o.id).isSome = true)
    (hfree : Bounded s → op.IndexSound s →
      InsertsNew (indexed s) kept ∧ ∀ o ∈ ops, o.kind = .insert → o.id ≤ n)
    (hdistinct : op.supplied.Nodup → (suppliedIDs ops).Nodup)
    (hord : (ops.map TxOp.id).Nodup ∨ ops.map TxOp.sort = op.staged)
    (h : kept.foldlM (Collection.commitTxOp cfg exp) { s with idSeq := n } = some u) (now : Int) :
    ∃ ls chs, WritesLocally cfg op s ls chs { u with now := now } := by
  obtain ⟨ls, chs, hw, hd, hseq, htold, hloc⟩ := commitTxOps_told h
  have hsort := (sort_of_told htold).trans hkept
  have hseq : u.idSeq = n := hseq
  have hsidxs := hw.sidxs
  have hw : Wrote { s with sidxs := s.sidxs, idSeq := n } ls chs u := hw
  have htarget : ∀ ch ∈ chs, ch.entry.op ≠ .insert → (s.index ch.entry.id).isSome = true := by
    intro ch hch hop
    obtain ⟨o, ho, hid, hkind⟩ := mem_of_ops hch hsort
    exact hid ▸ hthere o ho (hkind ▸ hop)
  have hold : Bounded s → ∀ ch ∈ chs, ch.entry.op ≠ .insert → ch.entry.id ≤ u.idSeq :=
    fun hb ch hch hop => (hb _ (htarget ch hch hop)).trans (hn.trans hseq.ge)
  refine ⟨ls, chs, hw.appended (Or.inl hd) (hn.trans hseq.ge) now, hevs ▸ htold, ?_,
    hloc (hkept ▸ forall_mem_map.mpr fun o ho hk => (hins o ho hk).imp And.left id), htarget,
    fun hb ch hch => ?_, fun hb hok => ⟨addsNew_told htold (hfree hb hok).1, fun ch hch => ?_⟩,
    fun hn => ?_, ?_⟩
  · rw [hbase]
    exact hsidxs
  · by_cases hop : ch.entry.op = .insert
    · obtain ⟨o, ho, hid, hkind⟩ := mem_of_ops hch hsort
      rw [← hid]
      exact (hins o ho (hkind.trans hop)).imp (fun h => h.2.trans hseq.ge) id
    · exact Or.inl (hold hb ch hch hop)
  · by_cases hop : ch.entry.op = .insert
    · obtain ⟨o, ho, hid, hkind⟩ := mem_of_ops hch hsort
      rw [← hid]
      exact ((hfree hb hok).2 o ho (hkind.trans hop)).trans hseq.ge
    · exact hold hb ch hch hop
  · rw [insertedIDs_of_ops hsort]
    exact hdistinct hn
  · have hids : (chs.map Change.entry).map Entry.id = ops.map TxOp.id := by
      have heq := congrArg (List.map Prod.fst) hsort
      rw [map_map, map_map] at heq
      rw [map_map]
      exact heq
    rw [hids, hsort]
    exact hord

theorem commitXTx_decides {ops : List XTxOp} (h : s.commitXTx cfg txid ops r = some t) :
    Decides s t := by
  unfold Collection.commitXTx at h
  obtain ⟨-, h⟩ := guard_bind.mp h
  obtain ⟨hnew, h⟩ := guard_bind.mp h
  obtain ⟨chs, -, h⟩ := Option.bind_eq_some_iff.mp h
  obtain ⟨-, rfl⟩ := guard_some h
  refine Or.inr ⟨txid, .commit, hnew, ?_⟩
  rw [commitRun_eq]
  rfl

theorem insertedIDs_sublist (es : List Entry) : (insertedIDs es).Sublist (es.map Entry.id) :=
  (filter_sublist).map _

/-- A transaction, given which ids its inserts name. -/
theorem commitXTx_locally {ops : List XTxOp} (hn : s.idSeq ≤ n) (hbase : op.base s = s)
    (hevs : op.events s = ops.map (s.xtxEvent r))
    (hins : ∀ o ∈ ops, o.op = .insert → s.idSeq < o.id ∨ o.id ∈ op.supplied)
    (hfree : Bounded s → op.IndexSound s → ∀ o ∈ ops, o.op = .insert → s.index o.id = none)
    (h : Collection.commitXTx cfg { s with idSeq := n } txid ops r = some u) (now : Int) :
    ∃ ls chs, WritesLocally cfg op s ls chs { u with now := now } := by
  obtain ⟨hnodup, -, ls, chs, hchs, hw, hc⟩ := commitXTx_spec h
  have hids : ((chs.map Change.entry).map Entry.id).Nodup := xtxRun_ids hchs ▸ hnodup
  have hd : Decides { s with idSeq := n } u := commitXTx_decides h
  have hsidxs := hw.sidxs
  have hw : Wrote { s with sidxs := s.sidxs, idSeq := n } ls chs u := hw
  have hle : Bounded s → ∀ ch ∈ chs, ch.entry.id ≤ u.idSeq := fun hb =>
    hc.2 fun id hid => (hb id hid).trans hn
  have htold : List.Forall₂ (Tells cfg) (ops.map (s.xtxEvent r)) chs := by
    rw [List.forall₂_map_left_iff]
    exact hchs.imp fun _ _ hx => hx.tells
  refine ⟨ls, chs, hw.appended hd (hn.trans hc.1) now, hevs ▸ htold, ?_,
    along_of_nodup LocalEntry.congr hids (fun _ _ => rfl) fun e he => ?_, fun ch hch hop => ?_,
    fun hb ch hch => Or.inl (hle hb ch hch),
    fun hb hok => ⟨addsNew_of_nodup hids fun ch hch _ hfresh => ?_, hle hb⟩,
    fun _ => hids.sublist (insertedIDs_sublist _), Or.inl hids⟩
  · rw [hbase]
    exact hsidxs
  · obtain ⟨ch, hch, rfl⟩ := mem_map.mp he
    obtain ⟨op, hop, hx⟩ := Traverse.forall₂_mem hchs hch
    unfold LocalEntry
    rw [hx.op]
    cases hk : op.op with
    | insert =>
      rw [hx.id]
      exact ⟨hx.insertRev hk, hins op hop hk⟩
    | update =>
      obtain ⟨loc, hloc, -, hrev, -⟩ := hx.target (by simp [hk])
      have hloc : s.index op.id = some loc := hloc
      show _ = ((s.index ch.entry.id).map IndexEntry.rev).elim 1 (· + 1)
      rw [hx.id, hloc]
      exact hrev
    | delete => trivial
  · obtain ⟨op, -, hx⟩ := Traverse.forall₂_mem hchs hch
    rw [hx.op] at hop
    obtain ⟨loc, hloc, -⟩ := hx.target hop
    have hloc : s.index op.id = some loc := hloc
    simp [hx.id, hloc]
  · obtain ⟨o, ho, hx⟩ := Traverse.forall₂_mem hchs hch
    rw [hx.fresh] at hfresh
    rw [indexed, hx.id, hfree hb hok o ho (beq_iff_eq.mp hfresh)]
    rfl

theorem commitTx_locally (h : s.commitTx cfg txid ops r = some u) (now : Int) :
    ∃ ls chs, WritesLocally cfg (.commitTx txid ops r) s ls chs { u with now := now } := by
  have hevs : CollectionOp.events s (.commitTx txid ops r) = if s.routeAtomic ops.length then _
    else _ := rfl
  have hsound : CollectionOp.IndexSound s (.commitTx txid ops r) = if s.routeAtomic ops.length then _
    else _ := rfl
  unfold Collection.commitTx at h
  split at h
  · next hr =>
    rw [if_pos hr] at hevs hsound
    refine commitXTx_locally (le_refl _) rfl (by rw [hevs, map_map]; rfl)
      (forall_mem_map.mpr fun _ ho hk => Or.inr (mem_suppliedIDs ho hk)) (fun _ hok => ?_) h now
    rw [hsound] at hok
    exact forall_mem_map.mpr hok
  · next hr =>
    rw [if_neg hr] at hevs hsound
    obtain ⟨hthere, -, h⟩ := commitTxLegacy_spec h
    have hsort : (ops.map s.keepKeyOf).map TxOp.sort = ops.map TxOp.sort := by
      rw [map_map]
      refine map_congr_left fun o _ => ?_
      simp [TxOp.sort, keepKeyOf_kind]
    refine commitTxOps_locally (le_refl _) rfl hevs hsort
      (fun o ho hk => Or.inr (mem_suppliedIDs ho hk)) hthere (fun _ hok => ?_) id (Or.inr rfl) h now
    rw [hsound] at hok
    exact ⟨insertsNew_keepKey s hok.1, hok.2⟩

theorem insertMany_locally {records : List (Option Data)} {explicit : Int}
    (h : s.insertMany cfg txid records explicit r = some u) (now : Int) :
    ∃ ls chs, WritesLocally cfg (.insertMany txid records explicit r) s ls chs
      { u with now := now } := by
  unfold Collection.insertMany at h
  obtain ⟨-, h⟩ := guard_bind.mp h
  have hids : ∀ o ∈ insertOps s records r.ts, s.idSeq < o.id ∧ o.id ≤ s.idSeq + records.length := by
    intro o ho
    have hmem := mem_map_of_mem (f := TxOp.id) ho
    rw [insertOps_ids, mem_range'_1] at hmem
    omega
  have hins : ∀ o ∈ insertOps s records r.ts, o.kind = .insert := by
    intro o ho
    obtain ⟨p, -, rfl⟩ := mem_map.mp ho
    rfl
  simp only at h
  split at h
  · refine commitXTx_locally (Nat.le_add_right _ _) rfl ?_
      (forall_mem_map.mpr fun o ho _ => Or.inl (hids o ho).1)
      (fun hb _ => forall_mem_map.mpr fun o ho _ => ?_) h now
    · show (insertOps s records r.ts).map TxOp.event = _
      rw [map_map]
      refine map_congr_left fun o ho => ?_
      obtain ⟨p, -, rfl⟩ := mem_map.mp ho
      rfl
    · simpa [indexed] using (insertOps_fresh hb ho).1
  · obtain ⟨-, h⟩ := guard_bind.mp h
    exact commitTxOps_locally (Nat.le_add_right _ _) rfl rfl rfl (fun o ho _ => Or.inl (hids o ho))
      (fun o ho hne => absurd (hins o ho) hne)
      (fun hb _ => ⟨insertOps_new hb, fun o ho _ => (hids o ho).2⟩)
      (fun _ => by
        have hall : (insertOps s records r.ts).filter (fun op => op.kind == .insert) =
            insertOps s records r.ts :=
          filter_eq_self.mpr fun o ho => by simp [hins o ho]
        rw [suppliedIDs, hall, insertOps_ids]
        exact nodup_range')
      (Or.inl (by rw [insertOps_ids]; exact nodup_range')) h now

theorem localEntries_deletes (h : ∀ e ∈ es, e.op = .delete) : LocalEntries given top m es := by
  induction es generalizing m with
  | nil => trivial
  | cons e es ih =>
    refine ⟨?_, ih fun e he => h e (by simp [he])⟩
    unfold LocalEntry
    rw [h e (by simp)]
    trivial

theorem reapExpired_locally {ids : List Nat} (h : s.reapExpired cfg ids r = some u) (now : Int) :
    ∃ ls chs, WritesLocally cfg (.reap ids r) s ls chs { u with now := now } := by
  have hdel : ∀ e ∈ (ids.map (reapChange r.ts)).map Change.entry, e.op = .delete := by
    intro e he
    rw [map_map] at he
    obtain ⟨id, -, rfl⟩ := mem_map.mp he
    rfl
  obtain ⟨hc, ls, hw⟩ := reapExpired_spec h
  unfold Collection.reapExpired at h
  obtain ⟨hnodup, h⟩ := guard_bind.mp h
  obtain ⟨hexp, h⟩ := guard_bind.mp h
  have hd : u.decisions = s.decisions := by
    rw [← Option.some.inj h, commitRun_eq]
    rfl
  have hw : Wrote { s with sidxs := s.sidxs, idSeq := s.idSeq } ls _ u := hw
  refine ⟨ls, _, hw.appended (Or.inl hd) hc.1 now, ?_, hw.sidxs, localEntries_deletes hdel,
    fun ch hch _ => ?_, fun hb ch hch => Or.inl (hc.2 hb ch hch),
    fun hb _ => ⟨addsNew_known fun ch hch => ?_, hc.2 hb⟩, fun _ => ?_, Or.inl ?_⟩
  · unfold CollectionOp.events
    rw [List.forall₂_map_left_iff, List.forall₂_map_right_iff]
    exact List.forall₂_same.mpr fun id _ => ⟨rfl, rfl, rfl, fun hne => absurd rfl hne⟩
  · obtain ⟨id, hid, rfl⟩ := mem_map.mp hch
    have hthere := all_eq_true.mp hexp id hid
    show (s.index id).isSome = true
    cases hidx : s.index id with
    | none => simp [hidx] at hthere
    | some _ => rfl
  · obtain ⟨id, -, rfl⟩ := mem_map.mp hch
    rfl
  · have hnone : insertedIDs ((ids.map (reapChange r.ts)).map Change.entry) = [] := by
      unfold insertedIDs
      rw [filter_eq_nil_iff.mpr fun e he => by simp [hdel e he]]
      rfl
    rw [hnone]
    exact nodup_nil
  · have hids : ((ids.map (reapChange r.ts)).map Change.entry).map Entry.id = ids := by
      rw [map_map, map_map]
      exact map_id _
    rw [hids]
    exact of_decide_eq_true hnodup

theorem step_locally (hl : op.isLocalWrite = true) (h : s.step cfg op = some t) :
    ∃ ls chs, WritesLocally cfg op s ls chs t := by
  have hsingle : ∀ {data}, op.written = some data → ∃ ls chs, WritesLocally cfg op s ls chs t := by
    intro data hop
    obtain ⟨r, x, u, hw, rfl⟩ := step_single hop h
    exact hw.locally r.late
  cases op with
  | insert | insertWithKey | update | updateWithExpiry | delete | updateByKey | deleteByKey
  | upsert | compareAndSwap => exact hsingle rfl
  | insertMany txid records explicit r =>
    obtain ⟨-, u, hu, rfl⟩ := during_some h
    exact insertMany_locally hu r.late
  | commitTx txid ops r =>
    obtain ⟨-, u, hu, rfl⟩ := during_some h
    exact commitTx_locally hu r.late
  | commitXTx txid ops r =>
    obtain ⟨-, u, hu, rfl⟩ := during_some h
    refine commitXTx_locally (le_refl _) rfl rfl (fun o ho hk => Or.inr ?_) ?_ hu r.late
    · exact mem_map_of_mem (mem_filter.mpr ⟨ho, by simp [hk]⟩)
    · exact fun _ hok => hok
  | reap ids r =>
    obtain ⟨-, u, hu, rfl⟩ := during_some h
    exact reapExpired_locally hu r.late
  | _ => cases hl

end

end Scriva
