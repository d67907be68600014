import Scriva.WriteSpecs

namespace Scriva

open List Option

structure TxChange (cfg : Config) (exp : Int) (s : Collection) (o : TxOp) (ch : Change) : Prop where
  id : ch.entry.id = o.id
  op : ch.entry.op = o.kind
  fresh : ch.fresh = (o.kind == .insert)
  rev : o.kind ≠ .delete → ch.entry.rev =
    if o.kind = .insert then 1 else (s.index o.id).elim 1 fun c => c.rev + 1
  expiresAt : o.kind ≠ .delete → ch.entry.expiresAt =
    if o.kind = .insert then exp else (s.index o.id).elim 0 IndexEntry.expiresAt
  data : o.kind ≠ .delete → ch.data = o.data ∧ Sealed cfg o.data ch.entry.data

section

variable {cfg : Config} {s s' : Collection} {r : Readings}

variable {ch : Change} {op : XTxOp} {ops : List XTxOp}

theorem TxChange.tells {exp : Int} {op : TxOp} (h : TxChange cfg exp s op ch) :
    Tells cfg op.event ch := by
  refine ⟨h.op.symm, h.id.symm, h.fresh, fun hne => ?_⟩
  have hne : op.kind ≠ .delete := hne
  obtain ⟨hdata, hseal⟩ := h.data hne
  have hev : op.event.data = op.data := if_neg hne
  rw [hev]
  exact ⟨hdata.symm, hseal.storedAs⟩

theorem commitTxOp_spec {exp : Int} {op : TxOp} (h : s.commitTxOp cfg exp op = some s') :
    ∃ ls ch, TxChange cfg exp s op ch ∧ Wrote s ls [ch] s' ∧ s'.decisions = s.decisions ∧
      s'.idSeq = s.idSeq := by
  unfold Collection.commitTxOp at h
  cases hk : op.kind with
  | insert | update =>
    rw [hk] at h
    obtain ⟨e, he, h⟩ := bind_eq_some_iff.mp h
    obtain ⟨stored, epoch, hseal, rfl⟩ := sealEntryData_some he
    cases h
    exact ⟨_, _, ⟨rfl, hk.symm, by simp [hk], fun _ => by simp [hk], fun _ => by simp [hk],
      fun _ => ⟨rfl, hseal⟩⟩, wrote_put cfg s _, rfl, rfl⟩
  | delete =>
    rw [hk] at h
    cases h
    exact ⟨_, _, ⟨rfl, hk.symm, by simp [hk], fun hne => (hne hk).elim, fun hne => (hne hk).elim,
      fun hne => (hne hk).elim⟩, wrote_put cfg s _, rfl, rfl⟩

theorem commitTxLegacy_spec {ops : List TxOp} (h : s.commitTxLegacy cfg ops r = some s') :
    (∀ op ∈ ops, op.kind ≠ .insert → (s.index op.id).isSome = true) ∧
      s.txCheckUnique r.late [] ops = true ∧
      (ops.map s.keepKeyOf).foldlM
        (Collection.commitTxOp cfg (resolveInsertExpiryAt cfg 0 r.early)) s = some s' := by
  unfold Collection.commitTxLegacy at h
  obtain ⟨hall, h⟩ := guard_bind.mp h
  obtain ⟨huniq, h⟩ := guard_bind.mp h
  refine ⟨fun op hop hk => ?_, huniq, h⟩
  simpa [hk] using all_eq_true.mp hall op hop

theorem sealRunEntry_some {cfg : Config} {e e' : Entry} (h : sealRunEntry cfg e = some e') :
    ∃ stored epoch, (stored = none ∧ e.data = none ∨ Sealed cfg e.data stored) ∧
      e' = { e with data := stored, epoch := epoch } := by
  unfold sealRunEntry at h
  unfold Sealed
  cases henc : cfg.enc with
  | none =>
    rw [henc] at h
    cases h
    exact ⟨e.data, e.epoch, Or.inr rfl, rfl⟩
  | some k =>
    rw [henc] at h
    obtain ⟨stored, hs, rfl⟩ := map_eq_some_iff.mp h
    cases hd : e.data with
    | none =>
      rw [hd] at hs
      cases hs
      exact ⟨none, k.epoch, Or.inl ⟨rfl, rfl⟩, rfl⟩
    | some kvs =>
      rw [hd] at hs
      exact ⟨stored, k.epoch, Or.inr hs, rfl⟩

structure XTxChange (cfg : Config) (s : Collection) (r : Readings) (o : XTxOp) (ch : Change) :
    Prop where
  id : ch.entry.id = o.id
  op : ch.entry.op = o.op
  fresh : ch.fresh = (o.op == .insert)
  insertRev : o.op = .insert → ch.entry.rev = 1
  target : o.op ≠ .insert → ∃ loc, s.index o.id = some loc ∧
    expired loc.expiresAt r.early = false ∧ ch.entry.rev = loc.rev + 1 ∧
    (o.op = .update → ch.entry.expiresAt =
      if o.expiresAt = 0 then loc.expiresAt else o.expiresAt)
  data : o.op ≠ .delete →
    ch.data = (if o.op = .insert then o.data else s.preserveReserved o.id o.data) ∧
      (ch.entry.data = none ∧ ch.data = none ∨ Sealed cfg ch.data ch.entry.data)

theorem XTxChange.tells (h : XTxChange cfg s r op ch) : Tells cfg (s.xtxEvent r op) ch := by
  refine ⟨h.op.symm, h.id.symm, h.fresh, fun hne => ?_⟩
  have hne : op.op ≠ .delete := hne
  obtain ⟨hdata, hseal⟩ := h.data hne
  have hev : (s.xtxEvent r op).data = ch.data := by
    rw [hdata]
    show (if op.op = .update then _ else _) = _
    cases hop : op.op with
    | insert => rfl
    | update => rfl
    | delete => exact absurd hop hne
  refine ⟨hev, ?_⟩
  rw [hev]
  rcases hseal with ⟨he, hd⟩ | hseal
  · exact Or.inl ⟨hd, he⟩
  · exact hseal.storedAs

theorem xtxChange_spec (h : s.xtxChange cfg r op = some ch) : XTxChange cfg s r op ch := by
  unfold Collection.xtxChange at h
  cases hk : op.op with
  | insert =>
    rw [hk] at h
    obtain ⟨e, he, h⟩ := bind_eq_some_iff.mp h
    obtain ⟨stored, epoch, hseal, rfl⟩ := sealRunEntry_some he
    cases h
    exact ⟨rfl, hk.symm, by simp [hk], fun _ => rfl, fun hne => (hne hk).elim,
      fun _ => ⟨by simp [hk], hseal⟩⟩
  | update | delete =>
    rw [hk] at h
    obtain ⟨loc, hloc, h⟩ := bind_eq_some_iff.mp h
    obtain ⟨hexp, h⟩ := guard_bind.mp h
    obtain ⟨-, h⟩ := guard_bind.mp h
    obtain ⟨e, he, h⟩ := bind_eq_some_iff.mp h
    obtain ⟨stored, epoch, hseal, rfl⟩ := sealRunEntry_some he
    cases h
    refine ⟨rfl, hk.symm, by simp [hk], by simp [hk], fun _ => ⟨loc, hloc, by simpa using hexp, rfl,
      by simp [hk]⟩, by simp [hk, hseal]⟩

theorem xtxRun_ids {chs : List Change} (h : List.Forall₂ (XTxChange cfg s r) ops chs) :
    (chs.map Change.entry).map Entry.id = ops.map XTxOp.id := by
  induction h with
  | nil => rfl
  | cons hch _ ih => rw [map_cons, map_cons, map_cons, ih, hch.id]

theorem le_foldl_max (ns : List Nat) (k : Nat) :
    k ≤ ns.foldl max k ∧ ∀ n ∈ ns, n ≤ ns.foldl max k := by
  induction ns generalizing k with
  | nil => simp
  | cons m ns ih =>
    obtain ⟨hk, hns⟩ := ih (max k m)
    rw [foldl_cons]
    refine ⟨by omega, fun n hn => ?_⟩
    rcases mem_cons.mp hn with rfl | hn
    · omega
    · exact hns n hn

theorem le_maxInsertID (h : op ∈ ops) (hk : op.op = .insert) : op.id ≤ maxInsertID ops := by
  have hmem : op ∈ ops.filter fun op => op.op == .insert := mem_filter.mpr ⟨h, by simp [hk]⟩
  exact (le_foldl_max _ 0).2 op.id (mem_map_of_mem hmem)

theorem xtxRun_counts {chs : List Change} (h : List.Forall₂ (XTxChange cfg s r) ops chs)
    (hseq : s'.idSeq = max s.idSeq (maxInsertID ops)) : Counts s chs s' := by
  refine ⟨hseq ▸ le_max_left _ _, fun hb ch hch => ?_⟩
  obtain ⟨op, hop, hx⟩ := Traverse.forall₂_mem h hch
  rw [hx.id, hseq]
  by_cases hk : op.op = .insert
  · exact (le_maxInsertID hop hk).trans (le_max_right _ _)
  · obtain ⟨loc, hloc, -⟩ := hx.target hk
    exact (hb op.id (by simp [hloc])).trans (le_max_left _ _)

theorem commitXTx_spec {txid : String} (h : s.commitXTx cfg txid ops r = some s') :
    (ops.map XTxOp.id).Nodup ∧ s.txCheckUnique r.late [] (ops.map (XTxOp.claim r.ts)) = true ∧
    ∃ ls chs, List.Forall₂ (XTxChange cfg s r) ops chs ∧ Wrote s ls chs s' ∧
      Counts s chs s' := by
  unfold Collection.commitXTx at h
  obtain ⟨hnodup, h⟩ := guard_bind.mp h
  obtain ⟨hnew, h⟩ := guard_bind.mp h
  obtain ⟨chs, hchs, h⟩ := bind_eq_some_iff.mp h
  obtain ⟨huniq, rfl⟩ := guard_some h
  have hchs := (Traverse.forall₂_of_mapM_some hchs).imp fun _ _ => xtxChange_spec
  exact ⟨of_decide_eq_true hnodup, huniq, _, chs, hchs, (wrote_stamped cfg hnew chs).counted _ _,
    xtxRun_counts hchs rfl⟩

def replChange (s : Collection) (e : Entry) : Change :=
  { entry := e, data := e.data, fresh := (s.index e.id).isNone }

def replChanges (s : Collection) (es : List Entry) : List Change :=
  (es.filter fun e => !s.applied e).map (replChange s)

theorem replChanges_entries (s : Collection) (es : List Entry) :
    (replChanges s es).map Change.entry = es.filter fun e => !s.applied e := by
  rw [replChanges, List.map_map]
  exact map_id _

theorem applyEntry_spec {e : Entry} (h : s.applyEntry cfg e r = some s') :
    Counts (s.ensureKeyIndexFor [e]) (replChanges (s.ensureKeyIndexFor [e]) [e]) s' ∧
      ∃ ls, Wrote (s.ensureKeyIndexFor [e]) ls (replChanges (s.ensureKeyIndexFor [e]) [e]) s' := by
  unfold Collection.applyEntry at h
  obtain ⟨-, h⟩ := guard_bind.mp h
  generalize s.ensureKeyIndexFor [e] = b at h ⊢
  simp only at h
  unfold replChanges
  cases happ : b.applied e with
  | true =>
    rw [if_pos happ] at h
    cases h
    rw [filter_cons_of_neg (by simp [happ])]
    exact ⟨⟨le_refl _, by simp⟩, [], wrote_nil _⟩
  | false =>
    rw [if_neg (by simp [happ])] at h
    obtain ⟨-, rfl⟩ := guard_some h
    rw [filter_cons_of_pos (by simp [happ])]
    exact ⟨counts_one (le_max_left _ _) fun _ => le_max_right _ _, _,
      (wrote_put cfg b (replChange b e)).counted _ _⟩

theorem applyReplicatedTx_spec {txid : String} {es : List Entry}
    (h : s.applyReplicatedTx cfg txid es r = some s') :
    Counts (s.ensureKeyIndexFor es) (replChanges (s.ensureKeyIndexFor es) es) s' ∧
      ∃ ls, Wrote (s.ensureKeyIndexFor es) ls (replChanges (s.ensureKeyIndexFor es) es) s' := by
  unfold Collection.applyReplicatedTx at h
  obtain ⟨-, h⟩ := guard_bind.mp h
  obtain ⟨hnew, h⟩ := guard_bind.mp h
  obtain ⟨-, h⟩ := guard_bind.mp h
  obtain ⟨-, rfl⟩ := guard_some h
  refine ⟨⟨(le_foldl_max _ _).1, fun _ ch hch => ?_⟩, _, (wrote_stamped cfg hnew _).counted _ _⟩
  obtain ⟨e, he, rfl⟩ := mem_map.mp hch
  exact (le_foldl_max _ _).2 e.id (mem_map_of_mem he)

def reapChange (ts : Rfc3339.Time) (id : Nat) : Change :=
  { entry := deleteEntry id ts, data := none, fresh := false }

theorem reapExpired_spec {ids : List Nat} (h : s.reapExpired cfg ids r = some s') :
    Counts s (ids.map (reapChange r.ts)) s' ∧
      ∃ ls, Wrote s ls (ids.map (reapChange r.ts)) s' := by
  unfold Collection.reapExpired at h
  obtain ⟨-, h⟩ := guard_bind.mp h
  obtain ⟨hexp, rfl⟩ := guard_some h
  have hseq : (s.commitRun cfg none (ids.map (reapChange r.ts))).idSeq = s.idSeq := by
    rw [commitRun_eq]
    rfl
  refine ⟨⟨hseq.ge, fun hb ch hch => ?_⟩, _, wrote_plain cfg s _⟩
  obtain ⟨id, hid, rfl⟩ := mem_map.mp hch
  refine (hb id ?_).trans hseq.ge
  have := all_eq_true.mp hexp id hid
  cases hidx : s.index id with
  | none => simp [hidx] at this
  | some _ => rfl

end

end Scriva
