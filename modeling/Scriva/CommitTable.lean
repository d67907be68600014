import Scriva.CommitKeys

namespace Scriva.CommitKeys

open Decisions Durable List Option Function


def KeyFree (rs : List Decisions.Record) (key : Bytes) : Prop :=
  ∀ r ∈ rs, r.k = kindCommit → r.key ≠ key

def KeyOnce (rs : List Decisions.Record) : Prop :=
  ∀ r ∈ rs, ∀ r' ∈ rs, r.k = kindCommit → r'.k = kindCommit → r.key ≠ [] → r.key = r'.key →
    r.tx = r'.tx

def Decides (r : Decisions.Record) : Prop :=
  r.k = kindCommit ∨ r.k = kindAbort

section Table

variable {rs : List Decisions.Record} {t t' : Table} {r : Decisions.Record} {key tx : Bytes}

theorem Decides.outcome (h : Decides r) : r.outcome = r.k := by
  have hne : r.k ≠ kindRetire := by
    rcases h with h | h <;> rw [h] <;> decide
  exact if_neg hne

theorem mem_commitsOf :
    (key, tx) ∈ commitsOf rs ↔ ∃ r ∈ rs, r.k = kindCommit ∧ r.key = key ∧ r.tx = tx := by
  simp only [commitsOf, List.mem_map, mem_filter, decide_eq_true_eq, Prod.mk.injEq]
  constructor
  · rintro ⟨r, ⟨hr, hk⟩, hkey, htx⟩
    exact ⟨r, hr, hk, hkey, htx⟩
  · rintro ⟨r, hr, hk, hkey, htx⟩
    exact ⟨r, ⟨hr, hk⟩, hkey, htx⟩

theorem commitsOf_append (rs rs' : List Decisions.Record) :
    commitsOf (rs ++ rs') = commitsOf rs ++ commitsOf rs' := by
  simp [commitsOf]

theorem KeyFree.concat (h : KeyFree rs key) (hr : r.k = kindCommit → r.key ≠ key) :
    KeyFree (rs ++ [r]) key := by
  intro r' hr'
  rcases mem_append.mp hr' with h' | h'
  · exact h r' h'
  · rw [mem_singleton.mp h']
    exact hr

theorem KeyOnce.concat (h : KeyOnce rs) (hr : r.k = kindCommit → r.key ≠ [] → KeyFree rs r.key) :
    KeyOnce (rs ++ [r]) := by
  intro a ha b hb hka hkb hne hkey
  rcases mem_append.mp ha with ha | ha <;> rcases mem_append.mp hb with hb | hb
  · exact h a ha b hb hka hkb hne hkey
  · rw [mem_singleton.mp hb] at hkb hkey
    exact absurd hkey (hr hkb (hkey ▸ hne) a ha hka)
  · rw [mem_singleton.mp ha] at hka hkey hne
    exact absurd hkey.symm (hr hka hne b hb hkb)
  · rw [mem_singleton.mp ha, mem_singleton.mp hb]

/-- The table of records: its decisions are theirs, and a key leads to the transaction that
committed under it. -/
structure Indexes (rs : List Decisions.Record) (t : Table) : Prop where
  decided : ∀ tx d, t.byTx tx = some d → ∃ r ∈ rs, r.tx = tx ∧ r.key = d.key ∧ r.k = d.outcome
  entered : ∀ r ∈ rs, ∃ d, t.byTx r.tx = some d ∧ d.key = r.key ∧ d.outcome = r.k
  known : ∀ key tx, t.byKey key = some tx → ∃ d, t.byTx tx = some d ∧ d.key = key
  keyed : ∀ tx d, t.byTx tx = some d → d.outcome = kindCommit → d.key ≠ [] →
    t.byKey d.key = some tx

/-- What `apply` does with the record of a decision `d`: it stands for the decision of its
transaction, which was the same if there was one, and may take the key over. -/
structure Applies (t t' : Table) (r : Decisions.Record) (d : Decision) : Prop where
  byTx : t'.byTx = Function.update t.byTx r.tx (some d)
  key : d.key = r.key
  outcome : d.outcome = r.k
  stood : ∀ d0, t.byTx r.tx = some d0 → d0.key = r.key ∧ d0.outcome = r.k
  byKey : t'.byKey = if r.key ≠ [] ∧ Table.takesKey { t with byTx := t'.byTx } r then
    Function.update t.byKey r.key (some r.tx) else t.byKey

theorem apply_spec (hr : Decides r) (h : t.apply r = .ok t') : ∃ d, Applies t t' r d := by
  obtain ⟨d, hbyTx, hkey, hout⟩ := apply_byTx h
  rw [hr.outcome] at hout
  unfold Table.apply at h
  obtain ⟨d', hd, h⟩ := bind_ok h
  obtain ⟨d'', -, h⟩ := bind_ok h
  split_ifs at h
  cases h
  refine ⟨d, hbyTx, hkey, hout, fun d0 h0 => ?_, rfl⟩
  unfold Table.decisionFor at hd
  rw [h0] at hd
  dsimp only at hd
  split_ifs at hd with ho hk
  exact ⟨not_not.mp hk, (not_not.mp ho).trans hr.outcome⟩

section Concat

variable {d d' : Decision}

theorem Applies.self (ha : Applies t t' r d) : t'.byTx r.tx = some d := by
  rw [ha.byTx, update_self]

theorem Applies.other (ha : Applies t t' r d) (hne : tx ≠ r.tx) : t'.byTx tx = t.byTx tx := by
  rw [ha.byTx, update_of_ne hne]

/-- A decision that was there is still there, with its key and outcome. -/
theorem Applies.stays (ha : Applies t t' r d) (h : t.byTx tx = some d') :
    ∃ d'', t'.byTx tx = some d'' ∧ d''.key = d'.key ∧ d''.outcome = d'.outcome := by
  by_cases he : tx = r.tx
  · rw [he] at h ⊢
    obtain ⟨hk, ho⟩ := ha.stood d' h
    exact ⟨d, ha.self, ha.key.trans hk.symm, ha.outcome.trans ho.symm⟩
  · exact ⟨d', (ha.other he).trans h, rfl, rfl⟩

theorem Indexes.decided_concat (hi : Indexes rs t) (ha : Applies t t' r d)
    (h : t'.byTx tx = some d') :
    ∃ r' ∈ rs ++ [r], r'.tx = tx ∧ r'.key = d'.key ∧ r'.k = d'.outcome := by
  by_cases he : tx = r.tx
  · rw [he, ha.self] at h
    cases h
    exact ⟨r, mem_concat_self, he.symm, ha.key.symm, ha.outcome.symm⟩
  · rw [ha.other he] at h
    obtain ⟨r', hr', h'⟩ := hi.decided tx d' h
    exact ⟨r', mem_append_left _ hr', h'⟩

theorem Indexes.known_concat (hi : Indexes rs t) (ha : Applies t t' r d)
    (h : t'.byKey key = some tx) : ∃ d', t'.byTx tx = some d' ∧ d'.key = key := by
  have hkept : t.byKey key = some tx → ∃ d', t'.byTx tx = some d' ∧ d'.key = key := by
    intro h0
    obtain ⟨d0, hd0, hk0⟩ := hi.known key tx h0
    obtain ⟨d', hd', hk', -⟩ := ha.stays hd0
    exact ⟨d', hd', hk'.trans hk0⟩
  rw [ha.byKey] at h
  split_ifs at h
  · by_cases he : key = r.key
    · rw [he, update_self] at h
      cases h
      exact ⟨d, ha.self, ha.key.trans he.symm⟩
    · rw [update_of_ne he] at h
      exact hkept h
  · exact hkept h

/-- A COMMIT gets its key, or the key is with a COMMIT already. -/
theorem Indexes.keyed_own (hi : Indexes rs t) (ha : Applies t t' r d) (hne : r.key ≠ [])
    (hwho : ∀ tx d', t'.byTx tx = some d' → d'.outcome = kindCommit → d'.key = r.key →
      tx = r.tx) : t'.byKey r.key = some r.tx := by
  rw [ha.byKey]
  split_ifs with htakes
  · exact update_self ..
  · have hnot : Table.takesKey { t with byTx := t'.byTx } r = false := by
      simpa [hne] using htakes
    unfold Table.takesKey at hnot
    cases hprev : t.byKey r.key with
    | none => simp [hprev] at hnot
    | some prev =>
      simp only [hprev, Bool.or_eq_false_iff] at hnot
      obtain ⟨d0, h0, hk0⟩ := hi.known r.key prev hprev
      obtain ⟨d1, h1, hk1, -⟩ := ha.stays h0
      rw [h1] at hnot
      have hc1 : d1.outcome = kindCommit := by simpa using hnot.1
      rw [hwho prev d1 h1 hc1 (hk1.trans hk0)]

theorem Applies.keyed_other (ha : Applies t t' r d) (hne : tx ≠ r.tx) (hd : t'.byTx tx = some d')
    (hcommit : d'.outcome = kindCommit) (hkeyed : t.byKey d'.key = some tx) :
    t'.byKey d'.key = some tx := by
  rw [ha.byKey]
  split_ifs with htakes
  · by_cases hk : d'.key = r.key
    · have htk := htakes.2
      unfold Table.takesKey at htk
      rw [← hk, hkeyed] at htk
      simp [hd, hcommit, hne] at htk
    · rw [update_of_ne hk]
      exact hkeyed
  · exact hkeyed

end Concat

theorem Indexes.concat (hi : Indexes rs t) (hr : Decides r) (honce : KeyOnce (rs ++ [r]))
    (h : t.apply r = .ok t') : Indexes (rs ++ [r]) t' := by
  obtain ⟨d, ha⟩ := apply_spec hr h
  refine ⟨fun tx d' => hi.decided_concat ha, fun r' hr' => ?_, fun key tx => hi.known_concat ha,
    fun tx d' hd' hcommit hne => ?_⟩
  · rcases Runs.mem_concat hr' with hr' | rfl
    · obtain ⟨d0, h0, hk0, ho0⟩ := hi.entered r' hr'
      obtain ⟨d', hd', hk', ho'⟩ := ha.stays h0
      exact ⟨d', hd', hk'.trans hk0, ho'.trans ho0⟩
    · exact ⟨d, ha.self, ha.key, ha.outcome⟩
  · -- Whoever has the key of a COMMIT is the transaction of that COMMIT.
    have hwho : ∀ tx0 d0, t'.byTx tx0 = some d0 → d0.outcome = kindCommit → d0.key = d'.key →
        tx0 = tx := by
      intro tx0 d0 h0 hc0 hk0
      obtain ⟨a, ha0, hatx, hakey, hak⟩ := hi.decided_concat ha h0
      obtain ⟨b, hb, hbtx, hbkey, hbk⟩ := hi.decided_concat ha hd'
      have hab := honce a ha0 b hb (hak.trans hc0) (hbk.trans hcommit)
        (by rw [hakey, hk0]; exact hne) (by rw [hakey, hk0, hbkey])
      rw [← hatx, ← hbtx, hab]
    by_cases he : tx = r.tx
    · rw [he, ha.self] at hd'
      cases hd'
      rw [ha.key] at hne hwho ⊢
      rw [he] at hwho ⊢
      exact hi.keyed_own ha hne hwho
    · exact ha.keyed_other he hd' hcommit
        (hi.keyed tx d' ((ha.other he).symm.trans hd') hcommit hne)

theorem Indexes.fold (hr : ∀ r ∈ rs, Decides r) (honce : KeyOnce rs)
    (h : newXTxTable.fold rs = .ok t) : Indexes rs t := by
  induction rs using List.reverseRecOn generalizing t with
  | nil =>
    cases h
    exact ⟨nofun, nofun, nofun, nofun⟩
  | append_singleton rs r ih =>
    obtain ⟨u, hu, happly⟩ := fold_append h
    obtain ⟨v, hv, hend⟩ := bind_ok happly
    cases hend
    have hfront : KeyOnce rs := fun a ha b hb =>
      honce a (mem_append_left _ ha) b (mem_append_left _ hb)
    exact (ih (fun x hx => hr x (mem_append_left _ hx)) hfront hu).concat
      (hr r mem_concat_self) honce hv

end Table

end Scriva.CommitKeys
