import Scriva.Feed

namespace Scriva

open ReplicationBroker List Option

variable {β : Type} [Inhabited β]

/-- A subscription has been fed a first part of what it is due, and while it lives all of it. -/
structure StreamInv (f : Feed β) (id : Nat) (st : Stream β) : Prop where
  from_le : st.fromLSN ≤ f.broker.lsn
  since_le : st.since ≤ f.history.length
  above : ∀ re ∈ f.history.drop st.since, st.fromLSN < re.lsn
  part : f.fed id st <+: f.due st.fromLSN
  all : ∀ sub, f.broker.subs id = some sub → sub.dead = false → f.fed id st = f.due st.fromLSN

structure RingInv (f : Feed β) : Prop where
  retained : f.broker.ring.toList <:+ f.history
  ascending : f.history.Pairwise fun a b => a.lsn < b.lsn
  issued : ∀ re ∈ f.history, re.lsn ≤ f.broker.lsn

structure FeedInv (f : Feed β) : Prop extends RingInv f where
  streams : ∀ id st, f.streams id = some st → StreamInv f id st

theorem RingInv.opened (b : ReplicationBroker β) (hring : b.ring.toList = []) :
    RingInv (Feed.opened b) where
  retained := by
    change b.ring.toList <:+ []
    rw [hring]
  ascending := List.Pairwise.nil
  issued := by simp [Feed.opened]

theorem FeedInv.opened (b : ReplicationBroker β) (hring : b.ring.toList = []) :
    FeedInv (Feed.opened b) where
  toRingInv := RingInv.opened b hring
  streams := by simp [Feed.opened]

section Offer

variable (weight : β → Nat) (subBuf : Nat) (re : ReplicationEntry β) (s : ReplSub β)

omit [Inhabited β] in
theorem offer_cases :
    (s.dead = false ∧ (offer weight subBuf re s).ch = s.ch ++ [re]) ∨
      ((offer weight subBuf re s).dead = true ∧ (offer weight subBuf re s).ch = s.ch) := by
  unfold offer
  split
  next hdead => exact Or.inr ⟨hdead, rfl⟩
  next hlive =>
    split
    · exact Or.inr ⟨rfl, rfl⟩
    · split
      · exact Or.inl ⟨by simpa using hlive, rfl⟩
      · exact Or.inr ⟨rfl, rfl⟩

end Offer

section Publish

variable (weight : β → Nat) {f : Feed β} (body : β)

theorem publish_broker : (f.publish weight body).1.broker = (f.broker.appendLocked weight body).1 :=
  rfl

theorem publish_lsn (hroom : f.broker.lsn + 1 < 2 ^ 64) :
    (f.publish weight body).1.broker.lsn = f.broker.lsn + 1 := by
  rw [publish_broker, appendLocked_lsn, wrap64_of_lt hroom]

theorem publish_history (hroom : f.broker.lsn + 1 < 2 ^ 64) :
    (f.publish weight body).1.history = f.history ++ [⟨f.broker.lsn + 1, body⟩] := by
  change f.history ++ [⟨(f.broker.appendLocked weight body).1.lsn, body⟩] = _
  rw [appendLocked_lsn, wrap64_of_lt hroom]

theorem publish_due (hroom : f.broker.lsn + 1 < 2 ^ 64) {fromLSN : Nat}
    (h : fromLSN ≤ f.broker.lsn) :
    (f.publish weight body).1.due fromLSN = f.due fromLSN ++ [⟨f.broker.lsn + 1, body⟩] := by
  have hlt : fromLSN < f.broker.lsn + 1 := by omega
  unfold Feed.due
  rw [publish_history weight body hroom, filter_append]
  simp [hlt]

theorem publish_fed (hroom : f.broker.lsn + 1 < 2 ^ 64) (id : Nat) (st : Stream β) :
    ((∃ sub, f.broker.subs id = some sub ∧ sub.dead = false) ∧
      (f.publish weight body).1.fed id st = f.fed id st ++ [⟨f.broker.lsn + 1, body⟩]) ∨
    ((∀ sub, (f.publish weight body).1.broker.subs id = some sub → sub.dead = true) ∧
      (f.publish weight body).1.fed id st = f.fed id st) := by
  have hsubs := appendLocked_subs weight f.broker body id
  rw [wrap64_of_lt hroom, ← publish_broker weight body] at hsubs
  unfold Feed.fed Feed.pending
  rw [hsubs]
  cases hsub : f.broker.subs id with
  | none => exact Or.inr ⟨by simp, rfl⟩
  | some sub =>
    rcases offer_cases weight f.broker.subBuf ⟨f.broker.lsn + 1, body⟩ sub with
      ⟨hlive, hch⟩ | ⟨hdead, hch⟩
    · refine Or.inl ⟨⟨sub, rfl, hlive⟩, ?_⟩
      simp [hch]
    · refine Or.inr ⟨?_, ?_⟩
      · intro s hs
        cases hs
        exact hdead
      · simp [hch]

theorem StreamInv.publish {id : Nat} {st : Stream β} (h : StreamInv f id st)
    (hroom : f.broker.lsn + 1 < 2 ^ 64) : StreamInv (f.publish weight body).1 id st where
  from_le := by
    rw [publish_lsn weight body hroom]
    exact h.from_le.trans (Nat.le_succ _)
  since_le := by
    rw [publish_history weight body hroom, length_append]
    exact h.since_le.trans (Nat.le_add_right _ _)
  above := by
    intro re hre
    rw [publish_history weight body hroom, drop_append_of_le_length h.since_le] at hre
    rcases Runs.mem_concat hre with hre | rfl
    · exact h.above re hre
    · exact Nat.lt_succ_of_le h.from_le
  part := by
    rw [publish_due weight body hroom h.from_le]
    rcases publish_fed weight body hroom id st with ⟨⟨sub, hsub, hlive⟩, hfed⟩ | ⟨-, hfed⟩
    · rw [hfed, h.all sub hsub hlive]
    · rw [hfed]
      exact h.part.trans (prefix_append _ _)
  all := by
    intro sub' hsub' hlive'
    rw [publish_due weight body hroom h.from_le]
    rcases publish_fed weight body hroom id st with ⟨⟨sub, hsub, hlive⟩, hfed⟩ | ⟨hdead, -⟩
    · rw [hfed, h.all sub hsub hlive]
    · rw [hdead sub' hsub'] at hlive'
      cases hlive'

theorem publish_ring (h : RingInv f) (hroom : f.broker.lsn + 1 < 2 ^ 64) :
    RingInv (f.publish weight body).1 where
  retained := by
    obtain ⟨k, hring⟩ := appendLocked_ring weight f.broker body
    rw [wrap64_of_lt hroom, ← publish_broker weight body] at hring
    obtain ⟨old, hold⟩ := (drop_suffix k _).trans h.retained
    refine ⟨old, ?_⟩
    rw [publish_history weight body hroom, hring, ← append_assoc, hold]
  ascending := by
    rw [publish_history weight body hroom, pairwise_append]
    refine ⟨h.ascending, pairwise_singleton _ _, ?_⟩
    intro a ha b hb
    cases mem_singleton.mp hb
    exact Nat.lt_succ_of_le (h.issued a ha)
  issued := by
    intro re hre
    rw [publish_history weight body hroom] at hre
    rw [publish_lsn weight body hroom]
    rcases Runs.mem_concat hre with hre | rfl
    · exact (h.issued re hre).trans (Nat.le_succ _)
    · exact Nat.le_refl _

theorem publish_inv (h : FeedInv f) (hroom : f.broker.lsn + 1 < 2 ^ 64) :
    FeedInv (f.publish weight body).1 where
  toRingInv := publish_ring weight body h.toRingInv hroom
  streams := fun id st hst => (h.streams id st hst).publish weight body hroom

end Publish

section Cuts

variable {f f' : Feed β}

/-- A step that publishes nothing has left a subscription what it was fed, or has cut it short. -/
structure Cut (f f' : Feed β) (id : Nat) (st st' : Stream β) : Prop where
  fromLSN : st'.fromLSN = st.fromLSN
  since : st'.since = st.since
  part : f'.fed id st' <+: f.fed id st
  live : ∀ sub', f'.broker.subs id = some sub' → sub'.dead = false →
    (∃ sub, f.broker.subs id = some sub ∧ sub.dead = false) ∧ f'.fed id st' = f.fed id st

def Cuts (f f' : Feed β) : Prop :=
  ∀ id st', f'.streams id = some st' → ∃ st, f.streams id = some st ∧ Cut f f' id st st'

omit [Inhabited β] in
theorem StreamInv.of_cut {id : Nat} {st st' : Stream β} (h : StreamInv f id st)
    (hcut : Cut f f' id st st') (hhist : f'.history = f.history)
    (hlsn : f.broker.lsn ≤ f'.broker.lsn) : StreamInv f' id st' := by
  have hdue : f'.due st'.fromLSN = f.due st.fromLSN := by
    unfold Feed.due
    rw [hhist, hcut.fromLSN]
  refine ⟨?_, ?_, ?_, ?_, ?_⟩
  · rw [hcut.fromLSN]
    exact h.from_le.trans hlsn
  · rw [hhist, hcut.since]
    exact h.since_le
  · rw [hhist, hcut.since, hcut.fromLSN]
    exact h.above
  · rw [hdue]
    exact hcut.part.trans h.part
  · intro sub' hsub' hlive'
    obtain ⟨⟨sub, hsub, hlive⟩, hfed⟩ := hcut.live sub' hsub' hlive'
    rw [hdue, hfed]
    exact h.all sub hsub hlive

theorem RingInv.of_history (h : RingInv f) (hhist : f'.history = f.history)
    (hlsn : f.broker.lsn ≤ f'.broker.lsn)
    (hring : f'.broker.ring = f.broker.ring ∨ f'.broker.ring.toList = []) : RingInv f' where
  retained := by
    rw [hhist]
    rcases hring with hring | hring
    · rw [hring]
      exact h.retained
    · rw [hring]
      exact nil_suffix
  ascending := hhist ▸ h.ascending
  issued := by
    intro re hre
    rw [hhist] at hre
    exact (h.issued re hre).trans hlsn

theorem FeedInv.of_cuts (h : FeedInv f) (hcuts : Cuts f f') (hhist : f'.history = f.history)
    (hlsn : f.broker.lsn ≤ f'.broker.lsn)
    (hring : f'.broker.ring = f.broker.ring ∨ f'.broker.ring.toList = []) : FeedInv f' where
  toRingInv := h.toRingInv.of_history hhist hlsn hring
  streams := by
    intro id st' hst'
    obtain ⟨st, hst, hcut⟩ := hcuts id st' hst'
    exact (h.streams id st hst).of_cut hcut hhist hlsn

omit [Inhabited β] in
theorem cut_of_subs {id : Nat} {st : Stream β}
    (hsubs : (f'.broker.subs id).map (fun s => (s.ch, s.dead)) =
      (f.broker.subs id).map fun s => (s.ch, s.dead)) : Cut f f' id st st := by
  have hpend : f'.pending id = f.pending id := by
    have hch := congrArg (fun o => (o.map Prod.fst).getD []) hsubs
    simpa [Feed.pending, Option.map_map, Function.comp_def] using hch
  have hfed : f'.fed id st = f.fed id st := by
    unfold Feed.fed
    rw [hpend]
  refine ⟨rfl, rfl, ?_, ?_⟩
  · rw [hfed]
  · intro sub' hsub' hlive
    rw [hsub'] at hsubs
    obtain ⟨sub, hsub, hpair⟩ := map_eq_some_iff.mp hsubs.symm
    have hdead : sub.dead = sub'.dead := congrArg Prod.snd hpair
    exact ⟨⟨sub, hsub, hdead.trans hlive⟩, hfed⟩

omit [Inhabited β] in
theorem cuts_of_subs (hstreams : f'.streams = f.streams)
    (hsubs : ∀ id, (f'.broker.subs id).map (fun s => (s.ch, s.dead)) =
      (f.broker.subs id).map fun s => (s.ch, s.dead)) : Cuts f f' := by
  intro id st hst
  rw [hstreams] at hst
  exact ⟨st, hst, cut_of_subs (hsubs id)⟩

end Cuts

section Others

variable {f f' : Feed β}

omit [Inhabited β] in
theorem reserveNext_broker (f : Feed β) : f.reserveNext.1.broker =
    { f.broker with reserved := f.reserveNext.1.broker.reserved } := by
  unfold Feed.reserveNext ReplicationBroker.reserveNext reserveLocked
  simp only
  split <;> rfl

omit [Inhabited β] in
theorem reserveNext_cuts (f : Feed β) : Cuts f f.reserveNext.1 := by
  refine cuts_of_subs rfl ?_
  intro id
  rw [reserveNext_broker]

theorem reserveNext_inv (h : FeedInv f) : FeedInv f.reserveNext.1 := by
  have hb := reserveNext_broker f
  apply h.of_cuts (reserveNext_cuts f) rfl
  · rw [hb]
  · exact Or.inl (by rw [hb])

omit [Inhabited β] in
theorem consumed_cuts (weight : β → Nat) (f : Feed β) (id : Nat) (re : ReplicationEntry β) :
    Cuts f { f with broker := f.broker.consumed weight id re } := by
  refine cuts_of_subs rfl ?_
  intro i
  change ((f.broker.subs i).map _).map _ = _
  rw [Option.map_map]
  congr 1
  funext s
  simp only [Function.comp_apply]
  split <;> rfl

omit [Inhabited β] in
theorem unsubscribe_cuts (f : Feed β) (id : Nat) :
    Cuts f { f with broker := f.broker.unsubscribe id } := by
  intro i st hst
  refine ⟨st, hst, ?_⟩
  by_cases hi : i = id
  · subst i
    have hnone : (f.broker.unsubscribe id).subs id = none := if_pos rfl
    refine ⟨rfl, rfl, ?_, ?_⟩
    · simp [Feed.fed, Feed.pending, hnone]
    · intro sub hsub
      rw [hnone] at hsub
      cases hsub
  · have hsame : (f.broker.unsubscribe id).subs i = f.broker.subs i := if_neg hi
    refine cut_of_subs ?_
    rw [hsame]

theorem resyncBarrier_lsn (hroom : f.broker.lsn + 1 < 2 ^ 64) :
    f.resyncBarrier.1.broker.lsn = f.broker.lsn + 1 := by
  unfold Feed.resyncBarrier ReplicationBroker.resyncBarrier reserveLocked
  simp only
  split <;> exact wrap64_of_lt hroom

theorem resyncBarrier_ring (f : Feed β) : f.resyncBarrier.1.broker.ring.toList = [] := rfl

theorem resyncBarrier_subs (f : Feed β) (id : Nat) :
    f.resyncBarrier.1.broker.subs id = (f.broker.subs id).map ReplSub.kill := by
  unfold Feed.resyncBarrier ReplicationBroker.resyncBarrier reserveLocked
  simp only
  split <;> rfl

theorem resyncBarrier_dead {id : Nat} {sub : ReplSub β}
    (h : f.resyncBarrier.1.broker.subs id = some sub) : sub.dead = true := by
  rw [resyncBarrier_subs] at h
  obtain ⟨sub, -, rfl⟩ := map_eq_some_iff.mp h
  rfl

theorem resyncBarrier_cuts (f : Feed β) : Cuts f f.resyncBarrier.1 := by
  intro id st hst
  have hfed : f.resyncBarrier.1.fed id st = f.fed id st := by
    unfold Feed.fed Feed.pending
    rw [resyncBarrier_subs, Option.map_map]
    rfl
  refine ⟨st, hst, rfl, rfl, ?_, ?_⟩
  · rw [hfed]
  · intro sub hsub hlive
    rw [resyncBarrier_dead hsub] at hlive
    cases hlive

theorem resyncBarrier_inv (h : FeedInv f) (hroom : f.broker.lsn + 1 < 2 ^ 64) :
    FeedInv f.resyncBarrier.1 := by
  apply h.of_cuts (resyncBarrier_cuts f) rfl
  · rw [resyncBarrier_lsn hroom]
    exact Nat.le_succ _
  · exact Or.inr (resyncBarrier_ring f)

end Others

section Receive

variable {f f' : Feed β} {id : Nat}

omit [Inhabited β] in
theorem receive_spec (h : f.receive id = some f') : ∃ re sub ch, f.broker.subs id = some sub ∧
    sub.ch = re :: ch ∧ f'.broker = { f.broker with
      subs := fun i => if i = id then some { sub with ch := ch } else f.broker.subs i } ∧
    f'.history = f.history ∧ f'.streams = fun i =>
      (f.streams i).map fun st => if i = id then { st with got := st.got ++ [re] } else st := by
  obtain ⟨⟨re, b⟩, hb, rfl⟩ := map_eq_some_iff.mp h
  unfold ReplicationBroker.receive at hb
  split at hb
  next re' ch dead queued hsub =>
    cases hb
    exact ⟨re, _, ch, hsub, rfl, rfl, rfl, rfl⟩
  next => cases hb

omit [Inhabited β] in
theorem receive_cuts (h : f.receive id = some f') : Cuts f f' := by
  obtain ⟨re, sub, ch, hsub, hch, hbroker, -, hstreams⟩ := receive_spec h
  intro i st' hst'
  rw [hstreams] at hst'
  obtain ⟨st, hst, rfl⟩ := map_eq_some_iff.mp hst'
  refine ⟨st, hst, ?_⟩
  by_cases hi : i = id
  · subst i
    have hsub' : f'.broker.subs id = some { sub with ch := ch } := by
      rw [hbroker]
      exact if_pos rfl
    rw [if_pos rfl]
    have hfed : f'.fed id { st with got := st.got ++ [re] } = f.fed id st := by
      simp [Feed.fed, Feed.pending, hsub, hsub', hch]
    refine ⟨rfl, rfl, ?_, ?_⟩
    · rw [hfed]
    · intro s hs hlive
      rw [hsub'] at hs
      cases hs
      exact ⟨⟨sub, hsub, hlive⟩, hfed⟩
  · have hsame : f'.broker.subs i = f.broker.subs i := by
      rw [hbroker]
      exact if_neg hi
    rw [if_neg hi]
    refine cut_of_subs ?_
    rw [hsame]

end Receive

section Subscribe

variable {f f' : Feed β} {fromLSN : Nat}

theorem subscribe_spec (h : f.subscribe fromLSN = some f') :
    f.broker.oldest ≤ wrap64 (fromLSN + 1) ∧ f' = { f with
      broker := { f.broker with
        subSeq := f.broker.subSeq + 1
        subs := fun i =>
          if i = f.broker.subSeq + 1 then some ⟨[], false, 0⟩ else f.broker.subs i }
      streams := fun i =>
        if i = f.broker.subSeq + 1 then
          some ⟨fromLSN, f.history.length,
            f.broker.ring.toList.filter fun re => fromLSN < re.lsn⟩
        else f.streams i } := by
  obtain ⟨⟨id, backlog, b⟩, hb, rfl⟩ := map_eq_some_iff.mp h
  unfold ReplicationBroker.subscribe at hb
  split at hb
  next => cases hb
  next hold =>
    cases hb
    exact ⟨Nat.le_of_not_lt hold, rfl⟩

/-- When the resume point is one the broker has reached and it is accepted, the ring still holds
every record above it. -/
theorem backlog_eq_due (h : RingInv f) (hfrom : fromLSN ≤ f.broker.lsn)
    (hroom : f.broker.lsn + 1 < 2 ^ 64) (hold : f.broker.oldest ≤ wrap64 (fromLSN + 1)) :
    (f.broker.ring.toList.filter fun re => fromLSN < re.lsn) = f.due fromLSN := by
  rw [wrap64_of_lt (by omega)] at hold
  obtain ⟨old, hhist⟩ := h.retained
  have hlow : ∀ re ∈ old, ¬ fromLSN < re.lsn := by
    intro re hre
    have hmem : re ∈ f.history := by
      rw [← hhist]
      exact mem_append_left _ hre
    unfold oldest at hold
    split at hold
    next =>
      rw [wrap64_of_lt hroom] at hold
      have hle := h.issued re hmem
      omega
    next hsize =>
      have hcons := f.broker.ring.toList_eq_cons (Nat.pos_of_ne_zero hsize)
      have hasc := h.ascending
      rw [← hhist, pairwise_append, hcons] at hasc
      have hlt := hasc.2.2 re hre _ mem_cons_self
      omega
  unfold Feed.due
  rw [← hhist, filter_append]
  have hnil : old.filter (fun re => fromLSN < re.lsn) = [] := by
    rw [filter_eq_nil_iff]
    intro re hre
    simpa using hlow re hre
  rw [hnil, nil_append]

theorem subscribe_inv (hinv : FeedInv f) (hfrom : fromLSN ≤ f.broker.lsn)
    (hroom : f.broker.lsn + 1 < 2 ^ 64) (h : f.subscribe fromLSN = some f') : FeedInv f' := by
  obtain ⟨hold, rfl⟩ := subscribe_spec h
  have hbacklog := backlog_eq_due hinv.toRingInv hfrom hroom hold
  refine ⟨⟨hinv.retained, hinv.ascending, hinv.issued⟩, ?_⟩
  intro id st hst
  by_cases hid : id = f.broker.subSeq + 1
  · have hnew := (if_pos hid).symm.trans hst
    cases hnew
    refine ⟨hfrom, Nat.le_refl _, ?_, ?_, ?_⟩
    · intro re hre
      rw [drop_length] at hre
      cases hre
    · simp only [Feed.fed, Feed.pending, if_pos hid, map_some, getD_some,
        append_nil]
      rw [hbacklog]
      exact prefix_refl _
    · intro sub hsub hlive
      simp only [Feed.fed, Feed.pending, if_pos hid, map_some, getD_some,
        append_nil]
      exact hbacklog
  · have hst0 := (if_neg hid).symm.trans hst
    refine (hinv.streams id st hst0).of_cut ?_ rfl (Nat.le_refl _)
    refine cut_of_subs ?_
    simp only [if_neg hid]

end Subscribe

end Scriva
