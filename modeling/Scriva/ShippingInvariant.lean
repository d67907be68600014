import Scriva.Shipping

namespace Scriva

open ReplicationBroker Option

section Act

variable {β : Type} [Inhabited β] {weight : β → Nat} {f f' : Feed β} {op : FeedOp β}
  {high : Option Nat}

def FeedOp.isPublish : FeedOp β → Bool
  | .publish _ => true
  | _ => false

theorem act_ring (h : RingInv f)
    (hroom : op.reserves = true → f.broker.lsn + 1 + lsnReserveBlock < 2 ^ 64)
    (hact : f.act weight op = some (f', high)) : RingInv f' := by
  cases op with
  | publish body =>
    cases hact
    have hlt := hroom rfl
    exact publish_ring weight body h (by omega)
  | reserveNext =>
    have hf' : f.reserveNext.1 = f' := congrArg Prod.fst (Option.some.inj hact)
    subst hf'
    have hb := reserveNext_broker f
    refine h.of_history rfl ?_ (Or.inl ?_)
    · rw [hb]
    · rw [hb]
  | resyncBarrier =>
    have hf' : f.resyncBarrier.1 = f' := congrArg Prod.fst (Option.some.inj hact)
    subst hf'
    have hlt := hroom rfl
    refine h.of_history rfl ?_ (Or.inr (resyncBarrier_ring f))
    rw [resyncBarrier_lsn (by omega)]
    exact Nat.le_succ _
  | subscribe | receive | consumed | unsubscribe =>
    obtain ⟨-, hhist, hlsn, -, hring⟩ := act_quiet rfl hact
    exact h.of_history hhist (Nat.le_of_eq hlsn.symm) (Or.inl hring)

/-- A subscription after an operation that publishes nothing: what it has been handed can only
have grown, and what it is fed can only have been cut short. -/
theorem act_stream {id : Nat} {st : Stream β} (hop : op.isPublish = false)
    (hst : f.streams id = some st) (hid : id ≤ f.broker.subSeq)
    (hact : f.act weight op = some (f', high)) :
    ∃ st', f'.streams id = some st' ∧ Cut f f' id st st' ∧ st.got.length ≤ st'.got.length ∧
      f.broker.subSeq ≤ f'.broker.subSeq := by
  have hcuts : ∀ {g : Feed β}, Cuts f g → g.streams = f.streams →
      ∃ st', g.streams id = some st' ∧ Cut f g id st st' ∧ st.got.length ≤ st'.got.length := by
    intro g hg hsame
    have hst' : g.streams id = some st := by
      rw [hsame]
      exact hst
    obtain ⟨st0, hst0, hcut⟩ := hg id st hst'
    rw [hst] at hst0
    cases hst0
    exact ⟨st, hst', hcut, Nat.le_refl _⟩
  cases op with
  | publish body => cases hop
  | reserveNext =>
    have hf' : f.reserveNext.1 = f' := congrArg Prod.fst (Option.some.inj hact)
    subst hf'
    obtain ⟨st', hst', hcut, hle⟩ := hcuts (reserveNext_cuts f) rfl
    refine ⟨st', hst', hcut, hle, ?_⟩
    rw [reserveNext_broker]
  | resyncBarrier =>
    have hf' : f.resyncBarrier.1 = f' := congrArg Prod.fst (Option.some.inj hact)
    subst hf'
    obtain ⟨st', hst', hcut, hle⟩ := hcuts (resyncBarrier_cuts f) rfl
    refine ⟨st', hst', hcut, hle, ?_⟩
    unfold Feed.resyncBarrier ReplicationBroker.resyncBarrier reserveLocked
    simp only
    split <;> exact Nat.le_refl _
  | subscribe fromLSN =>
    obtain ⟨g, hg, heq⟩ := map_eq_some_iff.mp hact
    cases heq
    obtain ⟨-, rfl⟩ := subscribe_spec hg
    have hne : id ≠ f.broker.subSeq + 1 := by omega
    refine ⟨st, (if_neg hne).trans hst, ?_, Nat.le_refl _, Nat.le_succ _⟩
    refine cut_of_subs ?_
    simp only [if_neg hne]
  | receive id' =>
    obtain ⟨g, hg, heq⟩ := map_eq_some_iff.mp hact
    cases heq
    have hcuts' := receive_cuts hg
    obtain ⟨re, sub, ch, -, -, hb, -, hstreams⟩ := receive_spec hg
    have hst' : f'.streams id =
        some (if id = id' then { st with got := st.got ++ [re] } else st) := by
      rw [hstreams]
      simp only [hst, map_some]
    obtain ⟨st0, hst0, hcut⟩ := hcuts' id _ hst'
    rw [hst] at hst0
    cases hst0
    refine ⟨_, hst', hcut, ?_, ?_⟩
    · split
      · simp
      · exact Nat.le_refl _
    · rw [hb]
  | consumed id' re =>
    cases hact
    obtain ⟨st', hst', hcut, hle⟩ := hcuts (consumed_cuts weight f id' re) rfl
    exact ⟨st', hst', hcut, hle, Nat.le_refl _⟩
  | unsubscribe id' =>
    cases hact
    obtain ⟨st', hst', hcut, hle⟩ := hcuts (unsubscribe_cuts f id') rfl
    exact ⟨st', hst', hcut, hle, Nat.le_refl _⟩

end Act

namespace Shipping

def records (s : Shipping) : List (ReplicationEntry Write) :=
  s.life.issued.map Issue.record

def above (s : Shipping) (lsn : Nat) : List (ReplicationEntry Write) :=
  s.records.filter fun re => lsn < re.lsn

def top (s : Shipping) : Nat :=
  (s.feed.map fun f => f.broker.lsn).getD s.life.file.leaderLSN

def resume (s : Shipping) : Nat :=
  if s.feed.isSome then s.base else s.life.file.leaderLSN

structure Behind (s : Shipping) : Prop where
  stream : s.follower.stream = none
  applied : s.follower.appliedLSN < s.resume
  inbox : ∀ re ∈ s.follower.inbox, re.lsn < s.resume

end Shipping

structure ProcessInv (s : Shipping) (f : Feed Write) : Prop where
  ring : RingInv f
  lsn_le : f.broker.lsn ≤ s.life.file.leaderLSN
  base_le : s.base ≤ f.broker.lsn
  earlier : ∃ old, s.records = old ++ f.history ∧ ∀ re ∈ old, re.lsn ≤ s.base
  later : ∀ re ∈ f.history, s.base < re.lsn

structure WritesInv (s : Shipping) : Prop where
  serials : s.durable.map Write.serial = List.range s.durable.length
  inflight : ∀ w ∈ s.inflight, w ∈ s.durable
  nodup : s.inflight.Nodup
  published : ∀ re ∈ s.records, re.body ∈ s.durable ∧ re.body ∉ s.inflight

structure StreamOpen (s : Shipping) (f : Feed Write) (id sent : Nat) (st : Stream Write) : Prop where
  registered : f.streams id = some st
  known : id ≤ f.broker.subSeq
  sent_le : sent ≤ st.got.length
  part : s.follower.inbox ++ (f.fed id st).drop sent <+: s.above s.follower.appliedLSN
  all : ∀ sub, f.broker.subs id = some sub → sub.dead = false →
    s.follower.inbox ++ (f.fed id st).drop sent = s.above s.follower.appliedLSN

structure FollowerInv (s : Shipping) : Prop where
  applied_le : s.follower.appliedLSN ≤ s.top
  watermark_le : ∀ lsn ∈ s.follower.watermark, lsn ≤ s.top
  held : ∀ re ∈ s.records, re.lsn ≤ s.follower.appliedLSN → re.body.serial ∈ s.follower.held
  inbox : s.follower.inbox <+: s.above s.follower.appliedLSN
  stream : ∀ id sent, s.follower.stream = some (id, sent) →
    ∃ f st, s.feed = some f ∧ StreamOpen s f id sent st
  whole : ∀ w ∈ s.durable, w ∈ s.inflight ∨ (∃ re ∈ s.records, re.body = w) ∨
    w.serial ∈ s.follower.held ∨ s.Behind

structure ShipInv (s : Shipping) : Prop where
  life : LifeInv s.life
  plain : ∀ n ∈ s.life.node, n.promotion = none ∧ n.feed.isSome = true
  process : ∀ f, s.feed = some f → ProcessInv s f
  writes : WritesInv s
  follower : FollowerInv s

theorem FollowerInv.whole_behind {s : Shipping} {w : Write} {P : Prop} (h : FollowerInv s)
    (hw : w ∈ s.durable) (hbehind : s.Behind → P) : w ∈ s.inflight ∨
      (∃ re ∈ s.records, re.body = w) ∨ w.serial ∈ s.follower.held ∨ P := by
  rcases h.whole w hw with hin | hpub | hheld | hb
  · exact Or.inl hin
  · exact Or.inr (Or.inl hpub)
  · exact Or.inr (Or.inr (Or.inl hheld))
  · exact Or.inr (Or.inr (Or.inr (hbehind hb)))

end Scriva
