import Scriva.FeedInvariant

namespace Scriva

open ReplicationBroker Option

variable {β : Type}

theorem reserveLocked_cases (b : ReplicationBroker β) (lsn : Nat) :
    (lsn ≤ b.reserved ∧ b.reserveLocked lsn = (b, none)) ∨
      (b.reserved < lsn ∧ b.reserveLocked lsn =
        ({ b with reserved := wrap64 (lsn + lsnReserveBlock) },
          some (wrap64 (lsn + lsnReserveBlock)))) := by
  unfold reserveLocked
  split
  next h => exact Or.inl ⟨h, rfl⟩
  next h => exact Or.inr ⟨Nat.lt_of_not_le h, rfl⟩

/-- What an operation of the broker does to its counter, to the block it has reserved and to what
it has published. -/
structure Moved (f f' : Feed β) (high : Option Nat) : Prop where
  lsn_le : f.broker.lsn ≤ f'.broker.lsn
  lsn_reserved : f'.broker.lsn = f.broker.lsn ∨ f'.broker.lsn ≤ f'.broker.reserved
  published : f'.history = f.history ∨
    (∃ body, f'.history = f.history ++ [⟨f'.broker.lsn, body⟩]) ∧
      f'.broker.lsn = f.broker.lsn + 1 ∧ f'.broker.lsn ≤ f'.broker.reserved
  reserved : (high = none ∧ f'.broker.reserved = f.broker.reserved) ∨
    (high = some f'.broker.reserved ∧ f.broker.reserved ≤ f.broker.lsn ∧
      f.broker.lsn < f'.broker.reserved)

theorem reserve_moved {b b' : ReplicationBroker β} {high : Option Nat} {lsn : Nat}
    (hroom : lsn + 1 + lsnReserveBlock < 2 ^ 64)
    (hres : b'.reserved = (b.reserveLocked (lsn + 1)).1.reserved)
    (hhigh : high = (b.reserveLocked (lsn + 1)).2) :
    lsn < b'.reserved ∧ ((high = none ∧ b'.reserved = b.reserved) ∨
      (high = some b'.reserved ∧ b.reserved ≤ lsn ∧ lsn < b'.reserved)) := by
  rcases reserveLocked_cases b (lsn + 1) with ⟨hle, heq⟩ | ⟨hlt, heq⟩
  · rw [heq] at hres hhigh
    exact ⟨hres ▸ hle, Or.inl ⟨hhigh, hres⟩⟩
  · rw [heq, wrap64_of_lt hroom] at hres hhigh
    change b'.reserved = lsn + 1 + lsnReserveBlock at hres
    change high = some (lsn + 1 + lsnReserveBlock) at hhigh
    exact ⟨by omega, Or.inr ⟨by rw [hhigh, hres], Nat.le_of_lt_succ hlt, by omega⟩⟩

theorem reserveNext_moved {f : Feed β} (hroom : f.broker.lsn + 1 + lsnReserveBlock < 2 ^ 64) :
    Moved f f.reserveNext.1 f.reserveNext.2 := by
  have hnext : f.broker.lsn + 1 < 2 ^ 64 := by omega
  have hb := reserveNext_broker f
  have hlsn : f.reserveNext.1.broker.lsn = f.broker.lsn := by rw [hb]
  have hres : f.reserveNext.1.broker.reserved =
      (f.broker.reserveLocked (f.broker.lsn + 1)).1.reserved := by
    rw [← wrap64_of_lt hnext]
    rfl
  have hhigh : f.reserveNext.2 = (f.broker.reserveLocked (f.broker.lsn + 1)).2 := by
    rw [← wrap64_of_lt hnext]
    rfl
  obtain ⟨-, hcases⟩ := reserve_moved hroom hres hhigh
  exact ⟨Nat.le_of_eq hlsn.symm, Or.inl hlsn, Or.inl rfl, hcases⟩

def FeedOp.reserves : FeedOp β → Bool
  | .publish _ | .reserveNext | .resyncBarrier => true
  | _ => false

section Broker

variable [Inhabited β] {weight : β → Nat}

theorem appendLocked_reserved (weight : β → Nat) (b : ReplicationBroker β) (body : β) :
    (appendLocked weight b body).1.reserved =
        (b.reserveLocked (wrap64 (b.lsn + 1))).1.reserved ∧
      (appendLocked weight b body).2 = (b.reserveLocked (wrap64 (b.lsn + 1))).2 := by
  unfold appendLocked
  simp only
  rw [evict_frame]
  unfold reserveLocked
  split <;> exact ⟨rfl, rfl⟩

theorem publish_moved {f : Feed β} (body : β)
    (hroom : f.broker.lsn + 1 + lsnReserveBlock < 2 ^ 64) :
    Moved f (f.publish weight body).1 (f.publish weight body).2 := by
  have hnext : f.broker.lsn + 1 < 2 ^ 64 := by omega
  obtain ⟨hres, hhigh⟩ := appendLocked_reserved weight f.broker body
  rw [wrap64_of_lt hnext] at hres hhigh
  obtain ⟨hle, hcases⟩ := reserve_moved hroom hres hhigh
  have hlsn := publish_lsn weight body hnext
  refine ⟨?_, Or.inr (hlsn ▸ hle), ?_, hcases⟩
  · rw [hlsn]
    exact Nat.le_succ _
  · refine Or.inr ⟨⟨body, ?_⟩, hlsn, ?_⟩
    · rw [publish_history weight body hnext, hlsn]
    · rw [hlsn]
      exact hle

theorem resyncBarrier_moved {f : Feed β} (hroom : f.broker.lsn + 1 + lsnReserveBlock < 2 ^ 64) :
    Moved f f.resyncBarrier.1 f.resyncBarrier.2 := by
  have hnext : f.broker.lsn + 1 < 2 ^ 64 := by omega
  have hlsn := resyncBarrier_lsn hnext
  have hpair : f.resyncBarrier.1.broker.reserved =
        (f.broker.reserveLocked (f.broker.lsn + 1)).1.reserved ∧
      f.resyncBarrier.2 = (f.broker.reserveLocked (f.broker.lsn + 1)).2 := by
    rw [← wrap64_of_lt hnext]
    unfold Feed.resyncBarrier ReplicationBroker.resyncBarrier reserveLocked
    simp only
    split <;> exact ⟨rfl, rfl⟩
  obtain ⟨hle, hcases⟩ := reserve_moved hroom hpair.1 hpair.2
  refine ⟨?_, Or.inr (hlsn ▸ hle), Or.inl rfl, hcases⟩
  rw [hlsn]
  exact Nat.le_succ _

theorem act_quiet {f f' : Feed β} {op : FeedOp β} {high : Option Nat} (hop : op.reserves = false)
    (h : f.act weight op = some (f', high)) :
    high = none ∧ f'.history = f.history ∧ f'.broker.lsn = f.broker.lsn ∧
      f'.broker.reserved = f.broker.reserved ∧ f'.broker.ring = f.broker.ring := by
  cases op with
  | publish | reserveNext | resyncBarrier => cases hop
  | subscribe fromLSN =>
    obtain ⟨g, hg, heq⟩ := map_eq_some_iff.mp h
    cases heq
    obtain ⟨-, rfl⟩ := subscribe_spec hg
    exact ⟨rfl, rfl, rfl, rfl, rfl⟩
  | receive id =>
    obtain ⟨g, hg, heq⟩ := map_eq_some_iff.mp h
    cases heq
    obtain ⟨re, sub, ch, -, -, hb, hhist, -⟩ := receive_spec hg
    rw [hb]
    exact ⟨rfl, hhist, rfl, rfl, rfl⟩
  | consumed id re | unsubscribe id =>
    cases h
    exact ⟨rfl, rfl, rfl, rfl, rfl⟩

theorem act_moved {f f' : Feed β} {op : FeedOp β} {high : Option Nat}
    (hroom : op.reserves = true → f.broker.lsn + 1 + lsnReserveBlock < 2 ^ 64)
    (h : f.act weight op = some (f', high)) : Moved f f' high := by
  cases op with
  | publish body =>
    cases h
    exact publish_moved body (hroom rfl)
  | reserveNext =>
    cases h
    exact reserveNext_moved (hroom rfl)
  | resyncBarrier =>
    cases h
    exact resyncBarrier_moved (hroom rfl)
  | subscribe | receive | consumed | unsubscribe =>
    obtain ⟨rfl, hhist, hlsn, hres, -⟩ := act_quiet rfl h
    exact ⟨Nat.le_of_eq hlsn.symm, Or.inl hlsn, Or.inl hhist, Or.inl ⟨rfl, hres⟩⟩

end Broker

end Scriva
