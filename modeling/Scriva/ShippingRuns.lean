import Scriva.ShippingFollower

namespace Scriva

open List Option

variable {s s' : Shipping} {f : Feed Write}

/-- Reservations are written, the counter does not run out, and at a crash the file is above the
counter when some write is durable and not yet published; no such write is left at a close. -/
def ShipOp.Sound (s : Shipping) : ShipOp → Prop
  | .begin _ ok | .publish _ ok => ∀ f ∈ s.feed,
      f.broker.lsn + 1 + lsnReserveBlock < 2 ^ 64 ∧ (f.broker.reserved ≤ f.broker.lsn → ok = true)
  | .feed op ok => ∀ f ∈ s.feed, op.reserves = true →
      f.broker.lsn + 1 + lsnReserveBlock < 2 ^ 64 ∧ (f.broker.reserved ≤ f.broker.lsn → ok = true)
  | .connect => ∀ f ∈ s.feed, f.broker.lsn + 1 < 2 ^ 64
  | .crash => ∀ f ∈ s.feed, s.inflight ≠ [] → f.broker.lsn < s.life.file.leaderLSN
  | .close _ => s.inflight = []
  | _ => True

instance (s : Shipping) : DecidablePred (ShipOp.Sound s) := by
  rintro (_ | _ | _ | _ | _ | _ | _ | _ | _ | _ | _ | _ | _) <;> dsimp only [ShipOp.Sound] <;>
    infer_instance

theorem ship_step {op : ShipOp} (hinv : ShipInv s) (hok : op.Sound s)
    (hstep : s.step op = some s') : ShipInv s' := by
  cases op with
  | append collection e =>
    obtain ⟨f, -, rfl⟩ := map_eq_some_iff.mp hstep
    exact land_inv hinv s.prepared
  | begin env ok =>
    obtain ⟨t, ht, rfl⟩ := map_eq_some_iff.mp hstep
    have hinv' := quiet_inv hinv rfl (fun f hf _ => hok f hf) ht
    exact hinv'.of_prepared _
  | commit i =>
    obtain ⟨env, -, rfl⟩ := map_eq_some_iff.mp hstep
    exact land_inv hinv _
  | publish i ok =>
    obtain ⟨w, hw, hstep⟩ := bind_eq_some_iff.mp hstep
    obtain ⟨t, ht, rfl⟩ := map_eq_some_iff.mp hstep
    exact publish_ship hinv hw hok ht
  | feed op ok =>
    cases hop : op.isPublish with
    | true =>
      cases op with
      | publish body => cases hstep
      | _ => cases hop
    | false =>
      have hbroker : s.broker op ok = some s' := by
        cases op with
        | publish body => cases hop
        | _ => exact hstep
      exact quiet_inv hinv hop hok hbroker
  | crash =>
    obtain ⟨life, hlife, rfl⟩ := map_eq_some_iff.mp hstep
    obtain ⟨n, hn, rfl⟩ := map_eq_some_iff.mp hlife
    obtain ⟨f, hf⟩ := isSome_iff_exists.mp (hinv.plain n hn).2
    have hfeed : s.feed = some f := bind_eq_some_iff.mpr ⟨n, hn, hf⟩
    have hl := hinv.life
    exact stop_inv hinv hfeed (hl.stop s.life.file hl.covered hl.taken) rfl rfl
      (hinv.process f hfeed).lsn_le (hok f hfeed)
  | close ok =>
    obtain ⟨life, hlife, rfl⟩ := map_eq_some_iff.mp hstep
    obtain ⟨n, hn, rfl⟩ := map_eq_some_iff.mp hlife
    obtain ⟨f, hf⟩ := isSome_iff_exists.mp (hinv.plain n hn).2
    have hfeed : s.feed = some f := bind_eq_some_iff.mpr ⟨n, hn, hf⟩
    have hclose : s.life.close n ok =
        ({ s.life with node := none } : Lifetime Write).persist ⟨f.broker.lsn, n.appliedLSN⟩ ok := by
      unfold Lifetime.close ReplNode.currentLSN
      rw [hf]
      rfl
    have hinv' : LifeInv (s.life.close n ok) := by
      apply close_inv hinv.life hn
      intro _ m hm hnone
      rw [hn] at hm
      cases hm
      rw [hf] at hnone
      cases hnone
    rw [hclose] at hinv' ⊢
    refine stop_inv hinv hfeed hinv' rfl rfl ?_ fun hne => absurd hok hne
    cases ok with
    | true => exact Nat.le_refl _
    | false => exact (hinv.process f hfeed).lsn_le
  | start ringSize =>
    obtain ⟨hring, hstep⟩ := ite_none_left_eq_some.mp hstep
    obtain ⟨life, hlife, rfl⟩ := map_eq_some_iff.mp hstep
    obtain ⟨hdown, rfl⟩ := Runs.guarded hlife
    exact start_ship hinv hring (isNone_iff_eq_none.mp hdown)
  | connect => exact connect_inv hinv hok hstep
  | send => exact send_inv hinv hstep
  | apply =>
    obtain ⟨fo, hfo, rfl⟩ := map_eq_some_iff.mp hstep
    exact apply_inv hinv hfo
  | readWatermark =>
    obtain ⟨f, hf, rfl⟩ := map_eq_some_iff.mp hstep
    exact readWatermark_inv hinv hf
  | snapshot => exact snapshot_inv hinv hstep

/-- A leader that has written nothing, over any watermark file, and a follower that has nothing. -/
def Shipping.fresh (file : ReplState) : Shipping where
  life := Lifetime.fresh file
  base := 0
  durable := []
  prepared := []
  inflight := []
  follower := ⟨0, [], none, [], none⟩

theorem fresh_inv (file : ReplState) : ShipInv (Shipping.fresh file) := by
  refine ⟨⟨List.Pairwise.nil, ?_, ?_, Nat.zero_le _, ?_⟩, ?_, ?_, ⟨rfl, ?_, nodup_nil, ?_⟩,
    ⟨Nat.zero_le _, ?_, ?_, nil_prefix, ?_, ?_⟩⟩
  all_goals intros; contradiction

def Shipping.Connected (s : Shipping) (f : Feed Write) (id sent : Nat) : Prop :=
  s.feed = some f ∧ s.follower.stream = some (id, sent) ∧
    ∃ sub, f.broker.subs id = some sub ∧ sub.dead = false

/-- A durable write has reached the follower, will be delivered to it on its subscription and not
be taken for old, or is still to be published by the running process. -/
def Shipping.Reached (s : Shipping) (f : Feed Write) (id sent : Nat) (w : Write) : Prop :=
  w.serial ∈ s.follower.held ∨
    (∃ st, f.streams id = some st ∧
      ∃ re ∈ s.follower.inbox ++ (f.fed id st).drop sent,
        re.body = w ∧ s.follower.appliedLSN < re.lsn) ∨
    w ∈ s.inflight

theorem durable_writes_reached {file : ReplState} {s : Shipping}
    (h : Runs.Reaches Shipping.step ShipOp.Sound (Shipping.fresh file) s) {f : Feed Write}
    {id sent : Nat} (hconn : s.Connected f id sent) {w : Write} (hw : w ∈ s.durable) :
    s.Reached f id sent w := by
  have hinv : ShipInv s := h.invariant (fresh_inv file) ship_step
  obtain ⟨hf, hstream, sub, hsub, hlive⟩ := hconn
  have hfo := hinv.follower
  rcases hfo.whole w hw with hin | ⟨re, hre, hbody⟩ | hheld | hbehind
  · exact Or.inr (Or.inr hin)
  · by_cases hle : re.lsn ≤ s.follower.appliedLSN
    · left
      rw [← hbody]
      exact hfo.held re hre hle
    · have hlt : s.follower.appliedLSN < re.lsn := by omega
      obtain ⟨g, st, hg, ho⟩ := hfo.stream id sent hstream
      rw [hf] at hg
      cases hg
      refine Or.inr (Or.inl ⟨st, ho.registered, re, ?_, hbody, hlt⟩)
      rw [ho.all sub hsub hlive]
      exact mem_filter.mpr ⟨hre, by simpa using hlt⟩
  · exact Or.inl hheld
  · rw [hbehind.stream] at hstream
    cases hstream

def crashedCommit : List ShipOp :=
  [.start 4, .connect, .begin ⟨"t1", "", [⟨"users", deletion 1⟩]⟩ true, .commit 0, .crash, .start 4,
   .readWatermark, .snapshot, .connect, .append "users" (deletion 2), .publish 0 true]

theorem durable_writes_reached_sample : ∃ s f, Runs.run Shipping.step (Shipping.fresh ⟨0, 0⟩)
    crashedCommit = some s ∧ s.Connected f 1 0 ∧ ∀ w ∈ s.durable, s.Reached f 1 0 w := by
  obtain ⟨s, hs, hr, hfeed⟩ := Runs.reached Shipping.step ShipOp.Sound (Shipping.fresh ⟨0, 0⟩)
    crashedCommit (fun s => (s.feed.map fun f =>
      (s.follower.stream, (f.broker.subs 1).map ReplSub.dead)) = some (some (1, 0), some false))
    (by decide)
  obtain ⟨f, hf, hpair⟩ := map_eq_some_iff.mp hfeed
  obtain ⟨hstream, hdead⟩ := Prod.mk.inj hpair
  obtain ⟨sub, hsub, hlive⟩ := map_eq_some_iff.mp hdead
  have hconn : s.Connected f 1 0 := ⟨hf, hstream, sub, hsub, hlive⟩
  exact ⟨s, f, hs, hconn, fun w hw => durable_writes_reached hr hconn hw⟩

/-- The first write after a start is durable and the process dies before it is published. Nothing
was reserved for it, so the next process starts from the same LSN and takes the follower back. -/
theorem first_write_skipped : ∃ s f w, Runs.run Shipping.step (Shipping.fresh ⟨0, 0⟩)
    [.start 4, .connect, .append "users" (deletion 1), .crash, .start 4, .connect] = some s ∧
    s.Connected f 1 0 ∧ w ∈ s.durable ∧ ¬ s.Reached f 1 0 w := by
  refine ⟨_, _, ⟨0, .entry "users" (deletion 1)⟩, rfl, ⟨rfl, rfl, _, rfl, rfl⟩, ?_, ?_⟩
  · exact mem_singleton.mpr rfl
  · rintro (hheld | ⟨st, hst, re, hre, -⟩ | hin)
    · cases hheld
    · cases hst
      cases hre
    · cases hin

end Scriva
