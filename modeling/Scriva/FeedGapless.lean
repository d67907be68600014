import Scriva.FeedInvariant

namespace Scriva

open ReplicationBroker List Option

variable {β : Type} [Inhabited β]

/-- A subscription was fed consecutive LSNs from its resume point on, and while it lives it is
level with the broker. -/
structure Consecutive (f : Feed β) (id : Nat) (st : Stream β) : Prop where
  numbers : (f.fed id st).map ReplicationEntry.lsn =
    List.range' (st.fromLSN + 1) (f.fed id st).length
  level : ∀ sub, f.broker.subs id = some sub → sub.dead = false →
    st.fromLSN + (f.fed id st).length = f.broker.lsn

structure Numbered (f : Feed β) : Prop where
  size_le : f.broker.ring.toList.length ≤ f.broker.lsn
  ring : f.broker.ring.toList.map ReplicationEntry.lsn =
    List.range' (f.broker.lsn + 1 - f.broker.ring.toList.length) f.broker.ring.toList.length
  streams : ∀ id st, f.streams id = some st → Consecutive f id st

theorem Numbered.opened (b : ReplicationBroker β) (hring : b.ring.toList = []) :
    Numbered (Feed.opened b) where
  size_le := by
    change b.ring.toList.length ≤ b.lsn
    rw [hring]
    exact Nat.zero_le _
  ring := by
    change b.ring.toList.map _ = List.range' (b.lsn + 1 - b.ring.toList.length) b.ring.toList.length
    rw [hring]
    rfl
  streams := by simp [Feed.opened]

theorem range'_of_prefix {xs ys : List Nat} {a : Nat} (h : xs <+: ys)
    (hys : ys = List.range' a ys.length) : xs = List.range' a xs.length := by
  obtain ⟨zs, rfl⟩ := h
  rw [length_append, ← List.range'_append_1] at hys
  exact (append_inj hys (by simp)).1

variable {f f' : Feed β}

omit [Inhabited β] in
theorem Consecutive.of_cut {id : Nat} {st st' : Stream β} (h : Consecutive f id st)
    (hcut : Cut f f' id st st')
    (hlsn : (∃ sub', f'.broker.subs id = some sub' ∧ sub'.dead = false) →
      f'.broker.lsn = f.broker.lsn) : Consecutive f' id st' where
  numbers := by
    have hys : (f.fed id st).map ReplicationEntry.lsn =
        List.range' (st.fromLSN + 1) ((f.fed id st).map ReplicationEntry.lsn).length := by
      rw [length_map]
      exact h.numbers
    have hxs := range'_of_prefix (hcut.part.map ReplicationEntry.lsn) hys
    rw [length_map] at hxs
    rw [hcut.fromLSN]
    exact hxs
  level := by
    intro sub' hsub' hlive'
    obtain ⟨⟨sub, hsub, hlive⟩, hfed⟩ := hcut.live sub' hsub' hlive'
    rw [hlsn ⟨sub', hsub', hlive'⟩, hcut.fromLSN, hfed]
    exact h.level sub hsub hlive

theorem Numbered.of_cuts (h : Numbered f) (hcuts : Cuts f f') (hlsn : f'.broker.lsn = f.broker.lsn)
    (hring : f'.broker.ring = f.broker.ring) :
    Numbered f' where
  size_le := by
    rw [hring, hlsn]
    exact h.size_le
  ring := by
    rw [hring, hlsn]
    exact h.ring
  streams := by
    intro id st' hst'
    obtain ⟨st, hst, hcut⟩ := hcuts id st' hst'
    exact (h.streams id st hst).of_cut hcut fun _ => hlsn

theorem resyncBarrier_numbered (h : Numbered f) : Numbered f.resyncBarrier.1 where
  size_le := Nat.zero_le _
  ring := rfl
  streams := by
    intro id st' hst'
    obtain ⟨st, hst, hcut⟩ := resyncBarrier_cuts f id st' hst'
    refine (h.streams id st hst).of_cut hcut ?_
    rintro ⟨sub, hsub, hlive⟩
    rw [resyncBarrier_dead hsub] at hlive
    cases hlive

section Publish

variable (weight : β → Nat) {f : Feed β} (body : β)

theorem Consecutive.publish {id : Nat} {st : Stream β} (h : Consecutive f id st)
    (hroom : f.broker.lsn + 1 < 2 ^ 64) : Consecutive (f.publish weight body).1 id st := by
  rcases publish_fed weight body hroom id st with ⟨⟨sub, hsub, hlive⟩, hfed⟩ | ⟨hdead, hfed⟩
  · have hlevel := h.level sub hsub hlive
    refine ⟨?_, ?_⟩
    · have hnext : st.fromLSN + 1 + (f.fed id st).length = f.broker.lsn + 1 := by omega
      rw [hfed, map_append, h.numbers, length_append, length_singleton,
        List.range'_1_concat, hnext]
      rfl
    · intro sub' _ _
      rw [hfed, publish_lsn weight body hroom, length_append, length_singleton]
      omega
  · refine ⟨?_, ?_⟩
    · rw [hfed]
      exact h.numbers
    · intro sub' hsub' hlive'
      rw [hdead sub' hsub'] at hlive'
      cases hlive'

theorem publish_numbered (h : Numbered f) (hroom : f.broker.lsn + 1 < 2 ^ 64) :
    Numbered (f.publish weight body).1 := by
  obtain ⟨k, hring⟩ := appendLocked_ring weight f.broker body
  rw [wrap64_of_lt hroom, ← publish_broker weight body] at hring
  have hle := h.size_le
  have hlen : (f.publish weight body).1.broker.ring.toList.length =
      f.broker.ring.toList.length - k + 1 := by
    rw [hring, length_append, length_drop, length_singleton]
  refine ⟨?_, ?_, fun id st hst => (h.streams id st hst).publish weight body hroom⟩
  · rw [hlen, publish_lsn weight body hroom]
    omega
  · rw [hlen, publish_lsn weight body hroom, hring, map_append, map_drop, h.ring,
      drop_range', List.range'_1_concat, map_singleton]
    by_cases hk : k ≤ f.broker.ring.toList.length
    · have hstart : f.broker.lsn + 1 - f.broker.ring.toList.length + k * 1 =
          f.broker.lsn + 1 + 1 - (f.broker.ring.toList.length - k + 1) := by omega
      have hlast : f.broker.lsn + 1 + 1 - (f.broker.ring.toList.length - k + 1) +
          (f.broker.ring.toList.length - k) = f.broker.lsn + 1 := by omega
      rw [hstart, hlast]
    · have hzero : f.broker.ring.toList.length - k = 0 := by omega
      rw [hzero]
      rfl

end Publish

theorem filter_range'_lt {a n m : Nat} (ha : a ≤ m + 1) (hm : m < a + n) :
    (List.range' a n).filter (fun x => m < x) = List.range' (m + 1) (a + n - (m + 1)) := by
  have hsplit : List.range' a n =
      List.range' a (m + 1 - a) ++ List.range' (m + 1) (a + n - (m + 1)) := by
    have happ := List.range'_append_1 (s := a) (m := m + 1 - a) (n := a + n - (m + 1))
    have hs : a + (m + 1 - a) = m + 1 := by omega
    have hn : m + 1 - a + (a + n - (m + 1)) = n := by omega
    rw [hs, hn] at happ
    exact happ.symm
  have hlow : (List.range' a (m + 1 - a)).filter (fun x => m < x) = [] := by
    rw [filter_eq_nil_iff]
    intro x hx
    have hlt := (mem_range'_1.mp hx).2
    simp only [decide_eq_true_eq]
    omega
  have hhigh : (List.range' (m + 1) (a + n - (m + 1))).filter (fun x => m < x) =
      List.range' (m + 1) (a + n - (m + 1)) := by
    rw [filter_eq_self]
    intro x hx
    have hle := (mem_range'_1.mp hx).1
    simp only [decide_eq_true_eq]
    omega
  rw [hsplit, filter_append, hlow, hhigh, nil_append]

theorem subscribe_numbered {fromLSN : Nat} (hnum : Numbered f) (hfrom : fromLSN ≤ f.broker.lsn)
    (hroom : f.broker.lsn + 1 < 2 ^ 64) (h : f.subscribe fromLSN = some f') : Numbered f' := by
  obtain ⟨hold, rfl⟩ := subscribe_spec h
  rw [wrap64_of_lt (by omega)] at hold
  have hbacklog : (f.broker.ring.toList.filter fun re => fromLSN < re.lsn).map
      ReplicationEntry.lsn = List.range' (fromLSN + 1) (f.broker.lsn - fromLSN) := by
    have hmap : (f.broker.ring.toList.filter fun re => fromLSN < re.lsn).map
        ReplicationEntry.lsn =
        (f.broker.ring.toList.map ReplicationEntry.lsn).filter fun x => fromLSN < x := by
      rw [List.filter_map]
      rfl
    have hsize := hnum.size_le
    have hlast : f.broker.lsn + 1 - f.broker.ring.toList.length + f.broker.ring.toList.length =
        f.broker.lsn + 1 := by omega
    have hfirst : f.broker.lsn + 1 - f.broker.ring.toList.length ≤ fromLSN + 1 := by
      unfold oldest at hold
      split at hold
      next hzero =>
        rw [wrap64_of_lt hroom] at hold
        omega
      next hne =>
        have hhead := congrArg List.head? hnum.ring
        rw [List.head?_map, f.broker.ring.head?_toList (Nat.pos_of_ne_zero hne),
          f.broker.ring.length_toList] at hhead
        obtain ⟨n, hn⟩ := Nat.exists_eq_add_one_of_ne_zero hne
        rw [hn, List.range'_succ, List.head?_cons] at hhead
        have hlsn := Option.some.inj hhead
        rw [f.broker.ring.length_toList, hn]
        omega
    rw [hmap, hnum.ring, filter_range'_lt hfirst (by omega), hlast]
    congr 1
    omega
  have hlen := congrArg List.length hbacklog
  rw [length_map, length_range'] at hlen
  refine ⟨hnum.size_le, hnum.ring, ?_⟩
  intro id st hst
  by_cases hid : id = f.broker.subSeq + 1
  · have hnew := (if_pos hid).symm.trans hst
    cases hnew
    refine ⟨?_, ?_⟩
    · simp only [Feed.fed, Feed.pending, if_pos hid, map_some, getD_some,
        append_nil]
      rw [hbacklog, hlen]
    · intro sub _ _
      simp only [Feed.fed, Feed.pending, if_pos hid, map_some, getD_some,
        append_nil]
      omega
  · have hst0 := (if_neg hid).symm.trans hst
    refine (hnum.streams id st hst0).of_cut ?_ fun _ => rfl
    refine cut_of_subs ?_
    simp only [if_neg hid]

/-- The counter has an LSN left, and a follower resumes from an LSN this broker has reached. -/
def FeedOp.Sound (f : Feed β) : FeedOp β → Prop
  | .publish _ | .resyncBarrier => f.broker.lsn + 1 < 2 ^ 64
  | .subscribe fromLSN => fromLSN ≤ f.broker.lsn ∧ f.broker.lsn + 1 < 2 ^ 64
  | _ => True

instance (f : Feed β) : DecidablePred (FeedOp.Sound f) := by
  rintro (_ | _ | _ | _ | _ | _ | _) <;> dsimp only [FeedOp.Sound] <;> infer_instance

theorem feed_step {weight : β → Nat} {op : FeedOp β} (h : FeedInv f ∧ Numbered f) (hok : op.Sound f)
    (hstep : f.step weight op = some f') : FeedInv f' ∧ Numbered f' := by
  obtain ⟨hinv, hnum⟩ := h
  cases op with
  | publish body =>
    cases hstep
    exact ⟨publish_inv weight body hinv hok, publish_numbered weight body hnum hok⟩
  | reserveNext =>
    cases hstep
    have hb := reserveNext_broker f
    refine ⟨reserveNext_inv hinv, hnum.of_cuts (reserveNext_cuts f) ?_ ?_⟩
    · rw [hb]
    · rw [hb]
  | resyncBarrier =>
    cases hstep
    exact ⟨resyncBarrier_inv hinv hok, resyncBarrier_numbered hnum⟩
  | subscribe fromLSN =>
    have hsub : f.subscribe fromLSN = some f' := by simpa [Feed.step, Feed.act] using hstep
    exact ⟨subscribe_inv hinv hok.1 hok.2 hsub, subscribe_numbered hnum hok.1 hok.2 hsub⟩
  | receive id =>
    replace hstep : f.receive id = some f' := by simpa [Feed.step, Feed.act] using hstep
    obtain ⟨re, sub, ch, -, -, hb, hhist, -⟩ := receive_spec hstep
    have hcuts := receive_cuts hstep
    have hlsn : f'.broker.lsn = f.broker.lsn := by rw [hb]
    have hring : f'.broker.ring = f.broker.ring := by rw [hb]
    exact ⟨hinv.of_cuts hcuts hhist (Nat.le_of_eq hlsn.symm) (Or.inl hring),
      hnum.of_cuts hcuts hlsn hring⟩
  | consumed id re =>
    cases hstep
    have hcuts := consumed_cuts weight f id re
    exact ⟨hinv.of_cuts hcuts rfl (Nat.le_refl _) (Or.inl rfl), hnum.of_cuts hcuts rfl rfl⟩
  | unsubscribe id =>
    cases hstep
    have hcuts := unsubscribe_cuts f id
    exact ⟨hinv.of_cuts hcuts rfl (Nat.le_refl _) (Or.inl rfl), hnum.of_cuts hcuts rfl rfl⟩

/-- What a follower is promised: the LSNs after its resume point one by one, nothing but what was
published, all of it while the subscription lives, and nothing it would take for old. -/
structure Gapless (f : Feed β) (id : Nat) (st : Stream β) : Prop where
  consecutive : (f.fed id st).map ReplicationEntry.lsn =
    List.range' (st.fromLSN + 1) (f.fed id st).length
  published : f.fed id st <+: f.due st.fromLSN
  complete : ∀ sub, f.broker.subs id = some sub → sub.dead = false →
    f.fed id st = f.due st.fromLSN
  later : ∀ re ∈ f.history.drop st.since, st.fromLSN < re.lsn

theorem feed_gapless {weight : β → Nat} {ringSize subBuf leaderLSN : Nat} {f : Feed β}
    (h : Runs.Reaches (Feed.step weight) FeedOp.Sound
      (Feed.opened (restoredBroker ringSize subBuf leaderLSN)) f)
    {id : Nat} {st : Stream β} (hst : f.streams id = some st) : Gapless f id st := by
  have hstart : (restoredBroker ringSize subBuf leaderLSN : ReplicationBroker β).ring.toList = [] :=
    rfl
  obtain ⟨hinv, hnum⟩ := h.invariant (I := fun f => FeedInv f ∧ Numbered f)
    ⟨FeedInv.opened _ hstart, Numbered.opened _ hstart⟩ feed_step
  have hs := hinv.streams id st hst
  exact ⟨(hnum.streams id st hst).numbers, hs.part, hs.all, hs.above⟩

def deletion (id : Nat) : Entry :=
  { id := id, op := .delete, ts := Rfc3339.zeroTime, rev := 1, data := none, epoch := 0,
    expiresAt := 0 }

def evictingRun : List (FeedOp Committed) :=
  [.publish (.entry "users" (deletion 1)), .subscribe 0,
   .publish (.tx ⟨"t1", "", [⟨"users", deletion 2⟩, ⟨"orders", deletion 1⟩]⟩), .receive 1,
   .subscribe 1, .resyncBarrier, .publish (.entry "users" (deletion 3)), .unsubscribe 1]

theorem feed_gapless_sample : ∃ f st,
    Runs.run (Feed.step Committed.weight) (Feed.opened (restoredBroker 2 0 0)) evictingRun =
      some f ∧ f.streams 2 = some st ∧ Gapless f 2 st := by
  obtain ⟨f, hf, hr, hsome⟩ := Runs.reached (Feed.step Committed.weight) FeedOp.Sound
    (Feed.opened (restoredBroker 2 0 0)) evictingRun (fun f => (f.streams 2).isSome) (by decide)
  obtain ⟨st, hst⟩ := isSome_iff_exists.mp hsome
  exact ⟨f, st, hf, hst, feed_gapless hr hst⟩

/-- A follower that was ahead of the counter is accepted, and what it is then sent is numbered
below what it has: it drops every record. -/
theorem ahead_follower_accepted : ∃ f st,
    Runs.run (Feed.step Committed.weight) (Feed.opened (restoredBroker 4 0 0))
      [.subscribe 5, .publish (.entry "users" (deletion 1))] = some f ∧
      f.streams 1 = some st ∧ ¬ Gapless f 1 st := by
  refine ⟨_, _, rfl, rfl, ?_⟩
  intro h
  have hlate := h.later ⟨1, .entry "users" (deletion 1)⟩ (by decide)
  exact absurd hlate (by decide)

end Scriva
