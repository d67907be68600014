import Scriva.ReplNode
import Scriva.LsnCounters
import Scriva.FeedGapless

namespace Scriva

open List Option

variable {β : Type}

def Promotion.Seeded (p : Promotion) (lsn : Nat) : Prop :=
  match p.phase with
  | .admitted | .flipped => True
  | .seeded .started => p.applied ≤ lsn
  | .seeded (.read v) => p.applied ≤ lsn ∧ p.applied ≤ v
  | .seeded (.noted st) => p.applied ≤ lsn ∧ p.applied ≤ st.leaderLSN

theorem Promotion.Seeded.mono {p : Promotion} {lsn lsn' : Nat} (h : p.Seeded lsn)
    (hle : lsn ≤ lsn') : p.Seeded lsn' := by
  obtain ⟨applied, phase⟩ := p
  rcases phase with _ | _ | p
  · trivial
  · trivial
  · cases p with
    | started => exact Nat.le_trans h hle
    | read v | noted st => exact ⟨h.1.trans hle, h.2⟩

structure FeedCovered (s : Lifetime β) (n : ReplNode β) (f : Feed β) : Prop where
  reserved : f.broker.reserved ≤ s.file.leaderLSN
  issued : ∀ i ∈ s.issued, i.record.lsn ≤ f.broker.lsn
  taken : s.takenOver ≤ f.broker.lsn
  promotion : ∀ p, n.promotion = some p → p.Seeded f.broker.lsn

/-- The file covers every LSN handed out, and each was above what promotions had taken over. -/
structure LifeInv (s : Lifetime β) : Prop where
  ascending : s.issued.Pairwise fun a b => a.record.lsn < b.record.lsn
  above : ∀ i ∈ s.issued, i.floor < i.record.lsn
  covered : ∀ i ∈ s.issued, i.record.lsn ≤ s.file.leaderLSN
  taken : s.takenOver ≤ s.file.leaderLSN
  feed : ∀ n f, s.node = some n → n.feed = some f → FeedCovered s n f

def ReplNode.Level (n : ReplNode β) (lsn : Nat) : Prop :=
  ∀ p ∈ n.promotion, p.phase = .admitted ∨ p.phase = .flipped → p.applied ≤ lsn

def Persist.carries : Persist → Option Nat
  | .noted st => some st.leaderLSN
  | _ => none

def Promotion.carries (p : Promotion) : Option Nat :=
  match p.phase with
  | .seeded q => q.carries
  | _ => none

/-- The watermark writes a step needs succeed and never lower the file's leader LSN, and no record
is published between a promotion's role flip and its raise of the counter. -/
def LifeOp.Sound (s : Lifetime β) : LifeOp β → Prop
  | .feed op ok => ∀ n ∈ s.node, ∀ f ∈ n.feed, op.reserves = true →
      f.broker.lsn + 1 + lsnReserveBlock < 2 ^ 64 ∧
      (f.broker.reserved ≤ f.broker.lsn → ok = true) ∧ n.Level f.broker.lsn
  | .persistWrite i ok => ok = true → ∀ n ∈ s.node, ∀ p ∈ n.persists[i]?, ∀ v ∈ p.carries,
      s.file.leaderLSN ≤ v
  | .promoteWrite ok => ok = true ∧ ∀ n ∈ s.node, n.feed.isSome = true ∧ ∀ p ∈ n.promotion,
      ∀ v ∈ p.carries, s.file.leaderLSN ≤ v
  | .close ok => ok = true → ∀ n ∈ s.node, n.feed.isNone = true → 0 < n.appliedLSN →
      s.file.leaderLSN = 0
  | .start ringSize _ bound ok =>
      ok = true → ringSize = 0 → s.file.appliedLSN < bound → s.file.leaderLSN = 0
  | _ => True

instance (n : ReplNode β) (lsn : Nat) : Decidable (n.Level lsn) :=
  inferInstanceAs (Decidable (∀ p ∈ n.promotion, _))

instance (s : Lifetime β) : DecidablePred (LifeOp.Sound s) := by
  rintro (_ | _ | _ | _ | _ | _ | _ | _ | _ | _ | _) <;> dsimp only [LifeOp.Sound] <;>
    infer_instance

section Steps

variable {s t : Lifetime β} {n : ReplNode β}

theorem LifeInv.of_node {n' : ReplNode β} (h : LifeInv s) (hn : s.node = some n)
    (hfeed : n'.feed = n.feed)
    (hprom : ∀ f p, n.feed = some f → n'.promotion = some p → p.Seeded f.broker.lsn) :
    LifeInv { s with node := some n' } where
  ascending := h.ascending
  above := h.above
  covered := h.covered
  taken := h.taken
  feed := by
    intro m f hm hf
    cases hm
    rw [hfeed] at hf
    have hc := h.feed n f hn hf
    exact ⟨hc.reserved, hc.issued, hc.taken, fun p hp => hprom f p hf hp⟩

theorem LifeInv.of_file {st : ReplState} (h : LifeInv s) (hle : s.file.leaderLSN ≤ st.leaderLSN) :
    LifeInv { s with file := st } where
  ascending := h.ascending
  above := h.above
  covered := fun i hi => (h.covered i hi).trans hle
  taken := h.taken.trans hle
  feed := by
    intro m f hm hf
    have hc := h.feed m f hm hf
    exact ⟨hc.reserved.trans hle, hc.issued, hc.taken, hc.promotion⟩

theorem LifeInv.persist {st : ReplState} {ok : Bool} (h : LifeInv s)
    (hle : ok = true → s.file.leaderLSN ≤ st.leaderLSN) : LifeInv (s.persist st ok) := by
  unfold Lifetime.persist
  cases ok with
  | false => exact h
  | true => exact h.of_file (hle rfl)

theorem LifeInv.stop (st : ReplState) (h : LifeInv s)
    (hcov : ∀ i ∈ s.issued, i.record.lsn ≤ st.leaderLSN) (htaken : s.takenOver ≤ st.leaderLSN) :
    LifeInv { s with file := st, node := none } where
  ascending := h.ascending
  above := h.above
  covered := hcov
  taken := htaken
  feed := by
    intro m f hm
    cases hm

theorem floor_le {f : Feed β} (h : FeedCovered s n f) (hlevel : n.Level f.broker.lsn) :
    s.floor n ≤ f.broker.lsn := by
  apply Nat.max_le.mpr
  refine ⟨h.taken, ?_⟩
  cases hp : n.promotion with
  | none => exact Nat.zero_le _
  | some p =>
    have hseeded := h.promotion p hp
    obtain ⟨applied, phase⟩ := p
    change applied ≤ f.broker.lsn
    rcases phase with _ | _ | p
    · exact hlevel _ hp (Or.inl rfl)
    · exact hlevel _ hp (Or.inr rfl)
    · cases p with
      | started => exact hseeded
      | read v | noted st => exact hseeded.1

end Steps

section FeedStep

variable [Inhabited β] {weight : β → Nat} {s t : Lifetime β} {n : ReplNode β} {op : FeedOp β}
  {ok : Bool}

omit [Inhabited β] in
theorem LifeInv.of_moved {f f' : Feed β} {high : Option Nat} (st : ReplState) (h : LifeInv s)
    (hn : s.node = some n) (hf : n.feed = some f) (hm : Moved f f' high)
    (hfloor : f'.history = f.history ∨ s.floor n ≤ f.broker.lsn)
    (hres : f'.broker.reserved ≤ st.leaderLSN)
    (hcov : ∀ i ∈ s.issued, i.record.lsn ≤ st.leaderLSN) (htaken : s.takenOver ≤ st.leaderLSN) :
    LifeInv { s with
      file := st
      node := some { n with feed := some f' }
      issued := s.issued ++
        (f'.history.drop f.history.length).map fun re => ⟨re, s.floor n⟩ } := by
  have hc := h.feed n f hn hf
  have hprom : ∀ p, n.promotion = some p → p.Seeded f'.broker.lsn :=
    fun p hp => (hc.promotion p hp).mono hm.lsn_le
  rcases hm.published with hhist | ⟨⟨body, hhist⟩, hlsn, hle⟩
  · rw [hhist, drop_length, map_nil, append_nil]
    refine ⟨h.ascending, h.above, hcov, htaken, ?_⟩
    intro m g hnode hg
    cases hnode
    cases hg
    exact ⟨hres, fun i hi => (hc.issued i hi).trans hm.lsn_le, hc.taken.trans hm.lsn_le, hprom⟩
  · have hnew : (f'.history.drop f.history.length).map (fun re => (⟨re, s.floor n⟩ : Issue β)) =
        [⟨⟨f'.broker.lsn, body⟩, s.floor n⟩] := by
      rw [hhist, drop_left]
      rfl
    have hfl : s.floor n ≤ f.broker.lsn := by
      rcases hfloor with hsame | hfl
      · rw [hsame] at hhist
        have hlen := congrArg List.length hhist
        rw [length_append, length_singleton] at hlen
        omega
      · exact hfl
    rw [hnew]
    refine ⟨?_, ?_, ?_, htaken, ?_⟩
    · rw [pairwise_append]
      refine ⟨h.ascending, pairwise_singleton _ _, ?_⟩
      intro a ha b hb
      cases mem_singleton.mp hb
      have hold := hc.issued a ha
      change a.record.lsn < f'.broker.lsn
      omega
    · intro i hi
      rcases Runs.mem_concat hi with hi | rfl
      · exact h.above i hi
      · change s.floor n < f'.broker.lsn
        omega
    · intro i hi
      rcases Runs.mem_concat hi with hi | rfl
      · exact hcov i hi
      · exact hle.trans hres
    · intro m g hnode hg
      cases hnode
      cases hg
      refine ⟨hres, ?_, hc.taken.trans hm.lsn_le, hprom⟩
      intro i hi
      rcases Runs.mem_concat hi with hi | rfl
      · exact (hc.issued i hi).trans hm.lsn_le
      · exact Nat.le_refl _

theorem feedStep_inv (h : LifeInv s) (hn : s.node = some n)
    (hok : LifeOp.Sound s (.feed op ok)) (hstep : s.feedStep weight n op ok = some t) :
    LifeInv t := by
  obtain ⟨f, hf, hstep⟩ := bind_eq_some_iff.mp hstep
  obtain ⟨⟨f', high⟩, hact, rfl⟩ := map_eq_some_iff.mp hstep
  have hc := h.feed n f hn hf
  have hcond := hok n hn f hf
  have hm := act_moved (fun hop => (hcond hop).1) hact
  have hfloor : f'.history = f.history ∨ s.floor n ≤ f.broker.lsn := by
    cases hop : op.reserves with
    | true => exact Or.inr (floor_le hc (hcond hop).2.2)
    | false => exact Or.inl (act_quiet hop hact).2.1
  rcases hm.reserved with ⟨rfl, hres⟩ | ⟨rfl, hused, hlt⟩
  · exact h.of_moved s.file hn hf hm hfloor (hres ▸ hc.reserved) h.covered h.taken
  · have hop : op.reserves = true := by
      cases hop : op.reserves with
      | true => rfl
      | false => cases (act_quiet hop hact).1
    have hwrite : ok = true := (hcond hop).2.1 hused
    subst hwrite
    exact h.of_moved ⟨f'.broker.reserved, n.appliedLSN⟩ hn hf hm hfloor (Nat.le_refl _)
      (fun i hi => (hc.issued i hi).trans (Nat.le_of_lt hlt)) (hc.taken.trans (Nat.le_of_lt hlt))

end FeedStep

section Promote

variable {s t : Lifetime β} {n n' : ReplNode β}

theorem promoteNext_inv (h : LifeInv s) (hn : s.node = some n) (hstep : n.promoteNext = some n') :
    LifeInv { s with node := some n' } := by
  unfold ReplNode.promoteNext at hstep
  split at hstep
  next applied hp =>
    cases hstep
    refine h.of_node hn rfl ?_
    rintro f p - hp
    cases hp
    trivial
  next applied hp =>
    cases hstep
    refine ⟨h.ascending, h.above, h.covered, h.taken, ?_⟩
    intro m g hm hg
    cases hm
    obtain ⟨f, hf, rfl⟩ := map_eq_some_iff.mp hg
    have hc := h.feed n f hn hf
    have hle : f.broker.lsn ≤ max f.broker.lsn applied := Nat.le_max_left _ _
    refine ⟨hc.reserved, fun i hi => (hc.issued i hi).trans hle, hc.taken.trans hle, ?_⟩
    intro p hp
    cases hp
    exact Nat.le_max_right f.broker.lsn applied
  next applied q hp =>
    obtain ⟨q', hq, rfl⟩ := map_eq_some_iff.mp hstep
    refine h.of_node hn rfl ?_
    intro f p hf hp'
    cases hp'
    have hseeded := (h.feed n f hn hf).promotion _ hp
    have hcur : n.currentLSN = f.broker.lsn := by
      unfold ReplNode.currentLSN
      rw [hf]
      rfl
    cases q with
    | started =>
      cases hq
      refine ⟨hseeded, ?_⟩
      rw [hcur]
      exact hseeded
    | read v =>
      cases hq
      exact hseeded
    | noted st => cases hq
  next => cases hstep

theorem promoteWrite_inv {ok : Bool} (h : LifeInv s) (hn : s.node = some n)
    (hok : LifeOp.Sound s (.promoteWrite ok)) (hstep : s.promoteWrite n ok = some t) :
    LifeInv t := by
  obtain ⟨rfl, hcond⟩ := hok
  obtain ⟨hsome, hkeep⟩ := hcond n hn
  unfold Lifetime.promoteWrite at hstep
  split at hstep
  next applied st hp =>
    cases hstep
    have hle := hkeep _ hp st.leaderLSN rfl
    obtain ⟨f, hf⟩ := isSome_iff_exists.mp hsome
    have hseeded := (h.feed n f hn hf).promotion _ hp
    refine ⟨h.ascending, h.above, fun i hi => (h.covered i hi).trans hle, ?_, ?_⟩
    · exact Nat.max_le.mpr ⟨h.taken.trans hle, hseeded.2⟩
    · intro m g hm hg
      cases hm
      have hc := h.feed n g hn hg
      rw [hf] at hg
      cases hg
      refine ⟨hc.reserved.trans hle, hc.issued, Nat.max_le.mpr ⟨hc.taken, hseeded.1⟩, ?_⟩
      intro p hp
      cases hp
  next => cases hstep

end Promote

section Restart

variable {s t : Lifetime β} {n : ReplNode β} {ok : Bool}

theorem close_inv (h : LifeInv s) (hn : s.node = some n) (hok : LifeOp.Sound s (.close ok)) :
    LifeInv (s.close n ok) := by
  have hdown : LifeInv { s with node := none } := h.stop s.file h.covered h.taken
  unfold Lifetime.close
  simp only
  split
  next hwrite =>
    cases ok with
    | false => exact hdown
    | true =>
      cases hf : n.feed with
      | some f =>
        have hc := h.feed n f hn hf
        have hcur : n.currentLSN = f.broker.lsn := by
          unfold ReplNode.currentLSN
          rw [hf]
          rfl
        refine h.stop ⟨n.currentLSN, n.appliedLSN⟩ ?_ ?_
        · rw [hcur]
          exact hc.issued
        · rw [hcur]
          exact hc.taken
      | none =>
        have hpos : 0 < n.appliedLSN := by
          rcases hwrite with hsome | hpos
          · rw [hf] at hsome
            cases hsome
          · exact hpos
        have hzero := hok rfl n hn (by rw [hf]; rfl) hpos
        refine hdown.persist ?_
        intro _
        change s.file.leaderLSN ≤ _
        rw [hzero]
        exact Nat.zero_le _
  next => exact hdown

variable [Inhabited β]

theorem start_inv {ringSize bound : Nat} {follower : Bool} (h : LifeInv s)
    (hok : LifeOp.Sound s (.start ringSize follower bound ok)) :
    LifeInv (s.start ringSize follower bound ok) := by
  unfold Lifetime.start
  simp only
  generalize hn : (⟨if ringSize = 0 then none
      else some (Feed.opened (restoredBroker ringSize 0 s.file.leaderLSN)),
    max s.file.appliedLSN bound, 0, if follower = true then .follower else .leader, none, []⟩ :
      ReplNode β) = n
  have hup : LifeInv { s with node := some n } := by
    refine ⟨h.ascending, h.above, h.covered, h.taken, ?_⟩
    intro m f hm hf
    cases hm
    subst hn
    have hlsn : max 0 s.file.leaderLSN = s.file.leaderLSN := Nat.zero_max _
    simp only at hf
    split at hf
    next => cases hf
    next =>
      cases hf
      refine ⟨Nat.le_refl _, ?_, ?_, ?_⟩
      · intro i hi
        exact (h.covered i hi).trans (Nat.le_of_eq hlsn.symm)
      · exact h.taken.trans (Nat.le_of_eq hlsn.symm)
      · intro p hp
        cases hp
  split
  next hraise =>
    apply hup.persist
    intro hwrite
    change s.file.leaderLSN ≤ n.currentLSN
    by_cases hring : ringSize = 0
    · rw [hok hwrite hring hraise]
      exact Nat.zero_le _
    · subst hn
      unfold ReplNode.currentLSN
      rw [if_neg hring]
      exact Nat.le_of_eq (Nat.zero_max _).symm
  next => exact hup

end Restart

/-- Every step of a node's life keeps its LSNs ascending and covered. -/
theorem life_step [Inhabited β] {weight : β → Nat} {s t : Lifetime β} {op : LifeOp β}
    (h : LifeInv s) (hok : op.Sound s) (hstep : s.step weight op = some t) : LifeInv t := by
  cases op with
  | feed op ok =>
    obtain ⟨n, hn, hstep⟩ := bind_eq_some_iff.mp hstep
    exact feedStep_inv h hn hok hstep
  | noteLeaderLSN lsn =>
    obtain ⟨n, hn, rfl⟩ := map_eq_some_iff.mp hstep
    exact h.of_node hn rfl fun f p hf hp => (h.feed n f hn hf).promotion p hp
  | setAppliedLSN lsn =>
    obtain ⟨n, hn, rfl⟩ := map_eq_some_iff.mp hstep
    unfold ReplNode.setAppliedLSN
    split
    · exact h.of_node hn rfl fun f p hf hp => (h.feed n f hn hf).promotion p hp
    · exact h.of_node hn rfl fun f p hf hp => (h.feed n f hn hf).promotion p hp
  | persistRead i =>
    obtain ⟨n, hn, hstep⟩ := bind_eq_some_iff.mp hstep
    obtain ⟨p, -, hstep⟩ := bind_eq_some_iff.mp hstep
    obtain ⟨q, -, rfl⟩ := map_eq_some_iff.mp hstep
    exact h.of_node hn rfl fun f p hf hp => (h.feed n f hn hf).promotion p hp
  | persistWrite i ok =>
    obtain ⟨n, hn, hstep⟩ := bind_eq_some_iff.mp hstep
    unfold Lifetime.persistWrite at hstep
    split at hstep
    next st hp =>
      cases hstep
      have hnode : LifeInv { s with node := some { n with persists := n.persists.eraseIdx i } } :=
        h.of_node hn rfl fun f p hf hp => (h.feed n f hn hf).promotion p hp
      exact hnode.persist fun hwrite => hok hwrite n hn _ hp st.leaderLSN rfl
    next => cases hstep
  | promote maxLag force =>
    obtain ⟨n, hn, hstep⟩ := bind_eq_some_iff.mp hstep
    obtain ⟨n', hn', rfl⟩ := map_eq_some_iff.mp hstep
    unfold ReplNode.promote at hn'
    split at hn'
    next =>
      cases hn'
      refine h.of_node hn rfl ?_
      rintro f p - hp
      cases hp
      trivial
    next => cases hn'
  | promoteNext =>
    obtain ⟨n, hn, hstep⟩ := bind_eq_some_iff.mp hstep
    obtain ⟨n', hn', rfl⟩ := map_eq_some_iff.mp hstep
    exact promoteNext_inv h hn hn'
  | promoteWrite ok =>
    obtain ⟨n, hn, hstep⟩ := bind_eq_some_iff.mp hstep
    exact promoteWrite_inv h hn hok hstep
  | close ok =>
    obtain ⟨n, hn, rfl⟩ := map_eq_some_iff.mp hstep
    exact close_inv h hn hok
  | crash =>
    obtain ⟨n, hn, rfl⟩ := map_eq_some_iff.mp hstep
    exact h.stop s.file h.covered h.taken
  | start ringSize follower bound ok =>
    obtain ⟨-, rfl⟩ := Runs.guarded hstep
    exact start_inv h hok

def Lifetime.fresh (file : ReplState) : Lifetime β :=
  ⟨file, none, [], 0⟩

/-- No two records have one LSN, and none is at or below what a promotion had taken over. -/
def Lifetime.LsnsUnique (s : Lifetime β) : Prop :=
  (s.issued.map fun i => i.record.lsn).Nodup ∧ ∀ i ∈ s.issued, i.floor < i.record.lsn

theorem lsns_never_reused [Inhabited β] {weight : β → Nat} {file : ReplState} {s : Lifetime β}
    (h : Runs.Reaches (Lifetime.step weight) LifeOp.Sound (Lifetime.fresh file) s) :
    s.LsnsUnique := by
  have hstart : LifeInv (Lifetime.fresh file : Lifetime β) := by
    refine ⟨List.Pairwise.nil, ?_, ?_, Nat.zero_le _, ?_⟩
    · intro i hi
      cases hi
    · intro i hi
      cases hi
    · intro n f hn
      cases hn
  have hinv : LifeInv s := h.invariant hstart life_step
  refine ⟨?_, hinv.above⟩
  have hlt : (s.issued.map fun i => i.record.lsn).Pairwise (· < ·) :=
    pairwise_map.mpr hinv.ascending
  exact hlt.imp Nat.ne_of_lt

def caughtUpFollower : List (LifeOp Committed) :=
  [.start 4 true 0 true, .setAppliedLSN 10, .persistRead 0, .persistRead 0, .persistWrite 0 true,
   .promote 0 false]

def quietPromotion : List (LifeOp Committed) :=
  caughtUpFollower ++
  [.promoteNext, .promoteNext, .promoteNext, .promoteNext, .promoteWrite true,
   .feed (.publish (.entry "users" (deletion 1))) true, .crash, .start 4 false 0 true,
   .feed (.publish (.entry "users" (deletion 2))) true]

theorem lsns_never_reused_sample : ∃ s,
    Runs.run (Lifetime.step Committed.weight) (Lifetime.fresh ⟨0, 0⟩) quietPromotion = some s ∧
      s.LsnsUnique := by
  obtain ⟨s, hs, hr, -⟩ := Runs.reached (Lifetime.step Committed.weight) LifeOp.Sound
    (Lifetime.fresh ⟨0, 0⟩) quietPromotion (fun _ => True) (by decide)
  exact ⟨s, hs, lsns_never_reused hr⟩

/-- Writers that run beside the promotion: the first record is numbered below what the node has
applied, and the promotion's own watermark write takes back the block reserved for the second, so
that the number of the third is given out again after a crash. -/
def racedPromotion : List (LifeOp Committed) :=
  caughtUpFollower ++
  [.promoteNext, .feed (.publish (.entry "users" (deletion 1))) true,
   .promoteNext, .feed (.publish (.entry "users" (deletion 2))) true,
   .promoteNext, .promoteNext, .promoteWrite true,
   .feed (.publish (.entry "users" (deletion 3))) true, .crash, .start 4 false 0 true,
   .feed (.publish (.entry "users" (deletion 4))) true]

theorem raced_promotion_reuses : ∃ s,
    Runs.run (Lifetime.step Committed.weight) (Lifetime.fresh ⟨0, 0⟩) racedPromotion = some s ∧
      ¬ (s.issued.map fun i => i.record.lsn).Nodup ∧
      ¬ ∀ i ∈ s.issued, i.floor < i.record.lsn := by
  have hbad : ∃ s ∈ Runs.run (Lifetime.step Committed.weight) (Lifetime.fresh ⟨0, 0⟩) racedPromotion,
      ¬ (s.issued.map fun i => i.record.lsn).Nodup ∧
        ¬ ∀ i ∈ s.issued, i.floor < i.record.lsn := by
    decide
  exact hbad

end Scriva
