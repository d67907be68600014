import Scriva.IndexRuns
import Scriva.ReplNode

namespace Scriva.Failover

open Option

inductive Loop where
  | waiting
  | received (re : ReplicationEntry Committed)
  | admitted (re : ReplicationEntry Committed)
  /-- `ApplyReplicatedTx` holds the apply mutex on a node that is not promoted. -/
  | held (re : ReplicationEntry Committed) (env : TxEnvelope)
  | visible (re : ReplicationEntry Committed)
  /-- The record is applied, `SetAppliedLSN` is still to come. -/
  | applied (re : ReplicationEntry Committed)

/-- Where `Promote` stands. -/
inductive Promote where
  | idle
  | entered (maxLag : Nat) (force : Bool)
  | locked (maxLag : Nat) (force : Bool)
  | admitted (applied : Nat)
  | flipped (applied : Nat)
  | seeded (lsn : Nat)
  | released (lsn : Nat)
  | returned (lsn : Nat)

/-- The node. `lsn` is the counter of its broker, where it has one, and `replicated` the LSNs of the
leader's records that are part of its state. -/
structure Replica where
  cols : String → Collection
  appliedLSN : Nat
  lastLeaderLSN : Nat
  lsn : Option Nat
  role : Role
  promoted : Bool
  loop : Loop
  promote : Promote
  replicated : List Nat

variable (cfg : Config)

def applyEntryTo (cols : String → Collection) (c : String) (e : Entry) (r : Readings) :
    Option (String → Collection) :=
  ((cols c).applyEntry cfg e r).map (Function.update cols c)

/-- The participants of an envelope, each with its entries, applied together or not at all. -/
def applyEnvelopeTo (cols : String → Collection) (txid : String) (env : TxEnvelope) (r : Readings) :
    Option (String → Collection) :=
  (env.ops.map TxEnvelopeOp.collection).dedup.foldlM (fun done c =>
    ((cols c).applyReplicatedTx cfg txid
      ((env.ops.filter fun op => op.collection == c).map TxEnvelopeOp.entry) r).map
        (Function.update done c)) cols

def Loop.locks : Loop → Bool
  | .held _ _ => true
  | .visible _ => true
  | _ => false

def Promote.locks : Promote → Bool
  | .locked _ _ => true
  | .admitted _ => true
  | .flipped _ => true
  | .seeded _ => true
  | _ => false

def Replica.setAppliedLSN (s : Replica) (lsn : Nat) : Replica :=
  { s with appliedLSN := max s.appliedLSN lsn }

def Replica.recv (s : Replica) (re : ReplicationEntry Committed) : Option Replica :=
  match s.loop with
  | .waiting => some { s with lastLeaderLSN := max s.lastLeaderLSN re.lsn, loop := .received re }
  | _ => none

def Replica.landed (s : Replica) (re : ReplicationEntry Committed) (next : Loop) :
    Option (String → Collection) → Replica
  | some cols => { s with cols := cols, loop := next, replicated := s.replicated ++ [re.lsn] }
  | none => { s with loop := .waiting }

/-- The next step of the loop. A single entry is applied under the lock of its collection alone; an
envelope waits for the mutex that `Promote` holds. -/
def Replica.loopNext (s : Replica) (txid : String) (r : Readings) : Option Replica :=
  match s.loop with
  | .waiting => none
  | .received re =>
    if re.lsn ≤ s.appliedLSN then some { s with loop := .waiting }
    else some { s with loop := .admitted re }
  | .admitted re =>
    match re.body with
    | .entry c e => some (s.landed re (.applied re) (applyEntryTo cfg s.cols c e r))
    | .tx env =>
      if s.promote.locks then none
      else if s.promoted then some { s with loop := .waiting }
      else some { s with loop := .held re env }
  | .held re env => some (s.landed re (.visible re) (applyEnvelopeTo cfg s.cols txid env r))
  | .visible re => some { s.setAppliedLSN re.lsn with loop := .applied re }
  | .applied re => some { s.setAppliedLSN re.lsn with loop := .waiting }

def Replica.lag (s : Replica) : Nat :=
  s.lastLeaderLSN - s.appliedLSN

def Replica.promoteNext (s : Replica) : Option Replica :=
  match s.promote with
  | .idle => none
  | .entered maxLag force =>
    if s.loop.locks then none else some { s with promote := .locked maxLag force }
  | .locked maxLag force =>
    if force = true ∨ s.lag ≤ maxLag then some { s with promote := .admitted s.appliedLSN }
    else some { s with promote := .idle }
  | .admitted applied => some { s with role := .leader, promoted := true, promote := .flipped applied }
  | .flipped applied =>
    let lsn := s.lsn.map (max applied)
    some { s with lsn := lsn, promote := .seeded (max applied (lsn.getD 0)) }
  | .seeded lsn => some { s with promote := .released lsn }
  | .released lsn => some { s with promote := .returned lsn }
  | .returned _ => none

inductive Act where
  | recv (re : ReplicationEntry Committed)
  | loop (txid : String) (r : Readings)
  | promote (maxLag : Nat) (force : Bool)
  | promoteNext
  | reap (c : String) (ids : List Nat) (r : Readings)
  | write (c : String) (op : CollectionOp) (records : Nat)

def Replica.publish (s : Replica) (k : Nat) : Replica :=
  { s with lsn := s.lsn.map (· + k) }

def Replica.change (s : Replica) (c : String) (op : CollectionOp) (k : Nat) : Option Replica :=
  ((s.cols c).step cfg op).map fun col => { s with cols := Function.update s.cols c col }.publish k

def Replica.step (s : Replica) : Act → Option Replica
  | .recv re => s.recv re
  | .loop txid r => s.loopNext cfg txid r
  | .promote maxLag force =>
    match s.role, s.promote with
    | .follower, .idle => some { s with promote := .entered maxLag force }
    | _, _ => none
  | .promoteNext => s.promoteNext
  | .reap c ids r => s.change cfg c (.reap ids r) ids.length
  | .write c op k => if s.role = .leader ∧ op.isLocalWrite then s.change cfg c op k else none

structure Replica.Starts (s : Replica) : Prop where
  role : s.role = .follower
  promoted : s.promoted = false
  loop : s.loop = .waiting
  promote : s.promote = .idle
  covered : ∀ l ∈ s.replicated, l ≤ s.appliedLSN

section

variable {cfg : Config} {s t start : Replica} {a : Act} {lsn : Nat}

def isTx (re : ReplicationEntry Committed) : Bool :=
  match re.body with
  | .entry _ _ => false
  | .tx _ => true

def Loop.single : Loop → Bool
  | .received re => !isTx re
  | .admitted re => !isTx re
  | .applied re => !isTx re
  | _ => false

def Loop.ahead : Loop → Option Nat
  | .visible re => some re.lsn
  | .applied re => if isTx re then none else some re.lsn
  | _ => none

def Promote.settled : Promote → Option Nat
  | .admitted applied => some applied
  | .flipped applied => some applied
  | .seeded lsn => some lsn
  | .released lsn => some lsn
  | .returned lsn => some lsn
  | _ => none

def Promote.done : Promote → Bool
  | .flipped _ => true
  | .seeded _ => true
  | .released _ => true
  | .returned _ => true
  | _ => false

/-- What holds in every state. Until `Promote` settles, a record of the state is behind the applied
LSN or is the one that the loop is about to record; after that the loop has nothing to apply. -/
structure Covered (s : Replica) : Prop where
  behind : ∀ l ∈ s.replicated, l ≤ s.appliedLSN ∨ s.loop.ahead = some l
  exclusive : s.promote.locks = true → s.loop.locks = false
  settled : ∀ lsn, s.promote.settled = some lsn → s.loop.single = false ∧ s.loop.locks = false ∧
    ∀ l ∈ s.replicated, l ≤ lsn
  flagged : s.promote.done = true → s.promoted = true

def Replica.admits (s : Replica) : Bool :=
  match s.promote with
  | .locked maxLag force => force || decide (s.lag ≤ maxLag)
  | _ => false

/-- A single entry is neither under way when `Promote` passes its lag check nor received after. -/
def Act.CutSound (s : Replica) : Act → Prop
  | .recv re => s.promote.settled.isSome = true → isTx re = true
  | .promoteNext => s.admits = true → s.loop.single = false
  | _ => True

theorem settled_cases {p : Promote} (h : p.settled.isSome = true) :
    p.locks = true ∨ p.done = true := by
  cases p <;> simp [Promote.settled, Promote.locks, Promote.done] at h ⊢

theorem covered_start (h : s.Starts) : Covered s :=
  ⟨fun l hl => Or.inl (h.covered l hl), fun _ => by simp [h.loop, Loop.locks],
    fun lsn hp => by simp [h.promote, Promote.settled] at hp,
    fun hp => by simp [h.promote, Promote.done] at hp⟩

def Act.ofLoop : Act → Bool
  | .recv _ => true
  | .loop _ _ => true
  | _ => false

section Covered

variable (h : Covered s)
include h

theorem Covered.loop (next : Loop) {applied : Nat} (ha : s.appliedLSN ≤ applied)
    (hahead : ∀ l, s.loop.ahead = some l → l ≤ applied ∨ next.ahead = some l)
    (hsingle : s.promote.settled.isSome = true → s.loop.single = false → next.single = false)
    (hlocks : next.locks = true → s.loop.locks = true ∨
      s.promote.locks = false ∧ s.promote.settled = none) :
    Covered { s with appliedLSN := applied, loop := next } := by
  have hfree : s.loop.locks = false → (s.promote.locks = false ∧ s.promote.settled = none → False) →
      next.locks = false := by
    intro hl hp
    by_contra hc
    rcases hlocks (by simpa using hc) with hx | hx
    · simp [hl] at hx
    · exact hp hx
  refine ⟨fun l hl => ?_, fun hp => ?_, fun lsn hp => ?_, h.flagged⟩
  · rcases h.behind l hl with hle | hb
    · exact Or.inl (hle.trans ha)
    · exact hahead l hb
  · exact hfree (h.exclusive hp) fun hx => by simp [hx.1] at hp
  · obtain ⟨hs, hl, hcov⟩ := h.settled lsn hp
    refine ⟨hsingle (by simp [hp]) hs, hfree hl fun hx => ?_, hcov⟩
    have hp' : s.promote.settled = some lsn := hp
    simp [hx.2] at hp'

theorem Covered.landed {re : ReplicationEntry Committed} {next : Loop}
    {cols : Option (String → Collection)} (hnone : s.promote.settled = none)
    (hquiet : s.loop.ahead = none) (hahead : next.ahead = some re.lsn)
    (hlocks : next.locks = true → s.loop.locks = true) : Covered (s.landed re next cols) := by
  have hidle : Covered { s with loop := .waiting } := by
    refine h.loop .waiting le_rfl (fun l hl => ?_) (fun _ _ => rfl) nofun
    simp [hquiet] at hl
  cases cols with
  | none => exact hidle
  | some cols =>
    refine ⟨fun l hl => ?_, fun hp => ?_, fun lsn hp => ?_, h.flagged⟩
    · rcases Runs.mem_concat hl with hl | rfl
      · rcases h.behind l hl with hle | hb
        · exact Or.inl hle
        · simp [hquiet] at hb
      · exact Or.inr hahead
    · have hl := h.exclusive hp
      by_contra hc
      have hx : next.locks = true := by simpa [Replica.landed] using hc
      simp [hlocks hx] at hl
    · have hp' : s.promote.settled = some lsn := hp
      simp [hnone] at hp'

theorem Covered.unsettled (hl : s.loop.single = true ∨ s.loop.locks = true) :
    s.promote.settled = none := by
  cases hp : s.promote.settled with
  | none => rfl
  | some lsn =>
    obtain ⟨h1, h2, -⟩ := h.settled lsn hp
    simp [h1, h2] at hl

theorem Covered.loopNext {txid : String} {r : Readings}
    (hs : s.loopNext cfg txid r = some t) : Covered t := by
  unfold Replica.loopNext at hs
  cases hloop : s.loop with
  | waiting => simp [hloop] at hs
  | received re =>
    simp only [hloop] at hs
    have hnone : ∀ l, s.loop.ahead = some l → False := by simp [hloop, Loop.ahead]
    split at hs <;> cases hs
    · exact h.loop _ le_rfl (fun l hl => (hnone l hl).elim) (fun _ _ => rfl) nofun
    · refine h.loop (.admitted re) le_rfl (fun l hl => (hnone l hl).elim) (fun _ hx => ?_) nofun
      rw [hloop] at hx
      exact hx
  | admitted re =>
    simp only [hloop] at hs
    have hnone : ∀ l, s.loop.ahead = some l → False := by simp [hloop, Loop.ahead]
    cases hbody : re.body with
    | entry c e =>
      simp only [hbody] at hs
      cases hs
      have htx : isTx re = false := by simp [isTx, hbody]
      refine h.landed (h.unsettled (Or.inl ?_)) (by simp [hloop, Loop.ahead]) ?_ nofun
      · simp [hloop, Loop.single, htx]
      · simp [Loop.ahead, htx]
    | tx env =>
      simp only [hbody] at hs
      obtain ⟨hfree, hs⟩ := ite_none_left_eq_some.mp hs
      split at hs <;> cases hs
      · exact h.loop _ le_rfl (fun l hl => (hnone l hl).elim) (fun _ _ => rfl) nofun
      next hprom =>
        refine h.loop (.held re env) le_rfl (fun l hl => (hnone l hl).elim) (fun _ _ => rfl)
          fun _ => Or.inr ⟨by simpa using hfree, ?_⟩
        by_contra hc
        rcases settled_cases (isSome_iff_ne_none.mpr hc) with hx | hx
        · exact hfree hx
        · exact hprom (h.flagged hx)
  | held re env =>
    simp only [hloop] at hs
    cases hs
    refine h.landed (h.unsettled (Or.inr ?_)) (by simp [hloop, Loop.ahead]) rfl fun _ => ?_
    · simp [hloop, Loop.locks]
    · simp [hloop, Loop.locks]
  | visible re =>
    simp only [hloop] at hs
    cases hs
    have hnone := h.unsettled (Or.inr (by simp [hloop, Loop.locks]))
    refine h.loop (.applied re) (le_max_left _ _) (fun l hl => ?_) (fun hx => ?_) nofun
    · rw [hloop] at hl
      cases hl
      exact Or.inl (le_max_right _ _)
    · simp [hnone] at hx
  | applied re =>
    simp only [hloop] at hs
    cases hs
    refine h.loop .waiting (le_max_left _ _) (fun l hl => ?_) (fun _ _ => rfl) nofun
    rw [hloop, Loop.ahead] at hl
    split at hl <;> cases hl
    exact Or.inl (le_max_right _ _)

theorem Covered.promoteNext (hok : Act.promoteNext.CutSound s)
    (hs : s.promoteNext = some t) : Covered t := by
  unfold Replica.promoteNext at hs
  cases hp : s.promote with
  | idle => simp [hp] at hs
  | entered maxLag force =>
    simp only [hp] at hs
    obtain ⟨hfree, rfl⟩ := Runs.barred hs
    exact ⟨h.behind, fun _ => by simpa using hfree, nofun, nofun⟩
  | locked maxLag force =>
    have hfree := h.exclusive (by simp [hp, Promote.locks])
    simp only [hp] at hs
    split at hs <;> cases hs
    next hadm =>
      have hsingle : s.loop.single = false := hok (by simpa [Replica.admits, hp] using hadm)
      have hquiet : s.loop.ahead = none := by
        cases hloop : s.loop with
        | visible re => simp [hloop, Loop.locks] at hfree
        | applied re =>
          rw [hloop] at hsingle
          simpa [Loop.ahead, Loop.single] using hsingle
        | _ => rfl
      refine ⟨h.behind, fun _ => hfree, fun lsn hx => ?_, nofun⟩
      cases hx
      refine ⟨hsingle, hfree, fun l hl => ?_⟩
      rcases h.behind l hl with hle | hb
      · exact hle
      · simp [hquiet] at hb
    next => exact ⟨h.behind, nofun, nofun, nofun⟩
  | admitted applied =>
    simp only [hp] at hs
    cases hs
    exact ⟨h.behind, fun _ => h.exclusive (by simp [hp, Promote.locks]),
      fun lsn hx => h.settled lsn (by rw [hp]; exact hx), fun _ => rfl⟩
  | flipped applied =>
    simp only [hp] at hs
    cases hs
    obtain ⟨h1, h2, h3⟩ := h.settled applied (by rw [hp]; rfl)
    refine ⟨h.behind, fun _ => h2, fun lsn hx => ?_, fun _ => h.flagged (by rw [hp]; rfl)⟩
    cases hx
    exact ⟨h1, h2, fun l hl => (h3 l hl).trans (le_max_left _ _)⟩
  | seeded lsn | released lsn =>
    simp only [hp] at hs
    cases hs
    exact ⟨h.behind, nofun, fun lsn hx => h.settled lsn (by rw [hp]; exact hx),
      fun _ => h.flagged (by rw [hp]; rfl)⟩
  | returned lsn => simp [hp] at hs

theorem Covered.change {c : String} {op : CollectionOp} {k : Nat}
    (hs : s.change cfg c op k = some t) : Covered t := by
  obtain ⟨col, -, rfl⟩ := map_eq_some_iff.mp hs
  exact ⟨h.behind, h.exclusive, h.settled, h.flagged⟩

theorem covered_step (hok : a.CutSound s) (hs : s.step cfg a = some t) :
    Covered t := by
  cases a with
  | recv re =>
    simp only [Replica.step, Replica.recv] at hs
    split at hs
    next hloop =>
      cases hs
      have hc : Covered { s with loop := .received re } := by
        refine h.loop (.received re) le_rfl (fun l hl => ?_) (fun hx _ => ?_) nofun
        · simp [hloop, Loop.ahead] at hl
        · simp [Loop.single, hok hx]
      exact ⟨hc.behind, hc.exclusive, hc.settled, hc.flagged⟩
    next => cases hs
  | loop txid r => exact h.loopNext hs
  | promote maxLag force =>
    simp only [Replica.step] at hs
    split at hs
    · cases hs
      exact ⟨h.behind, nofun, nofun, nofun⟩
    · cases hs
  | promoteNext => exact h.promoteNext hok hs
  | reap c ids r => exact h.change hs
  | write c op k =>
    obtain ⟨-, hs⟩ := ite_none_right_eq_some.mp hs
    exact h.change hs

theorem Covered.loop_idle (hp : s.promote.settled = some lsn)
    (ha : a.ofLoop = true) (hs : s.step cfg a = some t) (hdone : s.promote.done = true) :
    t.cols = s.cols := by
  obtain ⟨hsingle, hlocks, -⟩ := h.settled lsn hp
  cases a with
  | recv re =>
    simp only [Replica.step, Replica.recv] at hs
    split at hs <;> cases hs
    rfl
  | loop txid r =>
    simp only [Replica.step, Replica.loopNext] at hs
    cases hloop : s.loop with
    | waiting => simp [hloop] at hs
    | received re =>
      simp only [hloop] at hs
      split at hs <;> cases hs <;> rfl
    | admitted re =>
      cases hbody : re.body with
      | entry c e => simp [hloop, Loop.single, isTx, hbody] at hsingle
      | tx env =>
        simp only [hloop, hbody, h.flagged hdone] at hs
        obtain ⟨-, rfl⟩ := Runs.barred hs
        rfl
    | held re env | visible re => simp [hloop, Loop.locks] at hlocks
    | applied re =>
      simp only [hloop] at hs
      cases hs
      rfl
  | _ => cases ha

end Covered

/-- In every run in which no single entry is under way when `Promote` reads the applied LSN or comes
in after, the LSN it returns covers the leader's records, and the loop changes nothing any more. -/
theorem promotion_cuts_off (h0 : start.Starts)
    (hr : Runs.Reaches (Replica.step cfg) (fun s a => a.CutSound s) start s)
    (hp : s.promote = .returned lsn) :
    (∀ l ∈ s.replicated, l ≤ lsn) ∧
      ∀ a t, a.ofLoop = true → s.step cfg a = some t → t.cols = s.cols := by
  have hc : Covered s := hr.invariant (covered_start h0) fun h hok hs => covered_step h hok hs
  have hset : s.promote.settled = some lsn := by rw [hp]; rfl
  exact ⟨(hc.settled lsn hset).2.2, fun a t ha hs => hc.loop_idle hset ha hs (by rw [hp]; rfl)⟩

instance (s : Replica) : ∀ a : Act, Decidable (a.CutSound s)
  | .recv _ | .promoteNext => inferInstanceAs (Decidable (_ → _))
  | .loop _ _ | .promote _ _ | .reap _ _ _ | .write _ _ _ => isTrue trivial

def follower : Replica :=
  { cols := fun _ => emptyCollection, appliedLSN := 4, lastLeaderLSN := 4, lsn := some 0,
    role := .follower, promoted := false, loop := .waiting, promote := .idle, replicated := [4] }

theorem follower_starts : follower.Starts :=
  ⟨rfl, rfl, rfl, rfl, by decide⟩

def insertOf (id : Nat) : Entry :=
  { id := id, op := .insert, ts := Rfc3339.zeroTime, rev := 1, data := none, epoch := 0,
    expiresAt := 0 }

def loops (k : Nat) : List Act :=
  List.replicate k (.loop "t" (readingsAt 0))

def promotes (k : Nat) : List Act :=
  .promote 0 false :: List.replicate k .promoteNext

def orderlyPromotion : List Act :=
  [.recv ⟨5, .entry "c" (insertOf 1)⟩] ++ loops 3 ++ promotes 3 ++
    [.recv ⟨6, .tx ⟨"x", "", [⟨"c", insertOf 2⟩]⟩⟩] ++ loops 1 ++ List.replicate 3 .promoteNext ++
    loops 1

theorem promotion_cuts_off_sample : ∃ s,
    Runs.run (Replica.step plainConfig) follower orderlyPromotion = some s ∧
      s.promote = .returned 5 ∧ s.replicated = [4, 5] ∧ (∀ l ∈ s.replicated, l ≤ 5) ∧
      ∀ a t, a.ofLoop = true → s.step plainConfig a = some t → t.cols = s.cols := by
  obtain ⟨s, hs, hr, hret, hrepl⟩ := Runs.reached (Replica.step plainConfig) (fun s a => a.CutSound s)
    follower orderlyPromotion (fun s => s.promote = .returned 5 ∧ s.replicated = [4, 5])
    ⟨by decide, _, rfl, rfl, rfl⟩
  exact ⟨s, hs, hret, hrepl, promotion_cuts_off follower_starts hr hret⟩

def outcome (as : List Act) (id : Nat) : Option (Promote × List Nat × Bool) :=
  (Runs.run (Replica.step plainConfig) follower as).map fun s =>
    (s.promote, s.replicated, ((s.cols "c").index id).isSome)

/-- An entry that is received while a promotion without allowance is under way is applied after it
has returned; an entry that was applied before a promotion, and whose LSN was not recorded, is above
the LSN it returns. -/
theorem promotion_overtaken :
    outcome (promotes 2 ++ [.recv ⟨5, .entry "c" (insertOf 1)⟩] ++ List.replicate 4 .promoteNext) 1 =
      some (.returned 4, [4], false) ∧
    outcome (promotes 2 ++ [.recv ⟨5, .entry "c" (insertOf 1)⟩] ++ List.replicate 4 .promoteNext ++
      loops 2) 1 = some (.returned 4, [4, 5], true) ∧
    outcome ([.recv ⟨5, .entry "c" (insertOf 1)⟩] ++ loops 2 ++ [.promote 1 false] ++
        List.replicate 6 .promoteNext) 1 = some (.returned 4, [4, 5], true) :=
  ⟨rfl, rfl, rfl⟩

end

end Scriva.Failover
