import Scriva.AcceptedPlan

namespace Scriva

open KeyedLog Option

/-- The transactions committed since the snapshot leave an id as it was recovered. Its last
visible line is one the recovery saw, at an unchanged revision; or it is a delete the recovery
did not see, of an id not live without it. -/
def LateCommitsHarmless (S0 S1 : List Segment) (d0 d1 : Decisions) (id : Nat) : Prop :=
  match lastOf (fun x => x.id == id && x.visible d1) (located S1) with
  | none => True
  | some x =>
    if withheld S0 d0 x then
      x.deletes = true ∧
        ∀ y, lastOf (fun y => y.id == id && kept S0 d0 d1 y) (located S1) = some y →
          y.deletes = true
    else
      x.deletes = true ∨
        revAfter id (((located S1).filter (kept S0 d0 d1)).map Located.line) =
          revAfter id (((located S1).filter (·.visible d1)).map Located.line)

variable {S0 S1 : List Segment} {d0 d1 : Decisions}

theorem lastOf_kept {id : Nat} {x : Located}
    (hx : lastOf (fun x => x.id == id && x.visible d1) (located S1) = some x)
    (hw : withheld S0 d0 x = false) :
    lastOf (fun y => y.id == id && kept S0 d0 d1 y) (located S1) = some x := by
  have hp := (lastOf_some hx).2
  simp only [Bool.and_eq_true] at hp
  refine lastOf_narrow (fun y _ hy => ?_) hx (by simp [kept, hp.1, hp.2, hw])
  simp only [kept, Bool.and_eq_true] at hy ⊢
  exact ⟨hy.1, hy.2.1⟩

theorem lastOf_kept_none {id : Nat}
    (hx : lastOf (fun x => x.id == id && x.visible d1) (located S1) = none) :
    lastOf (fun y => y.id == id && kept S0 d0 d1 y) (located S1) = none := by
  rw [lastOf_eq_none] at hx ⊢
  intro y hy
  have := hx y hy
  cases hid : y.id == id <;> simp_all [kept]

theorem kept_entry_iff (h1 : Ascending S1) (d0 d1 : Decisions) (id : Nat) :
    replay Located.id IndexEntry.act Index.empty ((located S1).filter (kept S0 d0 d1)) id =
      replay Located.id IndexEntry.act Index.empty ((located S1).filter (·.visible d1)) id ↔
    LateCommitsHarmless S0 S1 d0 d1 id := by
  rw [(replay_entryAt _ id).1, (replay_entryAt _ id).1, lastOf_filter, lastOf_filter]
  unfold LateCommitsHarmless
  generalize revAfter id (((located S1).filter (·.visible d1)).map Located.line) = rev
  generalize revAfter id (((located S1).filter (kept S0 d0 d1)).map Located.line) = rev'
  cases hx : lastOf (fun x => x.id == id && x.visible d1) (located S1) with
  | none => simp [lastOf_kept_none hx]
  | some x =>
    cases hw : withheld S0 d0 x with
    | false =>
      rw [lastOf_kept hx hw]
      simp only [bind_some, hw, Bool.false_eq_true, if_false]
      unfold Located.entryAt
      cases hdel : x.deletes <;> simp
    | true =>
      simp only [bind_some, hw, if_true]
      cases hy : lastOf (fun y => y.id == id && kept S0 d0 d1 y) (located S1) with
      | none =>
        rw [Option.bind_none, eq_comm, entryAt_eq_none]
        simp
      | some y =>
        simp only [bind_some, Option.some.injEq, forall_eq']
        have hne : x ≠ y := by
          rintro rfl
          have := (lastOf_some hy).2
          simp [kept, hw] at this
        constructor
        · intro heq
          cases hdel : x.deletes with
          | true => exact ⟨rfl, entryAt_eq_none.mp (heq.trans (entryAt_eq_none.mpr hdel))⟩
          | false =>
            -- a live entry would stand at the place of both lines
            exfalso
            cases hdely : y.deletes with
            | true => simp [Located.entryAt, hdel, hdely] at heq
            | false =>
              simp only [Located.entryAt, hdel, hdely, Bool.false_eq_true, if_false,
                Option.some.injEq, IndexEntry.mk.injEq] at heq
              exact hne (located_inj h1 (lastOf_some hx).1 (lastOf_some hy).1 heq.1.symm
                heq.2.1.symm)
        · rintro ⟨hdel, hdely⟩
          rw [entryAt_eq_none.mpr hdel, entryAt_eq_none.mpr hdely]

theorem kept_bucket {id : Nat} (h : LateCommitsHarmless S0 S1 d0 d1 id) (field : String) :
    (lastOf (fun y => y.id == id && kept S0 d0 d1 y) (located S1)).bind (·.line.bucket field) =
      (lastOf (fun x => x.id == id && x.visible d1) (located S1)).bind (·.line.bucket field) := by
  unfold LateCommitsHarmless at h
  have hdel : ∀ x : Located, x.deletes = true → x.line.bucket field = none := by
    intro x hx
    simp only [Located.deletes, beq_iff_eq] at hx
    simp [LogLine.bucket, hx]
  cases hx : lastOf (fun x => x.id == id && x.visible d1) (located S1) with
  | none => rw [lastOf_kept_none hx]
  | some x =>
    rw [hx] at h
    cases hw : withheld S0 d0 x with
    | false => rw [lastOf_kept hx hw]
    | true =>
      simp only [hw, if_true] at h
      obtain ⟨hxdel, hydel⟩ := h
      cases hy : lastOf (fun y => y.id == id && kept S0 d0 d1 y) (located S1) with
      | none => simp [hdel x hxdel]
      | some y => simp [hdel x hxdel, hdel y (hydel y hy)]

theorem located_bucketReplay (field : String) (d : Decisions) (rev : Nat → Option String)
    (xs : List Located) :
    bucketReplay field rev d (xs.map Located.line) =
      replay Located.id (fun x _ => x.line.bucket field) rev (xs.filter (·.visible d)) := by
  unfold bucketReplay
  rw [List.filter_map]
  exact replay_map_actions Located.line LogLine.id _ rev _

/-- A recovered index is the rebuilt one exactly when no transaction committed since the snapshot,
in a covered segment whose coverage lists an applied one, changes what it shows. -/
theorem recovered_eq_rebuild_iff {H : Type} [DecidableEq H] {sha : List Line → H}
    (hsha : Function.Injective sha) {S0 S1 : List Segment} (h0 : Ascending S0) (h1 : Ascending S1)
    {d0 d1 : Decisions} (hd : d1.Extends d0) {epoch0 epoch1 : String} {n : Nat}
    {plan : List (Segment × Nat)}
    (hplan : planReplayFor sha S1 true (snapshotCoverage sha S0 d0 epoch0) n d1 epoch1 = some plan) :
    (replayPlan (Index.rebuild S0 d0) plan d1 = Index.rebuild S1 d1 ∧
      ∀ s : SecondaryIndex, (s.rebuild S0 d0).replayPlan plan d1 = s.rebuild S1 d1) ↔
    ∀ id, LateCommitsHarmless S0 S1 d0 d1 id := by
  have hlines := kept_lines hsha h0 h1 hd hplan
  have hrecovered : replayPlan (Index.rebuild S0 d0) plan d1 =
      replay Located.id IndexEntry.act Index.empty ((located S1).filter (kept S0 d0 d1)) := by
    rw [replayPlan_eq, rebuild_eq h0, replay_filtered, replay_filtered, ← KeyedLog.replay_append,
      hlines]
  have hrebuilt : Index.rebuild S1 d1 =
      replay Located.id IndexEntry.act Index.empty ((located S1).filter (·.visible d1)) := by
    rw [rebuild_eq h1, replay_filtered]
  constructor
  · rintro ⟨heq, -⟩ id
    rw [hrecovered, hrebuilt] at heq
    exact (kept_entry_iff h1 d0 d1 id).mp (congrFun heq id)
  · intro hharm
    refine ⟨?_, fun s => ?_⟩
    · rw [hrecovered, hrebuilt]
      exact funext fun id => (kept_entry_iff h1 d0 d1 id).mpr (hharm id)
    · obtain ⟨hf, hu, hr, hc⟩ := (s.rebuild S0 d0).replayPlan_spec plan d1
      refine SecondaryIndex.eq_of_reverse hf hu ?_ (hc (s.rebuild_consistent S0 d0))
        (s.rebuild_consistent S1 d1)
      rw [hr, s.rebuild_reverse, s.rebuild_reverse, ← located_map_line, ← located_map_line,
        located_bucketReplay, located_bucketReplay, located_bucketReplay]
      have hfield : (s.rebuild S0 d0).field = s.field := rfl
      rw [hfield, ← KeyedLog.replay_append, hlines]
      funext id
      rw [replay_overwrite, replay_overwrite, lastOf_filter, lastOf_filter]
      exact kept_bucket (hharm id) s.field

theorem lateCommitsHarmless_of_none
    (h : ∀ x ∈ located S0, withheld S0 d0 x = true → x.visible d1 = false) (id : Nat) :
    LateCommitsHarmless S0 S1 d0 d1 id := by
  have hkept : ∀ x, kept S0 d0 d1 x = x.visible d1 := by
    intro x
    cases hw : withheld S0 d0 x with
    | false => simp [kept, hw]
    | true =>
      obtain ⟨s, hs, hxs⟩ := List.any_eq_true.mp hw
      simp only [Bool.and_eq_true, decide_eq_true_eq] at hxs
      have := h x (List.mem_flatMap.mpr ⟨s, hs, hxs.1.1⟩) hw
      simp [kept, this]
  unfold LateCommitsHarmless
  cases hx : lastOf (fun x => x.id == id && x.visible d1) (located S1) with
  | none => trivial
  | some x =>
    have hp := (lastOf_some hx).2
    have hw : withheld S0 d0 x = false := by
      have hk := hkept x
      cases hw : withheld S0 d0 x with
      | false => rfl
      | true => simp_all [kept]
    simp only [hw, Bool.false_eq_true, if_false]
    have hfun : kept S0 d0 d1 = fun x => x.visible d1 := funext hkept
    rw [hfun]
    exact Or.inr rfl

def sampleInsert (id : Nat) (tx : Option TxStamp) : Line :=
  { entry := { id := id, op := .insert, ts := Rfc3339.zeroTime, rev := 1,
               data := some [("n", .int id)], epoch := 0, expiresAt := 0 }
    tx := tx, len := 1, len_pos := by decide }

def twoRuns : Segment :=
  { num := 1, lines := [sampleInsert 1 (some ⟨"a", 0, 1⟩), sampleInsert 2 (some ⟨"b", 0, 1⟩)] }

def twoRunsGrown : Segment :=
  { twoRuns with lines := twoRuns.lines ++ [sampleInsert 3 none] }

def secondRun (v : Option Verdict) : Decisions :=
  some fun t => if t = "a" then some .commit else if t = "b" then v else none

theorem secondRun_extends (v : Option Verdict) : (secondRun v).Extends (secondRun none) := by
  intro t w h
  simp only [secondRun, Decisions.get, bind_some] at h ⊢
  split_ifs at h ⊢ with ha
  exact h

/-- The second run aborts after the snapshot and the segment grows: the index is recovered. -/
theorem recovered_after_abort :
    planReplayFor id [twoRunsGrown] true (snapshotCoverage id [twoRuns] (secondRun none) "") 1
      (secondRun (some .abort)) "" = some [(twoRunsGrown, 2)] ∧
    replayPlan (Index.rebuild [twoRuns] (secondRun none)) [(twoRunsGrown, 2)]
      (secondRun (some .abort)) = Index.rebuild [twoRunsGrown] (secondRun (some .abort)) := by
  have hplan : planReplayFor id [twoRunsGrown] true
      (snapshotCoverage id [twoRuns] (secondRun none) "") 1 (secondRun (some .abort)) "" =
      some [(twoRunsGrown, 2)] := by decide
  refine ⟨hplan, ((recovered_eq_rebuild_iff Function.injective_id (by simp [Ascending])
    (by simp [Ascending]) (secondRun_extends _) hplan).mpr ?_).1⟩
  exact lateCommitsHarmless_of_none (by decide)

/-- It commits instead: the coverage is accepted with nothing to replay, and the recovered index
lacks the committed record, which a rebuild has. -/
theorem recovery_misses_late_commit :
    (secondRun (some .commit)).Extends (secondRun none) ∧
    planReplayFor id [twoRuns] true (snapshotCoverage id [twoRuns] (secondRun none) "") 1
      (secondRun (some .commit)) "" = some [] ∧
    replayPlan (Index.rebuild [twoRuns] (secondRun none)) [] (secondRun (some .commit)) 2 = none ∧
    Index.rebuild [twoRuns] (secondRun (some .commit)) 2 = some ⟨1, 1, 1, 0, 0⟩ ∧
    (((SecondaryIndex.empty "n" false).rebuild [twoRuns] (secondRun none)).replayPlan []
      (secondRun (some .commit))).buckets "2" 2 = false ∧
    ((SecondaryIndex.empty "n" false).rebuild [twoRuns] (secondRun (some .commit))).buckets "2" 2 =
      true :=
  ⟨secondRun_extends _, by decide, by decide, by decide, by decide, by decide⟩

end Scriva
