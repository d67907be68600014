import Scriva.SidxWrites

namespace Scriva

open KeyedLog List Option

def Collection.carried (s : Collection) (f : String) (now : Int) (id : Nat) : Option Value :=
  (records s.decisions s.log id).bind fun r =>
    if expired r.expiresAt now then none else (r.data.getD []).get f

def Collection.Distinct (s : Collection) (f : String) (now : Int) : Prop :=
  ∀ i j v, s.carried f now i = some v → s.carried f now j = some v → i = j

section

variable {cfg : Config} {all : Bool} {s s' : Collection} {f : String} {now next : Int} {id : Nat}
  {v : Value}

theorem carried_some : s.carried f now id = some v ↔ ∃ r, records s.decisions s.log id = some r ∧
    expired r.expiresAt now = false ∧ (r.data.getD []).get f = some v := by
  unfold Collection.carried
  rw [bind_eq_some_iff]
  refine exists_congr fun r => and_congr_right fun _ => ?_
  cases expired r.expiresAt now <;> simp

theorem carried_earlier (hle : now ≤ next) (h : s.carried f next id = some v) :
    s.carried f now id = some v := by
  obtain ⟨r, hr, hexp, hv⟩ := carried_some.mp h
  refine carried_some.mpr ⟨r, hr, ?_, hv⟩
  rw [Bool.eq_false_iff] at hexp ⊢
  exact fun h => hexp (expired_later hle h)

theorem Collection.Distinct.later (h : s.Distinct f now) (hle : now ≤ next) :
    s.Distinct f next :=
  fun i j v hi hj => h i j v (carried_earlier hle hi) (carried_earlier hle hj)

theorem SidxInv.conflict (hi : SidxInv cfg all s) {x : SecondaryIndex} (hx : x ∈ s.watched all)
    (hv : s.carried x.field now id = some v) (hacc : acceptsIn x.field v = true) {i : Nat}
    (hne : id ≠ i) : s.sidxConflict x (toIndexKey v) i now = true := by
  obtain ⟨r, hr, hexp, hget⟩ := carried_some.mp hv
  have hthere : (records s.decisions s.log id).isSome = true := by rw [hr]; rfl
  obtain ⟨l, hl, hid⟩ := records_id hthere
  have hmem : id ∈ s.ids := mem_dedup.mpr (hid ▸ mem_map_of_mem hl)
  have hcons : x.Consistent := by
    rw [hi.sidxs x hx]
    exact x.rebuild_consistent _ _
  have hrev : x.reverse id = some (toIndexKey v) := by
    rw [hi.reverse hx, hr]
    simp [bucketKey, hget, hacc]
  have hbucket : x.buckets (toIndexKey v) id = true := by
    rw [hcons, hrev]
    simp
  have hlive : s.live id now = true := by
    have hdead := hi.tracks.deadlines id
    rw [hr] at hdead
    obtain ⟨ix, hix, hexpix⟩ := map_eq_some_iff.mp hdead
    simp [Collection.live, hix, hexpix, hexp]
  refine any_eq_true.mpr ⟨id, hmem, ?_⟩
  simp [hne, hbucket, hlive]

end

/-- Claims of values by ids, each checked against a unique index: no other unexpired record is in
the bucket, and no other id claims it. -/
def Checked (s : Collection) (now : Int) (claim : String → String → Nat → Prop) : Prop :=
  ∀ f key id, claim f key id →
    (∃ x ∈ s.sidxs, x.field = f ∧ x.unique = true ∧ s.sidxConflict x key id now = false) ∧
      ∀ other, claim f key other → id = other

def claimsOf (s : Collection) (ops : List TxOp) (f key : String) (id : Nat) : Prop :=
  ∃ op ∈ ops, op.kind ≠ .delete ∧ op.id = id ∧
    ∃ x ∈ s.sidxs, x.field = f ∧ x.unique = true ∧ bucketKey f op.data = some key

section

variable {cfg : Config} {s s' : Collection} {now : Int}

theorem mem_claims {data : Option Data} {x : SecondaryIndex} {key : String} :
    (x, key) ∈ s.claims data ↔
      x ∈ s.sidxs ∧ x.unique = true ∧ bucketKey x.field data = some key := by
  unfold Collection.claims
  rw [mem_filterMap]
  constructor
  · rintro ⟨y, hy, h⟩
    obtain ⟨hu, h⟩ := ite_none_right_eq_some.mp h
    obtain ⟨k, hk, hp⟩ := map_eq_some_iff.mp h
    cases hp
    exact ⟨hy, hu, hk⟩
  · rintro ⟨hx, hu, hk⟩
    exact ⟨x, hx, by simp [hu, hk]⟩

def Agree (s : Collection) (o o' : TxOp) : Prop :=
  o.kind ≠ .delete → o'.kind ≠ .delete → ∀ p ∈ s.claims o.data, ∀ p' ∈ s.claims o'.data,
    p.1.field = p'.1.field → p.2 = p'.2 → o.id = o'.id

instance (s : Collection) : Std.Symm (Agree s) :=
  ⟨fun _ _ h hk hk' p hp p' hp' hf hv => (h hk' hk p' hp' p hp hf.symm hv.symm).symm⟩

theorem txCheckUnique_spec {claimed : List (String × String × Nat)} {ops : List TxOp}
    (h : s.txCheckUnique now claimed ops = true) :
    (∀ op ∈ ops, op.kind ≠ .delete → ∀ p ∈ s.claims op.data,
      s.sidxConflict p.1 p.2 op.id now = false ∧
        ∀ q ∈ claimed, q.1 = p.1.field → q.2.1 = p.2 → q.2.2 = op.id) ∧
    ops.Pairwise (Agree s) := by
  induction ops generalizing claimed with
  | nil => exact ⟨by simp, List.Pairwise.nil⟩
  | cons op ops ih =>
    unfold Collection.txCheckUnique at h
    by_cases hk : op.kind = .delete
    · rw [if_pos hk] at h
      obtain ⟨hall, hpair⟩ := ih h
      refine ⟨fun o ho hne => ?_, pairwise_cons.mpr ⟨fun o _ hne => (hne hk).elim, hpair⟩⟩
      rcases mem_cons.mp ho with rfl | ho
      · exact (hne hk).elim
      · exact hall o ho hne
    · rw [if_neg hk] at h
      obtain ⟨hmine, h⟩ := Bool.and_eq_true_iff.mp h
      obtain ⟨hall, hpair⟩ := ih h
      refine ⟨fun o ho hne p hp => ?_, pairwise_cons.mpr ⟨fun o ho _ hne p hp p' hp' hf hv => ?_,
        hpair⟩⟩
      · rcases mem_cons.mp ho with rfl | ho
        · obtain ⟨hfree, hq⟩ := Bool.and_eq_true_iff.mp (all_eq_true.mp hmine p hp)
          refine ⟨by simpa using hfree, fun q hqm hqf hqk => ?_⟩
          simpa [hqf, hqk] using all_eq_true.mp hq q hqm
        · obtain ⟨hfree, hq⟩ := hall o ho hne p hp
          exact ⟨hfree, fun q hqm => hq q (mem_append_right _ hqm)⟩
      · have hstaked : (p.1.field, p.2, op.id) ∈
            (s.claims op.data).map (fun p => (p.1.field, p.2, op.id)) ++ claimed :=
          mem_append_left _ (mem_map_of_mem (f := fun p => (p.1.field, p.2, op.id)) hp)
        exact (hall o ho hne p' hp').2 _ hstaked hf hv

theorem txCheckUnique_checked {ops : List TxOp} (h : s.txCheckUnique now [] ops = true) :
    Checked s now (claimsOf s ops) := by
  obtain ⟨hfree, hpair⟩ := txCheckUnique_spec h
  have hagree : ∀ o ∈ ops, ∀ o' ∈ ops, Agree s o o' := fun o ho o' ho' =>
    hpair.forall_of_forall (fun _ _ _ _ _ _ _ _ _ _ => rfl) ho ho'
  rintro f key id ⟨op, hop, hk, rfl, x, hx, rfl, hu, hkey⟩
  have hp : (x, key) ∈ s.claims op.data := mem_claims.mpr ⟨hx, hu, hkey⟩
  refine ⟨⟨x, hx, rfl, hu, (hfree op hop hk _ hp).1⟩, ?_⟩
  rintro other ⟨o, ho, hko, rfl, y, hy, hyf, hyu, hykey⟩
  refine hagree op hop o ho hk hko (x, key) hp (y, key) (mem_claims.mpr ⟨hy, hyu, ?_⟩) hyf.symm rfl
  rw [hyf]
  exact hykey

theorem sidxCheckUnique_checked {id : Nat} {data : Option Data} {op : TxOp}
    (hk : op.kind ≠ .delete) (hid : op.id = id) (hdata : op.data = data)
    (h : s.sidxCheckUnique id data now = true) : Checked s now (claimsOf s [op]) := by
  refine txCheckUnique_checked ?_
  subst hid hdata
  simp only [Collection.txCheckUnique, if_neg hk, all_nil, Bool.and_true]
  exact h

theorem distinct_of_origin {claim : String → String → Nat → Prop} {f : String}
    (hi : SidxInv cfg false s) (hd : s.Distinct f now) (hc : Checked s now claim)
    (ho : ∀ id v, s'.carried f now id = some v → acceptsIn f v = true ∧
      (claim f (toIndexKey v) id ∨ s.carried f now id = some v)) : s'.Distinct f now := by
  -- a claim excludes that another record held the value before
  have hexcl : ∀ i j v, acceptsIn f v = true → claim f (toIndexKey v) i →
      s.carried f now j = some v → j = i := by
    intro i j v hacc hclaim hv
    obtain ⟨⟨x, hx, rfl, hu, hfree⟩, -⟩ := hc f _ i hclaim
    by_contra hne
    have hx : x ∈ s.watched false := mem_filter.mpr ⟨hx, by simpa using hu⟩
    rw [hi.conflict hx hv hacc hne] at hfree
    cases hfree
  intro i j v hvi hvj
  obtain ⟨hacc, hvi⟩ := ho i v hvi
  rcases hvi with hci | hvi <;> rcases (ho j v hvj).2 with hcj | hvj
  · exact (hc f _ i hci).2 j hcj
  · exact (hexcl i j v hacc hci hvj).symm
  · exact hexcl j i v hacc hcj hvi
  · exact hd i j v hvi hvj

end

end Scriva
