import Scriva.ShippingLeader

namespace Scriva

open ReplicationBroker List Option

variable {s s' : Shipping} {f : Feed Write}

section Reading

theorem ShipInv.of_follower {fo : Follower} (hinv : ShipInv s)
    (hfo : FollowerInv { s with follower := fo }) : ShipInv { s with follower := fo } := by
  have hw := hinv.writes
  refine ⟨hinv.life, hinv.plain, ?_, ⟨hw.serials, hw.inflight, hw.nodup, hw.published⟩, hfo⟩
  intro f hf
  have hp := hinv.process f hf
  exact ⟨hp.ring, hp.lsn_le, hp.base_le, hp.earlier, hp.later⟩

theorem records_ascending (hinv : ShipInv s) : s.records.Pairwise fun a b => a.lsn < b.lsn :=
  pairwise_map.mpr hinv.life.ascending

theorem connect_inv (hinv : ShipInv s) (hroom : ∀ f ∈ s.feed, f.broker.lsn + 1 < 2 ^ 64)
    (h : s.connect = some s') : ShipInv s' := by
  obtain ⟨f, hf, h⟩ := bind_eq_some_iff.mp h
  obtain ⟨s1, h1, rfl⟩ := map_eq_some_iff.mp h
  have hmid : ShipInv s1 := quiet_inv hinv rfl (fun _ _ hres => by cases hres) h1
  obtain ⟨g, f', high, hact, -, hb⟩ := brokered hinv (fun _ _ hres => by cases hres) h1
  cases hf.symm.trans hb.before
  obtain ⟨g, hg, heq⟩ := map_eq_some_iff.mp hact
  cases heq
  obtain ⟨hold, hf'⟩ := subscribe_spec hg
  have hfo := hinv.follower
  have hfollower : s1.follower = s.follower := by rw [hb.same]
  have hp := hinv.process f hf
  have hle : s.follower.appliedLSN ≤ f.broker.lsn := by
    rw [← top_of_feed hf]
    exact hfo.applied_le
  have hlt := hroom f hf
  have hbacklog := backlog_eq_due hp.ring hle hlt hold
  have hbase : s.base ≤ s.follower.appliedLSN := by
    rw [wrap64_of_lt (by omega)] at hold
    unfold oldest at hold
    split at hold
    next =>
      rw [wrap64_of_lt hlt] at hold
      have hb := hp.base_le
      omega
    next hne =>
      have hmem : f.broker.ring.read 0 ∈ f.broker.ring.toList := by
        rw [f.broker.ring.toList_eq_cons (Nat.pos_of_ne_zero hne)]
        exact mem_cons_self
      have hlater := hp.later _ (hp.ring.retained.subset hmem)
      omega
  have habove : s1.above s.follower.appliedLSN = f.due s.follower.appliedLSN := by
    obtain ⟨old, hrec, hlow⟩ := hp.earlier
    have hrec1 : s1.records = old ++ f.history := by
      rw [hb.records, hf', hrec]
      simp
    unfold Shipping.above Feed.due
    rw [hrec1, filter_append]
    have hnil : (old.filter fun re => s.follower.appliedLSN < re.lsn) = [] := by
      rw [filter_eq_nil_iff]
      intro re hre
      have hle := hlow re hre
      simp only [decide_eq_true_eq]
      omega
    rw [hnil, nil_append]
  have hmfo := hmid.follower
  refine hmid.of_follower ⟨hmfo.applied_le, hmfo.watermark_le, hmfo.held, nil_prefix, ?_, ?_⟩
  · intro id sent hst
    cases hst
    have hst' : f'.streams (f.broker.subSeq + 1) = some ⟨s.follower.appliedLSN, f.history.length,
        f.broker.ring.toList.filter fun re => s.follower.appliedLSN < re.lsn⟩ := by
      rw [hf']
      exact if_pos rfl
    have hfed : f'.fed (f.broker.subSeq + 1) ⟨s.follower.appliedLSN, f.history.length,
        f.broker.ring.toList.filter fun re => s.follower.appliedLSN < re.lsn⟩ =
        s1.above s1.follower.appliedLSN := by
      rw [hf', hfollower, habove, ← hbacklog]
      simp [Feed.fed, Feed.pending]
    refine ⟨f', _, hb.after, hst', ?_, Nat.zero_le _, ?_, ?_⟩
    · rw [hf']
    · rw [hfed]
      exact prefix_refl _
    · intro _ _ _
      rw [hfed]
      rfl
  · refine fun w hw => hmfo.whole_behind hw fun hbehind => ?_
    have hlow := hbehind.applied
    rw [resume_of_feed hb.after, hfollower] at hlow
    have hbase1 : s1.base = s.base := by rw [hb.same]
    omega

theorem send_inv (hinv : ShipInv s) (h : s.send = some s') : ShipInv s' := by
  obtain ⟨f, hf, h⟩ := bind_eq_some_iff.mp h
  obtain ⟨⟨id, sent⟩, hst, h⟩ := bind_eq_some_iff.mp h
  obtain ⟨st, hstream, h⟩ := bind_eq_some_iff.mp h
  obtain ⟨re, hre, rfl⟩ := map_eq_some_iff.mp h
  have hfo := hinv.follower
  obtain ⟨g, st', hg, ho⟩ := hfo.stream id sent hst
  rw [hf] at hg
  cases hg
  have hreg := ho.registered
  rw [hstream] at hreg
  cases hreg
  have hlt : sent < st.got.length := (List.getElem?_eq_some_iff.mp hre).1
  have hfed : s.follower.inbox ++ (f.fed id st).drop sent =
      s.follower.inbox ++ [re] ++ (f.fed id st).drop (sent + 1) := by
    have hnext : (f.fed id st)[sent]? = some re := by
      unfold Feed.fed
      rw [List.getElem?_append_left hlt]
      exact hre
    obtain ⟨hlen, hhead⟩ := List.getElem?_eq_some_iff.mp hnext
    rw [drop_eq_getElem_cons hlen, hhead, append_assoc]
    rfl
  have hpart := ho.part
  rw [hfed] at hpart
  refine hinv.of_follower ⟨hfo.applied_le, hfo.watermark_le, hfo.held, ?_, ?_, ?_⟩
  · exact (prefix_append _ _).trans hpart
  · intro id' sent' heq
    cases heq
    refine ⟨f, st, hf, ho.registered, ho.known, hlt, hpart, ?_⟩
    intro sub hsub hlive
    have hall := ho.all sub hsub hlive
    rw [hfed] at hall
    exact hall
  · refine fun w hw => hfo.whole_behind hw fun hbehind => ?_
    rw [hbehind.stream] at hst
    cases hst

theorem apply_inv {fo : Follower} (hinv : ShipInv s) (h : s.follower.apply = some fo) :
    ShipInv { s with follower := fo } := by
  have hfo := hinv.follower
  unfold Follower.apply at h
  split at h
  next => cases h
  next re inbox hinbox =>
    have hpre := hfo.inbox
    rw [hinbox] at hpre
    obtain ⟨rest, hrest⟩ := hpre
    obtain ⟨hlt, htail⟩ := above_tail (records_ascending hinv) hrest.symm
    have hmem : re ∈ s.records := by
      have hin : re ∈ s.above s.follower.appliedLSN := by
        rw [← hrest]
        exact mem_cons_self
      exact (mem_filter.mp hin).1
    split at h
    next hle => omega
    next =>
      cases h
      refine hinv.of_follower ⟨?_, hfo.watermark_le, ?_, ?_, ?_, ?_⟩
      · obtain ⟨i, hi, rfl⟩ := mem_map.mp hmem
        change i.record.lsn ≤ s.top
        cases hf : s.feed with
        | some f =>
          obtain ⟨n, hn, hnf⟩ := bind_eq_some_iff.mp hf
          rw [top_of_feed hf]
          exact (hinv.life.feed n f hn hnf).issued i hi
        | none =>
          unfold Shipping.top
          rw [hf]
          exact hinv.life.covered i hi
      · intro r hr hlow
        change r.lsn ≤ re.lsn at hlow
        by_cases hold : r.lsn ≤ s.follower.appliedLSN
        · exact mem_append_left _ (hfo.held r hr hold)
        · have hin : r ∈ s.above s.follower.appliedLSN :=
            mem_filter.mpr ⟨hr, by simpa using hold⟩
          rw [← hrest] at hin
          rcases mem_cons.mp hin with rfl | hin
          · exact mem_append_right _ mem_cons_self
          · have hgt : r ∈ s.above re.lsn := by
              rw [htail]
              exact hin
            have hlt' : re.lsn < r.lsn := by simpa using (mem_filter.mp hgt).2
            omega
      · change inbox <+: s.above re.lsn
        rw [htail]
        exact ⟨rest, rfl⟩
      · intro id sent hst
        obtain ⟨f, st, hf, ho⟩ := hfo.stream id sent hst
        have hpart := ho.part
        rw [hinbox, ← hrest] at hpart
        have hcons : inbox ++ (f.fed id st).drop sent <+: inbox ++ rest :=
          (cons_prefix_cons.mp hpart).2
        refine ⟨f, st, hf, ho.registered, ho.known, ho.sent_le, ?_, ?_⟩
        · change inbox ++ _ <+: s.above re.lsn
          rw [htail]
          exact hcons
        · intro sub hsub hlive
          have hall := ho.all sub hsub hlive
          rw [hinbox, ← hrest] at hall
          change inbox ++ _ = s.above re.lsn
          rw [htail]
          exact (List.cons.inj hall).2
      · intro w hw
        rcases hfo.whole w hw with hin | hpub | hheld | hbehind
        · exact Or.inl hin
        · exact Or.inr (Or.inl hpub)
        · exact Or.inr (Or.inr (Or.inl (mem_append_left _ hheld)))
        · have hbox := hbehind.inbox
          rw [hinbox] at hbox
          refine Or.inr (Or.inr (Or.inr ⟨hbehind.stream, hbox re mem_cons_self, ?_⟩))
          intro r hr
          exact hbox r (mem_cons_of_mem _ hr)

theorem snapshot_inv (hinv : ShipInv s) (h : s.snapshot = some s') : ShipInv s' := by
  obtain ⟨f, -, h⟩ := bind_eq_some_iff.mp h
  obtain ⟨lsn, hlsn, rfl⟩ := map_eq_some_iff.mp h
  have hheld : ∀ w ∈ s.durable, w ∉ s.inflight →
      w.serial ∈ (s.durable.filter fun w => w ∉ s.inflight).map Write.serial := by
    intro w hw hn
    exact mem_map_of_mem (mem_filter.mpr ⟨hw, by simpa using hn⟩)
  refine hinv.of_follower ⟨hinv.follower.watermark_le lsn hlsn, ?_, ?_, nil_prefix, ?_, ?_⟩
  · intro l hl
    cases hl
  · intro re hre _
    obtain ⟨hd, hn⟩ := hinv.writes.published re hre
    exact hheld re.body hd hn
  · intro id sent hst
    cases hst
  · intro w hw
    by_cases hin : w ∈ s.inflight
    · exact Or.inl hin
    · exact Or.inr (Or.inr (Or.inl (hheld w hw hin)))

theorem readWatermark_inv (hinv : ShipInv s) (hf : s.feed = some f) :
    ShipInv { s with follower := { s.follower with watermark := some f.broker.lsn } } := by
  have hfo := hinv.follower
  refine hinv.of_follower ⟨hfo.applied_le, ?_, hfo.held, hfo.inbox, ?_, ?_⟩
  · intro lsn hl
    cases hl
    exact Nat.le_of_eq (top_of_feed hf).symm
  · intro id sent hst
    obtain ⟨g, st, hg, ho⟩ := hfo.stream id sent hst
    exact ⟨g, st, hg, ho.registered, ho.known, ho.sent_le, ho.part, ho.all⟩
  · exact fun w hw => hfo.whole_behind hw fun hb => ⟨hb.stream, hb.applied, hb.inbox⟩

end Reading

end Scriva
