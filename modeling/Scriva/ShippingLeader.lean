import Scriva.ShippingInvariant

namespace Scriva

open ReplicationBroker List Option

variable {s s' : Shipping} {f : Feed Write}

theorem top_of_feed (h : s.feed = some f) : s.top = f.broker.lsn := by
  unfold Shipping.top
  rw [h]
  rfl

theorem resume_of_feed (h : s.feed = some f) : s.resume = s.base := by
  unfold Shipping.resume
  rw [h]
  rfl

section Above

/-- The records above an LSN begin with the next one. -/
theorem above_tail {lsn : Nat} {re : ReplicationEntry Write} {rest : List (ReplicationEntry Write)}
    (hasc : s.records.Pairwise fun a b => a.lsn < b.lsn) (h : s.above lsn = re :: rest) :
    lsn < re.lsn ∧ s.above re.lsn = rest := by
  have hmem : re ∈ s.above lsn := by
    rw [h]
    exact mem_cons_self
  have hlt : lsn < re.lsn := by simpa using (mem_filter.mp hmem).2
  refine ⟨hlt, ?_⟩
  have hsub : s.above re.lsn = (s.above lsn).filter fun r => re.lsn < r.lsn := by
    unfold Shipping.above
    rw [List.filter_filter]
    apply filter_congr
    intro r _
    rw [Bool.eq_iff_iff]
    simp only [decide_eq_true_eq, Bool.and_eq_true]
    omega
  have hpair : (s.above lsn).Pairwise fun a b => a.lsn < b.lsn := hasc.filter _
  rw [h] at hpair
  rw [hsub, h, filter_cons, if_neg (by simp)]
  rw [filter_eq_self]
  intro r hr
  simpa using (pairwise_cons.mp hpair).1 r hr

end Above

/-- A call of the broker, as the leader and its watermark file see it. -/
theorem broker_spec {op : FeedOp Write} {ok : Bool} (h : s.broker op ok = some s') :
    ∃ n f f' high, s.life.node = some n ∧ n.feed = some f ∧
      f.act Write.weight op = some (f', high) ∧ s'.life.node = some { n with feed := some f' } ∧
      s'.life.issued = s.life.issued ++
        (f'.history.drop f.history.length).map (fun re => ⟨re, s.life.floor n⟩) ∧
      s'.life.file = (match high with
        | some v => if ok then ⟨v, n.appliedLSN⟩ else s.life.file
        | none => s.life.file) ∧
      s' = { s with life := s'.life } ∧
      s.life.step Write.weight (.feed op ok) = some s'.life := by
  obtain ⟨life, hlife, rfl⟩ := map_eq_some_iff.mp h
  obtain ⟨n, hn, hstep⟩ := bind_eq_some_iff.mp hlife
  obtain ⟨f, hf, hstep⟩ := bind_eq_some_iff.mp hstep
  obtain ⟨⟨f', high⟩, hact, rfl⟩ := map_eq_some_iff.mp hstep
  refine ⟨n, f, f', high, hn, hf, hact, ?_, ?_, ?_, rfl, hlife⟩
  · cases high <;> rfl
  · cases high <;> rfl
  · cases high <;> rfl

structure Brokered (s s' : Shipping) (f f' : Feed Write) : Prop where
  before : s.feed = some f
  after : s'.feed = some f'
  same : s' = { s with life := s'.life }
  records : s'.records = s.records ++ f'.history.drop f.history.length
  life : LifeInv s'.life
  plain : ∀ n ∈ s'.life.node, n.promotion = none ∧ n.feed.isSome = true
  process : ProcessInv s' f'
  lsn_le : f.broker.lsn ≤ f'.broker.lsn

/-- It keeps the invariant of the process, and appends to the records what it publishes. -/
theorem brokered {op : FeedOp Write} {ok : Bool} (hinv : ShipInv s)
    (hcond : ∀ f ∈ s.feed, op.reserves = true → f.broker.lsn + 1 + lsnReserveBlock < 2 ^ 64 ∧
      (f.broker.reserved ≤ f.broker.lsn → ok = true))
    (h : s.broker op ok = some s') : ∃ f f' high,
      f.act Write.weight op = some (f', high) ∧ Moved f f' high ∧ Brokered s s' f f' := by
  obtain ⟨n, f, f', high, hn, hf, hact, hn', hissued, hfile, hsame, hstep⟩ := broker_spec h
  have hbefore : s.feed = some f := by
    unfold Shipping.feed
    rw [hn]
    exact hf
  have hafter : s'.feed = some f' := by
    unfold Shipping.feed
    rw [hn']
    rfl
  have hc := hcond f hbefore
  have hm := act_moved (fun hop => (hc hop).1) hact
  have hlevel : n.Level f.broker.lsn := by
    intro p hp
    rw [(hinv.plain n hn).1] at hp
    cases hp
  have hlife : LifeInv s'.life := by
    refine life_step hinv.life ?_ hstep
    intro m hm' g hg hop
    rw [hn] at hm'
    cases hm'
    rw [hf] at hg
    cases hg
    exact ⟨(hc hop).1, (hc hop).2, hlevel⟩
  have hpi := hinv.process f hbefore
  have hrecords : s'.records = s.records ++ f'.history.drop f.history.length := by
    unfold Shipping.records
    rw [hissued, map_append, List.map_map]
    congr 1
    exact map_id _
  have hbase : s'.base = s.base := by rw [hsame]
  have hcov := hlife.feed _ f' hn' rfl
  have hlsn : f'.broker.lsn ≤ s'.life.file.leaderLSN := by
    rcases hm.lsn_reserved with heq | hle
    · rcases hm.reserved with ⟨rfl, -⟩ | ⟨rfl, -, hlt⟩
      · rw [heq, hfile]
        exact hpi.lsn_le
      · rw [heq]
        exact (Nat.le_of_lt hlt).trans hcov.reserved
    · exact hle.trans hcov.reserved
  have hnew : f'.history = f.history ++ f'.history.drop f.history.length ∧
      ∀ re ∈ f'.history.drop f.history.length, f.broker.lsn < re.lsn := by
    rcases hm.published with hhist | ⟨⟨body, hhist⟩, hnext, -⟩
    · rw [hhist, drop_length, append_nil]
      exact ⟨rfl, by simp⟩
    · rw [hhist, drop_left]
      refine ⟨rfl, ?_⟩
      intro re hre
      cases mem_singleton.mp hre
      change f.broker.lsn < f'.broker.lsn
      omega
  refine ⟨f, f', high, hact, hm, hbefore, hafter, hsame, hrecords, hlife, ?_, ?_, hm.lsn_le⟩
  · intro m hm'
    rw [hn'] at hm'
    cases hm'
    exact ⟨(hinv.plain n hn).1, rfl⟩
  · refine ⟨act_ring hpi.ring (fun hop => (hc hop).1) hact, hlsn, ?_, ?_, ?_⟩
    · rw [hbase]
      exact hpi.base_le.trans hm.lsn_le
    · obtain ⟨old, hold, hle⟩ := hpi.earlier
      refine ⟨old, ?_, ?_⟩
      · rw [hrecords, hold, append_assoc, ← hnew.1]
      · rw [hbase]
        exact hle
    · intro re hre
      rw [hbase]
      rw [hnew.1] at hre
      rcases mem_append.mp hre with hre | hre
      · exact hpi.later re hre
      · exact Nat.lt_of_le_of_lt hpi.base_le (hnew.2 re hre)

theorem Shipping.Behind.of_eq {t : Shipping} (h : s.Behind) (hfollower : t.follower = s.follower)
    (hresume : t.resume = s.resume) : t.Behind := by
  refine ⟨?_, ?_, ?_⟩
  · rw [hfollower]
    exact h.stream
  · rw [hfollower, hresume]
    exact h.applied
  · rw [hfollower, hresume]
    exact h.inbox

/-- New records are ahead of the follower, so what it holds and has in its inbox stays as it was. -/
theorem FollowerInv.carry (h : FollowerInv s) {more : List (ReplicationEntry Write)}
    {stream : Option (Nat × Nat)} (hfollower : s'.follower = { s.follower with stream := stream })
    (hrecords : s'.records = s.records ++ more)
    (hmore : ∀ re ∈ more, s.follower.appliedLSN < re.lsn) (htop : s.top ≤ s'.top)
    (hstream : ∀ id sent, stream = some (id, sent) →
      ∃ f st, s'.feed = some f ∧ StreamOpen s' f id sent st)
    (hwhole : ∀ w ∈ s'.durable, w ∈ s'.inflight ∨ (∃ re ∈ s'.records, re.body = w) ∨
      w.serial ∈ s.follower.held ∨ s'.Behind) : FollowerInv s' := by
  refine ⟨?_, ?_, ?_, ?_, ?_, ?_⟩
  · rw [hfollower]
    exact h.applied_le.trans htop
  · rw [hfollower]
    exact fun lsn hlsn => (h.watermark_le lsn hlsn).trans htop
  · rw [hfollower, hrecords]
    intro re hre hle
    rcases mem_append.mp hre with hre | hre
    · exact h.held re hre hle
    · exact absurd (hmore re hre) (not_lt.mpr hle)
  · rw [hfollower]
    unfold Shipping.above
    rw [hrecords, filter_append]
    exact h.inbox.trans (prefix_append _ _)
  · rw [hfollower]
    exact hstream
  · rw [hfollower]
    exact hwhole

theorem FollowerInv.of_quiet {f' : Feed Write} (h : FollowerInv s) (hfollower : s'.follower = s.follower)
    (hrecords : s'.records = s.records) (hdurable : s'.durable = s.durable)
    (hinflight : s'.inflight = s.inflight) (htop : s.top ≤ s'.top) (hresume : s'.resume = s.resume)
    (hfeed : s.feed = some f) (hfeed' : s'.feed = some f')
    (hstream : ∀ id st, f.streams id = some st → id ≤ f.broker.subSeq →
      ∃ st', f'.streams id = some st' ∧ Cut f f' id st st' ∧ st.got.length ≤ st'.got.length ∧
        f.broker.subSeq ≤ f'.broker.subSeq) : FollowerInv s' := by
  have habove : ∀ lsn, s'.above lsn = s.above lsn := by
    intro lsn
    unfold Shipping.above
    rw [hrecords]
  refine h.carry hfollower (hrecords.trans (append_nil _).symm) nofun htop ?_ ?_
  · intro id sent hst
    obtain ⟨g, st, hg, hopen⟩ := h.stream id sent hst
    rw [hfeed] at hg
    cases hg
    obtain ⟨st', hst', hcut, hlen, hseq⟩ := hstream id st hopen.registered hopen.known
    refine ⟨f', st', hfeed', hst', hopen.known.trans hseq, hopen.sent_le.trans hlen, ?_, ?_⟩
    · rw [hfollower, habove]
      have hcutp : s.follower.inbox ++ (f'.fed id st').drop sent <+:
          s.follower.inbox ++ (f.fed id st).drop sent :=
        (prefix_append_right_inj _).mpr (hcut.part.drop sent)
      exact hcutp.trans hopen.part
    · intro sub' hsub' hlive'
      obtain ⟨⟨sub, hsub, hlive⟩, hfed⟩ := hcut.live sub' hsub' hlive'
      rw [hfollower, habove, hfed]
      exact hopen.all sub hsub hlive
  · intro w hw
    rw [hdurable] at hw
    rw [hinflight, hrecords]
    exact h.whole_behind hw fun hb => hb.of_eq hfollower hresume

/-- A call that publishes nothing leaves the follower what it was due. -/
theorem quiet_inv {op : FeedOp Write} {ok : Bool} (hinv : ShipInv s)
    (hop : op.isPublish = false)
    (hcond : ∀ f ∈ s.feed, op.reserves = true → f.broker.lsn + 1 + lsnReserveBlock < 2 ^ 64 ∧
      (f.broker.reserved ≤ f.broker.lsn → ok = true))
    (h : s.broker op ok = some s') : ShipInv s' := by
  obtain ⟨f, f', high, hact, hm, hb⟩ := brokered hinv hcond h
  have hrecords : s'.records = s.records := by
    have hhist : f'.history = f.history := by
      cases op with
      | publish body => cases hop
      | reserveNext | resyncBarrier =>
        exact (congrArg (fun p => p.1.history) (Option.some.inj hact)).symm
      | subscribe fromLSN | receive id | consumed id re | unsubscribe id =>
        exact (act_quiet rfl hact).2.1
    rw [hb.records, hhist, drop_length, append_nil]
  have hdurable : s'.durable = s.durable := by rw [hb.same]
  have hinflight : s'.inflight = s.inflight := by rw [hb.same]
  have hbase : s'.base = s.base := by rw [hb.same]
  have hw := hinv.writes
  refine ⟨hb.life, hb.plain, ?_, ?_, ?_⟩
  · intro g hg
    rw [hb.after] at hg
    cases hg
    exact hb.process
  · refine ⟨?_, ?_, ?_, ?_⟩
    · rw [hdurable]
      exact hw.serials
    · rw [hdurable, hinflight]
      exact hw.inflight
    · rw [hinflight]
      exact hw.nodup
    · rw [hrecords, hdurable, hinflight]
      exact hw.published
  · refine hinv.follower.of_quiet (by rw [hb.same]) hrecords hdurable hinflight ?_ ?_ hb.before
      hb.after fun id st hst hid => act_stream hop hst hid hact
    · rw [top_of_feed hb.before, top_of_feed hb.after]
      exact hb.lsn_le
    · rw [resume_of_feed hb.before, resume_of_feed hb.after, hbase]

section Publish

variable {t : Shipping} {w : Write} {i lsn : Nat} {ok : Bool}

theorem WritesInv.publish (h : WritesInv s) (hw : s.inflight[i]? = some w)
    (hrecords : t.records = s.records ++ [⟨lsn, w⟩]) (hdurable : t.durable = s.durable)
    (hinflight : t.inflight = s.inflight.eraseIdx i) : WritesInv t := by
  have hgone : w ∉ s.inflight.eraseIdx i := by
    obtain ⟨hi, rfl⟩ := List.getElem?_eq_some_iff.mp hw
    rw [← h.nodup.erase_getElem]
    exact h.nodup.not_mem_erase
  refine ⟨?_, ?_, ?_, ?_⟩
  · rw [hdurable]
    exact h.serials
  · rw [hdurable, hinflight]
    intro v hv
    exact h.inflight v (mem_of_mem_eraseIdx hv)
  · rw [hinflight]
    exact h.nodup.eraseIdx i
  · rw [hrecords, hdurable, hinflight]
    intro re hre
    rcases Runs.mem_concat hre with hre | rfl
    · obtain ⟨hd, hn⟩ := h.published re hre
      exact ⟨hd, fun hin => hn (mem_of_mem_eraseIdx hin)⟩
    · exact ⟨h.inflight w (mem_of_getElem? hw), hgone⟩

theorem publish_subSeq (f : Feed Write) (w : Write) :
    (f.publish Write.weight w).1.broker.subSeq = f.broker.subSeq := by
  change (f.broker.appendLocked Write.weight w).1.subSeq = _
  unfold appendLocked
  simp only
  rw [evict_frame]
  unfold reserveLocked
  split <;> rfl

/-- An open subscription is fed what is published. -/
theorem StreamOpen.publish {id sent : Nat} {st : Stream Write} (h : StreamOpen s f id sent st)
    (hroom : f.broker.lsn + 1 < 2 ^ 64) (hfollower : t.follower = s.follower)
    (habove : t.above s.follower.appliedLSN =
      s.above s.follower.appliedLSN ++ [⟨f.broker.lsn + 1, w⟩]) :
    StreamOpen t (f.publish Write.weight w).1 id sent st := by
  have hlen : sent ≤ (f.fed id st).length := by
    have hle := h.sent_le
    unfold Feed.fed
    rw [length_append]
    omega
  refine ⟨h.registered, ?_, h.sent_le, ?_, ?_⟩
  · rw [publish_subSeq]
    exact h.known
  · rw [hfollower, habove]
    rcases publish_fed Write.weight w hroom id st with ⟨⟨sub, hsub, hlive⟩, hfed⟩ | ⟨-, hfed⟩
    · rw [hfed, drop_append_of_le_length hlen, ← append_assoc, h.all sub hsub hlive]
    · rw [hfed]
      exact h.part.trans (prefix_append _ _)
  · intro sub' hsub' hlive'
    rw [hfollower, habove]
    rcases publish_fed Write.weight w hroom id st with ⟨⟨sub, hsub, hlive⟩, hfed⟩ | ⟨hdead, -⟩
    · rw [hfed, drop_append_of_le_length hlen, ← append_assoc, h.all sub hsub hlive]
    · rw [hdead sub' hsub'] at hlive'
      cases hlive'

theorem FollowerInv.publish (h : FollowerInv s) (hw : s.inflight[i]? = some w)
    (hroom : f.broker.lsn + 1 < 2 ^ 64) (hfeed : s.feed = some f)
    (hfeed' : t.feed = some (f.publish Write.weight w).1) (hbase : t.base = s.base)
    (hrecords : t.records = s.records ++ [⟨f.broker.lsn + 1, w⟩])
    (hdurable : t.durable = s.durable) (hinflight : t.inflight = s.inflight.eraseIdx i)
    (hfollower : t.follower = s.follower) : FollowerInv t := by
  have htop : s.top ≤ t.top := by
    rw [top_of_feed hfeed, top_of_feed hfeed', publish_lsn Write.weight w hroom]
    exact Nat.le_succ _
  have hle : s.follower.appliedLSN ≤ f.broker.lsn := by
    rw [← top_of_feed hfeed]
    exact h.applied_le
  have habove : t.above s.follower.appliedLSN =
      s.above s.follower.appliedLSN ++ [⟨f.broker.lsn + 1, w⟩] := by
    have hlt : s.follower.appliedLSN < f.broker.lsn + 1 := by omega
    unfold Shipping.above
    rw [hrecords, filter_append]
    simp [hlt]
  refine h.carry hfollower hrecords ?_ htop ?_ ?_
  · intro re hre
    cases mem_singleton.mp hre
    exact Nat.lt_succ_of_le hle
  · intro id sent hst
    obtain ⟨g, st, hg, hopen⟩ := h.stream id sent hst
    rw [hfeed] at hg
    cases hg
    exact ⟨_, st, hfeed', hopen.publish hroom hfollower habove⟩
  · rw [hdurable, hinflight, hrecords]
    intro v hv
    rcases h.whole v hv with hin | ⟨re, hre, hbody⟩ | hheld | hbehind
    · by_cases hvw : v = w
      · exact Or.inr (Or.inl ⟨⟨f.broker.lsn + 1, w⟩, by simp, hvw.symm⟩)
      · refine Or.inl ?_
        obtain ⟨j, hj⟩ := mem_iff_getElem?.mp hin
        rw [mem_eraseIdx_iff_getElem?]
        refine ⟨j, ?_, hj⟩
        intro hji
        rw [hji, hw] at hj
        exact hvw (Option.some.inj hj).symm
    · exact Or.inr (Or.inl ⟨re, mem_append_left _ hre, hbody⟩)
    · exact Or.inr (Or.inr (Or.inl hheld))
    · refine Or.inr (Or.inr (Or.inr (hbehind.of_eq hfollower ?_)))
      rw [resume_of_feed hfeed', hbase, ← resume_of_feed hfeed]

/-- A published write leaves the writes in flight for the records. -/
theorem publish_ship (hinv : ShipInv s) (hw : s.inflight[i]? = some w)
    (hcond : ∀ f ∈ s.feed, f.broker.lsn + 1 + lsnReserveBlock < 2 ^ 64 ∧
      (f.broker.reserved ≤ f.broker.lsn → ok = true))
    (h : s.broker (.publish w) ok = some s') :
    ShipInv { s' with inflight := s'.inflight.eraseIdx i } := by
  obtain ⟨f, f', high, hact, hm, hb⟩ := brokered hinv (fun f hf _ => hcond f hf) h
  have hroom : f.broker.lsn + 1 < 2 ^ 64 := by
    have hlt := (hcond f hb.before).1
    omega
  have hf' : (f.publish Write.weight w).1 = f' := congrArg Prod.fst (Option.some.inj hact)
  subst hf'
  have hrecords : s'.records = s.records ++ [⟨f.broker.lsn + 1, w⟩] := by
    rw [hb.records, publish_history Write.weight w hroom, drop_left]
  have hdurable : s'.durable = s.durable := by rw [hb.same]
  have hinflight : s'.inflight.eraseIdx i = s.inflight.eraseIdx i := by rw [hb.same]
  have hbase : s'.base = s.base := by rw [hb.same]
  have hfollower : s'.follower = s.follower := by rw [hb.same]
  refine ⟨hb.life, hb.plain, ?_, ?_, ?_⟩
  · intro g hg
    have hg' := hb.after.symm.trans hg
    cases hg'
    have hp := hb.process
    exact ⟨hp.ring, hp.lsn_le, hp.base_le, hp.earlier, hp.later⟩
  · exact hinv.writes.publish hw hrecords hdurable hinflight
  · exact hinv.follower.publish hw hroom hb.before hb.after hbase hrecords hdurable hinflight
      hfollower

end Publish

theorem ShipInv.of_writes (hinv : ShipInv s) {durable inflight : List Write}
    {prepared : List TxEnvelope}
    (hw : WritesInv { s with durable := durable, inflight := inflight, prepared := prepared })
    (hwhole : ∀ v ∈ durable, v ∈ inflight ∨ v ∈ s.durable ∧ (v ∈ s.inflight → v ∈ inflight)) :
    ShipInv { s with durable := durable, inflight := inflight, prepared := prepared } := by
  have hfo := hinv.follower
  refine ⟨hinv.life, hinv.plain, ?_, hw, ?_⟩
  · intro f hf
    have hp := hinv.process f hf
    exact ⟨hp.ring, hp.lsn_le, hp.base_le, hp.earlier, hp.later⟩
  · refine hfo.carry rfl (append_nil _).symm nofun (le_refl _) ?_ ?_
    · intro id sent hst
      obtain ⟨f, st, hf, ho⟩ := hfo.stream id sent hst
      exact ⟨f, st, hf, ho.registered, ho.known, ho.sent_le, ho.part, ho.all⟩
    · intro v hv
      rcases hwhole v hv with hin | ⟨hold, hin⟩
      · exact Or.inl hin
      · refine Or.imp_left hin (hfo.whole_behind hold fun hb => ?_)
        exact hb.of_eq rfl rfl

theorem ShipInv.of_prepared (hinv : ShipInv s) (prepared : List TxEnvelope) :
    ShipInv { s with prepared := prepared } :=
  have hw := hinv.writes
  hinv.of_writes ⟨hw.serials, hw.inflight, hw.nodup, hw.published⟩ fun _ hv => Or.inr ⟨hv, id⟩

section Land

variable {body : Committed}

/-- A durable write is in flight until it is published. -/
theorem land_inv (hinv : ShipInv s) (prepared : List TxEnvelope) :
    ShipInv { s.land body with prepared := prepared } := by
  have hw := hinv.writes
  have hnew : (⟨s.durable.length, body⟩ : Write) ∉ s.durable := by
    intro hmem
    have hserial : s.durable.length ∈ s.durable.map Write.serial :=
      mem_map_of_mem hmem
    rw [hw.serials] at hserial
    exact absurd (List.mem_range.mp hserial) (Nat.lt_irrefl _)
  refine hinv.of_writes ?_ ?_
  · refine ⟨?_, ?_, ?_, ?_⟩
    · change (s.durable ++ ([⟨s.durable.length, body⟩] : List Write)).map Write.serial = List.range _
      rw [map_append, hw.serials]
      simp [Shipping.land, range_succ]
    · intro v hv
      rcases mem_append.mp hv with hv | hv
      · exact mem_append_left _ (hw.inflight v hv)
      · exact mem_append_right _ hv
    · refine List.Nodup.append hw.nodup (nodup_singleton _) ?_
      rw [disjoint_singleton]
      exact fun hmem => hnew (hw.inflight _ hmem)
    · intro re hre
      obtain ⟨hd, hn⟩ := hw.published re hre
      refine ⟨mem_append_left _ hd, ?_⟩
      intro hin
      rcases mem_append.mp hin with hin | hin
      · exact hn hin
      · rw [mem_singleton.mp hin] at hd
        exact hnew hd
  · intro v hv
    rcases mem_append.mp hv with hv | hv
    · exact Or.inr ⟨hv, fun hin => mem_append_left _ hin⟩
    · exact Or.inl (mem_append_right _ hv)

end Land

section Restart

variable {life : Lifetime Write}

/-- What was in flight at a stop is below where the next process starts, so the follower is behind.
-/
theorem stop_inv (hinv : ShipInv s) (hfeed : s.feed = some f) (hlife : LifeInv life)
    (hdown : life.node = none) (hissued : life.issued = s.life.issued)
    (hfile : f.broker.lsn ≤ life.file.leaderLSN)
    (hlost : s.inflight ≠ [] → f.broker.lsn < life.file.leaderLSN) : ShipInv (s.stop life) := by
  have hp := hinv.process f hfeed
  have hw := hinv.writes
  have hfo := hinv.follower
  have hnofeed : (s.stop life).feed = none := by
    change life.node.bind ReplNode.feed = none
    rw [hdown]
    rfl
  have hrecords : (s.stop life).records = s.records := by
    change life.issued.map Issue.record = _
    rw [hissued]
    rfl
  have htop : (s.stop life).top = life.file.leaderLSN := by
    unfold Shipping.top
    rw [hnofeed]
    rfl
  have hresume : (s.stop life).resume = life.file.leaderLSN := by
    unfold Shipping.resume
    rw [hnofeed]
    rfl
  have happlied : s.follower.appliedLSN ≤ f.broker.lsn := by
    rw [← top_of_feed hfeed]
    exact hfo.applied_le
  have hinbox : ∀ re ∈ s.follower.inbox, re.lsn ≤ f.broker.lsn := by
    intro re hre
    have hmem := (mem_filter.mp (hfo.inbox.subset hre)).1
    obtain ⟨i, hi, rfl⟩ := mem_map.mp hmem
    obtain ⟨n, hn, hnf⟩ := bind_eq_some_iff.mp hfeed
    exact (hinv.life.feed n f hn hnf).issued i hi
  refine ⟨hlife, ?_, ?_, ?_, ?_⟩
  · intro n hn
    change n ∈ life.node at hn
    rw [hdown] at hn
    cases hn
  · intro g hg
    rw [hnofeed] at hg
    cases hg
  · refine ⟨hw.serials, ?_, nodup_nil, ?_⟩
    · intro v hv
      cases hv
    · rw [hrecords]
      intro re hre
      exact ⟨(hw.published re hre).1, not_mem_nil⟩
  · refine hfo.carry rfl (hrecords.trans (append_nil _).symm) nofun ?_ ?_ ?_
    · rw [htop, top_of_feed hfeed]
      exact hfile
    · intro id sent hst
      cases hst
    · have hbehind : (s.inflight ≠ [] ∨ s.Behind) → (s.stop life).Behind := by
        intro hor
        refine ⟨rfl, ?_, ?_⟩
        · rw [hresume]
          change s.follower.appliedLSN < _
          rcases hor with hne | hb
          · exact Nat.lt_of_le_of_lt happlied (hlost hne)
          · have hlt := hb.applied
            rw [resume_of_feed hfeed] at hlt
            exact Nat.lt_of_lt_of_le hlt (hp.base_le.trans hfile)
        · rw [hresume]
          intro re hre
          rcases hor with hne | hb
          · exact Nat.lt_of_le_of_lt (hinbox re hre) (hlost hne)
          · have hlt := hb.inbox re hre
            rw [resume_of_feed hfeed] at hlt
            exact Nat.lt_of_lt_of_le hlt (hp.base_le.trans hfile)
      rw [hrecords]
      intro v hv
      rcases hfo.whole v hv with hin | hpub | hheld | hb
      · exact Or.inr (Or.inr (Or.inr (hbehind (Or.inl (ne_nil_of_mem hin)))))
      · exact Or.inr (Or.inl hpub)
      · exact Or.inr (Or.inr (Or.inl hheld))
      · exact Or.inr (Or.inr (Or.inr (hbehind (Or.inr hb))))

theorem start_ship {ringSize : Nat} (hinv : ShipInv s) (hring : ringSize ≠ 0)
    (hdown : s.life.node = none) :
    ShipInv { s with
      life := s.life.start ringSize false 0 true
      base := s.life.file.leaderLSN } := by
  have hw := hinv.writes
  have hfo := hinv.follower
  have hnofeed : s.feed = none := by
    unfold Shipping.feed
    rw [hdown]
    rfl
  have hlife : LifeInv (s.life.start ringSize false 0 true) :=
    start_inv hinv.life fun _ h0 => absurd h0 hring
  have hstart : s.life.start ringSize false 0 true = { s.life with node := some {
      feed := some (Feed.opened (restoredBroker ringSize 0 s.life.file.leaderLSN))
      appliedLSN := max s.life.file.appliedLSN 0
      lastLeaderLSN := 0
      role := .leader
      promotion := none
      persists := [] } } := by
    unfold Lifetime.start
    simp only [if_neg hring, Nat.not_lt_zero, if_false, Bool.false_eq_true]
  rw [hstart] at hlife ⊢
  have hlsn : max 0 s.life.file.leaderLSN = s.life.file.leaderLSN := Nat.zero_max _
  have htop : s.top = s.life.file.leaderLSN := by
    unfold Shipping.top
    rw [hnofeed]
    rfl
  have hresume : s.resume = s.life.file.leaderLSN := by
    unfold Shipping.resume
    rw [hnofeed]
    rfl
  refine ⟨hlife, ?_, ?_, ⟨hw.serials, hw.inflight, hw.nodup, hw.published⟩, ?_⟩
  · intro n hn
    cases hn
    exact ⟨rfl, rfl⟩
  · intro f hf
    cases hf
    refine ⟨RingInv.opened _ rfl, Nat.le_of_eq hlsn, Nat.le_of_eq hlsn.symm, ?_, ?_⟩
    · refine ⟨s.records, (append_nil _).symm, ?_⟩
      intro re hre
      obtain ⟨i, hi, rfl⟩ := mem_map.mp hre
      exact hinv.life.covered i hi
    · intro re hre
      cases hre
  · refine hfo.carry rfl (append_nil _).symm nofun ?_ ?_ ?_
    · rw [htop]
      exact Nat.le_of_eq hlsn.symm
    · intro id sent hst
      obtain ⟨f, st, hf, -⟩ := hfo.stream id sent hst
      rw [hnofeed] at hf
      cases hf
    · exact fun v hv => hfo.whole_behind hv fun hb => hb.of_eq rfl hresume.symm

end Restart

end Scriva
