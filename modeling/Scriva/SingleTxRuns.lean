import Scriva.HandleOwnership

namespace Scriva.Handles

open List Option

variable {s t u : Server} {n m : Nat} {id : HandleID} {caller : Caller} {rpc r : Rpc} {ttl : Int}
  {log es : List Event} {e : Event} {ops : List TxOp} {p : Phase}

def Event.closes : Event → Option HandleID
  | .passed _ id _ => some id
  | .rolledBack id => some id
  | _ => none

structure Once (s : Server) : Prop where
  one : ∀ {n m : Nat} {r r' : Rpc} {id : HandleID}, s.rpcs[n]? = some r → s.rpcs[m]? = some r' →
    r.phase.engaged = some id → r'.phase.engaged = some id → n = m
  closed : ∀ {e id}, e ∈ s.log → e.closes = some id → id ∈ s.issued ∧ id ∉ s.txs ∧
    ∀ {n : Nat} {r : Rpc}, s.rpcs[n]? = some r → r.phase.engaged ≠ some id
  once : s.log.Pairwise fun a b => ∀ id, a.closes = some id → b.closes ≠ some id

theorem engaged_cases (h : p.engaged = some id) : p.ending = some id ∨ p.over = some id := by
  rcases Option.or_eq_some_iff.mp h with h | h
  · exact Or.inl h
  · exact Or.inr h.2

theorem engaged_of_over (h : p.over = some id) : p.engaged = some id := by
  cases p <;> first | exact h | cases h

theorem Phase.Fits.over (hf : p.Fits s) (h : p.over = some id) : id ∈ s.issued ∧ id ∉ s.txs := by
  cases p with
  | removed i ops | forgotten i ops => cases h; exact ⟨hf.1, hf.2.2⟩
  | _ => cases h

theorem Once.next (h : Once s) (hp : Placed s) (he : Evolves s t) (hm : Moved s t n rpc)
    (es : List Event) (hlog : t.log = s.log ++ es)
    (heng : ∀ id, rpc.phase.engaged = some id →
      (∃ r, s.rpcs[n]? = some r ∧ r.phase.engaged = some id) ∨
      id ∈ s.txs ∧ ∀ r ∈ s.rpcs, r.phase.ending ≠ some id)
    (hes : ∀ e ∈ es, ∀ id, e.closes = some id → rpc.phase.engaged = none ∧
      ∃ r, s.rpcs[n]? = some r ∧ r.phase.over = some id)
    (honce : es.Pairwise fun a b => ∀ id, a.closes = some id → b.closes ≠ some id) : Once t := by
  have hother : ∀ {m r id}, m ≠ n → s.rpcs[m]? = some r → r.phase.engaged = some id →
      rpc.phase.engaged ≠ some id := by
    intro m r id hne hmr hr hc
    rcases heng id hc with ⟨r', hn, hr'⟩ | ⟨hopen, hnone⟩
    · exact hne (h.one hmr hn hr hr')
    · rcases engaged_cases hr with hend | hover
      · exact hnone r (mem_of_getElem? hmr) hend
      · exact ((hp.fits hmr).over hover).2 hopen
  refine ⟨fun {k l r r' id} hk hl hrk hrl => ?_, fun {e id} hmem hc => ?_, ?_⟩
  · rcases (hm k r).mp hk with ⟨rfl, rfl⟩ | ⟨hkn, hk⟩ <;>
      rcases (hm l r').mp hl with ⟨rfl, rfl⟩ | ⟨hln, hl⟩
    · rfl
    · exact absurd hrk (hother hln hl hrl)
    · exact absurd hrl (hother hkn hk hrk)
    · exact h.one hk hl hrk hrl
  · rw [hlog] at hmem
    rcases mem_append.mp hmem with hmem | hmem
    · obtain ⟨hi, ho, hnone⟩ := h.closed hmem hc
      refine ⟨he.issued id hi, fun hx => ho (he.txs id hi hx), fun {m r} hmr => ?_⟩
      rcases (hm m r).mp hmr with ⟨-, rfl⟩ | ⟨-, hmr⟩
      · intro hr
        rcases heng id hr with ⟨r', hn, hr'⟩ | ⟨hopen, -⟩
        · exact hnone hn hr'
        · exact ho hopen
      · exact hnone hmr
    · obtain ⟨hfree, r', hn, hover⟩ := hes e hmem id hc
      obtain ⟨hi, ho⟩ := (hp.fits hn).over hover
      refine ⟨he.issued id hi, fun hx => ho (he.txs id hi hx), fun {m r} hmr => ?_⟩
      rcases (hm m r).mp hmr with ⟨-, rfl⟩ | ⟨hne, hmr⟩
      · simp [hfree]
      · exact fun hr => hne (h.one hmr hn hr (engaged_of_over hover))
  · rw [hlog, pairwise_append]
    refine ⟨h.once, honce, fun a ha b hb id hca hcb => ?_⟩
    obtain ⟨-, r', hn, hover⟩ := hes b hb id hcb
    exact (h.closed ha hca).2.2 hn (engaged_of_over hover)

/-- A commit or rollback finds its handle only while no other one is on its way to remove it. -/
def Act.EndSound (s : Server) : Act → Prop
  | .call _ _ (.stage _ _) => True
  | .call _ id .commit => id ∈ s.txs → ∀ r ∈ s.rpcs, r.phase.ending ≠ some id
  | .call _ id .rollback => id ∈ s.txs → ∀ r ∈ s.rpcs, r.phase.ending ≠ some id
  | _ => True

theorem Once.found (h : Once s) (hp : Placed s) {job : Job} (hid : id ∈ s.txs)
    (hok : (Act.call caller id job).EndSound s) :
    Once ({ s with log := s.log ++ job.begins s.rpcs.length id }.arrive caller (.found job id)) := by
  refine h.next hp (.same rfl rfl rfl) (moved_arrive rfl caller _) _ rfl
    (fun i hi => ?_) (fun e he i hc => ?_) ?_
  · cases job with
    | stage collection op => cases hi
    | commit | rollback => cases hi; exact Or.inr ⟨hid, hok hid⟩
  · cases job with
    | commit => cases mem_singleton.mp he; cases hc
    | stage collection op => cases he
    | rollback => cases he
  · cases job with
    | commit => exact pairwise_singleton _ _
    | stage collection op | rollback => exact List.Pairwise.nil

theorem Once.idle (h : Once s) (hp : Placed s) (he : Evolves s t) (hm : Moved s t n rpc)
    (hlog : t.log = s.log) (hfree : rpc.phase.engaged = none) : Once t :=
  h.next hp he hm [] (by rw [hlog, append_nil]) (fun i hi => by simp [hfree] at hi) nofun
    List.Pairwise.nil

theorem Once.fewer (h : Once s) (hf : Fewer s t) (hr : t.rpcs = s.rpcs) (hl : t.log = s.log) :
    Once t := by
  refine ⟨fun hn hm => h.one (hr ▸ hn) (hr ▸ hm), fun he hc => ?_, hl ▸ h.once⟩
  obtain ⟨hi, ho, hnone⟩ := h.closed (hl ▸ he) hc
  exact ⟨hf.issued ▸ hi, fun hx => ho (hf.txs _ hx), fun hn => hnone (hr ▸ hn)⟩

theorem once_step {a : Act} (h : Once s) (hp : Placed s) (hok : a.EndSound s)
    (hs : s.step ttl a = some t) : Once t := by
  cases step_cases hp.toRegistered hs with
  | reaped fewer rpcs log => exact h.fewer fewer rpcs log
  | opened opens => exact h.idle hp opens.evolves (moved_arrive opens.rpcs _ _) opens.log rfl
  | found hid => exact h.found hp hid hok
  | idle idle => exact h.idle hp (.same rfl rfl rfl) (moved_arrive rfl _ _) rfl idle.engaged
  | @moved n now ok caller p p' u hn hu =>
    have hm := moved_move hu.rpcs hn caller p'
    rcases hu.log with hq | ⟨collection, op, id, rfl, rfl, hlog, -⟩ |
      ⟨id, ops, reply, rfl, rfl, hlog, -⟩ | ⟨id, rfl, rfl, hlog, -⟩
    · refine h.next hp hu.evolves hm [] (by rw [hq.log, append_nil])
        (fun i hi => Or.inl ⟨_, hn, hq.engaged i hi⟩) (forall_mem_nil _) .nil
    · refine h.next hp hu.evolves hm _ hlog nofun (fun e he i hc => ?_) (pairwise_singleton _ _)
      cases mem_singleton.mp he
      cases hc
    · refine h.next hp hu.evolves hm _ hlog nofun (fun e he i hc => ?_) (pairwise_singleton _ _)
      cases mem_singleton.mp he
      cases hc
      exact ⟨rfl, _, hn, rfl⟩
    · refine h.next hp hu.evolves hm _ hlog nofun (fun e he i hc => ?_) (pairwise_singleton _ _)
      cases mem_singleton.mp he
      cases hc
      exact ⟨rfl, _, hn, rfl⟩

def stagedOps (id : HandleID) (log : List Event) : List TxOp :=
  log.filterMap fun
    | .staged i op => if i = id then some op else none
    | _ => none

def Covers (log : List Event) (n : Nat) (id : HandleID) (ops : List TxOp) : Prop :=
  ∀ l₀ l₁, log = l₀ ++ .began n id :: l₁ → stagedOps id l₀ <+: ops

theorem stagedOps_append (id : HandleID) (l₁ l₂ : List Event) :
    stagedOps id (l₁ ++ l₂) = stagedOps id l₁ ++ stagedOps id l₂ :=
  filterMap_append

theorem stagedOps_other (e : Event) (h : ∀ op, e ≠ .staged id op) : stagedOps id [e] = [] := by
  cases e with
  | staged i op =>
    have hne : i ≠ id := fun he => h op (by rw [he])
    simp [stagedOps, hne]
  | _ => rfl

theorem covers_stagedOps (log : List Event) (n : Nat) (id : HandleID) :
    Covers log n id (stagedOps id log) := by
  intro l₀ l₁ h
  rw [h, stagedOps_append]
  exact prefix_append _ _

theorem Covers.append (h : Covers log n id ops) (hne : e ≠ .began n id) :
    Covers (log ++ [e]) n id ops := by
  intro l₀ l₁ hl
  rcases eq_nil_or_concat l₁ with rfl | ⟨l, x, rfl⟩
  · have hlast := (append_inj' hl rfl).2
    cases hlast
    contradiction
  · have hl' : log ++ [e] = (l₀ ++ .began n id :: l) ++ [x] := by simpa using hl
    exact h l₀ l (append_inj' hl' rfl).1

structure Whole (s : Server) : Prop where
  buffer : ∀ id, (s.tx id).ops = stagedOps id s.log
  staged : ∀ {id op}, .staged id op ∈ s.log → id ∈ s.issued
  numbered : ∀ {n id}, .began n id ∈ s.log → n < s.rpcs.length
  taken : ∀ {n r id ops}, s.rpcs[n]? = some r → r.phase.taken = some (id, ops) →
    Covers s.log n id ops
  passed : ∀ {n id ops}, .passed n id ops ∈ s.log → n < s.rpcs.length ∧ Covers s.log n id ops

theorem Whole.next (h : Whole s) (hm : Moved s t n rpc) (hlen : s.rpcs.length ≤ t.rpcs.length)
    (hbuf : ∀ id, (t.tx id).ops = stagedOps id t.log)
    (hstaged : ∀ id op, .staged id op ∈ t.log → id ∈ t.issued)
    (hnum : ∀ m id, .began m id ∈ t.log → .began m id ∈ s.log ∨ m < t.rpcs.length)
    (hkeep : ∀ m id ops, m < s.rpcs.length → Covers s.log m id ops → Covers t.log m id ops)
    (htaken : ∀ id ops, rpc.phase.taken = some (id, ops) → Covers t.log n id ops)
    (hpassed : ∀ m id ops, .passed m id ops ∈ t.log →
      .passed m id ops ∈ s.log ∨ m < t.rpcs.length ∧ Covers t.log m id ops) : Whole t := by
  refine ⟨hbuf, fun hi => hstaged _ _ hi, fun {m id} hmem => ?_, fun {m r id ops} hmr htk => ?_,
    fun {m id ops} hmem => ?_⟩
  · rcases hnum m id hmem with hmem | hlt
    · exact Nat.lt_of_lt_of_le (h.numbered hmem) hlen
    · exact hlt
  · rcases (hm m r).mp hmr with ⟨rfl, rfl⟩ | ⟨-, hmr⟩
    · exact htaken id ops htk
    · exact hkeep m id ops (List.getElem?_eq_some_iff.mp hmr).1 (h.taken hmr htk)
  · rcases hpassed m id ops hmem with hmem | hnew
    · obtain ⟨hlt, hc⟩ := h.passed hmem
      exact ⟨Nat.lt_of_lt_of_le hlt hlen, hkeep m id ops hlt hc⟩
    · exact hnew

theorem Whole.quiet (h : Whole s) (hm : Moved s t n rpc) (hlen : s.rpcs.length ≤ t.rpcs.length)
    (hlog : t.log = s.log) (hissued : ∀ id ∈ s.issued, id ∈ t.issued)
    (hbuf : ∀ id, (t.tx id).ops = stagedOps id s.log)
    (htaken : ∀ id ops, rpc.phase.taken = some (id, ops) → Covers s.log n id ops) : Whole t := by
  refine h.next hm hlen ?_ ?_ ?_ ?_ ?_ ?_
  · rw [hlog]; exact hbuf
  · rw [hlog]; exact fun id op hi => hissued id (h.staged hi)
  · rw [hlog]; exact fun m id hmem => Or.inl hmem
  · rw [hlog]; exact fun _ _ _ _ hc => hc
  · rw [hlog]; exact htaken
  · rw [hlog]; exact fun m id ops hmem => Or.inl hmem

theorem arrive_length (h : u.rpcs = s.rpcs) :
    s.rpcs.length < (u.arrive caller p).rpcs.length := by
  simp [Server.arrive, h]

theorem Whole.opened (h : Whole s) {kind : Kind} (ho : Opens s u kind id) :
    Whole (u.arrive caller (.beginning kind id)) := by
  refine h.quiet (moved_arrive ho.rpcs caller _) (arrive_length ho.rpcs).le ho.log ho.evolves.issued
    (fun i => ?_) nofun
  show (u.tx i).ops = _
  rcases ho.tx i with he | ⟨rfl, hempty⟩
  · rw [he, h.buffer]
  · rw [hempty, eq_comm]
    refine filterMap_eq_nil_iff.mpr fun e hmem => ?_
    cases e with
    | staged j op =>
      have hne : j ≠ i := fun hj => ho.new (hj ▸ h.staged hmem)
      simp [hne]
    | _ => rfl

theorem Whole.event (h : Whole s) (hm : Moved s t n rpc) (hlen : s.rpcs.length ≤ t.rpcs.length)
    (hlog : t.log = s.log ++ [e])
    (hbuf : ∀ id, (t.tx id).ops = stagedOps id t.log)
    (hstaged : ∀ id op, e = .staged id op → id ∈ t.issued)
    (hissued : ∀ id ∈ s.issued, id ∈ t.issued)
    (hbegan : ∀ m id, e = .began m id → m = s.rpcs.length ∧ m < t.rpcs.length)
    (hfree : rpc.phase.taken = none)
    (hpassed : ∀ m id ops, e = .passed m id ops → m < t.rpcs.length ∧ Covers s.log m id ops) :
    Whole t := by
  refine h.next hm hlen hbuf ?_ ?_ ?_ (fun id ops hc => by simp [hfree] at hc) ?_
  · intro id op hmem
    rw [hlog] at hmem
    rcases mem_append.mp hmem with hmem | hmem
    · exact hissued id (h.staged hmem)
    · exact hstaged id op (mem_singleton.mp hmem).symm
  · intro m id hmem
    rw [hlog] at hmem
    rcases mem_append.mp hmem with hmem | hmem
    · exact Or.inl hmem
    · exact Or.inr (hbegan m id (mem_singleton.mp hmem).symm).2
  · intro m id ops hlt hc
    rw [hlog]
    refine hc.append fun he => ?_
    have heq := (hbegan m id he).1
    omega
  · intro m id ops hmem
    rw [hlog] at hmem
    rcases mem_append.mp hmem with hmem | hmem
    · exact Or.inl hmem
    · have he := (mem_singleton.mp hmem).symm
      obtain ⟨hlt, hc⟩ := hpassed m id ops he
      rw [hlog]
      exact Or.inr ⟨hlt, hc.append (by rw [he]; exact nofun)⟩

theorem Whole.found (h : Whole s) {job : Job} :
    Whole ({ s with log := s.log ++ job.begins s.rpcs.length id }.arrive caller (.found job id)) := by
  have hidle : Whole (({ s with log := s.log ++ [] } : Server).arrive caller (.found job id)) :=
    h.quiet (moved_arrive rfl caller _) (arrive_length rfl).le (append_nil s.log)
      (fun _ hi => hi) h.buffer nofun
  cases job with
  | stage collection op => exact hidle
  | rollback => exact hidle
  | commit =>
    refine h.event (moved_arrive rfl caller _) (arrive_length rfl).le rfl (fun i => ?_) nofun
      (fun _ hi => hi) (fun m i he => ?_) rfl nofun
    · show (s.tx i).ops = stagedOps i (s.log ++ [.began s.rpcs.length id])
      rw [stagedOps_append, stagedOps_other (.began _ _) nofun, append_nil, h.buffer]
    · cases he
      exact ⟨rfl, arrive_length rfl⟩

theorem Whole.moved {caller : Caller} {now : Int} {p p' : Phase} (h : Whole s) (hp : Placed s)
    (hn : s.rpcs[n]? = some ⟨caller, p⟩) (hu : Advances s u n caller now p p') :
    Whole (u.move n caller p') := by
  have hm := moved_move hu.rpcs hn caller p'
  have hlen : (u.move n caller p').rpcs.length = s.rpcs.length := by
    show (u.rpcs.set n _).length = _
    rw [length_set, hu.rpcs]
  have hissued := hu.evolves.issued
  rcases hu.log with hq | ⟨collection, op, id, rfl, rfl, hlog, htx⟩ |
    ⟨id, ops, reply, rfl, rfl, hlog, htx⟩ | ⟨id, rfl, rfl, hlog, htx⟩
  · refine h.quiet hm hlen.ge hq.log hissued (fun i => by rw [hq.tx, h.buffer]) fun i ops hc => ?_
    rcases hq.taken i ops hc with hc | ⟨-, rfl⟩
    · exact h.taken hn hc
    · rw [h.buffer]
      exact covers_stagedOps s.log n i
  · refine h.event hm hlen.ge hlog (fun i => ?_) (fun i op' hi => ?_) hissued nofun rfl nofun
    · rw [htx, hlog, stagedOps_append]
      by_cases hi : i = id
      · subst hi
        simp [Tx.stage, h.buffer, stagedOps]
      · rw [Function.update_of_ne hi, stagedOps_other (.staged _ _) (by simp [Ne.symm hi]),
          append_nil, h.buffer]
    · cases hi
      obtain ⟨hi, -⟩ : id ∈ s.issued ∧ id ∉ s.xtxs := hp.fits hn
      exact hissued id hi
  · refine h.event hm hlen.ge hlog (fun i => ?_) nofun hissued nofun rfl (fun m i ops' hi => ?_)
    · rw [htx, hlog, stagedOps_append, stagedOps_other (.passed _ _ _) (by simp),
        append_nil, h.buffer]
    · cases hi
      exact ⟨hlen ▸ (List.getElem?_eq_some_iff.mp hn).1, h.taken hn rfl⟩
  · refine h.event hm hlen.ge hlog (fun i => ?_) nofun hissued nofun rfl nofun
    rw [htx, hlog, stagedOps_append, stagedOps_other (.rolledBack _) (by simp), append_nil,
      h.buffer]

theorem whole_step {a : Act} (h : Whole s) (hp : Placed s) (hs : s.step ttl a = some t) : Whole t := by
  cases step_cases hp.toRegistered hs with
  | reaped fewer rpcs log tx =>
    refine ⟨?_, ?_, ?_, ?_, ?_⟩ <;> simp only [rpcs, log, tx, fewer.issued]
    exacts [h.buffer, h.staged, h.numbered, h.taken, h.passed]
  | opened opens => exact h.opened opens
  | found hid => exact h.found
  | idle idle =>
    refine h.quiet (moved_arrive rfl _ _) (arrive_length rfl).le rfl (fun _ hi => hi) h.buffer ?_
    intro i ops hc
    cases idle.taken.symm.trans hc
  | moved hn hu => exact h.moved hp hn hu

def Event.passes (id : HandleID) : Event → Bool
  | .passed _ i _ => i == id
  | _ => false

structure AppliedOnce (log : List Event) : Prop where
  once : ∀ id, (log.filter (Event.passes id)).length ≤ 1
  live : ∀ l₀ l₁ id, log = l₀ ++ .rolledBack id :: l₁ → ∀ n ops, .passed n id ops ∉ l₁
  whole : ∀ l₀ l₁ n id, log = l₀ ++ .began n id :: l₁ → ∀ ops, .passed n id ops ∈ l₁ →
    stagedOps id l₀ <+: ops

theorem applied_once_of (ho : Once s) (hw : Whole s) : AppliedOnce s.log := by
  refine ⟨fun id => ?_, fun l₀ l₁ id hl n ops hmem => ?_, fun l₀ l₁ n id hl ops hmem => ?_⟩
  · have hp := ho.once.filter (Event.passes id)
    generalize hf : s.log.filter (Event.passes id) = l at hp ⊢
    have hall : ∀ e ∈ l, e.closes = some id := by
      intro e he
      rw [← hf] at he
      have hmatch := (mem_filter.mp he).2
      cases e with
      | passed n i ops => simpa [Event.closes, Event.passes] using hmatch
      | _ => cases hmatch
    match l, hp, hall with
    | [], _, _ => simp
    | [_], _, _ => simp
    | a :: b :: _, hp, hall =>
      exact absurd (hall b (by simp)) ((pairwise_cons.mp hp).1 b (by simp) id (hall a (by simp)))
  · have hp := ho.once
    rw [hl] at hp
    exact (pairwise_cons.mp (pairwise_append.mp hp).2.1).1 _ hmem id rfl rfl
  · have hin : Event.passed n id ops ∈ s.log := by
      rw [hl]
      exact mem_append_right _ (mem_cons_of_mem _ hmem)
    exact (hw.passed hin).2 l₀ l₁ hl

/-- In every run in which no two ends of one handle overlap, a transaction is applied at most once,
not after a rollback that reported success, and with everything staged before its commit began. -/
theorem single_tx_applied_once
    (hr : Runs.Reaches (Server.step ttl) (fun s a => a.EndSound s) .start s) : AppliedOnce s.log := by
  have hi : Placed s ∧ Once s ∧ Whole s := by
    refine hr.invariant (I := fun s => Placed s ∧ Once s ∧ Whole s) ⟨placed_start, ?_, ?_⟩ ?_
    · exact ⟨nofun, nofun, List.Pairwise.nil⟩
    · exact ⟨fun _ => rfl, nofun, nofun, nofun, nofun⟩
    · exact fun ⟨hp, ho, hw⟩ hok hs =>
        ⟨placed_step hp hs, once_step ho hp hok hs, whole_step hw hp hs⟩
  exact applied_once_of hi.2.1 hi.2.2

instance (s : Server) : ∀ a : Act, Decidable (a.EndSound s)
  | .call _ _ (.stage _ _) => isTrue trivial
  | .call _ id .commit | .call _ id .rollback =>
    inferInstanceAs (Decidable (id ∈ s.txs → ∀ r ∈ s.rpcs, r.phase.ending ≠ some id))
  | .beginTx _ _ _ _ | .beginXTx _ _ _ _ _ | .callX _ _ _ | .advance _ _ _ | .reapTxs _
  | .reapXTxs _ => isTrue trivial

def deleteOp (id : Nat) : TxOp :=
  { kind := .delete, id := id, data := none, ts := Rfc3339.zeroTime }

def staging : List Act :=
  [.beginTx "alice" 1 "c" 0, .advance 0 0 true, .call "alice" 1 (.stage "c" (deleteOp 7)),
   .advance 1 0 true, .advance 1 0 true]

def advances (n k : Nat) : List Act :=
  List.replicate k (.advance n 0 true)

def orderlyEnds : List Act :=
  staging ++ [.call "alice" 1 .commit, .call "alice" 1 (.stage "c" (deleteOp 8))] ++ advances 3 2 ++
    advances 2 4 ++ [.call "alice" 1 .commit, .call "alice" 1 .rollback] ++ advances 2 2

theorem single_tx_applied_once_sample : ∃ s,
    Runs.run (Server.step 0) .start orderlyEnds = some s ∧
      s.log = [.staged 1 (deleteOp 7), .began 2 1, .staged 1 (deleteOp 8),
        .passed 2 1 [deleteOp 7, deleteOp 8]] ∧ AppliedOnce s.log := by
  obtain ⟨s, hs, hr, hlog⟩ := Runs.reached (Server.step 0) (fun s a => a.EndSound s) .start orderlyEnds
    (fun s => s.log = [.staged 1 (deleteOp 7), .began 2 1, .staged 1 (deleteOp 8),
      .passed 2 1 [deleteOp 7, deleteOp 8]]) ⟨by decide, _, rfl, rfl⟩
  exact ⟨s, hs, hlog, single_tx_applied_once hr⟩

/-- Two commits that both find the handle, and a rollback between the lookup and the end of a
commit. -/
theorem single_tx_applied_again :
    (Runs.run (Server.step 0) .start (staging ++ [.call "alice" 1 .commit, .call "alice" 1 .commit] ++
        advances 3 3 ++ advances 2 6 ++ advances 3 3)).map (·.log) =
      some [.staged 1 (deleteOp 7), .began 2 1, .began 3 1, .passed 2 1 [deleteOp 7],
        .passed 3 1 [deleteOp 7]] ∧
    (Runs.run (Server.step 0) .start (staging ++ [.call "alice" 1 .commit, .call "alice" 1 .rollback] ++
        advances 2 3 ++ advances 3 4 ++ advances 2 3)).map (·.log) =
      some [.staged 1 (deleteOp 7), .began 2 1, .rolledBack 1, .passed 2 1 [deleteOp 7]] :=
  ⟨rfl, rfl⟩

end Scriva.Handles
