import Scriva.TxServer

namespace Scriva.Handles

open List Option

variable {s t u : Server} {n m : Nat} {id : HandleID} {caller : Caller} {rpc r : Rpc} {ttl : Int}

/-- RPC `n` has arrived or moved on, and the others stand where they stood. -/
def Moved (s t : Server) (n : Nat) (rpc : Rpc) : Prop :=
  ∀ m r, t.rpcs[m]? = some r ↔ (m = n ∧ r = rpc) ∨ (m ≠ n ∧ s.rpcs[m]? = some r)

theorem moved_arrive (h : u.rpcs = s.rpcs) (caller : Caller) (p : Phase) :
    Moved s (u.arrive caller p) s.rpcs.length ⟨caller, p⟩ := by
  intro m r
  simp only [Server.arrive, h, List.getElem?_append]
  by_cases hm : m < s.rpcs.length
  · simp [hm, Nat.ne_of_lt hm]
  · by_cases he : m = s.rpcs.length
    · simp [he, eq_comm]
    · have hne : m - s.rpcs.length ≠ 0 := by omega
      simp [hm, he, hne]

theorem moved_set (hn : s.rpcs[n]? = some r) (h : t.rpcs = s.rpcs.set n rpc) : Moved s t n rpc := by
  intro m r
  have hlt : n < s.rpcs.length := (List.getElem?_eq_some_iff.mp hn).1
  rw [h, List.getElem?_set]
  by_cases hm : n = m
  · subst hm
    simp [hlt, eq_comm]
  · simp [hm, Ne.symm hm]

theorem moved_move (h : u.rpcs = s.rpcs) (hn : s.rpcs[n]? = some r) (caller : Caller) (p : Phase) :
    Moved s (u.move n caller p) n ⟨caller, p⟩ :=
  moved_set hn (by rw [← h]; rfl)

def Phase.begun : Phase → Option HandleID
  | .beginning _ id => some id
  | .replied (.began id) => some id
  | _ => none

/-- An RPC that began or looked up a handle holds an id of that kind, and one that removed it holds
an id that is open no more. -/
def Phase.Fits (s : Server) : Phase → Prop
  | .beginning .single id => id ∈ s.issued ∧ id ∉ s.xtxs
  | .beginning .cross id => id ∈ s.issued ∧ id ∉ s.txs
  | .replied (.began id) => id ∈ s.issued
  | .found _ id => id ∈ s.issued ∧ id ∉ s.xtxs
  | .owned _ id => id ∈ s.issued ∧ id ∉ s.xtxs
  | .resolved id => id ∈ s.issued ∧ id ∉ s.xtxs
  | .snapped id _ => id ∈ s.issued ∧ id ∉ s.xtxs
  | .removed id _ => id ∈ s.issued ∧ id ∉ s.xtxs ∧ id ∉ s.txs
  | .forgotten id _ => id ∈ s.issued ∧ id ∉ s.xtxs ∧ id ∉ s.txs
  | _ => True

structure Evolves (s t : Server) : Prop where
  issued : ∀ id ∈ s.issued, id ∈ t.issued
  txs : ∀ id ∈ s.issued, id ∈ t.txs → id ∈ s.txs
  xtxs : ∀ id ∈ s.issued, id ∈ t.xtxs → id ∈ s.xtxs

theorem Evolves.same (hi : t.issued = s.issued) (ht : t.txs = s.txs) (hx : t.xtxs = s.xtxs) :
    Evolves s t :=
  ⟨fun _ h => hi ▸ h, fun _ _ h => ht ▸ h, fun _ _ h => hx ▸ h⟩

variable {p : Phase} {now : Int} {k : Nat}

theorem Phase.Fits.evolve (h : p.Fits s) (he : Evolves s t) : p.Fits t := by
  have h2 : ∀ {id}, id ∈ s.issued ∧ id ∉ s.xtxs → id ∈ t.issued ∧ id ∉ t.xtxs :=
    fun ⟨hi, hx⟩ => ⟨he.issued _ hi, fun hc => hx (he.xtxs _ hi hc)⟩
  have h3 : ∀ {id}, id ∈ s.issued ∧ id ∉ s.xtxs ∧ id ∉ s.txs →
      id ∈ t.issued ∧ id ∉ t.xtxs ∧ id ∉ t.txs :=
    fun ⟨hi, hx, ht⟩ => ⟨he.issued _ hi, fun hc => hx (he.xtxs _ hi hc), fun hc => ht (he.txs _ hi hc)⟩
  cases p with
  | beginning kind id =>
    cases kind with
    | single => exact h2 h
    | cross => exact ⟨he.issued _ h.1, fun hc => h.2 (he.txs _ h.1 hc)⟩
  | found job id => exact h2 h
  | owned job id => exact h2 h
  | resolved id => exact h2 h
  | snapped id ops => exact h2 h
  | removed id ops => exact h3 h
  | forgotten id ops => exact h3 h
  | xfound use id => trivial
  | xowned use id => trivial
  | xcommitting id => trivial
  | replied reply =>
    cases reply with
    | began id => exact he.issued _ h
    | done => trivial
    | refused code => trivial

structure Registered (s : Server) : Prop where
  txs_issued : ∀ id ∈ s.txs, id ∈ s.issued
  xtxs_issued : ∀ id ∈ s.xtxs, id ∈ s.issued
  disjoint : ∀ id ∈ s.txs, id ∉ s.xtxs

structure Placed (s : Server) : Prop extends Registered s where
  fits : ∀ {n : Nat} {rpc : Rpc}, s.rpcs[n]? = some rpc → rpc.phase.Fits s
  distinct : ∀ {n m : Nat} {r r' : Rpc} {id : HandleID}, s.rpcs[n]? = some r → s.rpcs[m]? = some r' →
    r.phase.begun = some id → r'.phase.begun = some id → n = m

theorem Phase.Fits.begun_issued (h : p.Fits s) (hb : p.begun = some id) : id ∈ s.issued := by
  cases p with
  | beginning kind id' =>
    cases hb
    cases kind <;> exact h.1
  | replied reply =>
    cases reply with
    | began id' => cases hb; exact h
    | done => cases hb
    | refused code => cases hb
  | _ => cases hb

theorem Placed.next (h : Placed s) (hr : Registered t) (he : Evolves s t) (hm : Moved s t n rpc)
    (hf : rpc.phase.Fits t)
    (hb : ∀ id, rpc.phase.begun = some id →
      id ∉ s.issued ∨ ∃ r, s.rpcs[n]? = some r ∧ r.phase.begun = some id) : Placed t := by
  refine ⟨hr, fun {m r} hmr => ?_, fun {k l r r' id} hk hl hbk hbl => ?_⟩
  · rcases (hm m r).mp hmr with ⟨-, rfl⟩ | ⟨-, hmr⟩
    · exact hf
    · exact (h.fits hmr).evolve he
  · have hown : ∀ {m r}, m ≠ n → s.rpcs[m]? = some r → r.phase.begun = some id →
        rpc.phase.begun ≠ some id := by
      intro m r hne hmr hbr hc
      rcases hb id hc with hnew | ⟨r0, hr0, hb0⟩
      · exact hnew ((h.fits hmr).begun_issued hbr)
      · exact hne (h.distinct hmr hr0 hbr hb0)
    rcases (hm k r).mp hk with ⟨rfl, rfl⟩ | ⟨hkn, hk⟩ <;>
      rcases (hm l r').mp hl with ⟨rfl, rfl⟩ | ⟨hln, hl⟩
    · rfl
    · exact absurd hbk (hown hln hl hbl)
    · exact absurd hbl (hown hkn hk hbk)
    · exact h.distinct hk hl hbk hbl

theorem Placed.arrive (h : Placed s) (hr : Registered u) (he : Evolves s (u.arrive caller p))
    (hrpcs : u.rpcs = s.rpcs) (hf : p.Fits u) (hb : ∀ id, p.begun = some id → id ∉ s.issued) :
    Placed (u.arrive caller p) :=
  h.next ⟨hr.txs_issued, hr.xtxs_issued, hr.disjoint⟩ he (moved_arrive hrpcs caller p)
    (hf.evolve (.same rfl rfl rfl)) fun id hc => Or.inl (hb id hc)

theorem Placed.move (h : Placed s) (hr : Registered u) (he : Evolves s u) (hrpcs : u.rpcs = s.rpcs)
    (hn : s.rpcs[n]? = some rpc) (hf : p.Fits u)
    (hb : ∀ id, p.begun = some id → rpc.phase.begun = some id) : Placed (u.move n caller p) :=
  h.next ⟨hr.txs_issued, hr.xtxs_issued, hr.disjoint⟩ ⟨he.issued, he.txs, he.xtxs⟩
    (moved_move hrpcs hn caller p)
    (hf.evolve (.same rfl rfl rfl))
    fun id hc => Or.inr ⟨rpc, hn, hb id hc⟩

structure Fewer (s t : Server) : Prop where
  txs : ∀ id ∈ t.txs, id ∈ s.txs
  xtxs : ∀ id ∈ t.xtxs, id ∈ s.xtxs
  issued : t.issued = s.issued

theorem Fewer.same (ht : t.txs = s.txs) (hx : t.xtxs = s.xtxs) (hi : t.issued = s.issued) :
    Fewer s t :=
  ⟨fun _ h => ht ▸ h, fun _ h => hx ▸ h, hi⟩

theorem Fewer.evolves (h : Fewer s t) : Evolves s t :=
  ⟨fun _ hi => h.issued ▸ hi, fun id _ => h.txs id, fun id _ => h.xtxs id⟩

theorem Fewer.registered (h : Fewer s t) (hr : Registered s) : Registered t := by
  refine ⟨fun id hi => ?_, fun id hi => ?_, fun id hi hx => ?_⟩
  · rw [h.issued]; exact hr.txs_issued id (h.txs id hi)
  · rw [h.issued]; exact hr.xtxs_issued id (h.xtxs id hi)
  · exact hr.disjoint id (h.txs id hi) (h.xtxs id hx)

theorem fewer_remove (s : Server) (id : HandleID) : Fewer s (s.remove id) :=
  ⟨fun _ hi => (mem_filter.mp hi).1, fun _ hi => hi, rfl⟩

/-- The owners are as they were and no begin is answered, or a handle is bound or forgotten. -/
def OwnersMove (s u : Server) (caller : Caller) (p p' : Phase) : Prop :=
  (u.owners = s.owners ∧ ∀ id, p' ≠ .replied (.began id)) ∨
  (∃ kind id, p = .beginning kind id ∧ u = s.bind kind id caller ∧ p' = .replied (.began id)) ∨
  ∃ id ops, p = .removed id ops ∧ u = s.forget id ∧ p' = .forgotten id ops

def Phase.ending : Phase → Option HandleID
  | .found .commit id => some id
  | .found .rollback id => some id
  | .owned .commit id => some id
  | .owned .rollback id => some id
  | .resolved id => some id
  | .snapped id _ => some id
  | _ => none

def Phase.over : Phase → Option HandleID
  | .removed id _ => some id
  | .forgotten id _ => some id
  | _ => none

def Phase.engaged (p : Phase) : Option HandleID :=
  p.ending.or p.over

def Phase.taken : Phase → Option (HandleID × List TxOp)
  | .snapped id ops => some (id, ops)
  | .removed id (some ops) => some (id, ops)
  | .forgotten id (some ops) => some (id, ops)
  | _ => none

/-- An RPC moves on without a trace: it ends no handle that it did not end before, and what it has
read it had, or has read now. -/
structure Quiet (s t : Server) (p p' : Phase) : Prop where
  log : t.log = s.log
  tx : t.tx = s.tx
  engaged : ∀ id, p'.engaged = some id → p.engaged = some id
  taken : ∀ id ops, p'.taken = some (id, ops) →
    p.taken = some (id, ops) ∨ p = .resolved id ∧ ops = (s.tx id).ops

def LogMove (s t : Server) (n : Nat) (now : Int) (p p' : Phase) : Prop :=
  Quiet s t p p' ∨
  (∃ collection op id, p = .owned (.stage collection op) id ∧ p' = .replied .done ∧
    t.log = s.log ++ [.staged id op] ∧
    t.tx = Function.update s.tx id ((s.tx id).stage op now)) ∨
  (∃ id ops reply, p = .forgotten id (some ops) ∧ p' = .replied reply ∧
    t.log = s.log ++ [.passed n id ops] ∧ t.tx = s.tx) ∨
  ∃ id, p = .forgotten id none ∧ p' = .replied .done ∧
    t.log = s.log ++ [.rolledBack id] ∧ t.tx = s.tx

/-- What one step of an RPC does to the server. -/
structure Advances (s u : Server) (n : Nat) (caller : Caller) (now : Int) (p p' : Phase) : Prop where
  rpcs : u.rpcs = s.rpcs
  fewer : Fewer s u
  fits : p.Fits s → p'.Fits u
  begun : ∀ id, p'.begun = some id → p.begun = some id
  owners : OwnersMove s u caller p p'
  log : LogMove s (u.move n caller p') n now p p'

/-- A phase in which an RPC has no single-collection handle, nor a begin to answer. -/
structure Phase.Idle (p : Phase) : Prop where
  fits : ∀ s, p.Fits s
  begun : p.begun = none
  engaged : p.engaged = none
  taken : p.taken = none

def Advanced (s : Server) (n : Nat) (caller : Caller) (now : Int) (p : Phase) (t : Server) : Prop :=
  ∃ u p', t = u.move n caller p' ∧ Advances s u n caller now p p'

section Advance

variable {p' : Phase} {ok : Bool}

theorem logMove_keep (hl : t.log = s.log) (ht : t.tx = s.tx) (he : p'.engaged = p.engaged)
    (hk : p'.taken = p.taken) : LogMove s t n now p p' :=
  Or.inl ⟨hl, ht, fun _ hc => he ▸ hc, fun _ _ hc => Or.inl (hk ▸ hc)⟩

theorem Phase.Idle.advanced (hp : p'.Idle) (hr : u.rpcs = s.rpcs) (hf : Fewer s u)
    (ho : u.owners = s.owners) (hl : u.log = s.log) (ht : u.tx = s.tx) :
    Advanced s n caller now p (u.move n caller p') := by
  refine ⟨u, p', rfl, hr, hf, fun _ => hp.fits u, fun _ hc => ?_, Or.inl ⟨ho, ?_⟩,
    Or.inl ⟨hl, ht, fun _ hc => ?_, fun _ _ hc => ?_⟩⟩
  · rw [hp.begun] at hc; cases hc
  · rintro id rfl; cases hp.begun
  · rw [hp.engaged] at hc; cases hc
  · rw [hp.taken] at hc; cases hc

theorem idle_done : (Phase.replied .done).Idle :=
  ⟨fun _ => trivial, rfl, rfl, rfl⟩

theorem idle_refused (code : Code) : (Phase.replied (.refused code)).Idle :=
  ⟨fun _ => trivial, rfl, rfl, rfl⟩

theorem Advanced.refused (code : Code) :
    Advanced s n caller now p (s.move n caller (.replied (.refused code))) :=
  (idle_refused code).advanced rfl (.same rfl rfl rfl) rfl rfl rfl

theorem advance_owned {job : Job} (h : s.advance n caller now ok (.owned job id) = some t) :
    Advanced s n caller now (.owned job id) t := by
  cases job with
  | stage collection op =>
    simp only [Server.advance] at h
    split at h <;> cases h
    · exact ⟨_, _, rfl, rfl, .same rfl rfl rfl, fun _ => trivial, nofun, Or.inl ⟨rfl, nofun⟩,
        Or.inr (Or.inl ⟨_, _, _, rfl, rfl, rfl, rfl⟩)⟩
    · exact .refused _
  | commit =>
    simp only [Server.advance] at h
    split at h <;> cases h
    · exact ⟨_, _, rfl, rfl, .same rfl rfl rfl, fun hf => hf, nofun, Or.inl ⟨rfl, nofun⟩,
        logMove_keep rfl rfl rfl rfl⟩
    · exact .refused _
  | rollback =>
    cases h
    exact ⟨_, _, rfl, rfl, fewer_remove s id, fun hf => ⟨hf.1, hf.2, by simp [Server.remove]⟩,
      nofun, Or.inl ⟨rfl, nofun⟩, logMove_keep rfl rfl rfl rfl⟩

theorem advance_forgotten {ops : Option (List TxOp)}
    (h : s.advance n caller now ok (.forgotten id ops) = some t) :
    Advanced s n caller now (.forgotten id ops) t := by
  cases ops with
  | none =>
    cases h
    exact ⟨_, _, rfl, rfl, .same rfl rfl rfl, fun _ => trivial, nofun, Or.inl ⟨rfl, nofun⟩,
      Or.inr (Or.inr (Or.inr ⟨_, rfl, rfl, rfl, rfl⟩))⟩
  | some ops =>
    cases h
    refine ⟨_, _, rfl, rfl, .same rfl rfl rfl, fun _ => ?_, fun _ hb => ?_, Or.inl ⟨rfl, ?_⟩,
      Or.inr (Or.inr (Or.inl ⟨_, _, _, rfl, rfl, rfl, rfl⟩))⟩
    · cases ok <;> trivial
    · cases ok <;> cases hb
    · cases ok <;> exact nofun

theorem advance_cross {use : Use} (h : s.advance n caller now ok (.xowned use id) = some t) :
    Advanced s n caller now (.xowned use id) t := by
  have hset : ∀ x p', Phase.Idle p' →
      Advanced s n caller now (.xowned use id) ((s.setXTx id x).move n caller p') :=
    fun _ _ hp => hp.advanced rfl (.same rfl rfl rfl) rfl rfl rfl
  simp only [Server.advance] at h
  split at h
  · cases use <;> cases h
    · exact hset _ _ idle_done
    · exact hset _ _ ⟨fun _ => trivial, rfl, rfl, rfl⟩
    · exact hset _ _ idle_done
  · cases h
    exact hset _ _ (idle_refused _)

theorem advance_spec (h : s.advance n caller now ok p = some t) : Advanced s n caller now p t := by
  cases p with
  | beginning kind id =>
    cases h
    exact ⟨_, _, rfl, rfl, .same rfl rfl rfl, fun hf => hf.begun_issued rfl, fun _ hb => hb,
      Or.inr (Or.inl ⟨_, _, rfl, rfl, rfl⟩), logMove_keep rfl rfl rfl rfl⟩
  | found job id =>
    simp only [Server.advance] at h
    split at h <;> cases h
    · refine ⟨_, _, rfl, rfl, .same rfl rfl rfl, fun hf => hf, nofun, Or.inl ⟨rfl, nofun⟩,
        logMove_keep rfl rfl ?_ rfl⟩
      cases job <;> rfl
    · exact .refused _
  | owned job id => exact advance_owned h
  | resolved id =>
    cases h
    refine ⟨_, _, rfl, rfl, .same rfl rfl rfl, fun hf => hf, nofun, Or.inl ⟨rfl, nofun⟩,
      Or.inl ⟨rfl, rfl, fun _ hc => hc, fun i ops hc => ?_⟩⟩
    cases hc
    exact Or.inr ⟨rfl, rfl⟩
  | snapped id ops =>
    cases h
    exact ⟨_, _, rfl, rfl, fewer_remove s id, fun hf => ⟨hf.1, hf.2, by simp [Server.remove]⟩,
      nofun, Or.inl ⟨rfl, nofun⟩, logMove_keep rfl rfl rfl rfl⟩
  | removed id ops =>
    cases h
    refine ⟨_, _, rfl, rfl, .same rfl rfl rfl, fun hf => hf, nofun,
      Or.inr (Or.inr ⟨_, _, rfl, rfl, rfl⟩), logMove_keep rfl rfl rfl ?_⟩
    cases ops <;> rfl
  | forgotten id ops => exact advance_forgotten h
  | xfound use id =>
    simp only [Server.advance] at h
    split at h <;> cases h
    · exact Phase.Idle.advanced ⟨fun _ => trivial, rfl, rfl, rfl⟩ rfl (.same rfl rfl rfl) rfl rfl rfl
    · exact .refused _
  | xowned use id => exact advance_cross h
  | xcommitting id =>
    cases h
    exact idle_done.advanced rfl (.same rfl rfl rfl) rfl rfl rfl
  | replied reply => cases h

end Advance

/-- A new handle: its id is in one of the maps, and its buffer is empty. -/
structure Opens (s u : Server) (kind : Kind) (id : HandleID) : Prop where
  new : id ∉ s.issued
  issued : u.issued = id :: s.issued
  txs : ∀ i ∈ u.txs, i = id ∨ i ∈ s.txs
  xtxs : ∀ i ∈ u.xtxs, i = id ∨ i ∈ s.xtxs
  fits : (Phase.beginning kind id).Fits u
  rpcs : u.rpcs = s.rpcs
  log : u.log = s.log
  owners : u.owners = s.owners
  tx : ∀ i, (u.tx i).ops = (s.tx i).ops ∨ i = id ∧ (u.tx i).ops = []

/-- What a step can do: handles are reaped, or an RPC arrives, to begin a handle, with one that it
has found or with nothing, or an RPC moves on. -/
inductive Steps (s : Server) : Act → Server → Prop
  | reaped {a : Act} {t : Server} (fewer : Fewer s t) (rpcs : t.rpcs = s.rpcs) (log : t.log = s.log)
      (tx : t.tx = s.tx) (owners : t.owners = s.owners) : Steps s a t
  | opened {a : Act} {u : Server} {caller : Caller} {kind : Kind} {id : HandleID}
      (opens : Opens s u kind id) : Steps s a (u.arrive caller (.beginning kind id))
  | found {caller : Caller} {id : HandleID} {job : Job} (hid : id ∈ s.txs) :
      Steps s (.call caller id job)
        ({ s with log := s.log ++ job.begins s.rpcs.length id }.arrive caller (.found job id))
  | idle {a : Act} {caller : Caller} {p : Phase} (idle : p.Idle) : Steps s a (s.arrive caller p)
  | moved {n : Nat} {now : Int} {ok : Bool} {caller : Caller} {p p' : Phase} {u : Server}
      (hn : s.rpcs[n]? = some ⟨caller, p⟩) (hu : Advances s u n caller now p p') :
      Steps s (.advance n now ok) (u.move n caller p')

theorem step_cases {a : Act} (hr : Registered s) (hs : s.step ttl a = some t) : Steps s a t := by
  cases a with
  | beginTx caller id collection now =>
    obtain ⟨hid, rfl⟩ := Runs.barred hs
    refine .opened ⟨hid, rfl, fun i hi => mem_cons.mp hi, fun i hi => Or.inr hi,
      ⟨mem_cons_self, fun hc => hid (hr.xtxs_issued id hc)⟩, rfl, rfl, rfl, fun i => ?_⟩
    by_cases hi : i = id
    · exact Or.inr ⟨hi, by simp [Server.begin, hi]⟩
    · exact Or.inl (by simp [Server.begin, hi])
  | beginXTx caller id idle maxLife now =>
    obtain ⟨hid, rfl⟩ := Runs.barred hs
    exact .opened ⟨hid, rfl, fun i hi => Or.inr hi, fun i hi => mem_cons.mp hi,
      ⟨mem_cons_self, fun hc => hid (hr.txs_issued id hc)⟩, rfl, rfl, rfl, fun _ => Or.inl rfl⟩
  | call caller id job =>
    simp only [Server.step] at hs
    split at hs <;> cases hs
    · next hid => exact .found hid
    · exact .idle (idle_refused _)
  | callX caller id use =>
    simp only [Server.step] at hs
    split at hs <;> cases hs
    · exact .idle ⟨fun _ => trivial, rfl, rfl, rfl⟩
    · exact .idle (idle_refused _)
  | advance n now ok =>
    obtain ⟨rpc, hn, hs⟩ := bind_eq_some_iff.mp hs
    obtain ⟨u, p', rfl, hu⟩ := advance_spec hs
    exact .moved hn hu
  | reapTxs now =>
    obtain ⟨-, rfl⟩ := Runs.guarded hs
    exact .reaped ⟨fun _ hi => (mem_filter.mp hi).1, fun _ hi => hi, rfl⟩ rfl rfl rfl rfl
  | reapXTxs now =>
    cases hs
    exact .reaped ⟨fun _ hi => hi, fun _ hi => (mem_filter.mp hi).1, rfl⟩ rfl rfl rfl rfl

theorem Advances.evolves {p' : Phase} (h : Advances s u n caller now p p') :
    Evolves s (u.move n caller p') :=
  ⟨h.fewer.evolves.issued, h.fewer.evolves.txs, h.fewer.evolves.xtxs⟩

theorem Fewer.placed (h : Fewer s t) (hp : Placed s) (hr : t.rpcs = s.rpcs) : Placed t :=
  ⟨h.registered hp.toRegistered, fun hn => (hp.fits (hr ▸ hn)).evolve h.evolves,
    fun hn hm => hp.distinct (hr ▸ hn) (hr ▸ hm)⟩

theorem Opens.evolves {kind : Kind} (h : Opens s u kind id) :
    Evolves s (u.arrive caller (.beginning kind id)) := by
  refine ⟨fun i hi => ?_, fun i hi hc => ?_, fun i hi hc => ?_⟩
  · show i ∈ u.issued
    rw [h.issued]
    exact mem_cons_of_mem _ hi
  · exact (h.txs i hc).resolve_left fun he => h.new (he ▸ hi)
  · exact (h.xtxs i hc).resolve_left fun he => h.new (he ▸ hi)

theorem Opens.registered {kind : Kind} (h : Opens s u kind id) (hr : Registered s) :
    Registered u := by
  have hin : ∀ i, i = id ∨ i ∈ s.issued → i ∈ u.issued := fun i hi => by
    rw [h.issued]
    exact mem_cons.mpr hi
  refine ⟨fun i hi => hin i ((h.txs i hi).imp_right (hr.txs_issued i)),
    fun i hi => hin i ((h.xtxs i hi).imp_right (hr.xtxs_issued i)), fun i hi hx => ?_⟩
  by_cases he : i = id
  · subst he
    have hfits := h.fits
    cases kind with
    | single => exact hfits.2 hx
    | cross => exact hfits.2 hi
  · exact hr.disjoint i ((h.txs i hi).resolve_left he) ((h.xtxs i hx).resolve_left he)

theorem placed_step {a : Act} (h : Placed s) (hs : s.step ttl a = some t) : Placed t := by
  cases step_cases h.toRegistered hs with
  | reaped fewer rpcs => exact fewer.placed h rpcs
  | opened opens =>
    refine h.arrive (opens.registered h.toRegistered) opens.evolves opens.rpcs opens.fits ?_
    intro i hi
    cases hi
    exact opens.new
  | @found caller id job hid =>
    exact h.arrive (u := { s with log := s.log ++ job.begins s.rpcs.length id })
      (p := .found job id) ⟨h.txs_issued, h.xtxs_issued, h.disjoint⟩
      (.same rfl rfl rfl) rfl ⟨h.txs_issued id hid, h.disjoint id hid⟩ nofun
  | idle idle =>
    refine h.arrive h.toRegistered (.same rfl rfl rfl) rfl (idle.fits s) fun i hi => ?_
    cases idle.begun.symm.trans hi
  | moved hn hu =>
    exact h.move (hu.fewer.registered h.toRegistered) hu.fewer.evolves hu.rpcs hn
      (hu.fits (h.fits hn)) hu.begun

theorem placed_start : Placed Server.start :=
  ⟨⟨nofun, nofun, nofun⟩, nofun, nofun⟩

theorem lookup_filter {l : List (HandleID × Caller)} {k : HandleID → Bool}
    (h : k id = true) : (l.filter fun p => k p.1).lookup id = l.lookup id := by
  induction l with
  | nil => rfl
  | cons p l ih =>
    obtain ⟨i, v⟩ := p
    by_cases hi : id = i
    · subst hi
      simp [h]
    · have hbeq : (id == i) = false := by simpa using hi
      by_cases hk : k i = true
      · simp [hk, lookup_cons, hbeq, ih]
      · simp [hk, lookup_cons, hbeq, ih]

theorem lookup_filter_out {l : List (HandleID × Caller)} {k : HandleID → Bool}
    (h : k id = false) : (l.filter fun p => k p.1).lookup id = none := by
  rw [lookup_eq_none_iff]
  intro p hp
  have hk : k p.1 = true := (mem_filter.mp hp).2
  rw [bne_iff_ne]
  rintro rfl
  simp [h] at hk

variable {h : HandleOwners} {other : HandleID} {alive : HandleID → Bool} {owner : Caller}

theorem ownerOf_forget (hne : id ≠ other) : (h.forget other).ownerOf id = h.ownerOf id :=
  congrArg (Option.getD · "") (lookup_filter (k := fun k => k != other) (by simpa using hne))

theorem ownerOf_record : (h.record id owner).ownerOf id = owner := by
  simp [HandleOwners.ownerOf, HandleOwners.record]

theorem ownerOf_record_other (hne : id ≠ other) :
    (h.record other owner).ownerOf id = h.ownerOf id := by
  have hbeq : (id == other) = false := by simpa using hne
  rw [← ownerOf_forget (h := h) hne]
  simp only [HandleOwners.ownerOf, HandleOwners.record, lookup_cons, hbeq]

theorem ownerOf_sweep (hk : alive id = true ∨ h.ownerOf id = "") :
    (h.sweep alive).ownerOf id = h.ownerOf id := by
  cases ha : alive id with
  | true => simp only [HandleOwners.ownerOf, HandleOwners.sweep, lookup_filter ha]
  | false =>
    rw [hk.resolve_left (by simp [ha])]
    simp only [HandleOwners.ownerOf, HandleOwners.sweep, lookup_filter_out ha, Option.getD_none]

def HandleOwners.sweeps (h : HandleOwners) (id : HandleID) (owner : Caller) : Bool :=
  decide ((h.record id owner).sweepAt ≤ (h.record id owner).owner.length)

theorem bind_spec (h : HandleOwners) (id : HandleID) (owner : Caller) (alive : HandleID → Bool) :
    h.bind id owner alive = h.record id owner ∧ h.sweeps id owner = false ∨
      h.bind id owner alive = (h.record id owner).sweep alive ∧ h.sweeps id owner = true := by
  by_cases hlt : (h.record id owner).owner.length < (h.record id owner).sweepAt
  · exact Or.inl ⟨if_pos hlt, by simpa [HandleOwners.sweeps] using hlt⟩
  · exact Or.inr ⟨if_neg hlt, by simpa [HandleOwners.sweeps] using hlt⟩

theorem ownerOf_bind (hk : alive id = true) : (h.bind id owner alive).ownerOf id = owner := by
  rcases bind_spec h id owner alive with ⟨he, -⟩ | ⟨he, -⟩
  · rw [he, ownerOf_record]
  · rw [he, ownerOf_sweep (Or.inl hk), ownerOf_record]

theorem ownerOf_bind_other (hne : id ≠ other)
    (hk : h.sweeps other owner = true → alive id = true ∨ h.ownerOf id = "") :
    (h.bind other owner alive).ownerOf id = h.ownerOf id := by
  rcases bind_spec h other owner alive with ⟨he, -⟩ | ⟨he, hsw⟩
  · rw [he, ownerOf_record_other hne]
  · have hr : (h.record other owner).ownerOf id = h.ownerOf id := ownerOf_record_other hne
    rw [he, ownerOf_sweep (hr.symm ▸ hk hsw), hr]

def Server.Open (s : Server) (id : HandleID) : Prop :=
  id ∈ s.txs ∨ id ∈ s.xtxs

def Bound (s : Server) : Prop :=
  ∀ (n : Nat) (creator : Caller) (id : HandleID),
    s.rpcs[n]? = some ⟨creator, .replied (.began id)⟩ → s.Open id → s.owners.ownerOf id = creator

def Server.others (s : Server) : Kind → List HandleID
  | .single => s.xtxs
  | .cross => s.txs

/-- A begin that makes the table sweep finds no open handle of the other kind with a recorded
owner. -/
def Phase.SweepSound (s : Server) (caller : Caller) : Phase → Prop
  | .beginning kind id => s.owners.sweeps id caller = true →
      ∀ other ∈ s.others kind, s.owners.ownerOf other = ""
  | _ => True

def Act.SweepSound (s : Server) : Act → Prop
  | .advance n _ _ => ∀ rpc ∈ s.rpcs[n]?, rpc.phase.SweepSound s rpc.caller
  | _ => True

theorem Bound.next (hb : Bound s) (hp : Placed s) (hpt : Placed t) (he : Evolves s t)
    (hm : Moved s t n rpc)
    (ho : ∀ id ∈ s.issued, t.Open id → rpc.phase.begun ≠ some id →
      t.owners.ownerOf id = s.owners.ownerOf id)
    (hnew : ∀ id, rpc.phase = .replied (.began id) → t.Open id →
      t.owners.ownerOf id = rpc.caller) : Bound t := by
  intro m creator id hmr hopen
  rcases (hm m _).mp hmr with ⟨-, rfl⟩ | ⟨hne, hmr'⟩
  · exact hnew id rfl hopen
  · have hid : id ∈ s.issued := (hp.fits hmr').begun_issued rfl
    have hwas : s.Open id := hopen.imp (he.txs id hid) (he.xtxs id hid)
    have hown : rpc.phase.begun ≠ some id := fun hc =>
      hne (hpt.distinct hmr ((hm n rpc).mpr (Or.inl ⟨rfl, rfl⟩)) rfl hc)
    rw [ho id hid hopen hown, hb m creator id hmr' hwas]

theorem Bound.same (hb : Bound s) (hp : Placed s) (hpt : Placed t) (he : Evolves s t)
    (hm : Moved s t n rpc) (ho : t.owners = s.owners)
    (hnew : ∀ id, rpc.phase ≠ .replied (.began id)) : Bound t :=
  hb.next hp hpt he hm (fun _ _ _ _ => by rw [ho]) fun id hc => absurd hc (hnew id)

theorem Bound.bind (hb : Bound s) (hp : Placed s) {kind : Kind}
    (hn : s.rpcs[n]? = some ⟨caller, .beginning kind id⟩)
    (hok : (Phase.beginning kind id).SweepSound s caller)
    (hpt : Placed ((s.bind kind id caller).move n caller (.replied (.began id)))) :
    Bound ((s.bind kind id caller).move n caller (.replied (.began id))) := by
  have hkind : ∀ other, s.Open other → s.alive kind other = true ∨ other ∈ s.others kind := by
    intro other ho
    cases kind with
    | single => exact ho.imp (by simp [Server.alive]) fun hx => hx
    | cross => exact ho.symm.imp (by simp [Server.alive]) fun hx => hx
  have hfits : id ∉ s.others kind := by
    cases kind with
    | single | cross => exact (hp.fits hn).2
  refine hb.next hp hpt (.same rfl rfl rfl) (moved_move rfl hn caller _) ?_ ?_
  · intro other _ hopen hne
    refine ownerOf_bind_other (fun he => hne (by rw [he]; rfl)) fun hsw => ?_
    exact (hkind other hopen).imp_right fun hx => hok hsw other hx
  · intro i hi hopen
    cases hi
    exact ownerOf_bind ((hkind id hopen).resolve_right hfits)

theorem bound_step {a : Act} (hb : Bound s) (hp : Placed s) (hok : a.SweepSound s)
    (hs : s.step ttl a = some t) : Bound t := by
  have hpt := placed_step hp hs
  cases step_cases hp.toRegistered hs with
  | reaped fewer rpcs log tx owners =>
    intro n creator id hn ho
    rw [owners]
    exact hb n creator id (rpcs ▸ hn) (ho.imp (fewer.txs id) (fewer.xtxs id))
  | opened opens =>
    exact hb.same hp hpt opens.evolves (moved_arrive opens.rpcs _ _) opens.owners nofun
  | found hid => exact hb.same hp hpt (.same rfl rfl rfl) (moved_arrive rfl _ _) rfl nofun
  | idle idle =>
    refine hb.same hp hpt (.same rfl rfl rfl) (moved_arrive rfl _ _) rfl fun id hc => ?_
    cases (congrArg Phase.begun hc).symm.trans idle.begun
  | @moved n now ok caller p p' u hn hu =>
    have hm := moved_move hu.rpcs hn caller p'
    rcases hu.owners with ⟨ho, hnew⟩ | ⟨kind, id, rfl, rfl, rfl⟩ | ⟨id, ops, rfl, rfl, rfl⟩
    · exact hb.same hp hpt hu.evolves hm ho hnew
    · exact hb.bind hp hn (hok _ hn) hpt
    · obtain ⟨-, hx, ht⟩ : id ∈ s.issued ∧ id ∉ s.xtxs ∧ id ∉ s.txs := hp.fits hn
      refine hb.next hp hpt hu.evolves hm (fun i _ hopen _ => ?_) nofun
      refine ownerOf_forget fun he => ?_
      subst he
      exact hopen.elim ht hx

/-- In every run whose sweeps are sound, an open handle lets through its creator and no one else. -/
theorem handle_belongs_to_creator {creator : Caller}
    (hr : Runs.Reaches (Server.step ttl) (fun s a => a.SweepSound s) .start s)
    (hn : s.rpcs[n]? = some ⟨creator, .replied (.began id)⟩) (ho : s.Open id) (caller : Caller) :
    s.owners.check caller id = true ↔ caller = creator := by
  have hi : Placed s ∧ Bound s := by
    refine hr.invariant (I := fun s => Placed s ∧ Bound s) ⟨placed_start, nofun⟩ ?_
    exact fun hi hok hs => ⟨placed_step hi.1 hs, bound_step hi.2 hi.1 hok hs⟩
  rw [HandleOwners.check, hi.2 n creator id hn ho, beq_iff_eq]
  exact eq_comm

instance (s : Server) (caller : Caller) : ∀ p : Phase, Decidable (p.SweepSound s caller)
  | .beginning kind _ =>
    inferInstanceAs (Decidable (_ → ∀ other ∈ s.others kind, s.owners.ownerOf other = ""))
  | .found _ _ | .owned _ _ | .resolved _ | .snapped _ _ | .removed _ _ | .forgotten _ _
  | .xfound _ _ | .xowned _ _ | .xcommitting _ | .replied _ => isTrue trivial

instance (s : Server) : ∀ a : Act, Decidable (a.SweepSound s)
  | .advance n _ _ => inferInstanceAs (Decidable (∀ rpc ∈ s.rpcs[n]?, rpc.phase.SweepSound s rpc.caller))
  | .beginTx _ _ _ _ | .beginXTx _ _ _ _ _ | .call _ _ _ | .callX _ _ _ | .reapTxs _
  | .reapXTxs _ => isTrue trivial

def twoHandles : List Act :=
  [.beginTx "alice" 1 "c" 0, .beginXTx "bob" 2 0 0 0, .advance 0 0 true, .advance 1 0 true,
   .call "bob" 1 .commit, .advance 2 0 true]

theorem handle_belongs_to_creator_sample : ∃ s,
    Runs.run (Server.step 0) .start twoHandles = some s ∧ s.Open 1 ∧
      ∀ caller, s.owners.check caller 1 = true ↔ caller = "alice" := by
  obtain ⟨s, hs, hr, htxs, hn⟩ := Runs.reached (Server.step 0) (fun s a => a.SweepSound s) .start
    twoHandles (fun s => s.txs = [1] ∧ s.rpcs[0]? = some ⟨"alice", .replied (.began 1)⟩)
    ⟨by decide, _, rfl, rfl, rfl⟩
  have ho : s.Open 1 := Or.inl (by simp [htxs])
  exact ⟨s, hs, ho, handle_belongs_to_creator hr hn ho⟩

structure Filling (s : Server) (k : Nat) : Prop where
  xtxs : s.xtxs = [0]
  active : (s.xtx 0).state = .active
  began : s.rpcs[0]? = some ⟨"alice", .replied (.began 0)⟩
  rpcs : s.rpcs.length = k
  issued : ∀ id ∈ s.issued, id < k
  txs : 0 ∉ s.txs
  keys : ∀ p ∈ s.owners.owner, p.1 < k
  size : s.owners.owner.length = k
  sweepAt : s.owners.sweepAt = handleOwnersMinSweep

def Server.joined (s : Server) (k : Nat) : Server :=
  (((s.begin k "c" 0).arrive "bob" (.beginning .single k)).bind .single k "bob").move k "bob"
    (.replied (.began k))

theorem Filling.reaches (h : Filling s k)
    (hr : Runs.Reaches (Server.step ttl) (fun _ _ => True) .start s) :
    Runs.Reaches (Server.step ttl) (fun _ _ => True) .start (s.joined k) := by
  have hk : k ∉ s.issued := fun hc => Nat.lt_irrefl k (h.issued k hc)
  have hrpc : (s.rpcs ++ [⟨"bob", .beginning .single k⟩])[k]? = some ⟨"bob", .beginning .single k⟩ := by
    simp [← h.rpcs]
  have hbegin : s.step ttl (.beginTx "bob" k "c" 0) =
      some ((s.begin k "c" 0).arrive "bob" (.beginning .single k)) := if_neg hk
  have hbind : ((s.begin k "c" 0).arrive "bob" (.beginning .single k)).step ttl (.advance k 0 true) =
      some (s.joined k) := bind_eq_some_iff.mpr ⟨_, hrpc, rfl⟩
  exact (hr.step trivial hbegin).step trivial hbind

theorem Filling.record (h : Filling s k) :
    (s.owners.record k "bob").owner = (k, "bob") :: s.owners.owner := by
  have hf : s.owners.owner.filter (fun p => p.1 != k) = s.owners.owner := by
    refine filter_eq_self.mpr fun p hp => ?_
    have hlt : p.1 < k := h.keys p hp
    exact bne_iff_ne.mpr (Nat.ne_of_lt hlt)
  simp only [HandleOwners.record, HandleOwners.forget, hf]

theorem Filling.join (h : Filling s k) (hk : k + 1 < handleOwnersMinSweep) (h0 : 0 < k) :
    Filling (s.joined k) (k + 1) := by
  have hlt : (s.owners.record k "bob").owner.length < (s.owners.record k "bob").sweepAt := by
    rw [h.record]
    simp only [length_cons, h.size]
    exact hk.trans_eq h.sweepAt.symm
  have hbind : (s.joined k).owners = s.owners.record k "bob" := if_pos hlt
  have hlast : 0 < s.rpcs.length := by rw [h.rpcs]; exact h0
  refine ⟨h.xtxs, h.active, ?_, ?_, ?_, ?_, ?_, ?_, ?_⟩
  · have hset : (s.joined k).rpcs[0]? = (s.rpcs ++ [⟨"bob", .beginning .single k⟩])[0]? :=
      List.getElem?_set_ne (by omega)
    rw [hset, List.getElem?_append_left hlast, h.began]
  · simp [Server.joined, Server.move, Server.bind, Server.arrive, Server.begin, h.rpcs]
  · intro id hid
    rcases mem_cons.mp hid with rfl | hid
    · exact Nat.lt_succ_self id
    · exact Nat.lt_succ_of_lt (h.issued id hid)
  · intro hc
    rcases mem_cons.mp hc with he | hc
    · exact Nat.ne_of_lt h0 he
    · exact h.txs hc
  · rw [hbind, h.record]
    intro p hp
    rcases mem_cons.mp hp with rfl | hp
    · exact Nat.lt_succ_self k
    · exact Nat.lt_succ_of_lt (h.keys p hp)
  · rw [hbind, h.record, length_cons, h.size]
  · rw [hbind]
    exact h.sweepAt

theorem Filling.sweep (h : Filling s k) (hk : k + 1 = handleOwnersMinSweep) (h0 : 0 < k) :
    (s.joined k).owners.ownerOf 0 = "" := by
  have hge : ¬ (s.owners.record k "bob").owner.length < (s.owners.record k "bob").sweepAt := by
    rw [h.record]
    simp only [length_cons, h.size]
    have hat : (s.owners.record k "bob").sweepAt = handleOwnersMinSweep := h.sweepAt
    omega
  have hdead : (k :: s.txs).contains 0 = false := by
    have hne : 0 ≠ k := by omega
    simp [h.txs, hne]
  have hbind : (s.joined k).owners =
      (s.owners.record k "bob").sweep fun id => (k :: s.txs).contains id := if_neg hge
  rw [hbind, HandleOwners.ownerOf, HandleOwners.sweep, lookup_filter_out hdead, Option.getD_none]

def aliceAlone : Server :=
  ((Runs.run (Server.step 0) .start [.beginXTx "alice" 0 0 0 0, .advance 0 0 true]).getD .start)

theorem filling_reached (k : Nat) (hk : k + 1 < handleOwnersMinSweep) :
    ∃ s, Runs.Reaches (Server.step 0) (fun _ _ => True) .start s ∧ Filling s (k + 1) := by
  induction k with
  | zero =>
    refine ⟨aliceAlone, (Runs.Reaches.refl.step (a := .beginXTx "alice" 0 0 0 0) trivial rfl).step
      (a := .advance 0 0 true) trivial rfl, rfl, rfl, rfl, rfl, ?_, ?_, ?_, rfl, rfl⟩
    · decide
    · decide
    · decide
  | succ k ih =>
    obtain ⟨s, hr, hf⟩ := ih (by omega)
    exact ⟨s.joined (k + 1), hf.reaches hr, hf.join (by omega) (by omega)⟩

/-- A cross-collection handle, and as many single-collection ones as make the table sweep: the
creator is refused, and a caller without a credential is let through. -/
theorem creator_locked_out : ∃ s, Runs.Reaches (Server.step 0) (fun _ _ => True) .start s ∧
    s.rpcs[0]? = some ⟨"alice", .replied (.began 0)⟩ ∧ 0 ∈ s.xtxs ∧ (s.xtx 0).state = .active ∧
    s.owners.check "alice" 0 = false ∧ s.owners.check "" 0 = true := by
  obtain ⟨s, hr, hf⟩ := filling_reached 1022 (by decide)
  have hlast : 0 < s.rpcs.length := by rw [hf.rpcs]; omega
  refine ⟨s.joined 1023, hf.reaches hr, ?_, ?_, hf.active, ?_, ?_⟩
  · have hset : (s.joined 1023).rpcs[0]? = (s.rpcs ++ [⟨"bob", .beginning .single 1023⟩])[0]? :=
      List.getElem?_set_ne (by omega)
    rw [hset, List.getElem?_append_left hlast, hf.began]
  · show 0 ∈ s.xtxs
    rw [hf.xtxs]
    exact mem_singleton_self 0
  · rw [HandleOwners.check, hf.sweep rfl (by omega)]
    rfl
  · rw [HandleOwners.check, hf.sweep rfl (by omega)]
    rfl

end Scriva.Handles
