import Scriva.CommitCalls

namespace Scriva.CommitKeys

open Decisions Durable List Option Function

variable {n n' : Node} {key : Bytes} {h : Nat} {x : Handle}

/-- What a request that touches no call under way does: it may enter a call, make a handle or change
the state of one. -/
structure Serves (n n' : Node) : Prop where
  up : n'.up = true
  journal : n'.journal = n.journal
  inFlight : n'.inFlight = n.inFlight
  applied : n'.applied = n.applied
  nextCall : n.nextCall ≤ n'.nextCall
  nextHandle : n.nextHandle ≤ n'.nextHandle
  calls : ∀ no c, n'.calls no = some c → n.calls no = some c ∨
    (no = n.nextCall ∧ no < n'.nextCall ∧ c.phase = .entered ∧
      ∀ h, c.handle = some h → ∃ x, n.handles h = some x ∧ x.key = c.key)
  handles : ∀ h x', n'.handles h = some x' →
    (∃ x, n.handles h = some x ∧ x'.key = x.key ∧
      (x'.state = x.state ∨ ∀ r, x'.state = .committed r → r = .empty)) ∨
    (h = n.nextHandle ∧ h < n'.nextHandle ∧ x'.state = .active)
  endings : ∀ e ∈ n'.endings, e ∈ n.endings ∨ e.no < n'.nextCall ∧ e.wrote = false ∧
    e.looked = false ∧ (e.reply = .refused ∨ e.reply = .empty ∨ e.again = true ∧
      ∃ h x, n.handles h = some x ∧ x.key = e.key ∧ x.state = .committed e.reply)

theorem inv_serves (hi : n.Inv) (hup : n.up = true) (hs : Serves n n') : n'.Inv := by
  have hstands : ∀ c : Call, c.Stands n → c.Stands n' := by
    intro c h
    refine ⟨fun hh hk => ?_, ?_, ?_, ?_, ?_⟩
    · rw [hs.inFlight]
      exact h.claims hh hk
    all_goals rw [hs.journal]
    · exact h.free
    · exact h.issued
    · exact h.fresh
    · exact h.decided
  have hentered : ∀ c : Call, c.phase = .entered → c.Stands n' ∧ ∀ c', c.Apart c' := by
    intro c hph
    refine ⟨⟨?_, ?_, ?_, ?_, ?_⟩, fun c' => ⟨?_, ?_⟩⟩
    all_goals rw [hph]
    · exact nofun
    · exact nofun
    · exact nofun
    · exact nofun
    · exact nofun
    · exact nofun
    · exact nofun
  refine ⟨hs.journal ▸ hi.journal, fun _ => hs.journal ▸ hi.level hup, ?_, ?_, ?_, ?_, ?_,
    fun h => absurd (h.symm.trans hs.up) (by decide), fun e he => ?_⟩
  · rw [hs.applied, hs.journal]
    exact hi.applied
  · intro no c hc
    rcases hs.calls no c hc with h | ⟨-, hlt, hph, -⟩
    · obtain ⟨hlt, hst⟩ := hi.calls no c h
      exact ⟨Nat.lt_of_lt_of_le hlt hs.nextCall, hstands c hst⟩
    · exact ⟨hlt, (hentered c hph).1⟩
  · intro no no' c c' hne hc hc'
    rcases hs.calls no c hc with h | ⟨-, -, hph, -⟩
    · rcases hs.calls no' c' hc' with h' | ⟨-, -, hph, -⟩
      · exact hi.apart no no' c c' hne h h'
      · exact ((hentered c' hph).2 c).symm
    · exact (hentered c hph).2 c'
  · intro no c h hc hh
    have hknown : h < n.nextHandle ∧ ∀ x, n.handles h = some x → x.key = c.key := by
      rcases hs.calls no c hc with h0 | ⟨-, -, -, hown⟩
      · exact hi.owner no c h h0 hh
      · obtain ⟨x, hx, hk⟩ := hown h hh
        refine ⟨(hi.handles h x hx).1, fun x' hx' => ?_⟩
        cases hx.symm.trans hx'
        exact hk
    refine ⟨Nat.lt_of_lt_of_le hknown.1 hs.nextHandle, fun x' hx' => ?_⟩
    rcases hs.handles h x' hx' with ⟨x, hx, hk, -⟩ | ⟨he, -, -⟩
    · rw [hk]
      exact hknown.2 x hx
    · exact absurd hknown.1 (by omega)
  · intro h x' hx'
    rcases hs.handles h x' hx' with ⟨x, hx, hk, hst⟩ | ⟨-, hlt, hst⟩
    · obtain ⟨hlt, htells⟩ := hi.handles h x hx
      refine ⟨Nat.lt_of_lt_of_le hlt hs.nextHandle, fun r hr => ?_⟩
      rw [hk, hs.journal]
      rcases hst with hsame | hnew
      · exact htells r (hsame ▸ hr)
      · exact Or.inl (hnew r hr)
    · refine ⟨hlt, fun r hr => ?_⟩
      rw [hst] at hr
      cases hr
  · rcases hs.endings e he with h | ⟨hlt, -⟩
    · exact Nat.lt_of_lt_of_le (hi.ended e h) hs.nextCall
    · exact hlt

theorem Node.Inv.up_of_handle (hi : n.Inv) (hx : n.handles h = some x) : n.up = true := by
  by_contra hup
  have hnone := (hi.down (by simpa using hup)).2 h
  rw [hx] at hnone
  cases hnone

theorem serves_setHandle {y : Handle} (hup : n.up = true) (hx : n.handles h = some x)
    (hkey : y.key = x.key) (hstate : y.state = x.state ∨ ∀ r, y.state = .committed r → r = .empty) :
    Serves n (n.setHandle h y) := by
  refine ⟨hup, rfl, rfl, rfl, Nat.le_refl _, Nat.le_refl _, fun _ _ hc => Or.inl hc,
    fun h' x' hx' => Or.inl ?_, fun _ he => Or.inl he⟩
  have hx' : Function.update n.handles h (some y) h' = some x' := hx'
  by_cases he : h' = h
  · rw [he, update_self] at hx'
    cases hx'
    exact ⟨x, he ▸ hx, hkey, hstate⟩
  · rw [update_of_ne he] at hx'
    exact ⟨x', hx', rfl, Or.inl rfl⟩

theorem Serves.answer (hs : Serves n n') {reply : Reply} {again : Bool}
    (hreply : reply = .refused ∨ reply = .empty ∨ again = true ∧
      ∃ h x, n.handles h = some x ∧ x.key = key ∧ x.state = .committed reply) :
    Serves n (n'.answer key reply again) := by
  refine ⟨hs.up, hs.journal, hs.inFlight, hs.applied, Nat.le_succ_of_le hs.nextCall, hs.nextHandle,
    fun no c hc => ?_, hs.handles, fun e he => ?_⟩
  · rcases hs.calls no c hc with h | ⟨he, hlt, h⟩
    · exact Or.inl h
    · exact Or.inr ⟨he, Nat.lt_succ_of_lt hlt, h⟩
  · rcases Runs.mem_concat he with he | rfl
    · exact (hs.endings e he).imp_right fun ⟨hlt, h⟩ => ⟨Nat.lt_succ_of_lt hlt, h⟩
    · exact Or.inr ⟨Nat.lt_succ_self _, rfl, rfl, hreply⟩

theorem serves_refl (hup : n.up = true) : Serves n n :=
  ⟨hup, rfl, rfl, rfl, Nat.le_refl _, Nat.le_refl _, fun _ _ hc => Or.inl hc,
    fun _ x hx => Or.inl ⟨x, hx, rfl, Or.inl rfl⟩, fun _ he => Or.inl he⟩

theorem Serves.enter (hs : Serves n n') (hcalls : n'.calls = n.calls)
    (hnext : n'.nextCall = n.nextCall) {handle : Option Nat}
    (hown : ∀ h, handle = some h → ∃ x, n.handles h = some x ∧ x.key = key) :
    Serves n (n'.enter key handle) := by
  refine ⟨hs.up, hs.journal, hs.inFlight, hs.applied, Nat.le_succ_of_le hs.nextCall, hs.nextHandle,
    fun no c hc => ?_, hs.handles, fun e he =>
      (hs.endings e he).imp_right fun ⟨hlt, h⟩ => ⟨Nat.lt_succ_of_lt hlt, h⟩⟩
  have hc : Function.update n'.calls n'.nextCall (some ⟨key, handle, .entered⟩) no = some c := hc
  by_cases he : no = n'.nextCall
  · rw [he, update_self] at hc
    cases hc
    exact Or.inr ⟨he.trans hnext, he ▸ Nat.lt_succ_self _, rfl, hown⟩
  · rw [update_of_ne he, hcalls] at hc
    exact Or.inl hc

theorem serves_commitHandle (hi : n.Inv) (hx : n.handles h = some x) (reads : Check) :
    Serves n (n.commitHandle h x reads) := by
  have hup := hi.up_of_handle hx
  have hset : ∀ state : HandleState, (∀ r, state = .committed r → r = .empty) →
      Serves n (n.setHandle h { x with state := state }) := fun state hstate =>
    serves_setHandle hup hx rfl (Or.inr hstate)
  unfold Node.commitHandle
  cases hst : x.state with
  | committed r =>
    exact (serves_refl hup).answer (Or.inr (Or.inr ⟨rfl, h, x, hx, rfl, hst⟩))
  | committing | finished => exact (serves_refl hup).answer (Or.inl rfl)
  | active =>
    dsimp only
    split_ifs with hstaged
    · refine (hset .committing nofun).enter rfl rfl fun h' hh => ?_
      cases hh
      exact ⟨x, hx, rfl⟩
    · cases reads with
      | passed =>
        refine (hset (.committed .empty) fun r hr => ?_).answer (Or.inr (Or.inl rfl))
        cases hr
        rfl
      | conflict => exact (hset .finished nofun).answer (Or.inl rfl)
      | canceled => exact (serves_refl hup).answer (Or.inl rfl)

end Scriva.CommitKeys
