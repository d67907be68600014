import Scriva.CommitJournal

namespace Scriva.CommitKeys

open Decisions Durable List Option Function

def Phase.undecided : Phase → Bool
  | .looked | .allocated _ | .undone _ => true
  | _ => false

structure Call.Stands (n : Node) (c : Call) : Prop where
  claims : c.phase.holds = true → c.key ≠ [] → c.key ∈ n.inFlight
  free : c.phase.undecided = true → c.key ≠ [] → KeyFree n.journal.records c.key
  issued : ∀ tx, c.phase.tx = some tx → tx ∈ n.journal.issued
  fresh : ∀ tx, c.phase = .allocated tx → n.journal.table.byTx tx = none
  decided : ∀ tx, c.phase = .decided tx → (c.key, tx) ∈ commitsOf n.journal.records

def Call.Apart (c c' : Call) : Prop :=
  (c.phase.holds = true → c'.phase.holds = true → c.key ≠ [] → c.key ≠ c'.key) ∧
  ∀ tx, c.phase.tx = some tx → c'.phase.tx ≠ some tx

def Reply.Tells (rs : List Decisions.Record) (key : Bytes) (r : Reply) : Prop :=
  r = .empty ∨ ∃ tx, (r = .committed tx ∨ r = .replayed tx) ∧ (key, tx) ∈ commitsOf rs

structure Node.Inv (n : Node) : Prop where
  journal : n.journal.Sound
  level : n.up = true → n.journal.Level
  applied : ∀ p ∈ n.applied, p ∈ commitsOf n.journal.records
  calls : ∀ no c, n.calls no = some c → no < n.nextCall ∧ c.Stands n
  apart : ∀ no no' c c', no ≠ no' → n.calls no = some c → n.calls no' = some c' → c.Apart c'
  owner : ∀ no c h, n.calls no = some c → c.handle = some h →
    h < n.nextHandle ∧ ∀ x, n.handles h = some x → x.key = c.key
  handles : ∀ h x, n.handles h = some x →
    h < n.nextHandle ∧ ∀ r, x.state = .committed r → r.Tells n.journal.records x.key
  down : n.up = false → (∀ no, n.calls no = none) ∧ ∀ h, n.handles h = none
  ended : ∀ e ∈ n.endings, e.no < n.nextCall

structure Takes (n : Node) (no : Nat) (j : XTxJournal) : Prop where
  sound : j.Sound
  level : j.Level
  grows : ∀ p ∈ commitsOf n.journal.records, p ∈ commitsOf j.records
  issued : ∀ tx ∈ n.journal.issued, tx ∈ j.issued
  free : ∀ no' c, no' ≠ no → n.calls no' = some c → c.phase.undecided = true → c.key ≠ [] →
    KeyFree j.records c.key
  fresh : ∀ no' c tx, no' ≠ no → n.calls no' = some c → c.phase = .allocated tx →
    j.table.byTx tx = none

structure Moves (n n' : Node) (no : Nat) (c : Call) : Prop where
  takes : Takes n no n'.journal
  up : n'.up = n.up
  nextCall : n'.nextCall = n.nextCall
  nextHandle : n'.nextHandle = n.nextHandle
  inFlight : ∀ key ∈ n.inFlight, key ∈ n'.inFlight ∨ (c.phase.holds = true ∧ key = c.key)
  others : ∀ no', no' ≠ no → n'.calls no' = n.calls no'
  own : ∀ c', n'.calls no = some c' → c'.key = c.key ∧ c'.handle = c.handle ∧ c'.Stands n' ∧
    (c'.phase.holds = true → c.phase.holds = true ∨ c.key = [] ∨ c.key ∉ n.inFlight) ∧
    ∀ tx, c'.phase.tx = some tx → c.phase.tx = some tx ∨ tx ∉ n.journal.issued
  handles : ∀ h x', n'.handles h = some x' → ∃ x, n.handles h = some x ∧ x'.key = x.key ∧
    (x'.state = x.state ∨
      c.handle = some h ∧ ∀ r, x'.state = .committed r → r.Tells n'.journal.records c.key)
  applied : ∀ p ∈ n'.applied, p ∈ n.applied ∨ p ∈ commitsOf n'.journal.records
  kept : ∀ p ∈ n.applied, p ∈ n'.applied
  endings : ∀ e ∈ n'.endings, e ∈ n.endings ∨ e.no = no ∧ e.key = c.key

theorem Reply.Tells.mono {rs rs' : List Decisions.Record} {key : Bytes} {r : Reply}
    (h : r.Tells rs key)
    (hgrows : ∀ p ∈ commitsOf rs, p ∈ commitsOf rs') : r.Tells rs' key := by
  rcases h with h | ⟨tx, hr, hp⟩
  · exact Or.inl h
  · exact Or.inr ⟨tx, hr, hgrows _ hp⟩

theorem Call.Apart.symm {c c' : Call} (h : c.Apart c') : c'.Apart c := by
  refine ⟨fun hh hh' hne he => h.1 hh' hh (he ▸ hne) he.symm, fun tx htx htx' => ?_⟩
  exact h.2 tx htx' htx

section Steps

variable {n n' : Node} {no : Nat} {c : Call}

theorem Node.Inv.up_of_call (hi : n.Inv) (hc : n.calls no = some c) : n.up = true := by
  by_contra hup
  have hnone := (hi.down (by simpa using hup)).1 no
  rw [hc] at hnone
  cases hnone

theorem inv_move (hi : n.Inv) (hc : n.calls no = some c) (hm : Moves n n' no c) : n'.Inv := by
  have hup := hi.up_of_call hc
  -- The other calls see nothing of it.
  have hother : ∀ no' c', no' ≠ no → n'.calls no' = some c' → c'.Stands n' := by
    intro no' c' hne hc'
    rw [hm.others no' hne] at hc'
    have hs := (hi.calls no' c' hc').2
    refine ⟨fun hh hk => ?_, hm.takes.free no' c' hne hc', fun tx htx => ?_,
      fun tx => hm.takes.fresh no' c' tx hne hc', fun tx htx => ?_⟩
    · rcases hm.inFlight _ (hs.claims hh hk) with h | ⟨hh', he⟩
      · exact h
      · exact absurd he ((hi.apart no' no c' c hne hc' hc).1 hh hh' hk)
    · exact hm.takes.issued tx (hs.issued tx htx)
    · exact hm.takes.grows _ (hs.decided tx htx)
  have hmine : ∀ no' c' c'', no' ≠ no → n'.calls no' = some c' → n'.calls no = some c'' →
      c'.Apart c'' := by
    intro no' c' c'' hne hc' hc''
    rw [hm.others no' hne] at hc'
    obtain ⟨hkey, -, -, hholds, htx⟩ := hm.own c'' hc''
    obtain ⟨hk, ht⟩ := hi.apart no' no c' c hne hc' hc
    have hs := (hi.calls no' c' hc').2
    refine ⟨fun hh hh' hne' he => ?_, fun tx h' h'' => ?_⟩
    · rw [hkey] at he
      rcases hholds hh' with h | h | h
      · exact hk hh h hne' he
      · exact hne' (he.trans h)
      · exact h (he ▸ hs.claims hh hne')
    · rcases htx tx h'' with h | h
      · exact ht tx h' h
      · exact h (hs.issued tx h')
  refine ⟨hm.takes.sound, fun _ => hm.takes.level, ?_, ?_, ?_, ?_, ?_, fun h => ?_, fun e he => ?_⟩
  · intro p hp
    rcases hm.applied p hp with h | h
    · exact hm.takes.grows p (hi.applied p h)
    · exact h
  · intro no' c' hc'
    rw [hm.nextCall]
    by_cases he : no' = no
    · rw [he] at hc' ⊢
      exact ⟨(hi.calls no c hc).1, (hm.own c' hc').2.2.1⟩
    · exact ⟨(hi.calls no' c' (by rw [← hm.others no' he]; exact hc')).1, hother no' c' he hc'⟩
  · intro no1 no2 c1 c2 hne h1 h2
    by_cases he1 : no1 = no
    · have he2 : no2 ≠ no := fun h => hne (he1.trans h.symm)
      exact (hmine no2 c2 c1 he2 h2 (he1 ▸ h1)).symm
    · by_cases he2 : no2 = no
      · exact hmine no1 c1 c2 he1 h1 (he2 ▸ h2)
      · rw [hm.others no1 he1] at h1
        rw [hm.others no2 he2] at h2
        exact hi.apart no1 no2 c1 c2 hne h1 h2
  · intro no' c' h hc' hh
    obtain ⟨c0, hc0, hkey, hhandle⟩ : ∃ c0, n.calls no' = some c0 ∧ c'.key = c0.key ∧
        c'.handle = c0.handle := by
      by_cases he : no' = no
      · rw [he] at hc' ⊢
        obtain ⟨hk, hh', -⟩ := hm.own c' hc'
        exact ⟨c, hc, hk, hh'⟩
      · rw [hm.others no' he] at hc'
        exact ⟨c', hc', rfl, rfl⟩
    obtain ⟨hlt, hx⟩ := hi.owner no' c0 h hc0 (hhandle ▸ hh)
    refine ⟨hm.nextHandle ▸ hlt, fun x' hx' => ?_⟩
    obtain ⟨x, hx0, hxk, -⟩ := hm.handles h x' hx'
    rw [hxk, hkey]
    exact hx x hx0
  · intro h x' hx'
    obtain ⟨x, hx0, hxk, hstate⟩ := hm.handles h x' hx'
    obtain ⟨hlt, htells⟩ := hi.handles h x hx0
    refine ⟨hm.nextHandle ▸ hlt, fun r hr => ?_⟩
    rcases hstate with hsame | ⟨hown, hnew⟩
    · rw [hxk]
      exact (htells r (hsame ▸ hr)).mono hm.takes.grows
    · rw [hxk, (hi.owner no c h hc hown).2 x hx0]
      exact hnew r hr
  · rw [hm.up, hup] at h
    cases h
  · rw [hm.nextCall]
    rcases hm.endings e he with h | ⟨hno, -⟩
    · exact hi.ended e h
    · rw [hno]
      exact (hi.calls no c hc).1

theorem takes_refl (hi : n.Inv) (hup : n.up = true) (no : Nat) : Takes n no n.journal :=
  ⟨hi.journal, hi.level hup, fun _ h => h, fun _ h => h,
    fun no' c _ hc => (hi.calls no' c hc).2.free,
    fun no' c tx _ hc => (hi.calls no' c hc).2.fresh tx⟩

variable {j : XTxJournal}

theorem takes_appended {r : Decisions.Record} {w : Written} (hi : n.Inv) (hs : j.Sound)
    (hl : j.Level) (ha : Appended n.journal j r w)
    (hkey : r.k = kindCommit → ∀ no' c, no' ≠ no → n.calls no' = some c →
      c.phase.undecided = true → c.key ≠ [] → r.key ≠ c.key)
    (htx : ∀ no' c, no' ≠ no → n.calls no' = some c → c.phase.tx ≠ some r.tx) : Takes n no j := by
  refine ⟨hs, hl, ?_, fun tx h => ha.issued ▸ h, ?_, ?_⟩
  · intro p hp
    rw [ha.records]
    split_ifs
    · rw [commitsOf_append]
      exact mem_append_left _ hp
    · exact hp
  · intro no' c hne hc hund hk
    have hfree := (hi.calls no' c hc).2.free hund hk
    rw [ha.records]
    split_ifs
    · exact hfree.concat fun hcommit => hkey hcommit no' c hne hc hund hk
    · exact hfree
  · intro no' c tx hne hc hphase
    have hne' : tx ≠ r.tx := by
      rintro rfl
      exact htx no' c hne hc (by rw [hphase]; rfl)
    rw [ha.byTx tx hne']
    exact (hi.calls no' c hc).2.fresh tx hphase

theorem takes_abort (hi : n.Inv) (hup : n.up = true) {tx why : Bytes} {now : Instant} {f : Faults}
    (htx : ∀ no' c, no' ≠ no → n.calls no' = some c → c.phase.tx ≠ some tx) :
    Takes n no (n.journal.abort tx key why now f) := by
  unfold XTxJournal.abort
  by_cases hskip : n.journal.poisoned = true ∨ (n.journal.table.byTx tx).isSome = true
  · rw [if_pos hskip]
    exact takes_refl hi hup no
  · rw [if_neg hskip]
    rw [not_or, Bool.not_eq_true, Bool.not_eq_true] at hskip
    have hcur := hi.level hup hskip.1
    have habort : (abortRecord now tx key why).k ≠ kindCommit := by
      show kindAbort ≠ kindCommit
      decide
    have hnone : n.journal.table.byTx tx = none := by simpa using hskip.2
    have hadmits : n.journal.Admits (abortRecord now tx key why) :=
      ⟨Or.inr rfl, rfl, hnone, fun h => absurd h habort⟩
    cases happ : n.journal.appendDecision (abortRecord now tx key why) f with
    | mk j w =>
      obtain ⟨hs, hl, ha⟩ := appendDecision_spec hi.journal hcur hadmits happ
      exact takes_appended hi hs hl ha (fun h => absurd h habort) htx

end Steps

end Scriva.CommitKeys
