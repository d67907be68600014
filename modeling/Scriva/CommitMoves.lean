import Scriva.CommitCalls

namespace Scriva.CommitKeys

open Decisions Durable List Option Function

variable {n n' : Node} {no : Nat} {c : Call} {j : XTxJournal} {sha : Bytes → Bytes}

theorem moves_conclude (ht : Takes n no j) (reply : Reply) {state : HandleState}
    (hstate : ∀ r, state = .committed r → r.Tells j.records c.key) :
    Moves n { n.conclude no c reply state with journal := j } no c := by
  refine ⟨ht, rfl, rfl, rfl, ?_, fun no' hne => update_of_ne hne .., ?_, ?_,
    fun p hp => Or.inl hp, fun _ hp => hp, fun e he => ?_⟩
  · intro key hkey
    show key ∈ (if c.phase.holds then n.inFlight.filter (· ≠ c.key) else n.inFlight) ∨ _
    by_cases hh : c.phase.holds = true
    · by_cases he : key = c.key
      · exact Or.inr ⟨hh, he⟩
      · rw [if_pos hh]
        exact Or.inl (mem_filter.mpr ⟨hkey, by simpa using he⟩)
    · rw [if_neg hh]
      exact Or.inl hkey
  · intro c' hc'
    have hnone : Function.update n.calls no none no = some c' := hc'
    rw [update_self] at hnone
    cases hnone
  · intro h x' hx'
    have hx : (if c.handle = some h then (n.handles h).map fun x => { x with state := state }
      else n.handles h) = some x' := hx'
    by_cases hh : c.handle = some h
    · rw [if_pos hh] at hx
      obtain ⟨x, hx0, rfl⟩ := map_eq_some_iff.mp hx
      exact ⟨x, hx0, rfl, Or.inr ⟨hh, hstate⟩⟩
    · rw [if_neg hh] at hx
      exact ⟨x', hx, rfl, Or.inl rfl⟩
  · rcases Runs.mem_concat he with he | rfl
    · exact Or.inl he
    · exact Or.inr ⟨rfl, rfl⟩

theorem moves_setCall {phase : Phase} {inFlight : List Bytes} {applied : List (Bytes × Bytes)}
    (ht : Takes n no j) (hin : ∀ key ∈ n.inFlight, key ∈ inFlight)
    (hstands : ({ c with phase := phase } : Call).Stands
      { n.setCall no { c with phase := phase } with
        journal := j, inFlight := inFlight, applied := applied })
    (hholds : phase.holds = true → c.phase.holds = true ∨ c.key = [] ∨ c.key ∉ n.inFlight)
    (htx : ∀ tx, phase.tx = some tx → c.phase.tx = some tx ∨ tx ∉ n.journal.issued)
    (happlied : ∀ p ∈ applied, p ∈ n.applied ∨ p ∈ commitsOf j.records)
    (hkept : ∀ p ∈ n.applied, p ∈ applied) :
    Moves n { n.setCall no { c with phase := phase } with
      journal := j, inFlight := inFlight, applied := applied } no c := by
  refine ⟨ht, rfl, rfl, rfl, fun key hk => Or.inl (hin key hk),
    fun no' hne => update_of_ne hne .., ?_, fun h x' hx' => ⟨x', hx', rfl, Or.inl rfl⟩,
    happlied, hkept, fun e he => Or.inl he⟩
  intro c' hc'
  have hself : Function.update n.calls no (some { c with phase := phase }) no = some c' := hc'
  rw [update_self] at hself
  cases hself
  exact ⟨rfl, rfl, hstands, hholds, htx⟩

theorem holds_of_undecided {p : Phase} (h : p.undecided = true) : p.holds = true := by
  cases p <;> first | rfl | cases h

theorem moves_decide (hi : n.Inv) (hc : n.calls no = some c) {tx : Bytes}
    (hphase : c.phase = .allocated tx) (parts : List Part) (now : Instant) (f : Faults) :
    Moves n (n.decide sha no c tx parts now f) no c := by
  have hup := hi.up_of_call hc
  have hs := (hi.calls no c hc).2
  have htx : c.phase.tx = some tx := by rw [hphase]; rfl
  have hund : c.phase.undecided = true := by rw [hphase]; rfl
  have hholds := holds_of_undecided hund
  have hissued := hs.issued tx htx
  have hother : ∀ no' c', no' ≠ no → n.calls no' = some c' → c'.phase.tx ≠ some tx :=
    fun no' c' hne hc' h => (hi.apart no' no c' c hne hc' hc).2 tx h htx
  -- The call has failed, and the journal is as the other calls know it.
  have hundone : ∀ j, Takes n no j → j.records = n.journal.records →
      Moves n { n.setCall no { c with phase := .undone tx } with journal := j } no c := by
    intro j ht hrec
    refine moves_setCall ht (fun _ h => h) ?_ (fun _ => Or.inl hholds)
      (fun tx' h => Or.inl (htx.trans h)) (fun p hp => Or.inl hp) fun _ hp => hp
    exact ⟨fun _ hk => hs.claims hholds hk, fun _ hk => hrec ▸ hs.free hund hk,
      fun tx' h => ht.issued tx' (Option.some.inj h ▸ hissued), nofun, nofun⟩
  unfold Node.decide XTxJournal.commitPrepared
  by_cases hp : n.journal.poisoned = true
  · rw [if_pos hp]
    exact hundone n.journal (takes_refl hi hup no) rfl
  · rw [if_neg hp]
    have hcur := hi.level hup (by simpa using hp)
    have hadmits : n.journal.Admits (commitRecord sha now tx c.key parts none) :=
      ⟨Or.inl rfl, rfl, hs.fresh tx hphase, fun _ hk => hs.free hund hk⟩
    cases happ : n.journal.appendDecision (commitRecord sha now tx c.key parts none) f with
    | mk j w =>
      obtain ⟨hsound, hlevel, ha⟩ := appendDecision_spec hi.journal hcur hadmits happ
      have ht : Takes n no j :=
        takes_appended hi hsound hlevel ha (fun _ no' c' hne hc' hund' hk he =>
          (hi.apart no' no c' c hne hc' hc).1 (holds_of_undecided hund') hholds hk he.symm) hother
      have htsettle : Takes n no (j.settle tx) :=
        ⟨⟨ht.sound.versions, ht.sound.decides, ht.sound.once, ht.sound.table⟩, ht.level, ht.grows,
          ht.issued, ht.free, ht.fresh⟩
      have hrecords := ha.records
      cases w with
      | installed =>
        have hin : (c.key, tx) ∈ commitsOf j.records := by
          rw [hrecords]
          exact mem_commitsOf.mpr ⟨_, mem_concat_self, rfl, rfl, rfl⟩
        refine moves_setCall htsettle (fun _ h => h) ?_ (fun _ => Or.inl hholds)
          (fun tx' h => Or.inl (htx.trans h)) (fun p hp' => ?_)
          fun _ hp => mem_append_left _ hp
        · refine ⟨fun _ hk => hs.claims hholds hk, nofun,
            fun tx' h => htsettle.issued tx' (Option.some.inj h ▸ hissued), nofun, fun tx' h => ?_⟩
          cases h
          exact hin
        · rcases mem_append.mp hp' with h | h
          · exact Or.inl h
          · exact Or.inr (mem_singleton.mp h ▸ hin)
      | unsynced => exact moves_conclude ht _ nofun
      | conflict => exact absurd rfl ha.fits
      | failed => exact hundone _ htsettle hrecords

theorem advance_spec {m : Move} (h : n.advance sha no c m = some n') :
    match m with
    | .refuse canceled => (c.phase = .entered ∨ c.phase = .looked) ∧
      n' = n.conclude no c .refused (if canceled then .active else .finished)
    | .claim => c.phase = .entered ∧
      (c.key = [] ∧ n' = n.setCall no { c with phase := .looked } ∨
      c.key ≠ [] ∧ n' = n.conclude no c .refused .active ∨
      c.key ≠ [] ∧ c.key ∉ n.inFlight ∧
        n' = { n.setCall no { c with phase := .claimed } with inFlight := c.key :: n.inFlight })
    | .look => c.phase = .claimed ∧ ∃ tx,
      (n.journal.statusByKey c.key = (.committed, tx) ∧
        n' = n.conclude no c (.replayed tx) (.committed (.replayed tx)) ∨
      (n.journal.statusByKey c.key).1 ≠ .committed ∧ n' = n.setCall no { c with phase := .looked })
    | .allocate tx => c.phase = .looked ∧ (n' = n.conclude no c .refused .finished ∨
      ∃ j, n.journal.allocateTxID tx c.key = some j ∧
        n' = { n.setCall no { c with phase := .allocated tx } with journal := j })
    | .decide parts now f => ∃ tx, c.phase = .allocated tx ∧ n' = n.decide sha no c tx parts now f
    | .abort why now f => ∃ tx, c.phase.tx = some tx ∧
      n' = { n.conclude no c (.failed tx) .finished with
             journal := n.journal.abort tx c.key why now f }
    | .finish => ∃ tx, c.phase = .decided tx ∧
      n' = n.conclude no c (.committed tx) (.committed (.committed tx)) := by
  unfold Node.advance at h
  cases m with
  | refuse canceled => grind
  | claim => grind
  | look =>
    cases hst : n.journal.statusByKey c.key with
    | mk st tx => cases st <;> grind
  | allocate tx => grind [map_eq_some_iff]
  | decide parts now f => grind
  | abort why now f => grind [Phase.tx]
  | finish => grind

theorem moves_advance {m : Move} (hi : n.Inv) (hc : n.calls no = some c)
    (h : n.advance sha no c m = some n') : Moves n n' no c := by
  have hup := hi.up_of_call hc
  have hs := (hi.calls no c hc).2
  have hrefl := takes_refl hi hup no
  have hspec := advance_spec h
  cases m with
  | refuse canceled =>
    obtain ⟨-, rfl⟩ := hspec
    refine moves_conclude hrefl _ fun r hr => ?_
    cases canceled <;> cases hr
  | claim =>
    obtain ⟨-, ⟨hkey, rfl⟩ | ⟨-, rfl⟩ | ⟨-, hin, rfl⟩⟩ := hspec
    · exact moves_setCall hrefl (fun _ h => h)
        ⟨fun _ hk => absurd hkey hk, fun _ hk => absurd hkey hk, nofun, nofun, nofun⟩
        (fun _ => Or.inr (Or.inl hkey)) nofun (fun p hp => Or.inl hp) fun _ hp => hp
    · exact moves_conclude hrefl _ nofun
    · exact moves_setCall hrefl (fun _ h => mem_cons_of_mem _ h)
        ⟨fun _ _ => mem_cons_self, nofun, nofun, nofun, nofun⟩
        (fun _ => Or.inr (Or.inr hin)) nofun (fun p hp => Or.inl hp) fun _ hp => hp
  | look =>
    obtain ⟨hph, tx, ⟨hst, rfl⟩ | ⟨hno, rfl⟩⟩ := hspec
    · have hne : c.key ≠ [] := by
        intro he
        rw [he] at hst
        cases hst
      have hmem := (statusByKey_spec hi.journal hne).1
      rw [hst] at hmem
      refine moves_conclude hrefl _ fun r hr => ?_
      cases hr
      exact Or.inr ⟨_, Or.inr rfl, hmem rfl⟩
    · have hholds : c.phase.holds = true := by rw [hph]; rfl
      exact moves_setCall hrefl (fun _ h => h)
        ⟨fun _ hk => hs.claims hholds hk, fun _ hk => (statusByKey_spec hi.journal hk).2 hno,
          nofun, nofun, nofun⟩ (fun _ => Or.inl hholds) nofun (fun p hp => Or.inl hp) fun _ hp => hp
  | allocate tx =>
    obtain ⟨hph, rfl | ⟨j, hj, rfl⟩⟩ := hspec
    · exact moves_conclude hrefl _ nofun
    · have hund : c.phase.undecided = true := by rw [hph]; rfl
      have hholds := holds_of_undecided hund
      obtain ⟨hnew, rfl⟩ := Runs.barred hj
      rw [not_or] at hnew
      have ht : Takes n no { n.journal with issued := tx :: n.journal.issued,
                                            pending := (tx, c.key) :: n.journal.pending } :=
        ⟨⟨hrefl.sound.versions, hrefl.sound.decides, hrefl.sound.once, hrefl.sound.table⟩,
          hrefl.level, hrefl.grows, fun _ h => mem_cons_of_mem _ h, hrefl.free, hrefl.fresh⟩
      refine moves_setCall ht (fun _ h => h)
        ⟨fun _ hk => hs.claims hholds hk, fun _ hk => hs.free hund hk, fun tx' htx => ?_,
          fun tx' htx => ?_, nofun⟩ (fun _ => Or.inl hholds) (fun tx' htx => ?_)
        (fun p hp => Or.inl hp) fun _ hp => hp
      · cases htx
        exact mem_cons_self
      · cases htx
        simpa using hnew.2
      · cases htx
        exact Or.inr hnew.1
  | decide parts now f =>
    obtain ⟨tx, hph, rfl⟩ := hspec
    exact moves_decide hi hc hph parts now f
  | abort why now f =>
    obtain ⟨tx, htx, rfl⟩ := hspec
    have ht : Takes n no (n.journal.abort tx c.key why now f) := takes_abort hi hup
      fun no' c' hne hc' h => (hi.apart no' no c' c hne hc' hc).2 tx h htx
    exact moves_conclude ht _ nofun
  | finish =>
    obtain ⟨tx, hph, rfl⟩ := hspec
    refine moves_conclude hrefl _ fun r hr => ?_
    cases hr
    exact Or.inr ⟨tx, Or.inl rfl, hs.decided tx hph⟩

end Scriva.CommitKeys
