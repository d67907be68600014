import Scriva.Mirror
import Scriva.IndexRuns

namespace Scriva

open Versioned

def Collection.applyStream (cfg : Config) (s : Collection) (ps : List (Entry × Readings)) :
    Option Collection :=
  ps.foldlM (fun s p => s.applyEntry cfg p.1 p.2) s

def updates (ps : List (Entry × Readings)) : List (Update Nat Record) :=
  ps.map fun p => p.1.update

/-- No record that the newest records before it do not cover is contested by one of them, at the
instant the follower applies it. -/
def KeysFree (R : Records) (ps : List (Entry × Readings)) : Prop :=
  ∀ pre p post, ps = pre ++ p :: post →
    covers Record.rev (newest Record.rev R (updates pre)) p.1.update = false →
    ¬ Contested (newest Record.rev R (updates pre)) p.1 p.2.early

section

variable {cfg : Config} {s : Collection} {R : Records} {p : Entry × Readings}
  {ps w rest : List (Entry × Readings)}

theorem keysFree_nil : KeysFree R [] := by
  intro pre p post hnil
  simp at hnil

theorem keysFree_cons : KeysFree R (p :: ps) ↔
    (covers Record.rev R p.1.update = false → ¬ Contested R p.1 p.2.early) ∧
      KeysFree (absorb Record.rev R p.1.update) ps := by
  have hstart : newest Record.rev R (updates []) = R := (absorbed_eq_newest R []).symm
  have hmove : ∀ pre, newest Record.rev R (updates (p :: pre)) =
      newest Record.rev (absorb Record.rev R p.1.update) (updates pre) := by
    intro pre
    rw [← absorbed_eq_newest, ← absorbed_eq_newest]
    rfl
  constructor
  · intro h
    refine ⟨?_, fun pre q post hps => ?_⟩
    · have hfirst := h [] p ps rfl
      rwa [hstart] at hfirst
    · have hnext := h (p :: pre) q post (by rw [hps]; rfl)
      rwa [hmove] at hnext
  · rintro ⟨hfirst, hnext⟩ pre q post hps
    cases pre with
    | nil =>
      cases hps
      rwa [hstart]
    | cons x pre =>
      obtain ⟨hx, htail⟩ := List.cons.inj hps
      subst hx
      rw [hmove]
      exact hnext pre q post htail

/-- A stream over a mirror goes through exactly if no key is contested on the way, and then the
mirror shows the newest of all records. -/
theorem Mirrors.applyStream (cfg : Config) (h : Mirrors s R)
    (hm : ∀ p ∈ ps, KeysAscend (p.1.data.getD []) ∧ decodable p.1.data = true) :
    (KeysFree R ps ∧ ∃ s', s.applyStream cfg ps = some s' ∧
        Mirrors s' (absorbed Record.rev R (updates ps))) ∨
      (¬ KeysFree R ps ∧ s.applyStream cfg ps = none) := by
  induction ps generalizing s R with
  | nil => exact Or.inl ⟨keysFree_nil, s, rfl, h⟩
  | cons p ps ih =>
    rw [keysFree_cons]
    have hstep : s.applyStream cfg (p :: ps) =
        (s.applyEntry cfg p.1 p.2).bind fun s' => s'.applyStream cfg ps := rfl
    rw [hstep]
    obtain ⟨hasc, hd⟩ := hm p (by simp)
    rcases h.applyEntry hasc hd with ⟨hcov, hcon, hnone⟩ | ⟨hfree, s₁, hs₁, h₁⟩
    · refine Or.inr ⟨fun hk => hk.1 hcov hcon, ?_⟩
      rw [hnone]
      rfl
    · rw [hs₁, Option.bind_some]
      rcases ih h₁ fun q hq => hm q (by simp [hq]) with ⟨hk, hrun⟩ | ⟨hk, hnone⟩
      · exact Or.inl ⟨⟨hfree, hk⟩, hrun⟩
      · exact Or.inr ⟨fun hkeys => hk hkeys.2, hnone⟩

theorem newest_of_rising (h : Rising Record.rev R (updates (w ++ rest))) (id : Nat) :
    newest Record.rev (after R (updates w)) (updates (w ++ rest)) id =
      after R (updates (w ++ rest)) id := by
  have hsplit : updates (w ++ rest) = updates w ++ updates rest := List.map_append
  rw [hsplit] at h ⊢
  rw [← absorbed_eq_newest, absorbed_overlap h]

/-- A follower with the leader's records of some way into a stream is given the stream from further
back, and every line decodes. It ends without an error and with the leader's records and keys
exactly if for each id the first record of the highest revision since the last delete is the latest
one, and no record it does not skip is contested. -/
theorem overlap_absorbed_iff (hs : Mirrors s (after R (updates w)))
    (hm : ∀ p ∈ w ++ rest, KeysAscend (p.1.data.getD []) ∧ decodable p.1.data = true) :
    (∃ s', s.applyStream cfg (w ++ rest) = some s' ∧ s'.held = after R (updates (w ++ rest)) ∧
        ∀ key now id, id ∈ s'.indexLookup key now ↔ Owns (after R (updates (w ++ rest))) key now id) ↔
      (∀ id, newest Record.rev (after R (updates w)) (updates (w ++ rest)) id =
        after R (updates (w ++ rest)) id) ∧
      KeysFree (after R (updates w)) (w ++ rest) := by
  constructor
  · rintro ⟨s', hs', hheld, -⟩
    rcases hs.applyStream cfg hm with ⟨hk, s₁, hs₁, h₁⟩ | ⟨-, hnone⟩
    · cases hs'.symm.trans hs₁
      refine ⟨fun id => ?_, hk⟩
      rw [← absorbed_eq_newest, ← h₁.held, hheld]
    · rw [hnone] at hs'
      cases hs'
  · rintro ⟨hnew, hk⟩
    rcases hs.applyStream cfg hm with ⟨-, s₁, hs₁, h₁⟩ | ⟨hnot, -⟩
    · rw [absorbed_eq_newest, funext hnew] at h₁
      refine ⟨s₁, hs₁, h₁.held, fun key now id => ?_⟩
      by_cases hx : (s₁.sidx keyField).isSome = true
      · exact h₁.mem_indexLookup hx
      · -- without a key index there is no keyed record either
        have hnone : s₁.sidx keyField = none := by simpa using hx
        constructor
        · intro hid
          simp [Collection.indexLookup, hnone] at hid
        · rintro ⟨q, hq, -, hkey⟩
          exact absurd (h₁.keyed id q key hq hkey) hx
    · exact absurd hk hnot

end

theorem mirrors_empty : Mirrors emptyCollection fun _ => none := by
  have htracks : Tracks emptyCollection :=
    ⟨by decide, by decide, fun _ => rfl, fun id hid => by simp [emptyCollection] at hid⟩
  exact ⟨⟨htracks, fun _ => rfl⟩, rfl, by simp [emptyCollection], by simp, rfl⟩

def keyedStart : List (Entry × Readings) :=
  [(replicated .insert 1 1 [(keyField, .str "k")], readingsAt 1)]

def keyedRest : List (Entry × Readings) :=
  [(deleteEntry 1 Rfc3339.zeroTime, readingsAt 2),
   (replicated .insert 2 1 [(keyField, .str "k")], readingsAt 3)]

theorem keyedStart_free : KeysFree (fun _ => none) keyedStart := by
  refine keysFree_cons.mpr ⟨?_, keysFree_nil⟩
  rintro - ⟨-, key, -, id, -, r, hr, -⟩
  cases hr

theorem keyedRest_free :
    KeysFree (after (fun _ => none) (updates keyedStart)) (keyedStart ++ keyedRest) := by
  refine keysFree_cons.mpr ⟨fun hcov => ?_, keysFree_cons.mpr ⟨fun _ hcon => hcon.1 rfl,
    keysFree_cons.mpr ⟨?_, keysFree_nil⟩⟩⟩
  · exact absurd hcov (by decide)
  · rintro - ⟨-, key, -, id, -, r, hr, -⟩
    by_cases hid : 1 = id
    · subst hid
      cases hr
    · rw [absorb_of_ne hid, absorb_of_ne hid] at hr
      have hnone : after (fun _ => none) (updates keyedStart) id = none := by
        simp [after, updates, keyedStart, assign_apply, Entry.update, replicated, hid]
      rw [hnone] at hr
      cases hr

theorem overlap_absorbed_sample : ∃ s s',
    emptyCollection.applyStream plainConfig keyedStart = some s ∧
      s.applyStream plainConfig (keyedStart ++ keyedRest) = some s' ∧
      s'.held = after (fun _ => none) (updates (keyedStart ++ keyedRest)) := by
  have hm : ∀ p ∈ keyedStart ++ keyedRest,
      KeysAscend (p.1.data.getD []) ∧ decodable p.1.data = true := by decide
  have hms : ∀ p ∈ keyedStart, KeysAscend (p.1.data.getD []) ∧ decodable p.1.data = true :=
    fun p hp => hm p (List.mem_append_left _ hp)
  rcases mirrors_empty.applyStream plainConfig hms with ⟨-, s, hs, h⟩ | ⟨hnot, -⟩
  · have hstart : absorbed Record.rev (fun _ => none) (updates keyedStart) =
        after (fun _ => none) (updates keyedStart) := rfl
    rw [hstart] at h
    have hnew : ∀ id, newest Record.rev (after (fun _ => none) (updates keyedStart))
        (updates (keyedStart ++ keyedRest)) id =
          after (fun _ => none) (updates (keyedStart ++ keyedRest)) id := by
      refine newest_of_rising (rising_cons.mpr ⟨by simp, rising_cons.mpr ⟨fun v hv => ?_,
        rising_cons.mpr ⟨fun v _ cur hcur => ?_, rising_nil⟩⟩⟩)
      · cases hv
      · cases hcur
    obtain ⟨s', hs', hheld, -⟩ := (overlap_absorbed_iff h hm).mpr ⟨hnew, keyedRest_free⟩
    exact ⟨s, s', hs, hs', hheld⟩
  · exact absurd keyedStart_free hnot

def keyMoves : List CollectionOp :=
  [.insertWithKey "k" none (readingsAt 1), .delete 1 (readingsAt 2),
   .insertWithKey "k" none (readingsAt 3)]

/-- A copy of the leader behind the three writes is refused the first of them. -/
theorem moved_key_refused : ∃ s l,
    Runs.run (Collection.step plainConfig) emptyCollection keyMoves = some s ∧
      s.log.head? = some l ∧ s.applyEntry plainConfig l.entry (readingsAt 4) = none := by
  obtain ⟨s, hs, l, hl, hnone⟩ : ∃ s ∈ Runs.run (Collection.step plainConfig) emptyCollection keyMoves,
      ∃ l ∈ s.log.head?, s.applyEntry plainConfig l.entry (readingsAt 4) = none := by
    decide
  exact ⟨s, l, hs, hl, hnone⟩

end Scriva
