import Scriva.WatchEvents
import Scriva.Lib.Gaps

namespace Scriva

open Gaps List Option

/-- The channel of a subscription, where nothing stands for the overflow sentinel, what its
consumer has received, and the emit in progress: its event, and whether it has put a sentinel in
front. Beside that, the emits that are over and whether the event was put into the channel. -/
structure Subscription where
  queue : List (Option WatchEvent)
  overflowed : Bool
  sending : Option (WatchEvent × Bool)
  got : List (Option WatchEvent)
  emitted : List (WatchEvent × Bool)

def Subscription.fresh : Subscription :=
  { queue := [], overflowed := false, sending := none, got := [], emitted := [] }

inductive SubscriptionAct where
  | emit (ev : WatchEvent)
  | send
  | receive

/-- The first half of `emit`: behind a gap it puts the sentinel in, or drops the event. -/
def Subscription.emit (size : Nat) (ev : WatchEvent) (s : Subscription) : Subscription :=
  if s.overflowed then
    if s.queue.length < size then
      { s with queue := s.queue ++ [none], overflowed := false, sending := some (ev, true) }
    else { s with emitted := s.emitted ++ [(ev, false)] }
  else { s with sending := some (ev, false) }

def Subscription.send (size : Nat) (s : Subscription) : Subscription :=
  match s.sending with
  | none => s
  | some (ev, _) =>
    if s.queue.length < size then
      { s with queue := s.queue ++ [some ev], sending := none, emitted := s.emitted ++ [(ev, true)] }
    else { s with overflowed := true, sending := none, emitted := s.emitted ++ [(ev, false)] }

def Subscription.receive (s : Subscription) : Option Subscription :=
  match s.queue with
  | [] => none
  | x :: xs => some { s with queue := xs, got := s.got ++ [x] }

def Subscription.step (size : Nat) (s : Subscription) : SubscriptionAct → Option Subscription
  | .emit ev => if s.sending.isSome then none else some (s.emit size ev)
  | .send => if s.sending.isSome then some (s.send size) else none
  | .receive => s.receive

def Subscription.Roomy (size : Nat) (s : Subscription) : SubscriptionAct → Prop
  | .send => s.sending.elim True fun p => p.2 = true → s.queue.length < size
  | _ => True

instance (size : Nat) (s : Subscription) (a : SubscriptionAct) : Decidable (s.Roomy size a) := by
  cases a <;> dsimp only [Subscription.Roomy]
  · infer_instance
  · cases s.sending <;> dsimp only [Option.elim] <;> infer_instance
  · infer_instance

def Subscription.ahead (s : Subscription) : List (Option WatchEvent) :=
  s.sending.elim [] fun p => if p.2 then [none] else []

structure Subscription.Inv (s : Subscription) : Prop where
  stream : s.got ++ s.queue = marked false s.emitted ++ s.ahead
  gap : gapAfter false s.emitted = (s.overflowed || s.sending.elim false Prod.snd)
  once : s.overflowed = true → s.sending = none

section

variable {size : Nat} {s t : Subscription}

theorem Subscription.Inv.emit (hi : s.Inv) (hidle : s.sending = none) (ev : WatchEvent) :
    (s.emit size ev).Inv := by
  obtain ⟨hstream, hgap, -⟩ := hi
  simp only [Subscription.ahead, hidle, elim_none, append_nil] at hstream
  rw [hidle] at hgap
  unfold Subscription.emit
  split_ifs with hover hroom
  · rw [hover] at hgap
    refine ⟨?_, hgap, nofun⟩
    exact (append_assoc ..).symm.trans (congrArg (· ++ [none]) hstream)
  · refine ⟨?_, ?_, fun _ => hidle⟩
    · simp [Subscription.ahead, hidle, hstream, marked_append, marked]
    · rw [gapAfter_concat, hover]
      rfl
  · refine ⟨hstream.trans (append_nil _).symm, hgap, fun h => ?_⟩
    exact absurd h hover

theorem Subscription.Inv.send (hi : s.Inv) (hok : s.Roomy size .send) : (s.send size).Inv := by
  have hkept := hi
  obtain ⟨hstream, hgap, honce⟩ := hi
  unfold Subscription.send
  unfold Subscription.Roomy at hok
  cases hsend : s.sending with
  | none => exact hkept
  | some p =>
    obtain ⟨ev, flushed⟩ := p
    rw [hsend] at hok
    have hover : s.overflowed = false := by
      by_contra hne
      rw [honce (by simpa using hne)] at hsend
      cases hsend
    have hgap : gapAfter false s.emitted = flushed := by simpa [hsend, hover] using hgap
    simp only [Subscription.ahead, hsend, elim_some] at hstream
    dsimp only
    split_ifs with hroom
    · refine ⟨?_, ?_, fun _ => rfl⟩
      · rw [← append_assoc, hstream]
        simp [Subscription.ahead, marked_append, marked, hgap]
      · rw [gapAfter_concat, hover]
        rfl
    · -- No sentinel was put in, so the stream is as before.
      obtain rfl : flushed = false := by
        by_contra hne
        exact hroom (hok (by simpa using hne))
      refine ⟨?_, ?_, fun _ => rfl⟩
      · simpa [Subscription.ahead, marked_append, marked] using hstream
      · rw [gapAfter_concat]
        rfl

theorem Subscription.Inv.receive (hi : s.Inv) (h : s.receive = some t) : t.Inv := by
  obtain ⟨hstream, hgap, honce⟩ := hi
  unfold Subscription.receive at h
  split at h
  · cases h
  next x xs hq =>
    cases h
    refine ⟨?_, hgap, honce⟩
    rw [hq] at hstream
    refine Eq.trans ?_ hstream
    simp

theorem Subscription.inv_step {a : SubscriptionAct} (hi : s.Inv) (hok : s.Roomy size a)
    (h : s.step size a = some t) : t.Inv := by
  cases a with
  | emit ev =>
    obtain ⟨hidle, rfl⟩ := Runs.barred h
    exact hi.emit (by simpa using hidle) ev
  | send =>
    obtain ⟨-, rfl⟩ := Runs.guarded h
    exact hi.send hok
  | receive => exact hi.receive h

end

theorem Subscription.mem_ahead {s : Subscription} {x : Option WatchEvent} (hx : x ∈ s.ahead) :
    x = none := by
  unfold Subscription.ahead at hx
  cases hsend : s.sending with
  | none =>
    rw [hsend] at hx
    cases hx
  | some p =>
    rw [hsend, elim_some] at hx
    split at hx
    · exact mem_singleton.mp hx
    · cases hx

theorem Subscription.Inv.got_prefix {s : Subscription} (hi : s.Inv) :
    s.got.reduceOption <+: Gaps.kept s.emitted := by
  have hnone : s.ahead.reduceOption = [] := by
    refine filterMap_eq_nil_iff.mpr fun x hx => ?_
    rw [mem_ahead hx]
    rfl
  have hall := congrArg List.reduceOption hi.stream
  rw [reduceOption_append, reduceOption_append, reduceOption_marked, hnone,
    append_nil] at hall
  exact ⟨_, hall⟩

theorem Subscription.Inv.got_marked {s : Subscription} (hi : s.Inv) {front post : List (Option WatchEvent)}
    {b : WatchEvent} (hgot : s.got = front ++ some b :: post) :
    ∃ rest, marked false s.emitted = front ++ some b :: rest := by
  have hstream := hi.stream
  rw [hgot, append_assoc, cons_append, append_cons, append_eq_append_iff]
    at hstream
  rcases hstream with ⟨rest, hrest, -⟩ | ⟨cut, hcut, htail⟩
  · exact ⟨rest, by rw [hrest]; simp⟩
  · -- The event would be one of the sentinels.
    cases hlast : cut.getLast? with
    | none =>
      rw [List.getLast?_eq_none_iff] at hlast
      subst hlast
      exact ⟨[], by rw [← append_nil (marked _ _), ← hcut]⟩
    | some x =>
      have hx : x = none := mem_ahead (htail ▸ mem_append_left _ (mem_of_getLast? hlast))
      have hb := congrArg List.getLast? hcut
      rw [List.getLast?_concat, List.getLast?_append, hlast, hx] at hb
      cases hb

/-- In every run whose emits find room for the event behind a sentinel: what a consumer has received
are events in the order of their emits, and between two of them there is one sentinel if an event
emitted between them was dropped, and none otherwise. -/
theorem sentinel_per_gap {size : Nat} {s : Subscription}
    (hr : Runs.Reaches (Subscription.step size) (Subscription.Roomy size) .fresh s) :
    s.got.reduceOption <+: Gaps.kept s.emitted ∧
    ∀ pre a mid b post, s.got = pre ++ some a :: (mid ++ some b :: post) → (∀ x ∈ mid, x = none) →
      ∃ before lost after, s.emitted = before ++ (a, true) :: (lost ++ (b, true) :: after) ∧
        Gaps.kept before = pre.reduceOption ∧ (∀ p ∈ lost, p.2 = false) ∧
        mid = if lost = [] then [] else [none] := by
  have hi : s.Inv := hr.invariant ⟨rfl, rfl, nofun⟩ Subscription.inv_step
  refine ⟨hi.got_prefix, fun pre a mid b post hgot hmid => ?_⟩
  have hsplit : s.got = (pre ++ some a :: mid) ++ some b :: post := by simp [hgot]
  obtain ⟨rest, hrest⟩ := hi.got_marked hsplit
  have heq : marked false s.emitted = pre ++ some a :: (mid ++ some b :: rest) := by
    rw [hrest]
    simp
  exact marked_between hmid heq

def gone (id : Nat) : WatchEvent :=
  { op := .delete, id := id, data := none, ts := (readingsAt 1).ts }

def oneGap : List SubscriptionAct :=
  [.emit (gone 1), .send, .emit (gone 2), .send, .emit (gone 3), .send, .receive, .receive,
   .emit (gone 4), .send, .receive, .receive]

theorem sentinel_per_gap_sample : ∃ s,
    Runs.run (Subscription.step 2) .fresh oneGap = some s ∧
      s.got = [some (gone 1), some (gone 2), none, some (gone 4)] ∧
      ∃ before lost after, s.emitted = before ++ (gone 2, true) :: (lost ++ (gone 4, true) :: after) ∧
        Gaps.kept before = [gone 1] ∧ (∀ p ∈ lost, p.2 = false) ∧
        [none] = if lost = [] then [] else [(none : Option WatchEvent)] := by
  obtain ⟨s, hs, hr, hgot⟩ := Runs.reached (Subscription.step 2) (Subscription.Roomy 2) .fresh oneGap
    (fun s => s.got = [some (gone 1), some (gone 2), none, some (gone 4)]) (by decide +kernel)
  refine ⟨s, hs, hgot, ?_⟩
  exact (sentinel_per_gap hr).2 [some (gone 1)] (gone 2) [none] (gone 4) [] hgot (by simp)

/-- The sentinel takes the only free place, the event behind it is dropped, and the same gap gets
a second sentinel. -/
theorem sentinel_twice :
    (Runs.run (Subscription.step 2) .fresh
      [.emit (gone 1), .send, .emit (gone 2), .send, .emit (gone 3), .send, .receive,
       .emit (gone 4), .send, .receive, .receive, .emit (gone 5), .send, .receive, .receive]).map
      (fun s => (s.got, s.emitted)) =
    some ([some (gone 1), some (gone 2), none, none, some (gone 5)],
      [(gone 1, true), (gone 2, true), (gone 3, false), (gone 4, false), (gone 5, true)]) := by
  decide +kernel

end Scriva
