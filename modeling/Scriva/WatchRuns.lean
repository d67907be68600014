import Scriva.WatchGaps

namespace Scriva

open KeyedLog List Option

/-- A subscription of a collection. Beside its channel, the records at the subscription and the
events of the writes that have committed since or had still to be emitted then. -/
structure Watcher where
  base : Nat → Option (Option (Option Data))
  channel : Subscription
  due : List WatchEvent

def Watcher.lost (w : Watcher) : Bool :=
  w.channel.emitted.any fun p => !p.2

/-- A collection, for each write that has released its lock the events it has still to emit, and
the subscriptions. -/
structure Watched where
  col : Collection
  waiting : List (List WatchEvent)
  watchers : List Watcher

/-- An emit with no receive between its two halves. -/
def Watcher.offer (size : Nat) (ev : WatchEvent) (w : Watcher) : Watcher :=
  { w with channel := (w.channel.emit size ev).send size }

def Watched.subscribe (cfg : Config) (s : Watched) : Watcher :=
  { base := s.col.shown cfg, channel := .fresh, due := s.waiting.flatten }

inductive WatchAct where
  | commit (op : CollectionOp)
  | emit (writer : Nat)
  | still (op : CollectionOp)
  | rotate
  | subscribe
  | receive (watcher : Nat)

/-- The lock of the collection makes each write one step; the emits of a write are steps of their
own, each under the lock of the subscriptions. -/
def Watched.step (cfg : Config) (size : Nat) (s : Watched) : WatchAct → Option Watched
  | .commit op =>
    if op.isLocalWrite then
      (s.col.step cfg op).map fun col =>
        { col := col
          waiting := s.waiting ++ [op.events s.col]
          watchers := s.watchers.map fun w => { w with due := w.due ++ op.events s.col } }
    else none
  | .emit i =>
    match s.waiting[i]? with
    | some (ev :: evs) =>
      some { s with waiting := s.waiting.set i evs, watchers := s.watchers.map (Watcher.offer size ev) }
    | _ => none
  | .still op =>
    if op.isStill then (s.col.step cfg op).map fun col => { s with col := col } else none
  | .rotate => some { s with col := s.col.rotateSegment }
  | .subscribe => some { s with watchers := s.watchers ++ [s.subscribe cfg] }
  | .receive j =>
    s.watchers[j]?.bind fun w => w.channel.receive.map fun channel =>
      { s with watchers := s.watchers.set j { w with channel := channel } }

def Watched.opened (col : Collection) : Watched :=
  { col := col, waiting := [], watchers := [] }

def Watched.Apart (s : Watched) : WatchAct → Prop
  | .commit op => ∀ evs ∈ s.waiting, ∀ x ∈ evs, ∀ y ∈ op.events s.col, x.id ≠ y.id
  | _ => True

instance (s : Watched) (a : WatchAct) : Decidable (s.Apart a) := by
  cases a <;> dsimp only [Watched.Apart] <;> infer_instance

theorem ofRecord_append (id : Nat) (xs ys : List WatchEvent) :
    ofRecord id (xs ++ ys) = ofRecord id xs ++ ofRecord id ys :=
  filter_append ..

variable (m : Nat → Option (Option (Option Data)))

theorem applyEvents_last (evs : List WatchEvent) (id : Nat) :
    applyEvents m evs id = (ofRecord id evs).getLast?.elim (m id) WatchEvent.effect := by
  unfold applyEvents ofRecord
  rw [KeyedLog.replay_at]
  generalize (evs.filter fun ev => ev.id = id) = xs
  induction xs using List.reverseRecOn with
  | nil => rfl
  | append_singleton xs x ih => rw [foldl_concat, List.getLast?_concat]; rfl

theorem applyEvents_congr {xs ys : List WatchEvent} {id : Nat}
    (h : ofRecord id xs = ofRecord id ys) : applyEvents m xs id = applyEvents m ys id := by
  rw [applyEvents_last, applyEvents_last, h]

theorem applyEvents_append (xs ys : List WatchEvent) :
    applyEvents m (xs ++ ys) = applyEvents (applyEvents m xs) ys :=
  KeyedLog.replay_append xs ys

theorem last_of_flatten {xss : List (List WatchEvent)} {id : Nat} {ev : WatchEvent}
    (h : (ofRecord id xss.flatten).getLast? = some ev) :
    ∃ xs ∈ xss, (ofRecord id xs).getLast? = some ev := by
  induction xss with
  | nil => cases h
  | cons xs xss ih =>
    rw [flatten_cons, ofRecord_append, List.getLast?_append] at h
    cases hlast : (ofRecord id xss.flatten).getLast? with
    | some y =>
      rw [hlast] at h
      cases h
      obtain ⟨ys, hys, hy⟩ := ih hlast
      exact ⟨ys, mem_cons_of_mem _ hys, hy⟩
    | none =>
      rw [hlast] at h
      exact ⟨xs, mem_cons_self, h⟩

structure Watcher.Fed (waiting : List (List WatchEvent)) (w : Watcher) : Prop where
  room : w.channel.overflowed = false
  out : ∃ delivered, w.channel.got ++ w.channel.queue = delivered.map some ∧
    ∀ id, ofRecord id (delivered ++ waiting.flatten) = ofRecord id w.due

/-- Two writes with events to emit have no record in common; what an event says of data that reads
back holds until the next write of its record. -/
structure Watched.Inv (cfg : Config) (s : Watched) : Prop where
  apart : s.waiting.Pairwise fun xs ys => ∀ x ∈ xs, ∀ y ∈ ys, x.id ≠ y.id
  idle : ∀ w ∈ s.watchers, w.channel.sending = none
  fed : ∀ w ∈ s.watchers, w.lost = false → w.Fed s.waiting
  settled : ∀ evs ∈ s.waiting, ∀ id ev, (ofRecord id evs).getLast? = some ev → ev.Clear cfg →
    s.col.shown cfg id = ev.effect
  shown : ∀ w ∈ s.watchers, ∀ id, (∀ ev ∈ (ofRecord id w.due).getLast?, ev.Clear cfg) →
    applyEvents w.base w.due id = s.col.shown cfg id

section

variable {cfg : Config} {size : Nat} {s s' : Watched}

theorem watched_commit {op : CollectionOp} (hi : s.Inv cfg) (hok : s.Apart (.commit op))
    (h : s.step cfg size (.commit op) = some s') : s'.Inv cfg := by
  obtain ⟨hl, h⟩ := ite_none_right_eq_some.mp h
  obtain ⟨col, hcol, rfl⟩ := map_eq_some_iff.mp h
  obtain ⟨ls, chs, hwrites⟩ := step_locally hl hcol
  have hshown := hwrites.shown
  refine ⟨?_, List.forall_mem_map.mpr hi.idle, fun w hw hlost => ?_,
    fun evs hevs id ev hlast hev => ?_, fun w hw id hclear => ?_⟩
  · refine pairwise_append.mpr ⟨hi.apart, pairwise_singleton _ _, fun xs hxs ys hys => ?_⟩
    cases mem_singleton.mp hys
    exact hok xs hxs
  · obtain ⟨w, hin, rfl⟩ := mem_map.mp hw
    obtain ⟨hroom, delivered, hgot, hdue⟩ := hi.fed w hin hlost
    refine ⟨hroom, delivered, hgot, fun id => ?_⟩
    dsimp only
    rw [flatten_append, flatten_singleton, ← append_assoc, ofRecord_append, hdue,
      ofRecord_append]
  · rcases Runs.mem_concat hevs with hevs | rfl
    · -- The record has an event to emit, so the write was of others.
      have hnone : ofRecord id (op.events s.col) = [] := by
        refine filter_eq_nil_iff.mpr fun y hy heq => ?_
        have hmem := mem_filter.mp (mem_of_getLast? hlast)
        have hid : ev.id = id := of_decide_eq_true hmem.2
        exact hok evs hevs ev hmem.1 y hy (hid.trans (of_decide_eq_true heq).symm)
      have hsame := hshown id (by rw [hnone]; exact nofun)
      rw [hnone] at hsame
      exact hsame.trans (hi.settled evs hevs id ev hlast hev)
    · refine (hshown id ?_).trans ?_
      · rw [hlast]
        rintro _ ⟨⟩
        exact hev
      · rw [hlast]
        rfl
  · obtain ⟨w, hin, rfl⟩ := mem_map.mp hw
    dsimp only at hclear ⊢
    rw [ofRecord_append, List.getLast?_append] at hclear
    have hnew := hshown id fun ev hev => hclear ev (by rw [hev]; rfl)
    rw [applyEvents_append, applyEvents_last, hnew]
    cases hlast : (ofRecord id (op.events s.col)).getLast? with
    | some ev => rfl
    | none =>
      rw [hlast] at hclear
      exact hi.shown w hin id hclear

theorem ofRecord_emit {pre post : List (List WatchEvent)} {ev : WatchEvent} {evs : List WatchEvent}
    (hapart : (pre ++ (ev :: evs) :: post).Pairwise fun xs ys => ∀ x ∈ xs, ∀ y ∈ ys, x.id ≠ y.id)
    (id : Nat) :
    ofRecord id ([ev] ++ (pre ++ evs :: post).flatten) =
      ofRecord id (pre ++ (ev :: evs) :: post).flatten := by
  have hpre : ofRecord id [ev] ++ ofRecord id pre.flatten =
      ofRecord id pre.flatten ++ ofRecord id [ev] := by
    by_cases hid : ev.id = id
    · have hnone : ofRecord id pre.flatten = [] := by
        refine filter_eq_nil_iff.mpr fun x hx heq => ?_
        obtain ⟨xs, hxs, hx⟩ := mem_flatten.mp hx
        have hne := (pairwise_append.mp hapart).2.2 xs hxs (ev :: evs) mem_cons_self
        exact hne x hx ev mem_cons_self ((of_decide_eq_true heq).trans hid.symm)
      rw [hnone, append_nil, nil_append]
    · have hnone : ofRecord id [ev] = [] := by
        simp [ofRecord, hid]
      rw [hnone, append_nil, nil_append]
  have hcons : ev :: evs = [ev] ++ evs := rfl
  rw [hcons]
  simp only [flatten_append, flatten_cons, ofRecord_append]
  rw [← append_assoc, hpre]
  simp only [append_assoc]

theorem send_idle (c : Subscription) : (c.send size).sending = none := by
  unfold Subscription.send
  cases hc : c.sending with
  | none => exact hc
  | some p =>
    dsimp only
    split_ifs <;> rfl

theorem offer_emitted (size : Nat) {w : Watcher} (hidle : w.channel.sending = none) (ev : WatchEvent) :
    ∃ sent, (w.offer size ev).channel.emitted = w.channel.emitted ++ [(ev, sent)] := by
  unfold Watcher.offer Subscription.emit
  split_ifs
  · unfold Subscription.send
    dsimp only
    split_ifs <;> exact ⟨_, rfl⟩
  · simp [Subscription.send, hidle]
  · unfold Subscription.send
    dsimp only
    split_ifs <;> exact ⟨_, rfl⟩

theorem offer_fed {ev : WatchEvent} {waiting waiting' : List (List WatchEvent)} {w : Watcher}
    (hidle : w.channel.sending = none) (hfed : w.lost = false → w.Fed waiting)
    (hw : ∀ id, ofRecord id ([ev] ++ waiting'.flatten) = ofRecord id waiting.flatten)
    (hlost : (w.offer size ev).lost = false) : (w.offer size ev).Fed waiting' := by
  have hkept : w.lost = false := by
    obtain ⟨sent, hsent⟩ := offer_emitted size hidle ev
    unfold Watcher.lost at hlost ⊢
    rw [hsent, any_append, Bool.or_eq_false_iff] at hlost
    exact hlost.1
  obtain ⟨hroom, delivered, hgot, hdue⟩ := hfed hkept
  have hemit : w.channel.emit size ev = { w.channel with sending := some (ev, false) } := by
    simp [Subscription.emit, hroom]
  unfold Watcher.offer at hlost ⊢
  rw [hemit] at hlost ⊢
  unfold Subscription.send at hlost ⊢
  dsimp only at hlost ⊢
  split_ifs at hlost ⊢
  · refine ⟨hroom, delivered ++ [ev], ?_, fun id => ?_⟩
    · dsimp only
      rw [← append_assoc, hgot, map_append]
      rfl
    · rw [append_assoc, ofRecord_append, hw, ← ofRecord_append]
      exact hdue id
  · simp [Watcher.lost] at hlost

theorem watched_emit {i : Nat} (hi : s.Inv cfg) (h : s.step cfg size (.emit i) = some s') :
    s'.Inv cfg := by
  unfold Watched.step at h
  dsimp only at h
  split at h
  case h_1 ev evs hget =>
    cases h
    obtain ⟨hlt, hev⟩ := List.getElem?_eq_some_iff.mp hget
    obtain ⟨pre, post, hold, -, hnew⟩ : ∃ pre post, s.waiting = pre ++ s.waiting[i] :: post ∧
        pre.length = i ∧ s.waiting.set i evs = pre ++ evs :: post := exists_of_set hlt
    rw [hev] at hold
    rw [hnew]
    have hapart := hi.apart
    rw [hold] at hapart
    have hmem : ∀ {xs}, xs ∈ pre ++ evs :: post → xs ∈ s.waiting ∨ xs = evs := by
      intro xs hxs
      rw [hold]
      rcases mem_append.mp hxs with hxs | hxs
      · exact Or.inl (mem_append_left _ hxs)
      · rcases mem_cons.mp hxs with rfl | hxs
        · exact Or.inr rfl
        · exact Or.inl (mem_append_right _ (mem_cons_of_mem _ hxs))
    refine ⟨?_, List.forall_mem_map.mpr fun _ _ => send_idle _, fun w hw hlost => ?_,
      fun xs hxs id e hlast => ?_, fun w hw => ?_⟩
    · obtain ⟨hpre, htail, hcross⟩ := pairwise_append.mp hapart
      obtain ⟨hhead, hpost⟩ := pairwise_cons.mp htail
      refine pairwise_append.mpr ⟨hpre, pairwise_cons.mpr ⟨fun ys hys x hx => ?_, hpost⟩,
        fun xs hxs ys hys => ?_⟩
      · exact hhead ys hys x (mem_cons_of_mem _ hx)
      · rcases mem_cons.mp hys with rfl | hys
        · intro x hx y hy
          exact hcross xs hxs (ev :: ys) mem_cons_self x hx y (mem_cons_of_mem _ hy)
        · exact hcross xs hxs ys (mem_cons_of_mem _ hys)
    · obtain ⟨w, hin, rfl⟩ := mem_map.mp hw
      refine offer_fed (hi.idle w hin) (hi.fed w hin) (fun id => ?_) hlost
      rw [hold]
      exact ofRecord_emit hapart id
    · rcases hmem hxs with hxs | rfl
      · exact hi.settled xs hxs id e hlast
      · have hthere : ev :: xs ∈ s.waiting := mem_of_getElem? hget
        refine hi.settled (ev :: xs) hthere id e ?_
        have hsplit : ofRecord id (ev :: xs) = ofRecord id [ev] ++ ofRecord id xs :=
          ofRecord_append id [ev] xs
        rw [hsplit, List.getLast?_append, hlast]
        rfl
    · obtain ⟨w, hin, rfl⟩ := mem_map.mp hw
      exact hi.shown w hin
  case h_2 => cases h

theorem watched_subscribe (hi : s.Inv cfg) (h : s.step cfg size .subscribe = some s') :
    s'.Inv cfg := by
  cases h
  refine ⟨hi.apart, fun w hw => ?_, fun w hw hlost => ?_, hi.settled, fun w hw => ?_⟩
  · rcases Runs.mem_concat hw with hw | rfl
    · exact hi.idle w hw
    · rfl
  · rcases Runs.mem_concat hw with hw | rfl
    · exact hi.fed w hw hlost
    · exact ⟨rfl, [], rfl, fun id => rfl⟩
  · rcases Runs.mem_concat hw with hw | rfl
    · exact hi.shown w hw
    · intro id hclear
      show applyEvents (s.col.shown cfg) s.waiting.flatten id = s.col.shown cfg id
      rw [applyEvents_last]
      cases hlast : (ofRecord id s.waiting.flatten).getLast? with
      | none => rfl
      | some ev =>
        obtain ⟨evs, hevs, hev⟩ := last_of_flatten hlast
        exact (hi.settled evs hevs id ev hev (hclear ev hlast)).symm

theorem watched_receive {j : Nat} (hi : s.Inv cfg) (h : s.step cfg size (.receive j) = some s') :
    s'.Inv cfg := by
  obtain ⟨w₀, hget, h⟩ := bind_eq_some_iff.mp h
  obtain ⟨channel, hrecv, rfl⟩ := map_eq_some_iff.mp h
  have hw₀ := mem_of_getElem? hget
  unfold Subscription.receive at hrecv
  split at hrecv
  · cases hrecv
  case h_2 x xs hqueue =>
    cases hrecv
    refine ⟨hi.apart, fun w hw => ?_, fun w hw hlost => ?_, hi.settled, fun w hw => ?_⟩
    · rcases mem_or_eq_of_mem_set hw with hw | rfl
      · exact hi.idle w hw
      · exact hi.idle w₀ hw₀
    · rcases mem_or_eq_of_mem_set hw with hw | rfl
      · exact hi.fed w hw hlost
      · obtain ⟨hroom, delivered, hgot, hdue⟩ := hi.fed w₀ hw₀ hlost
        refine ⟨hroom, delivered, ?_, hdue⟩
        rw [← hgot, hqueue, append_assoc]
        rfl
    · rcases mem_or_eq_of_mem_set hw with hw | rfl
      · exact hi.shown w hw
      · exact hi.shown w₀ hw₀

theorem watched_same (hi : s.Inv cfg) {col : Collection}
    (hsame : col.shown cfg = s.col.shown cfg) : ({ s with col := col } : Watched).Inv cfg := by
  refine ⟨hi.apart, hi.idle, hi.fed, ?_, ?_⟩
  · rw [hsame]
    exact hi.settled
  · rw [hsame]
    exact hi.shown

theorem watched_step {a : WatchAct} (hi : s.Inv cfg) (hok : s.Apart a)
    (h : s.step cfg size a = some s') : s'.Inv cfg := by
  cases a with
  | commit op => exact watched_commit hi hok h
  | emit i => exact watched_emit hi h
  | still op =>
    obtain ⟨hq, h⟩ := ite_none_right_eq_some.mp h
    obtain ⟨col, hcol, rfl⟩ := map_eq_some_iff.mp h
    exact watched_same hi (still_shown hq hcol)
  | rotate =>
    cases h
    refine watched_same hi ?_
    unfold Collection.shown
    rw [rotateSegment_log]
    rfl
  | subscribe => exact watched_subscribe hi h
  | receive j => exact watched_receive hi h

end

/-- In every run that meets the condition, a subscription that never lost an event is given for each
record the events of its writes, once and in their order. When nothing is left to emit they turn
what a read showed at the subscription into what it shows now, where the last event reads back as
written. -/
theorem watch_in_order (cfg : Config) (size : Nat) (start : Collection) {s : Watched}
    (hr : Runs.Reaches (Watched.step cfg size) Watched.Apart (Watched.opened start) s)
    {w : Watcher} (hw : w ∈ s.watchers) (hlost : w.lost = false) :
    ∃ delivered, w.channel.got ++ w.channel.queue = delivered.map some ∧
      (∀ id, ofRecord id (delivered ++ s.waiting.flatten) = ofRecord id w.due) ∧
      (s.waiting.flatten = [] → ∀ id, (∀ ev ∈ (ofRecord id delivered).getLast?, ev.Clear cfg) →
        applyEvents w.base delivered id = s.col.shown cfg id) := by
  have hstart : (Watched.opened start).Inv cfg := ⟨List.Pairwise.nil, nofun, nofun, nofun, nofun⟩
  have hi := hr.invariant hstart watched_step
  obtain ⟨-, delivered, hgot, hdue⟩ := hi.fed w hw hlost
  refine ⟨delivered, hgot, hdue, fun hdone id hclear => ?_⟩
  have hsame := hdue id
  rw [hdone, append_nil] at hsame
  rw [hsame] at hclear
  rw [applyEvents_congr _ hsame]
  exact hi.shown w hw id hclear

def dataOf (text : String) : Option Data :=
  some [("a", .str text)]

def watchedRun (first second : List WatchAct) : List WatchAct :=
  [.commit (.insert (dataOf "x") 0 (readingsAt 1)), .emit 0, .subscribe,
   .commit (.update 1 (dataOf "y") (readingsAt 2))] ++ first ++
  [.commit (.update 1 (dataOf "z") (readingsAt 3))] ++ second ++ [.receive 0, .receive 0]

def watchedState (acts : List WatchAct) : Option Watched :=
  Runs.run (Watched.step plainConfig 8) (Watched.opened emptyCollection) acts

def followed (s : Watched) : Option (Option (Option Data)) :=
  s.watchers.head?.bind fun w => applyEvents w.base (w.channel.got.filterMap id) 1

theorem watch_in_order_sample : ∃ s w, watchedState (watchedRun [.emit 1] [.emit 2]) = some s ∧
    w ∈ s.watchers ∧ ∃ delivered, w.channel.got ++ w.channel.queue = delivered.map some ∧
      ∀ id, applyEvents w.base delivered id = s.col.shown plainConfig id := by
  obtain ⟨s, hs, hr, hw⟩ := Runs.reached (Watched.step plainConfig 8) Watched.Apart
    (Watched.opened emptyCollection) (watchedRun [.emit 1] [.emit 2])
    (fun s => s.waiting.flatten = [] ∧ ∃ w ∈ s.watchers, w.lost = false ∧
      ∀ ev ∈ (w.channel.got ++ w.channel.queue).filterMap id, ev.Clear plainConfig) (by decide +kernel)
  obtain ⟨hdone, w, hmem, hlost, hclear⟩ := hw
  obtain ⟨delivered, hgot, -, hshown⟩ := watch_in_order plainConfig 8 emptyCollection hr hmem hlost
  refine ⟨s, w, hs, hmem, delivered, hgot, fun id => hshown hdone id fun ev hev => ?_⟩
  refine hclear ev ?_
  rw [hgot]
  have hin : ev ∈ delivered := (mem_filter.mp (mem_of_getLast? hev)).1
  exact mem_filterMap.mpr ⟨some ev, mem_map_of_mem hin, rfl⟩

/-- The second of two updates emits before the first, and the consumer is left with the data of the
first. -/
theorem watch_out_of_order :
    (watchedState (watchedRun [] [.emit 2, .emit 1])).map followed =
      some (some (some (dataOf "y"))) ∧
    (watchedState (watchedRun [] [.emit 2, .emit 1])).map (·.col.shown plainConfig 1) =
      some (some (some (dataOf "z"))) := by
  constructor
  · decide +kernel
  · decide +kernel

end Scriva
