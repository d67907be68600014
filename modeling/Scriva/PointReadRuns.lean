import Scriva.PointReads

namespace Scriva.PointReads

open List
open Option (map_eq_some_iff bind_eq_some_iff ite_none_right_eq_some)

section

variable {cfg : Config} {s s' : Served} {c t : Collection} {called gen id k : Nat}
  {loc : IndexEntry} {g : Getting}

theorem step_clock {o : CollectionOp} (ho : o.relays = false) (h : c.step cfg o = some t) :
    c.now ≤ t.now := by
  have hduring : ∀ {r : Readings} {next : Option Collection}, c.during r next = some t →
      c.now ≤ t.now := by
    intro r next h
    obtain ⟨⟨hearly, hmid, hlate⟩, u, -, rfl⟩ := during_some h
    exact hearly.trans (hmid.trans hlate)
  cases o with
  | rotate | compact | reopen => cases ho
  | tick | reserveID | ensureIndex | dropIndex =>
    obtain ⟨n, xs, now, -, hnow, rfl⟩ := step_frame rfl h
    exact hnow
  | decideElsewhere txid v =>
    obtain ⟨-, rfl⟩ := Runs.guarded h
    exact le_rfl
  | _ => exact hduring h

variable {x : Located} {i : Nat} {now : Int}

theorem step_keeps {o : CollectionOp} (ho : o.relays = false) (h : c.step cfg o = some t)
    (hx : x ∈ located c.segments) : x ∈ located t.segments := by
  obtain ⟨ls, chs, he⟩ := step_appended ho h
  rw [he.located]
  exact mem_append_left _ hx

structure Follows (s s' : Served) : Prop where
  past : s'.past = s.past ++ [s.col]
  gen : s.gen ≤ s'.gen
  now : s.col.now ≤ s'.col.now
  kept : s'.gen = s.gen → s.swap = none → s'.swap = none ∧
    ∀ x ∈ located s.col.segments, x ∈ located s'.col.segments

theorem Follows.instant (h : Follows s s') (hk : s.instant k = some c) : s'.instant k = some c := by
  rw [← hk]
  unfold Served.instant at hk ⊢
  have hlt := (List.getElem?_eq_some_iff.mp hk).1
  rw [h.past, List.getElem?_append_left hlt]

theorem instant_now (s : Served) : s.instant s.past.length = some s.col := by
  simp [Served.instant]

theorem Follows.now_past (h : Follows s s') : s'.past.length = s.past.length + 1 := by
  rw [h.past]
  simp

/-- What a `Get` that returns says of the record at an instant. -/
def Agrees (cfg : Config) (c : Collection) (id : Nat) : Except Fault RecordView → Prop
  | .ok rec => c.get cfg id c.now = some rec
  | .error .notFound => c.liveEntry id c.now = none
  | .error .encryption => ∃ e loc, c.getStored id c.now = some (e, loc) ∧
      (cfg.enc.elim (some e.data) fun k => k.materialize e.data) = none
  | .error _ => False

def Right (c : Collection) (id : Nat) : Except Fault (Entry × IndexEntry) → Prop
  | .ok p => c.getStored id c.now = some p
  | .error .notFound => c.liveEntry id c.now = none
  | .error _ => False

/-- The place that a lookup found at an instant since the call, and the line there. While the
layout is that of the lookup the line is still there. -/
def Found (s : Served) (called gen id : Nat) (loc : IndexEntry) (P : Collection → Prop) : Prop :=
  ∃ k c x, called ≤ k ∧ s.instant k = some c ∧ Addressed c ∧ c.index id = some loc ∧ P c ∧
    x ∈ located c.segments ∧ PointsAt id loc x ∧
    (gen = s.gen → s.swap = none ∧ x ∈ located s.col.segments)

def Phase.Sound (cfg : Config) (s : Served) (called id : Nat) : Phase → Prop
  | .started => True
  | .located gen none _ => gen ≤ s.gen ∧
    ∃ k c, called ≤ k ∧ s.instant k = some c ∧ c.index id = none
  | .located gen (some loc) there => gen ≤ s.gen ∧ there = true ∧
    Found s called gen id loc fun c => c.now ≤ s.col.now
  | .timed gen loc => gen ≤ s.gen ∧
    Found s called gen id loc fun c => expired loc.expiresAt c.now = false
  | .checking gen outcome => gen ≤ s.gen ∧
    (gen = s.gen → ∃ k c, called ≤ k ∧ s.instant k = some c ∧ Right c id outcome)
  | .done answer returned => returned ≤ s.past.length ∧
    ∃ k c, called ≤ k ∧ k ≤ returned ∧ s.instant k = some c ∧ Agrees cfg c id answer

theorem Found.follows {P Q : Collection → Prop} (h : Found s called gen id loc P)
    (hf : Follows s s') (hgen : gen ≤ s.gen) (hPQ : ∀ c, P c → Q c) :
    Found s' called gen id loc Q := by
  obtain ⟨k, c, x, hk, hc, ha, hloc, hP, hx, hpoints, hkept⟩ := h
  refine ⟨k, c, x, hk, hf.instant hc, ha, hloc, hPQ c hP, hx, hpoints, fun heq => ?_⟩
  have hge := hf.gen
  obtain ⟨hnone, hthere⟩ := hkept (by omega)
  obtain ⟨hnone', hmore⟩ := hf.kept (by omega) hnone
  exact ⟨hnone', hmore x hthere⟩

theorem Phase.Sound.follows {p : Phase} (h : p.Sound cfg s called id) (hf : Follows s s') :
    p.Sound cfg s' called id := by
  have hge := hf.gen
  cases p with
  | started => trivial
  | located gen loc there =>
    cases loc with
    | none =>
      obtain ⟨hgen, k, c, hk, hc, hnone⟩ := h
      exact ⟨hgen.trans hge, k, c, hk, hf.instant hc, hnone⟩
    | some loc =>
      obtain ⟨hgen, hthere, hfound⟩ := h
      exact ⟨hgen.trans hge, hthere, hfound.follows hf hgen fun c hc => hc.trans hf.now⟩
  | timed gen loc =>
    obtain ⟨hgen, hfound⟩ := h
    exact ⟨hgen.trans hge, hfound.follows hf hgen fun c hc => hc⟩
  | checking gen outcome =>
    obtain ⟨hgen, hright⟩ := h
    refine ⟨hgen.trans hge, fun heq => ?_⟩
    obtain ⟨k, c, hk, hc, hr⟩ := hright (by omega)
    exact ⟨k, c, hk, hf.instant hc, hr⟩
  | done answer returned =>
    obtain ⟨hret, k, c, hk, hkr, hc, hagree⟩ := h
    refine ⟨?_, k, c, hk, hkr, hf.instant hc, hagree⟩
    rw [hf.now_past]
    omega

structure Served.Inv (cfg : Config) (s : Served) : Prop where
  addressed : Addressed s.col
  gets : ∀ g ∈ s.gets, g.called ≤ s.past.length ∧ g.phase.Sound cfg s g.called g.id

theorem Served.Inv.follows (hi : s.Inv cfg) (hf : Follows s s') (ha : Addressed s'.col)
    (hg : s'.gets = s.gets) : s'.Inv cfg := by
  refine ⟨ha, fun g hmem => ?_⟩
  rw [hg] at hmem
  obtain ⟨hcalled, hsound⟩ := hi.gets g hmem
  refine ⟨?_, hsound.follows hf⟩
  rw [hf.now_past]
  omega

theorem advance_inv {f : Getting → Option Getting} (hi : s.Inv cfg)
    (h : s.advance i now f = some s')
    (hstep : ∀ g g', s.gets[i]? = some g → f g = some g' → Follows s s' →
      s'.col = { s.col with now := now } → g.called ≤ s.past.length →
      g.phase.Sound cfg s g.called g.id →
      g'.called = g.called ∧ g'.phase.Sound cfg s' g.called g'.id) : s'.Inv cfg := by
  unfold Served.advance at h
  obtain ⟨g, hg, h⟩ := bind_eq_some_iff.mp h
  obtain ⟨g', hg', h⟩ := bind_eq_some_iff.mp h
  obtain ⟨hle, rfl⟩ := Runs.guarded h
  have hf : Follows s (s.next { s.col with now := now } (s.gets.set i g')) :=
    ⟨rfl, le_rfl, hle, fun _ hnone => ⟨hnone, fun _ hx => hx⟩⟩
  have haddr : Addressed { s.col with now := now } :=
    ⟨hi.addressed.ascending, hi.addressed.nums, hi.addressed.sited⟩
  refine ⟨haddr, fun q hq => ?_⟩
  obtain ⟨hcalled, hsound⟩ := hi.gets g (mem_of_getElem? hg)
  rcases mem_or_eq_of_mem_set hq with hq | rfl
  · obtain ⟨hcalled, hsound⟩ := hi.gets q hq
    refine ⟨?_, hsound.follows hf⟩
    rw [hf.now_past]
    omega
  · obtain ⟨heq, hs⟩ := hstep g q hg hg' hf rfl hcalled hsound
    rw [heq]
    refine ⟨?_, hs⟩
    rw [hf.now_past]
    omega

theorem readEntry_points (ha : Addressed c) (hx : x ∈ located c.segments) (hp : PointsAt id loc x) :
    readEntry c.segments loc = some x.line.entry ∧ x.line.entry.id = id := by
  obtain ⟨hseg, hoff, hid, -⟩ := hp
  exact ⟨readEntry_at ha.ascending hx hseg hoff, hid⟩

theorem readFile_points (ha : Addressed c) (hx : x ∈ located c.segments) (hp : PointsAt id loc x) :
    readFile c.segments id loc = .ok (x.line.entry, loc) := by
  obtain ⟨hread, hid⟩ := readEntry_points ha hx hp
  rw [readFile, hread]
  exact if_pos hid

theorem getStored_points (ha : Addressed c) (hx : x ∈ located c.segments) (hp : PointsAt id loc x)
    (hloc : c.index id = some loc) (hexp : expired loc.expiresAt now = false) :
    c.getStored id now = some (x.line.entry, loc) := by
  obtain ⟨hread, hid⟩ := readEntry_points ha hx hp
  unfold Collection.getStored
  rw [liveEntry_some.mpr ⟨hloc, hexp⟩]
  simp [hread, hid]

theorem segmentByPath_index (ha : Addressed c) (hloc : c.index id = some loc) :
    segmentByPath c (some loc) = true := by
  obtain ⟨x, hx, hp⟩ := ha.sited id loc hloc
  have hread := (readEntry_points ha hx hp).1
  unfold readEntry at hread
  obtain ⟨g, hg, -⟩ := bind_eq_some_iff.mp hread
  show (findSegment c.segments loc.seg).isSome = true
  rw [hg]
  rfl

theorem readLocked_right (ha : Addressed c) (id : Nat) (now : Int) :
    Right { c with now := now } id (readLocked c id now) := by
  unfold readLocked
  cases hloc : c.index id with
  | none =>
    show Collection.liveEntry { c with now := now } id now = none
    refine liveEntry_none.mpr fun loc h => ?_
    cases hloc.symm.trans h
  | some loc =>
    dsimp only
    rw [segmentByPath_index ha hloc, beforeRead]
    cases hexp : expired loc.expiresAt now with
    | true =>
      refine liveEntry_none.mpr fun cur h => ?_
      cases hloc.symm.trans h
      exact hexp
    | false =>
      obtain ⟨x, hx, hp⟩ := ha.sited id loc hloc
      show Right { c with now := now } id (readFile c.segments id loc)
      rw [readFile_points ha hx hp]
      exact getStored_points (c := { c with now := now })
        ⟨ha.ascending, ha.nums, ha.sited⟩ hx hp hloc hexp

theorem finish_agrees {outcome : Except Fault (Entry × IndexEntry)} (h : Right c id outcome) :
    Agrees cfg c id (finish cfg id outcome) := by
  cases outcome with
  | error fault =>
    cases fault with
    | notFound => exact h
    | segmentNotFound | unreadable | wrongRecord | encryption => exact absurd h (fun h => h)
  | ok p =>
    obtain ⟨e, loc⟩ := p
    have hstored : c.getStored id c.now = some (e, loc) := h
    cases hdata : (cfg.enc.elim (some e.data) fun k => k.materialize e.data : Option (Option Data)) with
    | none =>
      simp only [finish, hdata]
      exact ⟨e, loc, hstored, hdata⟩
    | some data =>
      simp only [finish, hdata]
      show c.get cfg id c.now = some _
      unfold Collection.get
      rw [hstored]
      simp [hdata]

theorem locate_inv (hi : s.Inv cfg) (h : s.step cfg (.locate i) = some s') : s'.Inv cfg := by
  refine advance_inv hi h fun g g' hg hstep hf hcol hcalled hsound => ?_
  cases hphase : g.phase with
  | started =>
    rw [hphase] at hstep
    obtain ⟨⟨-, hnone⟩, rfl⟩ := Runs.guarded hstep
    refine ⟨rfl, ?_⟩
    have hnow := hf.instant (instant_now s)
    have ha := hi.addressed
    show Phase.Sound cfg s' g.called g.id (.located s.gen (s.col.index g.id) _)
    cases hloc : s.col.index g.id with
    | none => exact ⟨hf.gen, s.past.length, s.col, hcalled, hnow, hloc⟩
    | some loc =>
      obtain ⟨x, hx, hp⟩ := ha.sited g.id loc hloc
      refine ⟨hf.gen, segmentByPath_index ha hloc, s.past.length, s.col, x, hcalled, hnow, ha, hloc,
        hf.now, hx, hp, fun heq => ?_⟩
      obtain ⟨hnone', hmore⟩ := hf.kept heq.symm hnone
      exact ⟨hnone', hmore x hx⟩
  | located | timed | checking | done =>
    rw [hphase] at hstep
    cases hstep

theorem clock_inv (hi : s.Inv cfg) (hok : s.Steady (.clock i now))
    (h : s.step cfg (.clock i now) = some s') : s'.Inv cfg := by
  refine advance_inv hi h fun g g' hg hstep hf hcol hcalled hsound => ?_
  cases hphase : g.phase with
  | located gen found there =>
    rw [hphase] at hstep hsound
    cases hstep
    refine ⟨rfl, ?_⟩
    cases found with
    | none =>
      obtain ⟨hgen, k, c, hk, hc, hnone⟩ := hsound
      refine ⟨hgen.trans hf.gen, fun _ => ⟨k, c, hk, hf.instant hc, ?_⟩⟩
      refine liveEntry_none.mpr fun loc hloc => ?_
      cases hnone.symm.trans hloc
    | some loc =>
      obtain ⟨hgen, rfl, hfound⟩ := hsound
      dsimp only
      rw [beforeRead]
      cases hexp : expired loc.expiresAt now with
      | true =>
        -- The record is looked at once more: it has the deadline that was found, or is gone.
        refine ⟨hgen.trans hf.gen, fun _ => ⟨s'.past.length, s'.col, ?_, instant_now s', ?_⟩⟩
        · rw [hf.now_past]
          omega
        · rw [hcol]
          refine liveEntry_none.mpr fun cur hcur => ?_
          have hcur : s.col.index g.id = some cur := hcur
          have hsame : cur.expiresAt = loc.expiresAt := by
            simpa [Served.Steady, Served.steady, hg, hphase, hexp, hcur] using hok
          rw [hsame]
          exact hexp
      | false =>
        refine ⟨hgen.trans hf.gen, hfound.follows hf hgen fun c hc => ?_⟩
        by_contra hne
        have hnow : s.col.now ≤ now := by
          have := hf.now
          rwa [hcol] at this
        rw [expired_later (hc.trans hnow) (by simpa using hne)] at hexp
        cases hexp
  | started | timed | checking | done =>
    rw [hphase] at hstep
    cases hstep

theorem read_inv (hi : s.Inv cfg) (h : s.step cfg (.read i) = some s') : s'.Inv cfg := by
  refine advance_inv hi h fun g g' hg hstep hf hcol hcalled hsound => ?_
  cases hphase : g.phase with
  | timed gen loc =>
    rw [hphase] at hstep hsound
    cases hstep
    refine ⟨rfl, ?_⟩
    obtain ⟨hgen, k, c, x, hk, hc, ha, hloc, hexp, hx, hp, hkept⟩ := hsound
    refine ⟨hgen.trans hf.gen, fun heq => ⟨k, c, hk, hf.instant hc, ?_⟩⟩
    have hge := hf.gen
    obtain ⟨hnone, hthere⟩ := hkept (by omega)
    have hdisk : s.onDisk = s.col.segments := by
      unfold Served.onDisk
      rw [hnone]
      rfl
    rw [hdisk, readFile_points hi.addressed hthere hp]
    exact getStored_points ha hx hp hloc hexp
  | started | located | checking | done =>
    rw [hphase] at hstep
    cases hstep

theorem check_inv (hi : s.Inv cfg) (h : s.step cfg (.check i) = some s') : s'.Inv cfg := by
  refine advance_inv hi h fun g g' hg hstep hf hcol hcalled hsound => ?_
  cases hphase : g.phase with
  | checking gen outcome =>
    rw [hphase] at hstep hsound
    by_cases hgen : s.gen = gen
    · simp only [if_pos hgen] at hstep
      cases hstep
      obtain ⟨-, hright⟩ := hsound
      obtain ⟨k, c, hk, hc, hr⟩ := hright hgen.symm
      have hle : k ≤ s.past.length := by
        have := (List.getElem?_eq_some_iff.mp hc).1
        simp at this
        omega
      refine ⟨rfl, ?_, k, c, hk, hle, hf.instant hc, finish_agrees hr⟩
      rw [hf.now_past]
      omega
    · simp only [if_neg hgen] at hstep
      cases hstep
      exact ⟨rfl, trivial⟩
  | started | located | timed | done =>
    rw [hphase] at hstep
    cases hstep

theorem locked_inv (hi : s.Inv cfg) (h : s.step cfg (.locked i now) = some s') : s'.Inv cfg := by
  refine advance_inv hi h fun g g' hg hstep hf hcol hcalled hsound => ?_
  cases hphase : g.phase with
  | started =>
    rw [hphase] at hstep
    obtain ⟨-, rfl⟩ := Runs.guarded hstep
    have hlen := hf.now_past
    refine ⟨rfl, hlen.ge, s'.past.length, s'.col, by omega, hlen.le, instant_now s', ?_⟩
    rw [hcol]
    exact finish_agrees (readLocked_right hi.addressed g.id now)
  | located | timed | checking | done =>
    rw [hphase] at hstep
    cases hstep

theorem inv_step {a : Act} (hi : s.Inv cfg) (hok : s.Steady a) (h : s.step cfg a = some s') :
    s'.Inv cfg := by
  cases a with
  | op o =>
    obtain ⟨hcond, h⟩ := ite_none_right_eq_some.mp h
    obtain ⟨t, ht, rfl⟩ := map_eq_some_iff.mp h
    have ho : o.relays = false := by
      simpa using (Bool.and_eq_true_iff.mp hcond).2
    refine hi.follows ⟨rfl, le_rfl, step_clock ho ht, fun _ hnone => ⟨hnone, fun x hx => ?_⟩⟩
      (step_addressed hi.addressed ht) rfl
    exact step_keeps ho ht hx
  | rotate =>
    obtain ⟨-, rfl⟩ := Runs.guarded h
    refine hi.follows ⟨rfl, le_rfl, le_rfl, fun _ hnone => ⟨hnone, fun x hx => ?_⟩⟩
      hi.addressed.rotate rfl
    show x ∈ located s.col.rotateSegment.segments
    rw [rotate_located]
    exact hx
  | beginSwap k since =>
    obtain ⟨-, h⟩ := ite_none_right_eq_some.mp h
    obtain ⟨segs, -, rfl⟩ := map_eq_some_iff.mp h
    exact hi.follows ⟨rfl, Nat.le_succ _, le_rfl, fun heq => absurd heq (Nat.succ_ne_self _)⟩
      hi.addressed rfl
  | file =>
    obtain ⟨sw, hsw, h⟩ := bind_eq_some_iff.mp h
    cases htodo : sw.todo with
    | nil =>
      rw [htodo] at h
      cases h
    | cons a todo =>
      rw [htodo] at h
      cases h
      refine hi.follows ⟨rfl, le_rfl, le_rfl, fun _ hnone => ?_⟩ hi.addressed rfl
      cases hsw.symm.trans hnone
  | endSwap =>
    obtain ⟨sw, hsw, h⟩ := bind_eq_some_iff.mp h
    obtain ⟨-, h⟩ := ite_none_right_eq_some.mp h
    obtain ⟨t, ht, rfl⟩ := map_eq_some_iff.mp h
    refine hi.follows ⟨rfl, le_rfl, (compact_spec ht).elim fun _ h => h.2.1 ▸ le_rfl, fun _ hnone => ?_⟩
      (hi.addressed.compact ht) rfl
    cases hsw.symm.trans hnone
  | call id =>
    cases h
    have hf : Follows s (s.next s.col (s.gets ++
        [{ id := id, attempt := 0, called := s.past.length, phase := .started }])) :=
      ⟨rfl, le_rfl, le_rfl, fun _ hnone => ⟨hnone, fun _ hx => hx⟩⟩
    refine ⟨hi.addressed, fun g hg => ?_⟩
    rcases Runs.mem_concat hg with hg | rfl
    · obtain ⟨hcalled, hsound⟩ := hi.gets g hg
      refine ⟨?_, hsound.follows hf⟩
      rw [hf.now_past]
      omega
    · refine ⟨?_, trivial⟩
      rw [hf.now_past]
      exact Nat.le_succ _
  | locate i => exact locate_inv hi h
  | clock i now => exact clock_inv hi hok h
  | read i => exact read_inv hi h
  | check i => exact check_inv hi h
  | locked i now => exact locked_inv hi h

end

/-- In every run in which no deadline changes between the lookup of a Get and its reading of the
clock, or is still ahead then, each Get that has returned has an instant between its call and its
return at which the record was as it says, in an order that respects theirs. -/
theorem gets_linearize {cfg : Config} {start : Collection} (hopen : start.Opened) {s : Served}
    (hr : Runs.Reaches (Served.step cfg) Served.Steady (.opened start) s) :
    ∃ point : Nat → Nat,
      (∀ i g answer returned, s.gets[i]? = some g → g.phase = .done answer returned →
        g.called ≤ point i ∧ point i ≤ returned ∧
          ∃ c, s.instant (point i) = some c ∧ Agrees cfg c g.id answer) ∧
      ∀ i j g h answer answer' returned returned', s.gets[i]? = some g → s.gets[j]? = some h →
        g.phase = .done answer returned → h.phase = .done answer' returned' →
        returned ≤ h.called → point i ≤ point j := by
  have hi : s.Inv cfg := hr.invariant ⟨hopen.addressed, nofun⟩ inv_step
  have hpoint : ∀ i : Nat, ∃ k, ∀ (g : Getting) answer returned, s.gets[i]? = some g →
      g.phase = .done answer returned →
      g.called ≤ k ∧ k ≤ returned ∧ ∃ c, s.instant k = some c ∧ Agrees cfg c g.id answer := by
    intro i
    cases hg : s.gets[i]? with
    | none => exact ⟨0, fun _ _ _ hnone => (by cases hnone)⟩
    | some g =>
      cases hphase : g.phase with
      | done answer returned =>
        obtain ⟨-, hsound⟩ := hi.gets g (mem_of_getElem? hg)
        rw [hphase] at hsound
        obtain ⟨-, k, c, hk, hkr, hc, hagree⟩ := hsound
        refine ⟨k, fun g' answer' returned' hg' hphase' => ?_⟩
        cases hg'
        cases hphase.symm.trans hphase'
        exact ⟨hk, hkr, c, hc, hagree⟩
      | started | located | timed | checking =>
        refine ⟨0, fun g' answer' returned' hg' hphase' => ?_⟩
        cases hg'
        cases hphase.symm.trans hphase'
  choose point hpoint using hpoint
  refine ⟨point, hpoint, ?_⟩
  intro i j g h answer answer' returned returned' hg hh hpg hph hle
  obtain ⟨-, hret, -⟩ := hpoint i g answer returned hg hpg
  obtain ⟨hcall, -, -⟩ := hpoint j h answer' returned' hh hph
  omega

def mortal : List Act :=
  [.op (.insert (some [("n", .str "a")]) 100 (readingsAt 1))]

def overtaken : List Act :=
  mortal ++ [.rotate, .call 1, .locate 0, .clock 0 5, .beginSwap 1 2, .file, .endSwap, .read 0,
    .check 0, .locate 0, .clock 0 6, .read 0, .check 0]

def Phase.answer : Phase → Option (Except Fault RecordView)
  | .done answer _ => some answer
  | _ => none

theorem answer_done {p : Phase} {answer : Except Fault RecordView} (h : p.answer = some answer) :
    ∃ returned, p = .done answer returned := by
  cases p with
  | done a returned =>
    cases h
    exact ⟨returned, rfl⟩
  | started | located | timed | checking => cases h

theorem gets_linearize_sample : ∃ s g answer,
    Runs.run (Served.step plainConfig) (.opened emptyCollection) overtaken = some s ∧
      s.gets = [g] ∧ g.attempt = 1 ∧ g.phase.answer = some (.ok answer) ∧
      ∃ k c, g.called ≤ k ∧ s.instant k = some c ∧ c.get plainConfig g.id c.now = some answer := by
  obtain ⟨s, hs, hr, hend⟩ := Runs.reached (Served.step plainConfig) Served.Steady
    (.opened emptyCollection) overtaken (fun s => (s.gets.map fun g => (g.attempt, g.phase.answer)) =
      [(1, some (.ok { id := 1, key := "", rev := 1, ts := (readingsAt 1).ts
                       data := some [("n", .str "a")] }))]) (by decide +kernel)
  obtain ⟨g, hgets, hg⟩ := map_eq_singleton_iff.mp hend
  obtain ⟨hattempt, hanswer⟩ := Prod.mk.inj hg
  obtain ⟨returned, hdone⟩ := answer_done hanswer
  obtain ⟨point, hpoint, -⟩ := gets_linearize emptyCollection_opened hr
  obtain ⟨hcalled, -, c, hc, hagree⟩ := hpoint 0 g _ returned (by rw [hgets]; rfl) hdone
  exact ⟨s, g, _, hs, hgets, hattempt, hanswer, point 0, c, hcalled, hc, hagree⟩

/-- The clock is read behind the lookup: the record has got a later deadline in between, was there
at every instant, and the Get does not find it. -/
theorem get_misses_record :
    (Runs.run (Served.step plainConfig) (.opened emptyCollection) (mortal ++
      [.call 1, .locate 0,
       .op (.updateWithExpiry 1 (some [("n", .str "b")]) 200 (readingsAt 50)), .clock 0 100,
       .check 0])).map (fun s => (s.gets.map fun g => (g.called, g.phase.answer),
        ((s.past ++ [s.col]).drop 1).all fun c => (c.liveEntry 1 c.now).isSome)) =
    some ([(1, some (.error .notFound))], true) := by
  decide +kernel

end Scriva.PointReads
