import Scriva.XTxHandle

namespace Scriva.Serial

open List Option

def keepsLines : StoreOp → Bool
  | .write (.compact ..) | .crash .. => false
  | _ => true

/-- The record has not gone below the revision of a place, and at that revision is there. -/
def Pinned (x : Store) (id : Nat) (loc : IndexEntry) : Prop :=
  x.Floor id loc.rev ∧ ∀ cur, x.col.index id = some cur → cur.rev = loc.rev → cur = loc

section

variable {cfg : Config} {x y : Store} {s t : Collection} {ls : List Line} {chs : List Change}
  {loc : IndexEntry} {e : Entry} {id : Nat}

theorem readEntry_grown {older : List Segment} {a : Segment}
    (h : readEntry (older ++ [a]) loc = some e) (ls : List Line) :
    readEntry (older ++ [{ a with lines := a.lines ++ ls }]) loc = some e := by
  unfold readEntry findSegment at h ⊢
  rw [List.find?_append] at h ⊢
  cases hold : older.find? fun g => g.num == loc.seg with
  | some g =>
    rw [hold] at h
    exact h
  | none =>
    rw [hold, Option.none_or] at h
    rw [Option.none_or]
    by_cases hnum : a.num = loc.seg
    · rw [List.find?_singleton, if_pos (by simpa using hnum)] at h ⊢
      simp only [bind_some, withOffsets_append, List.find?_append] at h ⊢
      obtain ⟨p, hp, rfl⟩ := map_eq_some_iff.mp h
      rw [hp]
      rfl
    · rw [List.find?_singleton, if_neg (by simpa using hnum)] at h
      cases h

theorem readEntry_more {segs : List Segment} (h : readEntry segs loc = some e)
    (more : List Segment) : readEntry (segs ++ more) loc = some e := by
  unfold readEntry findSegment at h ⊢
  obtain ⟨g, hg, h⟩ := bind_eq_some_iff.mp h
  rw [List.find?_append, hg]
  exact h

theorem putRun_other (hc : Carry ls chs) (hid : ∀ ch ∈ chs, ch.entry.id ≠ id) (m : Index)
    (num off : Nat) : m.putRun num off ls chs id = m id := by
  induction hc generalizing m off with
  | nil => rfl
  | @cons l ch ls chs _ _ ih =>
    rw [putRun_cons, ih (fun ch hch => hid ch (by simp [hch])), put_eq,
      Function.update_of_ne (hid ch (by simp)).symm]

/-- Lines that are read stay readable, and a record that is not written stays where it is. -/
structure Leaves (x y : Store) : Prop where
  lines : ∀ loc e, readEntry x.col.segments loc = some e → readEntry y.col.segments loc = some e
  index : ∀ id, ¬ x.Writes y id → y.col.index id = x.col.index id

theorem appended_leaves (h : Appended x.col ls chs y.col) : Leaves x y := by
  refine ⟨fun loc e he => ?_, fun id hw => ?_⟩
  · have hsegs : y.col.segments =
        x.col.sealed ++ [{ x.col.active with lines := x.col.active.lines ++ ls }] := by
      rw [Collection.segments, h.sealed, h.active]
    rw [hsegs]
    exact readEntry_grown he ls
  · rw [h.index]
    refine putRun_other h.carry (fun ch hch heq => hw ?_) _ _ _
    exact h.writes.mpr ⟨ch.entry, mem_map_of_mem hch, heq⟩

theorem step_leaves {op : StoreOp} (hok : op.RevSound x)
    (hk : keepsLines op = true) (h : x.step cfg op = some y) : Leaves x y := by
  cases op with
  | reserveID =>
    cases h
    exact ⟨fun _ _ he => he, fun _ _ => rfl⟩
  | write op =>
    obtain ⟨hup, h⟩ := ite_none_left_eq_some.mp h
    obtain ⟨t, ht, rfl⟩ := map_eq_some_iff.mp h
    rcases op.kinds with hkind | hkind | hkind | hkind | ⟨k, at_, rfl⟩
    · exact absurd hkind hup
    · obtain ⟨ls, chs, hw⟩ := step_locally hkind ht
      exact appended_leaves hw.toAppended
    · rw [hok.1] at hkind
      cases hkind
    · exact appended_leaves (step_still hkind ht)
    · cases hk
  | leaveRun => exact hok.elim
  | rotate metaWritten =>
    cases h
    exact ⟨fun loc e he => readEntry_more he _, fun _ _ => rfl⟩
  | writeMeta | loseMeta =>
    cases h
    exact ⟨fun _ _ he => he, fun _ _ => rfl⟩
  | crash => cases hk

/-- No step but a compaction or a crash moves a record at its revision. -/
theorem Pinned.step {op : StoreOp} (hp : Pinned x id loc) (hi : RevInv x) (hok : op.RevSound x)
    (hk : keepsLines op = true) (h : x.step cfg op = some y) : Pinned y id loc := by
  obtain ⟨hfloor, hrise⟩ := floor_step hp.1 hi hok h
  refine ⟨hfloor, fun cur hcur hrev => ?_⟩
  have hunwritten : ¬ x.Writes y id := by
    intro hw
    have hle := (hrise hw).2 cur.rev (by simp [revs, hcur])
    omega
  rw [(step_leaves hok hk h).index id hunwritten] at hcur
  exact hp.2 cur hcur hrev

theorem pinned_here (hi : RevInv x) (h : x.col.index id = some loc) : Pinned x id loc := by
  have hrev : revs x.col.index id = some loc.rev := by simp [revs, h]
  obtain ⟨l, hl, hid, -⟩ := hi.attained _ _ hrev
  refine ⟨⟨hid ▸ hi.logged l hl, fun rev hrev' => ?_⟩, fun cur hcur _ => ?_⟩
  · exact (Option.some.inj (hrev.symm.trans hrev')).le
  · exact Option.some.inj (hcur.symm.trans h)

end

/-- An observation in the real run: it has the revision of its version, which is pinned. -/
structure ObsInv (x : Store) (id : Nat) (obs : Observation) : Prop where
  present : obs.present = obs.version.isSome
  rev : obs.rev = obs.version.elim 0 IndexEntry.rev
  pinned : ∀ loc, obs.version = some loc → Pinned x id loc
  content : ∀ e, obs.content = some e →
    ∃ loc, obs.version = some loc ∧ readEntry x.col.segments loc = some e

structure Agrees (s : Collection) (now : Int) (id : Nat) (obs : Observation) : Prop where
  version : s.liveEntry id now = obs.version
  content : ∀ e, obs.content = some e → obs.version.bind (readEntry s.segments) = some e

section

variable {cfg : Config} {x y : Store} {s : Collection} {obs : Observation} {id : Nat} {now : Int}

theorem ObsInv.step {op : StoreOp} (h : ObsInv x id obs) (hi : RevInv x) (hok : op.RevSound x)
    (hk : keepsLines op = true) (hs : x.step cfg op = some y) : ObsInv y id obs := by
  refine ⟨h.present, h.rev, fun loc hloc => (h.pinned loc hloc).step hi hok hk hs, fun e he => ?_⟩
  obtain ⟨loc, hloc, hread⟩ := h.content e he
  exact ⟨loc, hloc, (step_leaves hok hk hs).lines loc e hread⟩

theorem observation_inv (hi : RevInv x) : ObsInv x id (observation x.col id now) := by
  refine ⟨rfl, rfl, fun loc hloc => ?_, nofun⟩
  exact pinned_here hi (liveEntry_some.mp hloc).1

theorem ObsInv.same (h : ObsInv x id obs)
    (hpresent : (x.col.liveEntry id now).isSome = obs.present)
    (hrev : (x.col.liveEntry id now).elim 0 IndexEntry.rev = obs.rev) :
    x.col.liveEntry id now = obs.version := by
  cases hlive : x.col.liveEntry id now with
  | none =>
    rw [hlive, h.present] at hpresent
    exact (Option.isSome_eq_false_iff.mp hpresent.symm |> isNone_iff_eq_none.mp).symm
  | some cur =>
    rw [hlive] at hpresent hrev
    have hsome : obs.version.isSome = true := by
      rw [← h.present, ← hpresent]
      rfl
    obtain ⟨loc, hloc⟩ := isSome_iff_exists.mp hsome
    rw [h.rev, hloc] at hrev
    rw [hloc, (h.pinned loc hloc).2 cur (liveEntry_some.mp hlive).1 hrev]

/-- An observation whose version still holds reads as it did. -/
theorem ObsInv.agrees (h : ObsInv x id obs) (hv : x.col.liveEntry id now = obs.version) :
    Agrees x.col now id obs := by
  refine ⟨hv, fun e he => ?_⟩
  obtain ⟨loc, hloc, hread⟩ := h.content e he
  rw [hloc]
  exact hread

end

section

variable {x : XTx} {k k' : DocKey} {obs : Observation}

theorem seen_note : (x.note k obs).seen k' = if k' = k then some obs else x.seen k' := by
  unfold XTx.seen XTx.note
  rw [List.find?_cons]
  by_cases hk : k' = k
  · simp [hk]
  · have hne : (k == k') = false := by simpa using Ne.symm hk
    rw [if_neg hk]
    simp only [hne, List.find?_filter]
    congr 2
    funext o
    by_cases ho : o.1 = k'
    · simp [ho, hk]
    · simp [ho]

theorem seen_note_self : (x.note k obs).seen k = some obs := by
  rw [seen_note, if_pos rfl]

theorem seen_note_other (h : k' ≠ k) : (x.note k obs).seen k' = x.seen k' := by
  rw [seen_note, if_neg h]

theorem seen_mem (h : x.seen k = some obs) : (k, obs) ∈ x.observed := by
  obtain ⟨o, ho, rfl⟩ := map_eq_some_iff.mp h
  have hkey : o.1 = k := by simpa using List.find?_some ho
  exact hkey ▸ mem_of_find?_eq_some ho

theorem staged_mem {w : XTxOp} (h : x.staged k = some w) : (k, w) ∈ x.writes := by
  obtain ⟨o, ho, rfl⟩ := map_eq_some_iff.mp h
  have hkey : o.1 = k := by simpa using List.find?_some ho
  exact hkey ▸ mem_of_find?_eq_some ho

end

/-- A later state of a handle: it has seen as much, and would have come about in any state that
agrees with what it has seen by now. -/
structure Called (cfg : Config) (x : XTx) (c : Call) (x' : XTx) : Prop where
  parts : x'.parts = x.parts
  kept : ∀ k obs, x.seen k = some obs →
    ∃ obs', x'.seen k = some obs' ∧ obs'.present = obs.present ∧ obs'.rev = obs.rev
  serial : ∀ (frozen : String → Collection) (now : Int),
    (∀ k obs, x'.seen k = some obs → Agrees (frozen k.col) now k.id obs) →
      (∀ k obs, x.seen k = some obs → Agrees (frozen k.col) now k.id obs) ∧
      x.call cfg (frozen c.doc.col) now c = some x'

section

variable {cfg : Config} {s t : Collection} {now now' : Int} {x x' : XTx} {k : DocKey}
  {obs prev : Observation} {X : Store} {id : Nat}

theorem observation_congr (h : t.liveEntry id now' = s.liveEntry id now) :
    observation t id now' = observation s id now := by
  simp [observation, h]

theorem getIfPresent_congr {found : Option RecordView}
    (hlive : t.liveEntry id now' = s.liveEntry id now)
    (hread : ∀ e, (s.liveEntry id now).bind (readEntry s.segments) = some e →
      (s.liveEntry id now).bind (readEntry t.segments) = some e)
    (h : getIfPresent cfg s id now = some found) :
    getIfPresent cfg t id now' = some found ∧
      (s.liveEntry id now).bind (readEntry t.segments) =
        (s.liveEntry id now).bind (readEntry s.segments) := by
  unfold getIfPresent at h ⊢
  rw [hlive]
  cases hs : s.liveEntry id now with
  | none =>
    rw [hs] at h
    exact ⟨h, rfl⟩
  | some loc =>
    rw [hs] at h hread hlive
    rw [if_pos Option.isSome_some] at h ⊢
    obtain ⟨v, hv, rfl⟩ := map_eq_some_iff.mp h
    obtain ⟨loc', e, data, hloc, he, hid, hdata, rfl⟩ := get_some.mp hv
    cases hs.symm.trans hloc
    have het := hread e he
    refine ⟨?_, het.trans he.symm⟩
    rw [map_eq_some_iff]
    exact ⟨_, get_some.mpr ⟨loc, e, data, hlive, het, hid, hdata, rfl⟩, rfl⟩

theorem kept_note (hprev : ∀ o, x.seen k = some o → obs.present = o.present ∧ obs.rev = o.rev) :
    ∀ k' o, x.seen k' = some o →
      ∃ o', (x.note k obs).seen k' = some o' ∧ o'.present = o.present ∧ o'.rev = o.rev := by
  intro k' o ho
  by_cases hk : k' = k
  · subst hk
    exact ⟨obs, seen_note_self, hprev o ho⟩
  · exact ⟨o, (seen_note_other hk).trans ho, rfl, rfl⟩

theorem agrees_before {frozen : String → Collection}
    (h : ∀ k' o, (x.note k obs).seen k' = some o → Agrees (frozen k'.col) now k'.id o)
    (hprev : ∀ o, x.seen k = some o → obs.version = o.version ∧
      ∀ e, o.content = some e → obs.content = some e) :
    ∀ k' o, x.seen k' = some o → Agrees (frozen k'.col) now k'.id o := by
  intro k' o ho
  by_cases hk : k' = k
  · subst hk
    obtain ⟨hversion, hcontent⟩ := hprev o ho
    have hag := h k' obs seen_note_self
    exact ⟨hag.version.trans hversion, fun e he => hversion ▸ hag.content e (hcontent e he)⟩
  · exact h k' o ((seen_note_other hk).trans ho)

variable {cols : String → Store}

theorem obsInv_note (h : ∀ k obs, x.seen k = some obs → ObsInv (cols k.col) k.id obs)
    (hobs : ObsInv (cols k.col) k.id obs) :
    ∀ k' o, (x.note k obs).seen k' = some o → ObsInv (cols k'.col) k'.id o := by
  intro k' o ho
  by_cases hk : k' = k
  · subst hk
    cases seen_note_self.symm.trans ho
    exact hobs
  · exact h k' o ((seen_note_other hk).symm.trans ho)

theorem get_called (hi : ∀ c, RevInv (cols c))
    (hobs : ∀ k obs, x.seen k = some obs → ObsInv (cols k.col) k.id obs)
    (h : x.call cfg (cols k.col).col now (.get k) = some x') :
    Called cfg x (.get k) x' ∧
      (∀ k obs, x'.seen k = some obs → ObsInv (cols k.col) k.id obs) ∧ x'.writes = x.writes := by
  have hcall := h
  unfold XTx.call at h
  obtain ⟨hpart, h⟩ := guard_bind.mp h
  simp only [XTx.get] at h
  cases hstaged : x.staged k with
  | some w =>
    rw [hstaged] at h
    cases h
    refine ⟨⟨rfl, fun k obs ho => ⟨obs, ho, rfl, rfl⟩, fun frozen now' hag => ⟨hag, ?_⟩⟩, hobs, rfl⟩
    unfold XTx.call
    refine guard_bind.mpr ⟨hpart, ?_⟩
    simp only [XTx.get, hstaged]
    rfl
  | none =>
    rw [hstaged] at h
    obtain ⟨found, hfound, h⟩ := bind_eq_some_iff.mp h
    obtain ⟨hsame, rfl⟩ := guard_some h
    set here := observation (cols k.col).col k.id now
    have hinv : ObsInv (cols k.col) k.id ((x.seen k).getD here) ∧
        (cols k.col).col.liveEntry k.id now = ((x.seen k).getD here).version := by
      cases hseen : x.seen k with
      | none => exact ⟨observation_inv (hi k.col), rfl⟩
      | some q =>
        rw [hseen] at hsame
        exact ⟨hobs k q hseen, (hobs k q hseen).same hsame.1.symm hsame.2.symm⟩
    have hbefore : ∀ q, x.seen k = some q → (x.seen k).getD here = q := fun q hq => by simp [hq]
    generalize hprev : (x.seen k).getD here = prev at hinv hbefore hsame
    obtain ⟨hinv, hlive⟩ := hinv
    refine ⟨⟨rfl, kept_note fun q hq => by simp [hbefore q hq], fun frozen now' hag => ?_⟩,
      obsInv_note hobs ⟨hinv.present, hinv.rev, hinv.pinned, fun e he => ?_⟩, rfl⟩
    · have hnote := hag k _ seen_note_self
      have hver : (frozen k.col).liveEntry k.id now' = (cols k.col).col.liveEntry k.id now :=
        hnote.version.trans hlive.symm
      refine ⟨agrees_before hag fun q hq => ?_, ?_⟩
      · obtain rfl := hbefore q hq
        refine ⟨rfl, fun e he => ?_⟩
        obtain ⟨loc, hloc, hread⟩ := hinv.content e he
        show ((cols k.col).col.liveEntry k.id now).bind _ = _
        rw [hlive, hloc]
        exact hread
      · have hcontent : ∀ e,
            ((cols k.col).col.liveEntry k.id now).bind (readEntry (cols k.col).col.segments) = some e →
            ((cols k.col).col.liveEntry k.id now).bind (readEntry (frozen k.col).segments) =
              some e := by
          intro e he
          rw [hlive]
          exact hnote.content e he
        obtain ⟨hfound', hread⟩ := getIfPresent_congr hver hcontent hfound
        have hnow : observation (frozen k.col) k.id now' = here := observation_congr hver
        unfold XTx.call
        refine guard_bind.mpr ⟨hpart, ?_⟩
        simp only [Call.doc, XTx.get, hstaged, hnow, hprev]
        refine bind_eq_some_iff.mpr ⟨found, hfound', guard_bind.mpr ⟨hsame, ?_⟩⟩
        have hline : here.version.bind (readEntry (frozen k.col).segments) =
          here.version.bind (readEntry (cols k.col).col.segments) := hread
        rw [hline]
        rfl
    · obtain ⟨loc, hloc, hread⟩ := bind_eq_some_iff.mp he
      exact ⟨loc, hlive.symm.trans hloc, hread⟩

def Based (x : XTx) : Prop :=
  ∀ w ∈ x.writes, w.2.op ≠ .insert →
    ∃ obs, x.seen w.1 = some obs ∧ obs.present = true ∧ w.2.expectedRev = obs.rev

theorem Based.kept (h : Based x) (hwrites : ∀ w ∈ x'.writes, w ∈ x.writes)
    (hkept : ∀ k obs, x.seen k = some obs →
      ∃ obs', x'.seen k = some obs' ∧ obs'.present = obs.present ∧ obs'.rev = obs.rev) :
    Based x' := by
  intro w hw hop
  obtain ⟨obs, hseen, hpresent, hrev⟩ := h w (hwrites w hw) hop
  obtain ⟨obs', hseen', hpresent', hrev'⟩ := hkept w.1 obs hseen
  exact ⟨obs', hseen', hpresent'.trans hpresent, hrev.trans hrev'.symm⟩

theorem Based.restage (h : Based x) {op : XTxOp}
    (hop : op.op ≠ .insert →
      ∃ obs, x.seen k = some obs ∧ obs.present = true ∧ op.expectedRev = obs.rev) :
    Based (x.restage k op) := by
  intro w hw hins
  obtain ⟨w', hw', rfl⟩ := mem_map.mp hw
  by_cases hk : w'.1 = k
  · rw [if_pos (by simpa using hk)] at hins ⊢
    exact hop hins
  · rw [if_neg (by simpa using hk)] at hins ⊢
    exact h w' hw' hins

theorem stageOver_spec (hb : Based x) {w : XTxOp} (hw : x.staged k = some w) (op : XTxOp) :
    (x.stageOver k w op).parts = x.parts ∧ (∀ k', (x.stageOver k w op).seen k' = x.seen k') ∧
      Based (x.stageOver k w op) := by
  have hbase := hb (k, w) (staged_mem hw)
  unfold XTx.stageOver
  cases hk : w.op with
  | delete => exact ⟨rfl, fun _ => rfl, hb⟩
  | insert =>
    dsimp only
    split
    · exact ⟨rfl, fun _ => rfl, hb⟩
    · split
      · refine ⟨rfl, fun _ => rfl, hb.kept (fun w hw => (mem_filter.mp hw).1) fun k obs h =>
          ⟨obs, h, rfl, rfl⟩⟩
      · exact ⟨rfl, fun _ => rfl, hb.restage fun hins => absurd rfl hins⟩
  | update =>
    dsimp only
    split
    · exact ⟨rfl, fun _ => rfl, hb⟩
    · exact ⟨rfl, fun _ => rfl, hb.restage fun _ => hbase (by simp [hk])⟩

theorem stageStored_spec (hb : Based x) (hseen : x.seen k = some obs) (op : XTxOp) :
    (x.stageStored k obs op).parts = x.parts ∧
      ((x.stageStored k obs op).observed = x.observed ∨
        (x.stageStored k obs op).observed = (x.note k { obs with write := true }).observed) ∧
      Based (x.stageStored k obs op) := by
  unfold XTx.stageStored
  split
  · exact ⟨rfl, Or.inl rfl, hb⟩
  · next hpresent =>
    split
    · exact ⟨rfl, Or.inl rfl, hb⟩
    · refine ⟨rfl, Or.inr rfl, fun w hw hop => ?_⟩
      have hnote : Based (x.note k { obs with write := true }) :=
        hb.kept (fun _ hw => hw) (kept_note fun o ho => by
          cases hseen.symm.trans ho
          exact ⟨rfl, rfl⟩)
      rcases Runs.mem_concat hw with hw | rfl
      · exact hnote w hw hop
      · exact ⟨_, seen_note_self, by simpa using hpresent, rfl⟩

theorem seen_congr {x x' : XTx} (h : x'.observed = x.observed) (k : DocKey) :
    x'.seen k = x.seen k := by
  unfold XTx.seen
  rw [h]

/-- An observation is there behind `observe`, and the same wherever it would be made again. -/
structure Observed (cols : String → Store) (now : Int) (x : XTx) (k : DocKey) : Prop where
  parts : (x.observe (cols k.col).col now k).1.parts = x.parts
  writes : (x.observe (cols k.col).col now k).1.writes = x.writes
  seen : (x.observe (cols k.col).col now k).1.seen k = some (x.observe (cols k.col).col now k).2
  kept : ∀ k' o, x.seen k' = some o → (x.observe (cols k.col).col now k).1.seen k' = some o
  inv : (∀ k' o, x.seen k' = some o → ObsInv (cols k'.col) k'.id o) →
    ∀ k' o, (x.observe (cols k.col).col now k).1.seen k' = some o → ObsInv (cols k'.col) k'.id o
  again : ∀ t now', Agrees t now' k.id (x.observe (cols k.col).col now k).2 →
    x.observe t now' k = x.observe (cols k.col).col now k

theorem observe_spec (hi : ∀ c, RevInv (cols c)) (now : Int) (x : XTx) (k : DocKey) :
    Observed cols now x k := by
  cases hseen : x.seen k with
  | some o =>
    have heq : ∀ t now', x.observe t now' k = (x, o) := fun t now' => by simp [XTx.observe, hseen]
    constructor
    case again => exact fun t now' _ => (heq t now').trans (heq _ _).symm
    all_goals rw [heq]
    · exact hseen
    · exact fun k' o ho => ho
    · exact fun h => h
  | none =>
    have heq : ∀ t now', x.observe t now' k =
        (x.note k (observation t k.id now'), observation t k.id now') :=
      fun t now' => by simp [XTx.observe, hseen]
    constructor
    case again =>
      intro t now' hag
      rw [heq] at hag
      rw [heq, heq, observation_congr hag.version]
    all_goals rw [heq]
    · rfl
    · rfl
    · exact seen_note_self
    · intro k' o ho
      have hk : k' ≠ k := by
        rintro rfl
        rw [hseen] at ho
        cases ho
      exact (seen_note_other hk).trans ho
    · exact fun h => obsInv_note h (observation_inv (hi k.col))

theorem stage_called (hi : ∀ c, RevInv (cols c)) (hb : Based x)
    (hobs : ∀ k obs, x.seen k = some obs → ObsInv (cols k.col) k.id obs) {op : XTxOp}
    (h : x.call cfg (cols k.col).col now (.stage k op) = some x') :
    Called cfg x (.stage k op) x' ∧
      (∀ k obs, x'.seen k = some obs → ObsInv (cols k.col) k.id obs) ∧ Based x' := by
  unfold XTx.call at h
  obtain ⟨hpart, h⟩ := guard_bind.mp h
  obtain ⟨hkind, h⟩ := guard_bind.mp h
  set op' : XTxOp := { op with data := if op.op = .delete then none else op.data }
  cases hstaged : x.staged k with
  | some w =>
    rw [hstaged] at h
    cases h
    obtain ⟨hparts, hseen, hbased⟩ := stageOver_spec hb hstaged op'
    refine ⟨⟨hparts, fun k' o ho => ⟨o, (hseen k').trans ho, rfl, rfl⟩, fun frozen now' hag =>
      ⟨fun k' o ho => hag k' o ((hseen k').trans ho), ?_⟩⟩,
      fun k' o ho => hobs k' o ((hseen k').symm.trans ho), hbased⟩
    unfold XTx.call
    refine guard_bind.mpr ⟨hpart, ?_⟩
    refine guard_bind.mpr ⟨hkind, ?_⟩
    rw [hstaged]
    rfl
  | none =>
    rw [hstaged] at h
    have hspec := observe_spec hi now x k
    have hagain := hspec.again
    obtain ⟨hparts, hwrites, hseen, hkept, hinv, -⟩ := hspec
    have h : some ((x.observe (cols k.col).col now k).1.stageStored k
        (x.observe (cols k.col).col now k).2 op') = some x' := h
    generalize hy : x.observe (cols k.col).col now k = y at h hparts hwrites hseen hkept hinv hagain
    obtain ⟨y, o⟩ := y
    cases h
    have hby : Based y := hb.kept (fun w hw => hwrites ▸ hw) fun k' o' ho' =>
      ⟨o', hkept k' o' ho', rfl, rfl⟩
    have hinv := hinv hobs
    obtain ⟨hparts', hnoted, hbased⟩ := stageStored_spec hby hseen op'
    -- whether the document is noted once more or not
    have hlast : (∀ k' o', y.seen k' = some o' → ∃ o'', (y.stageStored k o op').seen k' = some o'' ∧
          o''.present = o'.present ∧ o''.rev = o'.rev) ∧
        (∀ k' o', (y.stageStored k o op').seen k' = some o' → ObsInv (cols k'.col) k'.id o') ∧
        ∀ (frozen : String → Collection) now', (∀ k' o', (y.stageStored k o op').seen k' = some o' →
          Agrees (frozen k'.col) now' k'.id o') →
          ∀ k' o', y.seen k' = some o' → Agrees (frozen k'.col) now' k'.id o' := by
      rcases hnoted with heq | heq
      · simp only [seen_congr heq]
        exact ⟨fun k' o' ho' => ⟨o', ho', rfl, rfl⟩, hinv, fun _ _ hag => hag⟩
      · simp only [seen_congr heq]
        refine ⟨kept_note fun q hq => ?_, obsInv_note hinv ?_, fun _ _ hag =>
          agrees_before hag fun q hq => ?_⟩
        · cases hseen.symm.trans hq
          exact ⟨rfl, rfl⟩
        · have hold := hinv k o hseen
          exact ⟨hold.present, hold.rev, hold.pinned, hold.content⟩
        · cases hseen.symm.trans hq
          exact ⟨rfl, fun _ he => he⟩
    obtain ⟨hkept', hinv', hag'⟩ := hlast
    refine ⟨⟨hparts'.trans hparts, fun k' o' ho' => hkept' k' o' (hkept k' o' ho'),
      fun frozen now' hag => ?_⟩, hinv', hbased⟩
    have hagy := hag' frozen now' hag
    refine ⟨fun k' o' ho' => hagy k' o' (hkept k' o' ho'), ?_⟩
    unfold XTx.call
    refine guard_bind.mpr ⟨hpart, ?_⟩
    refine guard_bind.mpr ⟨hkind, ?_⟩
    have hsame : x.observe (frozen k.col) now' k = (y, o) := hagain _ _ (hagy k o hseen)
    rw [hstaged]
    simp only [Call.doc, hsame]
    rfl

theorem insert_called (hb : Based x) {data : Option Data} {expiresAt : Int}
    (h : x.call cfg s now (.insert k data expiresAt) = some x') :
    Called cfg x (.insert k data expiresAt) x' ∧ x'.observed = x.observed ∧ Based x' := by
  have hany : ∀ t now', x.call cfg t now' (.insert k data expiresAt) = some x' := fun _ _ => h
  unfold XTx.call XTx.insert at h
  obtain ⟨-, h⟩ := guard_bind.mp h
  obtain ⟨-, rfl⟩ := guard_some h
  refine ⟨⟨rfl, fun k obs ho => ⟨obs, ho, rfl, rfl⟩, fun frozen now' hag => ⟨hag, hany _ _⟩⟩, rfl,
    fun w hw hop => ?_⟩
  rcases Runs.mem_concat hw with hw | rfl
  · exact hb w hw hop
  · exact absurd rfl hop

end

end Scriva.Serial
