import Scriva.Fencing

namespace Scriva.Disk

open Durable Faulty List Option

section

variable {cs : List String} {w : World} {c : String} {A : Call → Answer → Prop}

theorem checkAllFenced_holds {I : World → Prop} (hI : I w) : ∀ names : List String,
    Holds disk A I (checkAllFenced names) (Checked names [.xtxDurability, .collectionFenced] w) w
  | [] => ⟨hI, rfl, Or.inl ⟨rfl, nofun⟩⟩
  | _ :: names => checked_cons (.xtxDurability :: ·) hI (checkAllFenced_holds hI names)

theorem ensureKeyIndexes_holds {I : World → Prop} (hI : I w) : ∀ names : List String,
    Holds disk A I (ensureKeyIndexes names) (Checked names [.collectionFenced] w) w
  | [] => ⟨hI, rfl, Or.inl ⟨rfl, nofun⟩⟩
  | _ :: names => checked_cons id hI (ensureKeyIndexes_holds hI names)

theorem decide_calm (hA : SyncsOk A) (h : Calm cs w) (partDigest : List XTxOpRef → String)
    (key : String) {runs : List Run} (ho : Open cs w runs) (full : List String)
    (g : Option Err → Option Err) :
    Holds disk A (Calm cs) (do
      match ← allocateTxID with
      | .error e => return some e
      | .ok t =>
        unlessErr (xtxPrepareAndDecide partDigest t key runs) do
          applyRuns t runs
          let post ← postRuns full runs
          return g post) Any w := by
  refine (allocateTxID_calm h).andThen fun u t hu hs => ?_
  cases t with
  | error e => exact ⟨hu, trivial⟩
  | ok t =>
    have ho := ho.same hs
    refine keeps_unlessErr (xtxPrepareAndDecide_calm hA hu partDigest t key ho) fun v hv hs => ?_
    refine (applyRuns_calm t runs hv (ho.same (hs rfl))).andThen fun x _ hx _ => ?_
    exact (postRuns_calm full runs hx fun r hr => (ho r hr).1).andThen fun _ _ hy _ => ⟨hy, trivial⟩

theorem commitXTx_calm (hA : SyncsOk A) (h : Calm cs w) (partDigest : List XTxOpRef → String)
    (x : XTx) (hc : ∀ r ∈ x.runs, r.c ∈ cs) :
    Holds disk A (Calm cs) (commitXTx partDigest x) Any w := by
  refine keeps_unless h ?_
  refine keeps_unlessErr (checkAllFenced_holds h _) ?_
  rintro u hu ⟨rfl, ⟨-, hclear⟩ | ⟨he, -⟩⟩
  · have ho : Open cs u x.runs := fun r hr =>
      ⟨hc r hr, not_fencedAt hclear (mem_append_left _ (mem_map_of_mem hr))⟩
    refine keeps_unless hu ?_
    refine keeps_unlessErr (checkPoisoned_calm x.runs hu) fun v hv hs => ?_
    refine keeps_unless hv ?_
    exact decide_calm hA hv partDigest x.key (ho.same hs) x.full fun post =>
      if x.batch.isSome then post else none
  · cases he

theorem applyReplicatedTx_calm (hA : SyncsOk A) (h : Calm cs w)
    (partDigest : List XTxOpRef → String) (x : Envelope)
    (hx : Open cs w x.runs ∨ w.fencedAt x.keyed) :
    Holds disk A (Calm cs) (applyReplicatedTx partDigest x) Any w := by
  refine keeps_unless h ?_
  refine keeps_unlessErr (ensureKeyIndexes_holds h _) ?_
  rintro u hu ⟨rfl, ⟨-, hclear⟩ | ⟨he, -⟩⟩
  · have ho : Open cs u x.runs := hx.resolve_right hclear
    split
    · exact ⟨hu, trivial⟩
    · refine keeps_unless hu ?_
      refine keeps_unlessErr (checkPoisoned_calm x.runs hu)
        fun v hv hs => ?_
      exact decide_calm hA hv partDigest x.key (ho.same hs) x.full fun _ => none
  · cases he

theorem Calm.mono {cs' : List String} (h : Calm cs w) (hsub : ∀ c ∈ cs', c ∈ cs) : Calm cs' w :=
  ⟨h.sound, fun c hc => h.settled c (hsub c hc)⟩

theorem Calm.nil (h : Calm cs w) : Calm [] w :=
  h.mono fun _ hc => nomatch hc

theorem Calm.replace (h : Calm [] w) {f : Col → Col} (hs : (f (w.cols c)).Sound) :
    Calm [] (w.change c f) :=
  ⟨World.change_all (P := fun _ x => x.Sound) h.sound hs, nofun⟩

theorem backgroundSync_calm (h : Calm [c] w) (op : String) :
    Holds disk A (Calm []) (backgroundSync c op) Any w := by
  unfold backgroundSync
  rw [holds_look]
  split
  · exact ⟨h.nil, trivial⟩
  · next hf =>
    have hf : (w.cols c).fenced = none := by simpa using hf
    have hun := h.unfailed mem_cons_self hf
    rw [holds_call]
    refine ⟨h.nil, fun a _ => ?_⟩
    rw [World.after]
    split
    · next ha =>
      subst ha
      exact ⟨(h.same c (·.fsync .ok) (Col.fsync_flags hun)).1.nil, trivial⟩
    · -- the failure shows as a fence that is about to be set
      rw [holds_change, World.change_change]
      have hs := h.sound c
      refine ⟨h.nil.replace ?_, trivial⟩
      cases a <;> simp only [Col.fsync, Col.note_of_unfailed hun] <;>
        exact ⟨hs.quiet, fun _ => Or.inr rfl, hs.poisoned⟩

theorem fencePending_calm (h : Calm [] w) :
    Holds disk A (Calm []) (fencePending c) Any w := by
  unfold fencePending
  rw [holds_look]
  split
  · exact ⟨h, trivial⟩
  · next op hop =>
    rw [holds_fence, holds_change, World.change_change]
    have hsome : ((w.cols c).fence op).fenced.isSome = true := by
      unfold Col.fence
      cases (w.cols c).fenced <;> rfl
    exact ⟨h.replace ⟨(h.sound c).quiet, fun _ => Or.inl hsome, fun _ => hsome⟩, trivial⟩

theorem dropTails_calm (v : World) (t : Nat) :
    ∀ (names : List String) {w : World}, Calm [] w →
      Holds disk A (Calm []) (dropTails v t names) Any w
  | [], _, h => ⟨h, trivial⟩
  | c :: names, w, h => by
    unfold dropTails
    split
    · next n hn =>
      rw [holds_call]
      refine ⟨h, fun a _ => ?_⟩
      have hu := (h.same c (·.recoverTruncate n a) (by cases a <;> constructor <;> rfl)).1
      rw [World.after, holds_call]
      refine ⟨hu, fun b _ => ?_⟩
      have hv := (hu.same c (·.recoverSync b) (by cases b <;> constructor <;> rfl)).1
      exact dropTails_calm v t names hv
    · exact dropTails_calm v t names h

variable (partDigest : List XTxOpRef → String)

theorem resolveAll_calm (v : World) :
    ∀ (ts : List Nat) {w : World}, Calm [] w →
      Holds disk A (Calm []) (resolveAll partDigest v ts) Any w
  | [], _, h => ⟨h, trivial⟩
  | t :: ts, w, h => by
    have htx : Holds disk A (Calm []) (resolveTx partDigest v t) Any w := by
      unfold resolveTx
      rw [holds_journal]
      split
      · split
        · exact ⟨h, trivial⟩
        · exact (dropTails_calm v t _ h).andThen fun u _ hu _ =>
            (abort_calm hu t "").andThen fun x _ hx _ => ⟨hx, trivial⟩
      · exact (dropTails_calm v t _ h).andThen fun u _ hu _ => ⟨hu, trivial⟩
      · exact ⟨h, trivial⟩
    exact keeps_unlessErr htx fun u hu _ => resolveAll_calm v ts hu

theorem openCollections_calm :
    ∀ (names : List String) {w : World}, Calm [] w →
      Holds disk A (Calm []) (openCollections names) Any w
  | [], _, h => ⟨h, trivial⟩
  | c :: names, w, h => by
    unfold openCollections
    rw [holds_journal, holds_change]
    exact openCollections_calm names
      (h.replace ⟨(h.sound c).quiet, nofun, nofun⟩)

theorem openDB_calm (h : Calm [] w) :
    Holds disk A (Calm []) (openDB partDigest) Any w := by
  unfold openDB
  rw [holds_get]
  dsimp only
  split
  · exact ⟨h, trivial⟩
  · rw [holds_changeJournal]
    exact keeps_unlessErr (resolveAll_calm partDigest w _ (h.changeJournal _)) fun u hu _ =>
        (openCollections_calm w.names hu).andThen fun v _ hv _ => ⟨⟨hv.sound, nofun⟩, trivial⟩

theorem closeCollection_calm (h : Calm [] w) (hp : (w.cols c).pending = none) :
    Holds disk A (Calm []) (closeCollection c)
      (fun u _ => ∀ d, (w.cols d).pending = none → (u.cols d).pending = none) w := by
  have hclosed : ∀ f : Col → Col, (f (w.cols c)).deeds = [] →
      Calm [] (w.change c fun x => (f x).closed) ∧
        ∀ d, (w.cols d).pending = none →
          ((w.change c fun x => (f x).closed).cols d).pending = none := by
    intro f hf
    refine ⟨h.replace ⟨hf, nofun, nofun⟩, ?_⟩
    exact World.change_all (P := fun d x => (w.cols d).pending = none → x.pending = none)
      (fun _ hd => hd) fun _ => rfl
  unfold closeCollection
  rw [holds_look]
  split
  · exact hclosed id (h.sound c).quiet
  · next hf =>
    have hf : (w.cols c).fenced = none := by simpa using hf
    have hcalm : Calm [c] w := ⟨h.sound, by simpa using hp⟩
    have hnote := Col.note_of_unfailed (hcalm.unfailed mem_cons_self hf) .synced
    rw [holds_call]
    refine ⟨h, fun a _ => ?_⟩
    have hquiet : ((w.cols c).fsync a).deeds = [] := by
      cases a <;> simp only [Col.fsync, hnote, (h.sound c).quiet]
    have hdone := hclosed (·.fsync a) hquiet
    rw [← World.change_change w c (·.fsync a) Col.closed] at hdone
    exact hdone

theorem closeAll_calm :
    ∀ (names : List String) {w : World}, Calm [] w → (∀ c ∈ names, (w.cols c).pending = none) →
      Holds disk A (Calm []) (closeAll names) Any w
  | [], _, h, _ => ⟨h, trivial⟩
  | c :: names, _, h, hp =>
    (closeCollection_calm h (hp c mem_cons_self)).andThen fun _ _ hu hs =>
      closeAll_calm names hu fun d hd => hs d (hp d (mem_cons_of_mem _ hd))

theorem dropCollection_calm (h : Calm [] w) (hp : (w.cols c).pending = none) :
    Holds disk A (Calm []) (dropCollection c) Any w := by
  unfold dropCollection
  rw [holds_journal]
  split
  · exact ⟨h, trivial⟩
  · refine (closeCollection_calm h hp).andThen fun u _ hu _ => ?_
    have hlive : Calm [] { u with live := u.live.erase c } := ⟨hu.sound, nofun⟩
    rw [holds_modify, holds_call]
    refine ⟨hlive, fun a _ => ?_⟩
    have hgone : Calm [] ({ u with live := u.live.erase c }.after a (.removeAll c)) := by
      have hnew := hlive.replace (c := c) (f := fun x => x.renew x.mode)
        ⟨(hu.sound c).quiet, nofun, nofun⟩
      cases a with
      | failed => exact hlive
      | ok | hidden => exact ⟨hnew.sound, nofun⟩
    split <;> exact ⟨hgone, trivial⟩

theorem createCollection_calm (h : Calm [] w) (mode : SyncMode) :
    Holds disk A (Calm []) (createCollection c mode) Any w := by
  unfold createCollection
  rw [holds_get]
  split
  · exact ⟨h, trivial⟩
  · split
    · have hnew := h.replace (c := c) (f := (·.opened w.journal.table))
        ⟨(h.sound c).quiet, nofun, nofun⟩
      exact ⟨⟨hnew.sound, nofun⟩, trivial⟩
    · have hnew := h.replace (c := c) (f := (·.renew mode)) ⟨(h.sound c).quiet, nofun, nofun⟩
      exact ⟨⟨hnew.sound, nofun⟩, trivial⟩

end

def Request.isExempt : Request → Bool
  | .syncLoop _ | .persist _ | .fencePending _ | .drop _ => true
  | _ => false

def Request.Settled (w : World) : Request → Prop
  | .fencePending _ => True
  | q => ∀ c ∈ q.touched, (w.cols c).pending = none

/-- A request for a fenced collection passes the checks made before the fence is looked at, and
takes a path that looks at it. -/
def Request.FenceOk (w : World) (q : Request) : Prop :=
  w.fencedAt q.touched →
    match q with
    | .single s => s.early = none
    | .batch b => b.refs ≠ [] ∧ b.early = none
    | .xtx x => x.early = none
    | .envelope x => x.early = none ∧ w.fencedAt x.keyed
    | .readInTx _ present => present = true
    | .commitReads _ => False
    | _ => True

def Request.admits : Request → Call → Answer → Prop
  | .batch _, .fsync _, a | .xtx _, .fsync _, a | .envelope _, .fsync _, a => a = .ok
  | _, _, _ => True

section

variable {w : World} (partDigest : List XTxOpRef → String)

theorem request_calm (h : Calm [] w) {q : Request} (hq : q.Settled w) (hok : q.FenceOk w) :
    Holds disk q.admits (Calm []) (q.prog partDigest) Any w := by
  have hcalm : ∀ {cs}, (∀ c ∈ cs, (w.cols c).pending = none) → Calm cs w := fun hcs => ⟨h.sound, hcs⟩
  have hdrop : ∀ {cs} {p : Go (Option Err)}, Holds disk q.admits (Calm cs) p Any w →
      Holds disk q.admits (Calm []) p Any w :=
    fun hp => hp.weaken (fun _ hu => hu.nil) fun _ _ ha => ha
  cases q with
  | single s => exact hdrop (singleWrite_calm (hcalm hq) s mem_cons_self)
  | batch b => exact hdrop (legacyBatch_calm (fun _ _ ha => ha) (hcalm hq) b mem_cons_self)
  | xtx x =>
    refine hdrop (commitXTx_calm (fun _ _ ha => ha) (hcalm hq) partDigest x fun r hr => ?_)
    exact mem_append_left _ (mem_map_of_mem hr)
  | envelope x =>
    refine hdrop (applyReplicatedTx_calm (fun _ _ ha => ha) (hcalm hq) partDigest x ?_)
    by_cases hf : w.fencedAt (Request.touched (.envelope x))
    · exact Or.inr (hok hf).2
    · refine Or.inl fun r hr => ?_
      have hmem : r.c ∈ Request.touched (.envelope x) :=
        mem_append_right _ (mem_map_of_mem hr)
      exact ⟨hmem, not_fencedAt hf hmem⟩
  | reap c refs needRotate =>
    exact hdrop (reapExpired_calm (hcalm hq) mem_cons_self refs needRotate)
  | maintain c ruling => exact holds_checkFenced h (fun _ => trivial) fun _ => ⟨h, trivial⟩
  | rotate c => exact hdrop (rotateSegment_calm (hcalm hq) mem_cons_self)
  | syncLoop c =>
    change Holds disk _ _ (syncLoop c) _ w
    unfold syncLoop
    rw [holds_look]
    split
    · exact backgroundSync_calm (hcalm hq) _
    · exact ⟨h, trivial⟩
  | persist c => exact backgroundSync_calm (hcalm hq) _
  | fencePending c => exact fencePending_calm h
  | read c => exact (checkFenced_holds c h).any
  | readInTx c present =>
    cases present with
    | true => exact (checkFenced_holds c h).any
    | false => exact ⟨h, trivial⟩
  | commitReads cs => exact ⟨h, trivial⟩
  | drop c => exact dropCollection_calm h (hq c mem_cons_self)

def refused (e : Option Err) : Prop :=
  ∃ e', e = some e' ∧ .collectionFenced ∈ e'

theorem Checked.refused {cs : List String} {err : Err} {u : World} {e : Option Err}
    (h : Checked cs err w u e) (hf : w.fencedAt cs) (herr : .collectionFenced ∈ err) : refused e := by
  obtain ⟨-, ⟨-, hn⟩ | ⟨he, -⟩⟩ := h
  · exact absurd hf hn
  · exact ⟨err, he, herr⟩

theorem request_refused {A : Call → Answer → Prop} {q : Request} (hq : q.isExempt = false)
    (hok : q.FenceOk w) (hf : w.fencedAt q.touched) :
    Holds disk A (fun _ => True) (q.prog partDigest) (fun _ e => refused e) w := by
  have hok := hok hf
  have hcheck : ∀ {cs err} {p q : Go (Option Err)},
      Holds disk A (fun _ => True) p (Checked cs err w) w → w.fencedAt cs →
      .collectionFenced ∈ err →
      Holds disk A (fun _ => True) (unlessErr p q) (fun _ e => refused e) w := by
    intro cs err p q hp hfc herr
    refine holds_unlessErr hp (fun u e _ h => h.refused hfc herr) fun u _ h => ?_
    obtain ⟨e, he, -⟩ := h.refused hfc herr
    cases he
  have hone := checkFenced_holds (A := A) (I := fun _ => True) (w := w)
  cases q with
  | single s => exact holds_unless hok (hcheck (hone _ trivial) hf mem_cons_self)
  | batch b =>
    change Holds disk A _ (legacyBatch b) _ w
    unfold legacyBatch
    rw [if_neg hok.1]
    exact holds_unless hok.2 (hcheck (hone _ trivial) hf mem_cons_self)
  | xtx x =>
    exact holds_unless hok (hcheck (checkAllFenced_holds trivial _) hf (by simp))
  | envelope x =>
    exact holds_unless hok.1 (hcheck (ensureKeyIndexes_holds trivial _) hok.2 mem_cons_self)
  | reap c refs needRotate | maintain c ruling | rotate c =>
    exact hcheck (hone c trivial) hf mem_cons_self
  | syncLoop c | persist c | fencePending c | drop c => cases hq
  | read c => exact (hone c trivial).mono fun _ _ _ h => h.refused hf mem_cons_self
  | readInTx c present =>
    obtain rfl : present = true := hok
    exact (hone c trivial).mono fun _ _ _ h => h.refused hf mem_cons_self
  | commitReads cs => exact hok.elim

end

section

variable (partDigest : List XTxOpRef → String)

/-- The condition on a step: requests come when the fence they need is set, and no fsync fails
whose failure nothing answers with a fence. -/
def FenceSound (n : Node) : Act → Prop
  | .serve q fs | .die q fs _ _ =>
    q.Settled n.world ∧ q.FenceOk n.world ∧
      ∀ x ∈ (q.prog partDigest).calls disk .ok n.world fs, q.admits x.1 x.2
  | .shutdown _ _ => ∀ c ∈ n.world.live, (n.world.cols c).pending = none
  | .create _ _ | .openDB _ | .dieOpening _ _ _ => True

theorem Calm.crash {w : World} (h : Calm [] w) (k : Crash) : Calm [] (w.crash k) :=
  ⟨fun c => ⟨(h.sound c).quiet, (h.sound c).failed, (h.sound c).poisoned⟩, nofun⟩

theorem Calm.next {w : World} (h : Calm [] w) : Calm [] w.next :=
  ⟨h.sound, nofun⟩

theorem stopAt_of_holds {A : Call → Answer → Prop} {I : World → Prop} {α : Type} {p : Go α}
    {w : World} {fs : List Answer} (h : Holds disk A I p Any w)
    (hfs : ∀ x ∈ p.calls disk .ok w fs, A x.1 x.2) (i : Nat) : I (stopAt p w fs i) := by
  unfold stopAt
  by_cases hi : i < (p.stops disk .ok w fs).length
  · rw [getD_eq_getElem _ _ hi]
    exact stops_of_holds h hfs _ (getElem_mem hi)
  · rw [getD_eq_default _ _ (Nat.le_of_not_lt hi)]
    exact invariant_of_holds h hfs

theorem fence_step {n m : Node} {a : Act} (h : Calm [] n.world) (ha : FenceSound partDigest n a)
    (hs : n.step partDigest a = some m) : Calm [] m.world := by
  cases a with
  | serve q fs =>
    obtain ⟨-, rfl⟩ := Runs.guarded hs
    obtain ⟨hq, hok, hfs⟩ := ha
    exact (invariant_of_holds (request_calm partDigest h hq hok) hfs).next
  | create c mode =>
    obtain ⟨-, rfl⟩ := Runs.guarded hs
    exact invariant_of_holds (createCollection_calm (A := fun _ _ => True) h mode) fun _ _ => trivial
  | die q fs i k =>
    obtain ⟨-, rfl⟩ := Runs.guarded hs
    obtain ⟨hq, hok, hfs⟩ := ha
    exact ((stopAt_of_holds (request_calm partDigest h hq hok) hfs i).crash k).next
  | shutdown fs k =>
    obtain ⟨-, rfl⟩ := Runs.guarded hs
    have hclose := closeAll_calm (A := fun _ _ => True) n.world.live h ha
    exact (invariant_of_holds hclose fun _ _ => trivial).crash k
  | openDB fs =>
    obtain ⟨-, rfl⟩ := Runs.barred hs
    exact invariant_of_holds (openDB_calm (A := fun _ _ => True) partDigest h) fun _ _ => trivial
  | dieOpening fs i k =>
    obtain ⟨-, rfl⟩ := Runs.barred hs
    have hopen := openDB_calm (A := fun _ _ => True) partDigest h
    exact (stopAt_of_holds hopen (fun _ _ => trivial) i).crash k

/-- Once an fsync or a rollback of a collection's active segment has failed, nothing is appended to
it, synced or published until the collection is opened again, and every request for it is refused
with the fence's error. -/
theorem fencing_complete (names : List String) (modes : String → SyncMode) {n : Node}
    (h : Runs.Reaches (Node.step partDigest) (FenceSound partDigest) (.created names modes) n) :
    (∀ c, (n.world.cols c).deeds = []) ∧
    ∀ q fs, FenceSound partDigest n (.serve q fs) →
      (∀ u ∈ (q.prog partDigest).stops disk .ok n.world fs, ∀ c, (u.cols c).deeds = []) ∧
      (q.isExempt = false → (∃ c ∈ q.touched, (n.world.cols c).failed = true) →
        refused ((q.prog partDigest).run disk .ok n.world fs).2) := by
  have hcalm : Calm [] n.world :=
    h.invariant (I := fun n => Calm [] n.world) ⟨fun c => ⟨rfl, nofun, nofun⟩, nofun⟩
      fun hI hok hs => fence_step partDigest hI hok hs
  refine ⟨fun c => (hcalm.sound c).quiet, fun q fs ⟨hq, hok, hfs⟩ => ⟨fun u hu c => ?_, ?_⟩⟩
  · exact ((stops_of_holds (request_calm partDigest hcalm hq hok) hfs u hu).sound c).quiet
  · rintro hbg ⟨c, hc, hfail⟩
    have hsettled : (n.world.cols c).pending = none := by
      cases q with
      | fencePending c => cases hbg
      | _ => exact hq c hc
    have hfenced : (n.world.cols c).fenced.isSome = true := by
      rcases (hcalm.sound c).failed hfail with hf | hf
      · exact hf
      · rw [hsettled] at hf
        cases hf
    have hrefused := request_refused (A := fun _ _ => True) partDigest hbg hok ⟨c, hc, hfenced⟩
    exact run_of_holds hrefused fun _ _ => trivial

end

instance (w : World) (cs : List String) : Decidable (w.fencedAt cs) :=
  inferInstanceAs (Decidable (∃ c ∈ cs, _))

instance (w : World) (q : Request) : Decidable (q.Settled w) := by
  unfold Request.Settled
  cases q <;> infer_instance

instance (w : World) (q : Request) : Decidable (q.FenceOk w) := by
  unfold Request.FenceOk
  cases q <;> infer_instance

instance (q : Request) (k : Call) (a : Answer) : Decidable (q.admits k a) := by
  unfold Request.admits
  cases q <;> cases k <;> infer_instance

instance (partDigest : List XTxOpRef → String) (n : Node) (a : Act) :
    Decidable (FenceSound partDigest n a) := by
  cases a <;> dsimp only [FenceSound] <;> infer_instance

def synced : Node :=
  .created ["a"] fun _ => .always

def insertRef : XTxOpRef :=
  ⟨1, .insert, 1⟩

def insertOne : Request :=
  .single ⟨"a", "insert", insertRef, none, .write, false⟩

def batchOne : Request :=
  .batch ⟨"a", .insertMany, [insertRef], none, none, false⟩

def xtxOne : Request :=
  .xtx ⟨"", none, [⟨"a", [insertRef]⟩], [], none, none, none, []⟩

def envelopeOne : Request :=
  .envelope ⟨"", ["a"], [⟨"a", [insertRef]⟩], [], none, false, none, []⟩

theorem fencing_complete_sample :
    ∃ n, Runs.run (Node.step fun _ => "") synced [.serve insertOne [.ok, .failed]] = some n ∧
      (n.world.cols "a").failed = true ∧ (n.world.cols "a").deeds = [] ∧
      refused (((Request.read "a").prog fun _ => "").run disk .ok n.world []).2 := by
  refine ⟨_, rfl, rfl, ?_⟩
  have hmeets : Runs.Meets (Node.step fun _ => "") (FenceSound fun _ => "") synced
      [.serve insertOne [.ok, .failed]] := by decide
  have hreach := Runs.reaches_run rfl hmeets .refl
  have hread := fencing_complete (fun _ => "") ["a"] (fun _ => .always) hreach
  exact ⟨hread.1 "a", (hread.2 (.read "a") [] (by decide)).2 rfl ⟨"a", by decide, rfl⟩⟩

def aftermath (partDigest : List XTxOpRef → String) (acts : List Act) :
    Option (List Deed × List (Option Err)) :=
  (Runs.run (Node.step partDigest) synced acts).map fun n =>
    ((n.world.cols "a").deeds, n.reports.map (·.err))

/-- A batch or a transaction whose fsync fails fences nothing, a replicated transaction does not
look at the fence, and writes slip in before a background loop sets it. -/
theorem fence_missed :
    (∀ partDigest, aftermath partDigest
        [.serve batchOne [.ok, .failed], .serve insertOne []] =
      some ([.appended, .synced, .published], [some [.other], none])) ∧
    (∀ partDigest, aftermath partDigest
        [.serve xtxOne [.ok, .failed], .serve (.read "a") [], .serve (.persist "a") []] =
      some ([.synced], [some [.xtxDurability], none, none])) ∧
    (∀ partDigest, aftermath partDigest
        [.serve insertOne [.ok, .failed], .serve envelopeOne []] =
      some ([.appended, .synced, .published], [some [.writeOutcomeUnknown], none])) ∧
    (∀ partDigest, aftermath partDigest
        [.serve (.persist "a") [.failed], .serve insertOne []] =
      some ([.appended, .synced, .published], [none, none])) ∧
    ∀ partDigest, aftermath partDigest
        [.serve insertOne [.ok, .failed], .serve (.readInTx "a" false) []] =
      some ([], [some [.writeOutcomeUnknown], none]) := by
  refine ⟨fun _ => ?_, fun _ => ?_, fun _ => ?_, fun _ => ?_, fun _ => ?_⟩
  · rfl
  · rfl
  · rfl
  · rfl
  · rfl

end Scriva.Disk
