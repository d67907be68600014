import Scriva.DiskRules

namespace Scriva.Disk

open Durable Faulty List

/-- Nothing was done after a failure, and a failure shows: as a fence, or as one about to be set by
the background loop that saw it. -/
structure Col.Sound (x : Col) : Prop where
  quiet : x.deeds = []
  failed : x.failed = true → x.fenced.isSome = true ∨ x.pending.isSome = true
  poisoned : x.poisoned = true → x.fenced.isSome = true

structure Calm (cs : List String) (w : World) : Prop where
  sound : ∀ c, (w.cols c).Sound
  settled : ∀ c ∈ cs, (w.cols c).pending = none

def SameFences (w u : World) : Prop :=
  ∀ c, (u.cols c).fenced = (w.cols c).fenced

theorem SameFences.trans {u v w : World} (h : SameFences w v) (h' : SameFences v u) :
    SameFences w u :=
  fun c => (h' c).trans (h c)

theorem SameFences.change {w : World} {c : String} {f : Col → Col}
    (hf : (f (w.cols c)).fenced = (w.cols c).fenced) : SameFences w (w.change c f) :=
  World.change_all (P := fun d x => x.fenced = (w.cols d).fenced) (fun _ => rfl) hf

theorem Col.note_of_unfailed {x : Col} (h : x.failed = false) (d : Deed) : x.note d = x := by
  simp [Col.note, h]

section

variable {cs : List String} {w : World} {c : String} {A : Call → Answer → Prop}

theorem Calm.change (h : Calm cs w) {f : Col → Col} (hs : (f (w.cols c)).Sound)
    (hp : (f (w.cols c)).pending = (w.cols c).pending) : Calm cs (w.change c f) where
  sound := World.change_all (P := fun _ x => x.Sound) h.sound hs
  settled := World.change_all (P := fun d x => d ∈ cs → x.pending = none) h.settled
    fun hc => hp.trans (h.settled c hc)

theorem Calm.changeJournal (h : Calm cs w) (f : Journal → Journal) :
    Calm cs (w.changeJournal f) :=
  ⟨h.sound, h.settled⟩

theorem Calm.unfailed (h : Calm cs w) (hc : c ∈ cs) (hf : (w.cols c).fenced = none) :
    (w.cols c).failed = false := by
  cases hx : (w.cols c).failed with
  | false => rfl
  | true =>
    have := (h.sound c).failed hx
    simp [hf, h.settled c hc] at this

theorem Calm.fence (h : Calm cs w) {f : Col → Col} {op : String}
    (hd : (f (w.cols c)).deeds = (w.cols c).deeds)
    (hp : (f (w.cols c)).pending = (w.cols c).pending) :
    Calm cs (w.change c fun x => (f x).fence op) := by
  have hsome : ((f (w.cols c)).fence op).fenced.isSome = true := by
    unfold Col.fence
    cases (f (w.cols c)).fenced <;> rfl
  exact h.change ⟨hd.trans (h.sound c).quiet, fun _ => Or.inl hsome, fun _ => hsome⟩ hp

structure Col.SameFlags (x y : Col) : Prop where
  deeds : y.deeds = x.deeds
  failed : y.failed = x.failed
  fenced : y.fenced = x.fenced
  pending : y.pending = x.pending
  poisoned : y.poisoned = x.poisoned

variable {x : Col} {runs : List Run}

theorem Col.SameFlags.sound {y : Col} (h : x.SameFlags y) (hx : x.Sound) : y.Sound where
  quiet := h.deeds.trans hx.quiet
  failed := by rw [h.failed, h.fenced, h.pending]; exact hx.failed
  poisoned := by rw [h.poisoned, h.fenced]; exact hx.poisoned

theorem Calm.same (h : Calm cs w) (c : String) (f : Col → Col) (hf : (w.cols c).SameFlags (f (w.cols c))) :
    Calm cs (w.change c f) ∧ SameFences w (w.change c f) :=
  ⟨h.change (hf.sound (h.sound c)) hf.pending, SameFences.change hf.fenced⟩

theorem Col.write_flags (h : x.failed = false) (l : Row) (a : Answer) :
    x.SameFlags (x.write l a) := by
  cases a <;> simp only [Col.write, Col.note_of_unfailed h] <;> constructor <;> rfl

theorem Col.fsync_flags (h : x.failed = false) : x.SameFlags (x.fsync .ok) := by
  simp only [Col.fsync, Col.note_of_unfailed h]
  constructor <;> rfl

theorem Col.seal_flags (h : x.failed = false) {a : Answer} (ha : a ≠ .failed) :
    x.SameFlags (x.seal a) := by
  cases a with
  | failed => exact absurd rfl ha
  | ok | hidden =>
    simp only [Col.seal, Col.note_of_unfailed h]
    constructor <;> rfl

theorem Col.publish_flags (h : x.failed = false) : x.SameFlags (x.note .published) := by
  rw [Col.note_of_unfailed h]
  constructor <;> rfl

theorem Col.indexRow_flags (x : Col) (l : Row) : x.SameFlags (x.indexRow l) := by
  constructor <;> rfl

/-- A rollback sets no fence or reports a poisoned segment. -/
theorem rollbackLocked_calm (h : Calm cs w) (c : String) (n : Nat) :
    Holds disk A (Calm cs) (rollbackLocked c n)
      (fun u e => (e = none ∧ SameFences w u) ∨ e = some [.segmentPoisoned]) w := by
  unfold rollbackLocked
  rw [holds_look]
  split
  · exact ⟨h, Or.inr rfl⟩
  · rw [holds_call]
    refine ⟨h, fun a _ => ?_⟩
    rw [World.after]
    split
    · next ha =>
      subst ha
      obtain ⟨hu, hsame⟩ := h.same c (·.truncate n .ok) (by constructor <;> rfl)
      exact ⟨hu, Or.inl ⟨rfl, hsame⟩⟩
    · rw [holds_change, holds_fence, World.change_change, World.change_change]
      refine ⟨h.fence ?_ ?_, Or.inr rfl⟩ <;> cases a <;> rfl

def poisons (e : Option Err) : Bool :=
  e.any fun e => .segmentPoisoned ∈ e

/-- Only an append that poisons its segment sets a fence. -/
theorem append_calm (h : Calm cs w) (hc : c ∈ cs) (hf : (w.cols c).fenced = none) (l : Row) :
    Holds disk A (Calm cs) (append c l) (fun u e => poisons e = false → SameFences w u) w := by
  unfold append
  rw [holds_look]
  split
  · exact ⟨h, fun he => nomatch he⟩
  · rw [holds_call]
    refine ⟨h, fun a _ => ?_⟩
    rw [World.after]
    obtain ⟨hu, hsame⟩ := h.same c (·.write l a) (Col.write_flags (h.unfailed hc hf) l a)
    split
    · exact ⟨hu, fun _ => hsame⟩
    · refine (rollbackLocked_calm hu c _).andThen ?_
      rintro u e hu (⟨rfl, hs⟩ | rfl)
      · exact ⟨hu, fun _ => hsame.trans hs⟩
      · exact ⟨hu, fun he => nomatch he⟩

def fences (e : Option Err) : Bool :=
  e.any fun e => .writeOutcomeUnknown ∈ e || .collectionFenced ∈ e

theorem appendLocked_calm (h : Calm cs w) (hc : c ∈ cs) (op : String) (l : Row) :
    Holds disk A (Calm cs) (appendLocked c op l)
      (fun u e => fences e = false → SameFences w u ∧ (w.cols c).fenced = none) w := by
  refine holds_checkFenced h (fun _ he => nomatch he) fun hf => ?_
  refine (append_calm h hc hf l).andThen fun u e hu he => ?_
  cases e with
  | none => exact ⟨hu, fun _ => ⟨he rfl, hf⟩⟩
  | some e =>
    dsimp only
    split
    · unfold unknownOutcome
      rw [holds_fence]
      exact ⟨hu.fence rfl rfl, fun he => nomatch he⟩
    · next hp => exact ⟨hu, fun _ => ⟨he (by simpa [poisons] using hp), hf⟩⟩

theorem fsync_fence_calm (h : Calm cs w) (hc : c ∈ cs) (hf : (w.cols c).fenced = none) {a : Answer}
    (op : String) : Calm cs ((w.change c (·.fsync a)).change c (·.fence op)) := by
  have hnote := Col.note_of_unfailed (h.unfailed hc hf) .synced
  rw [World.change_change]
  refine h.fence ?_ ?_ <;> cases a <;> simp only [Col.fsync, hnote]

/-- A commit whose fsync succeeds sets no fence. -/
theorem syncCommitLocked_calm (h : Calm cs w) (hc : c ∈ cs) (hf : (w.cols c).fenced = none)
    (op : String) :
    Holds disk A (Calm cs) (syncCommitLocked c op) (fun u e => e = none → SameFences w u) w := by
  unfold syncCommitLocked
  rw [holds_look]
  split
  · exact ⟨h, fun _ _ => rfl⟩
  · rw [holds_call]
    refine ⟨h, fun a _ => ?_⟩
    rw [World.after]
    split
    · next ha =>
      subst ha
      obtain ⟨hu, hsame⟩ := h.same c (·.fsync .ok) (Col.fsync_flags (h.unfailed hc hf))
      exact ⟨hu, fun _ => hsame⟩
    · unfold unknownOutcome
      rw [holds_fence]
      exact ⟨fsync_fence_calm h hc hf op, fun he => nomatch he⟩

theorem settleSegment_calm (h : Calm cs w) (closed : Answer) :
    Holds disk A (Calm cs) (settleSegment c closed) Any w := by
  have hlast : ∀ b, Holds disk A (Calm cs) (if b = Answer.ok then do
      let saved ← call (.writeMeta c)
      return if closed = .ok ∧ saved = .ok then none else some [Sentinel.other]
    else do
      fence c "rotate"
      return some [Sentinel.other]) Any w := by
    intro b
    split
    · exact ⟨h, fun _ _ => ⟨h, trivial⟩⟩
    · exact ⟨h.fence rfl rfl, trivial⟩
  unfold settleSegment
  rw [holds_look]
  split
  · exact hlast .ok
  · exact ⟨h, fun b _ => hlast b⟩

theorem rotateSegment_calm (h : Calm cs w) (hc : c ∈ cs) :
    Holds disk A (Calm cs) (rotateSegment c) Any w := by
  refine holds_checkFenced h (fun _ => trivial) fun hf => ?_
  have hun := h.unfailed hc hf
  rw [holds_call]
  refine ⟨h, fun a _ => ?_⟩
  rw [World.after]
  split
  · next ha =>
    subst ha
    rw [holds_fence, World.change_change]
    have hnote := Col.note_of_unfailed hun .synced
    refine ⟨h.fence ?_ ?_, trivial⟩ <;> simp only [Col.seal, hnote]
  · next ha =>
    -- the segment is synced and sealed; what follows fails without touching it, or is fenced
    obtain ⟨hu, hsame⟩ := h.same c (·.seal a) (Col.seal_flags hun ha)
    rw [holds_call]
    refine ⟨hu, fun b _ => ?_⟩
    rw [World.after]
    split
    · next hb =>
      subst hb
      have hnew : Calm cs ((w.change c (·.seal a)).change c (·.newSegment .ok)) := by
        have hs := hu.sound c
        exact hu.change ⟨hs.quiet, hs.failed, fun he => nomatch he⟩ rfl
      exact settleSegment_calm hnew a
    · have hnew : Calm cs ((w.change c (·.seal a)).change c (·.newSegment b)) := by
        cases b with
        | ok => contradiction
        | failed | hidden => exact (hu.same c (·.newSegment _) (by constructor <;> rfl)).1
      rw [holds_call]
      refine ⟨hnew, fun d _ => ?_⟩
      rw [World.after]
      split
      · next hd =>
        subst hd
        have hs := hnew.sound c
        exact ⟨hnew.change ⟨hs.quiet, hs.failed, fun he => nomatch he⟩ rfl, trivial⟩
      · rw [holds_fence, World.change_change]
        refine ⟨hnew.fence ?_ ?_, trivial⟩ <;> cases d <;> rfl

theorem rotateIf_calm (h : Calm cs w) (hc : c ∈ cs) (needRotate : Bool) :
    Holds disk A (Calm cs) (rotateIf needRotate c) Any w := by
  unfold rotateIf
  split
  · exact rotateSegment_calm h hc
  · exact ⟨h, trivial⟩

theorem afterCommit_calm (h : Calm cs w) (hc : c ∈ cs) (needRotate : Bool) :
    Holds disk A (Calm cs) (afterCommit c needRotate) Any w := by
  refine (rotateIf_calm h hc needRotate).andThen fun u e hu _ => ?_
  cases e <;> exact ⟨hu, trivial⟩

theorem saveMeta_calm (h : Calm cs w) (refs : List XTxOpRef) :
    Holds disk A (Calm cs) (saveMeta c refs) Any w := by
  unfold saveMeta
  split
  · exact ⟨h, fun _ _ => ⟨h, trivial⟩⟩
  · exact ⟨h, trivial⟩

theorem singleWrite_calm (h : Calm cs w) (s : Single) (hc : s.c ∈ cs) :
    Holds disk A (Calm cs) (singleWrite s) Any w := by
  refine keeps_unless h ?_
  refine holds_checkFenced h (fun _ => trivial) fun hf => ?_
  cases s.ruling with
  | refuse e | skip => exact ⟨h, trivial⟩
  | write =>
    dsimp only
    rw [holds_request]
    refine keeps_unlessErr (appendLocked_calm h hc _ _) fun u hu hs => ?_
    have hfu : (u.cols s.c).fenced = none := ((hs rfl).1 s.c).trans hf
    refine keeps_unlessErr (syncCommitLocked_calm hu hc hfu _)
      fun v hv hs => ?_
    have hfv : (v.cols s.c).fenced = none := (hs rfl s.c).trans hfu
    obtain ⟨hi, hsi⟩ := hv.same s.c (·.indexRow _) (Col.indexRow_flags _ (s.row w.req))
    obtain ⟨hp, -⟩ := hi.same s.c (·.note .published)
      (Col.publish_flags (hi.unfailed hc ((hsi s.c).trans hfv)))
    exact afterCommit_calm hp hc s.needRotate

theorem failBatch_calm (h : Calm cs w) (start : Nat) (before : List Row) (e : Err) :
    Holds disk A (Calm cs) (failBatch c start before e) (fun _ e => e ≠ none) w := by
  refine (keeps_unlessErr (rollbackLocked_calm h c start) fun u hu _ => ?_).andThen ?_
  · rw [holds_change]
    exact ⟨(hu.same c (fun x => { x with index := before }) (by constructor <;> rfl)).1, trivial⟩
  · intro u e hu _
    cases e <;> exact ⟨hu, Option.some_ne_none _⟩

theorem appendBatch_calm (hc : c ∈ cs) (start : Nat) (before : List Row) :
    ∀ (ls : List Row) {w : World}, Calm cs w → (w.cols c).fenced = none →
      Holds disk A (Calm cs) (appendBatch c start before ls)
        (fun u e => e = none → SameFences w u) w
  | [], w, h, _ => ⟨h, fun _ _ => rfl⟩
  | l :: ls, w, h, hf => by
    refine (append_calm h hc hf l).andThen fun u e hu he => ?_
    cases e with
    | some e => exact (failBatch_calm hu start before e).mono fun _ _ _ he h => absurd h he
    | none =>
      obtain ⟨hi, hsi⟩ := hu.same c (·.indexRow l) (Col.indexRow_flags _ l)
      have hsame := (he rfl).trans hsi
      refine (appendBatch_calm hc start before ls hi ((hsame c).trans hf)).mono ?_
      exact fun v e _ hv he => hsame.trans (hv he)

/-- The requests that do not fence on a failed fsync are kept to schedules without one. -/
def SyncsOk (A : Call → Answer → Prop) : Prop :=
  ∀ c a, A (.fsync c) a → a = .ok

theorem syncActiveLocked_calm (hA : SyncsOk A) (h : Calm cs w) (hc : c ∈ cs)
    (hf : (w.cols c).fenced = none) :
    Holds disk A (Calm cs) (syncActiveLocked c) (fun u e => e = none ∧ SameFences w u) w := by
  unfold syncActiveLocked
  rw [holds_look]
  split
  · exact ⟨h, rfl, fun _ => rfl⟩
  · rw [holds_call]
    refine ⟨h, fun a ha => ?_⟩
    obtain rfl := hA c a ha
    obtain ⟨hu, hsame⟩ := h.same c (·.fsync .ok) (Col.fsync_flags (h.unfailed hc hf))
    exact ⟨hu, rfl, hsame⟩

theorem postBatch_calm (h : Calm cs w) (b : Batch) (hc : b.c ∈ cs) :
    Holds disk A (Calm cs) (postBatch b) Any w :=
  (saveMeta_calm h _).andThen fun _ _ hu _ =>
    (rotateIf_calm hu hc b.needRotate).andThen fun _ _ hv _ => ⟨hv, trivial⟩

theorem legacyBatch_calm (hA : SyncsOk A) (h : Calm cs w) (b : Batch) (hc : b.c ∈ cs) :
    Holds disk A (Calm cs) (legacyBatch b) Any w := by
  unfold legacyBatch
  split
  · exact ⟨h, trivial⟩
  · refine keeps_unless h ?_
    refine holds_checkFenced h (fun _ => trivial) fun hf => ?_
    refine keeps_unless h ?_
    rw [holds_look, holds_request]
    refine keeps_unlessErr (appendBatch_calm hc _ _ _ h hf)
      fun u hu hs => ?_
    have hfu : (u.cols b.c).fenced = none := (hs rfl b.c).trans hf
    refine (syncActiveLocked_calm hA hu hc hfu).andThen ?_
    rintro v e hv ⟨rfl, hs⟩
    obtain ⟨hp, -⟩ := hv.same b.c (·.note .published)
      (Col.publish_flags (hv.unfailed hc ((hs b.c).trans hfu)))
    exact postBatch_calm hp b hc

theorem appendReaped_calm (hc : c ∈ cs) :
    ∀ (ls : List Row) {w : World}, Calm cs w →
      Holds disk A (Calm cs) (appendReaped c ls)
        (fun u out => fences out.2 = false → SameFences w u) w
  | [], w, h => ⟨h, fun _ _ => rfl⟩
  | l :: ls, w, h => by
    refine (appendLocked_calm h hc "reap" l).andThen fun u e hu he => ?_
    cases e with
    | some e => exact ⟨hu, fun hfe => (he hfe).1⟩
    | none =>
      refine (appendReaped_calm hc ls hu).andThen fun v out hv hout => ?_
      exact ⟨hv, fun hfe => (he rfl).1.trans (hout hfe)⟩

theorem indexRows_calm :
    ∀ (ls : List Row) {w : World}, Calm cs w →
      Holds disk A (Calm cs) (indexRows c ls) (fun u _ => SameFences w u) w
  | [], w, h => ⟨h, fun _ => rfl⟩
  | l :: ls, w, h => by
    obtain ⟨hi, hs⟩ := h.same c (·.indexRow l) (Col.indexRow_flags _ l)
    exact (indexRows_calm ls hi).mono fun v _ _ hv => hs.trans hv

theorem reapExpired_calm (h : Calm cs w) (hc : c ∈ cs) (refs : List XTxOpRef) (needRotate : Bool) :
    Holds disk A (Calm cs) (reapExpired c refs needRotate) Any w := by
  refine holds_checkFenced h (fun _ => trivial) fun hf => ?_
  rw [holds_request]
  refine (appendReaped_calm hc _ h).andThen ?_
  rintro u ⟨done, stop⟩ hu hs
  dsimp only
  split
  · exact ⟨hu, trivial⟩
  · next hno =>
    have hsafe : fences stop = false := by
      simpa [fences] using (not_or.mp hno).1
    have hfu : (u.cols c).fenced = none := (hs hsafe c).trans hf
    refine keeps_unlessErr (syncCommitLocked_calm hu hc hfu "reap")
      fun v hv hs => ?_
    have hfv : (v.cols c).fenced = none := (hs rfl c).trans hfu
    refine (indexRows_calm done hv).andThen fun x _ hx hs => ?_
    obtain ⟨hp, -⟩ := hx.same c (·.note .published)
      (Col.publish_flags (hx.unfailed hc ((hs c).trans hfv)))
    exact keeps_unlessErr (afterCommit_calm hp hc needRotate)
      fun y hy _ => ⟨hy, trivial⟩

theorem usable_calm (h : Calm cs w) :
    Holds disk A (Calm cs) usable (fun u _ => SameFences w u) w := by
  unfold usable
  rw [holds_journal]
  split <;> exact ⟨h, fun _ => rfl⟩

theorem appendLine_calm (h : Calm cs w) (r : XTxRecord) :
    Holds disk A (Calm cs) (appendLine r) (fun u _ => SameFences w u) w := by
  unfold appendLine
  rw [holds_journal, holds_call]
  refine ⟨h, fun a _ => ?_⟩
  split
  · exact ⟨⟨h.sound, h.settled⟩, fun _ => rfl⟩
  · rw [holds_call]
    refine ⟨⟨h.sound, h.settled⟩, fun b _ => ?_⟩
    split <;> exact ⟨⟨h.sound, h.settled⟩, fun _ => rfl⟩

theorem syncLocked_calm (h : Calm cs w) :
    Holds disk A (Calm cs) syncLocked (fun u _ => SameFences w u) w := by
  unfold syncLocked
  rw [holds_call]
  refine ⟨h, fun a _ => ?_⟩
  split <;> exact ⟨⟨h.sound, h.settled⟩, fun _ => rfl⟩

theorem abort_calm (h : Calm cs w) (t : Nat) (key : String) :
    Holds disk A (Calm cs) (abort t key) (fun u _ => SameFences w u) w := by
  refine holds_unlessErr (usable_calm h) (fun _ _ _ hs => hs) fun u hu hs => ?_
  rw [holds_journal]
  split
  · exact ⟨hu, hs⟩
  · refine holds_unlessErr (appendLine_calm hu _) (fun _ _ _ hs' => hs.trans hs') fun v hv hs' => ?_
    refine holds_unlessErr (syncLocked_calm hv) (fun _ _ _ hs'' => (hs.trans hs').trans hs'')
      fun x hx hs'' => ?_
    exact ⟨hx.changeJournal _, (hs.trans hs').trans hs''⟩

theorem commitPrepared_calm (h : Calm cs w) (t : Nat) (key : String) (parts : List XTxPart) :
    Holds disk A (Calm cs) (commitPrepared t key parts) (fun u _ => SameFences w u) w := by
  unfold commitPrepared
  split
  · exact ⟨h, fun _ => rfl⟩
  · refine holds_unlessErr (usable_calm h) (fun _ _ _ hs => hs) fun u hu hs => ?_
    rw [holds_request]
    refine (appendLine_calm hu _).andThen fun v e hv hs' => ?_
    cases e with
    | some e => exact ⟨hv, hs.trans hs'⟩
    | none =>
      refine (syncLocked_calm hv).andThen fun x e hx hs'' => ?_
      cases e with
      | some e => exact ⟨hx, (hs.trans hs').trans hs''⟩
      | none => exact ⟨hx.changeJournal _, (hs.trans hs').trans hs''⟩

def Open (cs : List String) (w : World) (runs : List Run) : Prop :=
  ∀ r ∈ runs, r.c ∈ cs ∧ (w.cols r.c).fenced = none

theorem Open.same {w u : World} (h : Open cs w runs) (hs : SameFences w u) : Open cs u runs :=
  fun r hr => ⟨(h r hr).1, (hs r.c).trans (h r hr).2⟩

theorem appendAll_calm (hc : c ∈ cs) :
    ∀ (ls : List Row) {w : World}, Calm cs w → (w.cols c).fenced = none →
      Holds disk A (Calm cs) (appendAll c ls) (fun u e => e = none → SameFences w u) w
  | [], w, h, _ => ⟨h, fun _ _ => rfl⟩
  | l :: ls, w, h, hf => by
    refine holds_unlessErr (append_calm h hc hf l) (fun _ _ _ _ he => nomatch he) fun u hu hs => ?_
    refine (appendAll_calm hc ls hu ((hs rfl c).trans hf)).mono fun v e _ hv he => ?_
    exact (hs rfl).trans (hv he)

theorem appendRuns_calm (t : Nat) :
    ∀ (runs : List Run) (sizes : List (String × Nat)) {w : World}, Calm cs w → Open cs w runs →
      Holds disk A (Calm cs) (appendRuns t runs sizes)
        (fun u out => out.1 = none → SameFences w u) w
  | [], sizes, w, h, _ => ⟨h, fun _ _ => rfl⟩
  | r :: runs, sizes, w, h, ho => by
    obtain ⟨hc, hf⟩ := ho r mem_cons_self
    unfold appendRuns
    rw [holds_look, holds_request]
    refine (appendAll_calm hc _ h hf).andThen fun u e hu hs => ?_
    cases e with
    | some e => exact ⟨hu, fun he => nomatch he⟩
    | none =>
      have hs := hs rfl
      have ho : Open cs u runs := fun r' hr' => (ho.same hs) r' (mem_cons_of_mem _ hr')
      exact (appendRuns_calm t runs _ hu ho).mono fun v out _ hv he => hs.trans (hv he)

theorem syncRuns_calm (hA : SyncsOk A) :
    ∀ (runs : List Run) {w : World}, Calm cs w → Open cs w runs →
      Holds disk A (Calm cs) (syncRuns runs) (fun u e => e = none ∧ SameFences w u) w
  | [], w, h, _ => ⟨h, rfl, fun _ => rfl⟩
  | r :: runs, w, h, ho => by
    obtain ⟨hc, hf⟩ := ho r mem_cons_self
    unfold syncRuns
    rw [holds_call]
    refine ⟨h, fun a ha => ?_⟩
    obtain rfl := hA r.c a ha
    obtain ⟨hu, hs⟩ := h.same r.c (·.fsync .ok) (Col.fsync_flags (h.unfailed hc hf))
    have ho : Open cs (w.change r.c (·.fsync .ok)) runs :=
      fun r' hr' => (ho.same hs) r' (mem_cons_of_mem _ hr')
    exact (syncRuns_calm hA runs hu ho).mono fun v e _ hv => ⟨hv.1, hs.trans hv.2⟩

theorem rollbackRuns_calm :
    ∀ (sizes : List (String × Nat)) {w : World}, Calm cs w →
      Holds disk A (Calm cs) (rollbackRuns sizes) Any w
  | [], _, h => ⟨h, trivial⟩
  | (c, n) :: sizes, _, h =>
    (rollbackLocked_calm h c n).andThen fun _ _ hu _ => rollbackRuns_calm sizes hu

theorem abandon_calm (h : Calm cs w) (t : Nat) (key : String) (sizes : List (String × Nat)) :
    Holds disk A (Calm cs) (abandon t key sizes) (fun _ e => e ≠ none) w :=
  (rollbackRuns_calm sizes h).andThen fun _ _ hu _ =>
    (abort_calm hu t key).andThen fun _ _ hv _ => ⟨hv, Option.some_ne_none _⟩

/-- A transaction that commits has set no fence. -/
theorem xtxPrepareAndDecide_calm (hA : SyncsOk A) (h : Calm cs w)
    (partDigest : List XTxOpRef → String) (t : Nat) (key : String) (ho : Open cs w runs) :
    Holds disk A (Calm cs) (xtxPrepareAndDecide partDigest t key runs)
      (fun u e => e = none → SameFences w u) w := by
  have hgive : ∀ {u} sizes, Calm cs u → Holds disk A (Calm cs) (abandon t key sizes)
      (fun u e => e = none → SameFences w u) u :=
    fun sizes hu => (abandon_calm hu t key sizes).mono fun _ _ _ he h => absurd h he
  unfold xtxPrepareAndDecide
  rw [holds_modify]
  have h : Calm cs { w with started := w.started ++ [⟨w.req, t, runs⟩] } := ⟨h.sound, h.settled⟩
  refine (appendRuns_calm t runs [] h ho).andThen ?_
  rintro u ⟨failed, sizes⟩ hu hs
  dsimp only
  split
  · exact hgive sizes hu
  · next hok =>
    have hs := hs (by simpa using hok)
    refine (syncRuns_calm hA runs hu (ho.same hs)).andThen ?_
    rintro v e hv ⟨rfl, hs'⟩
    refine (commitPrepared_calm hv t key _).andThen fun x e hx hs'' => ?_
    cases e with
    | none => exact ⟨hx, fun _ => (hs.trans hs').trans hs''⟩
    | some e =>
      dsimp only
      split
      · exact ⟨hx, fun he => nomatch he⟩
      · exact hgive sizes hx

theorem allocateTxID_calm (h : Calm cs w) :
    Holds disk A (Calm cs) allocateTxID (fun u _ => SameFences w u) w := by
  refine (usable_calm h).andThen fun u e hu hs => ?_
  cases e with
  | some e => exact ⟨hu, hs⟩
  | none => exact ⟨hu.changeJournal _, hs⟩

theorem checkPoisoned_calm :
    ∀ (runs : List Run) {w : World}, Calm cs w →
      Holds disk A (Calm cs) (checkPoisoned runs) (fun u _ => SameFences w u) w
  | [], w, h => ⟨h, fun _ => rfl⟩
  | r :: runs, w, h => by
    unfold checkPoisoned
    rw [holds_look]
    split
    · exact ⟨h, fun _ => rfl⟩
    · exact checkPoisoned_calm runs h

theorem applyRuns_calm (t : Nat) :
    ∀ (runs : List Run) {w : World}, Calm cs w → Open cs w runs →
      Holds disk A (Calm cs) (applyRuns t runs) Any w
  | [], w, h, _ => ⟨h, trivial⟩
  | r :: runs, w, h, ho => by
    obtain ⟨hc, hf⟩ := ho r mem_cons_self
    unfold applyRuns
    rw [holds_request]
    refine (indexRows_calm _ h).andThen fun u _ hu hs => ?_
    obtain ⟨hp, hs'⟩ := hu.same r.c (·.note .published)
      (Col.publish_flags (hu.unfailed hc ((hs r.c).trans hf)))
    exact applyRuns_calm t runs hp fun r' hr' =>
      (ho.same (hs.trans hs')) r' (mem_cons_of_mem _ hr')

theorem postRuns_calm (full : List String) :
    ∀ (runs : List Run) {w : World}, Calm cs w → (∀ r ∈ runs, r.c ∈ cs) →
      Holds disk A (Calm cs) (postRuns full runs) Any w
  | [], w, h, _ => ⟨h, trivial⟩
  | r :: runs, w, h, hc => by
    refine (rotateIf_calm h (hc r mem_cons_self) _).andThen fun u _ hu _ => ?_
    refine (saveMeta_calm hu r.refs).andThen fun v _ hv _ => ?_
    refine (postRuns_calm full runs hv fun r' hr' => hc r' (mem_cons_of_mem _ hr')).andThen ?_
    exact fun _ _ hx _ => ⟨hx, trivial⟩

end

end Scriva.Disk
