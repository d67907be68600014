import Scriva.CommitMoves
import Scriva.CommitServes

namespace Scriva.CommitKeys

open Decisions Durable List Option Function

def Node.Settled (n : Node) : Act → Prop
  | .reopen => ∀ v ∈ n.journal.file.versions, v = n.journal.file.current
  | _ => True

instance (n : Node) : ∀ a, Decidable (n.Settled a)
  | .reopen => inferInstanceAs (Decidable (∀ v ∈ _, _))
  | .beginXTx .. | .stage .. | .close .. | .commitXTx .. | .commit .. | .call .. | .presume ..
  | .kill | .crash .. => inferInstanceAs (Decidable True)

section Run

variable {sha : Bytes → Bytes} {n n' : Node} {a : Act}

theorem inv_down (hi : n.Inv) {file : File Decisions.Record}
    (hfile : ∀ v ∈ file.versions, v ∈ n.journal.file.versions) :
    ({ n.down with journal := { n.journal with file := file } } : Node).Inv :=
  ⟨⟨fun v hv => hi.journal.versions v (hfile v hv), hi.journal.decides, hi.journal.once,
      hi.journal.table⟩, nofun, hi.applied, nofun, nofun, nofun, nofun,
    fun _ => ⟨fun _ => rfl, fun _ => rfl⟩, hi.ended⟩

theorem inv_reopen (hi : n.Inv) (hup : n.up = false)
    (hset : ∀ v ∈ n.journal.file.versions, v = n.journal.file.current) {j : XTxJournal}
    (hj : n.journal.reopen = some j) :
    ({ n with up := true, journal := j, applied := n.applied ++ commitsOf j.records } : Node).Inv := by
  obtain ⟨hcalls, hhandles⟩ := hi.down hup
  obtain ⟨t, ht, rfl⟩ := map_eq_some_iff.mp hj
  have hfold : newXTxTable.fold n.journal.file.current = .ok t := by
    cases hf : newXTxTable.fold n.journal.file.current with
    | error e => rw [hf] at ht; cases ht
    | ok t' => rw [hf] at ht; cases ht; rfl
  obtain ⟨hdec, honce, hgrow⟩ : (∀ r ∈ n.journal.file.current, Decides r) ∧
      KeyOnce n.journal.file.current ∧
      ∀ p ∈ commitsOf n.journal.records, p ∈ commitsOf n.journal.file.current := by
    rcases hi.journal.versions _ (File.current_mem _) with he | ⟨r, he, hr, hfree⟩
    · rw [he]
      exact ⟨hi.journal.decides, hi.journal.once, fun _ h => h⟩
    · rw [he]
      refine ⟨fun x hx => ?_, hi.journal.once.concat hfree, fun p hp => ?_⟩
      · rcases Runs.mem_concat hx with hx | rfl
        · exact hi.journal.decides x hx
        · exact hr
      · rw [commitsOf_append]
        exact mem_append_left _ hp
  refine ⟨⟨fun v hv => Or.inl (hset v hv), hdec, honce, hfold⟩, fun _ _ => rfl, ?_, ?_, ?_, ?_, ?_,
    nofun, hi.ended⟩
  · intro p hp
    rcases mem_append.mp hp with hp | hp
    · exact hgrow p (hi.applied p hp)
    · exact hp
  · intro no c hc
    exact absurd ((hcalls no).symm.trans hc) (by simp)
  · intro no no' c c' _ hc
    exact absurd ((hcalls no).symm.trans hc) (by simp)
  · intro no c h hc
    exact absurd ((hcalls no).symm.trans hc) (by simp)
  · intro h x hx
    exact absurd ((hhandles h).symm.trans hx) (by simp)

theorem inv_presume (hi : n.Inv) (hup : n.up = true) {tx : Bytes} (hnew : tx ∉ n.journal.issued)
    (now : Instant) (f : Faults) :
    ({ n with journal := n.journal.abort tx [] (ascii "recovery") now f } : Node).Inv := by
  -- No call is numbered like the next one.
  have ht : Takes n n.nextCall (n.journal.abort tx [] (ascii "recovery") now f) :=
    takes_abort hi hup fun no c _ hc htx => hnew ((hi.calls no c hc).2.issued tx htx)
  have hne : ∀ no c, n.calls no = some c → no ≠ n.nextCall :=
    fun no c hc => Nat.ne_of_lt (hi.calls no c hc).1
  refine ⟨ht.sound, fun _ => ht.level, fun p hp => ht.grows p (hi.applied p hp), fun no c hc => ?_,
    hi.apart, hi.owner, fun h x hx => ?_, fun hdown => absurd (hdown.symm.trans hup) (by decide),
    hi.ended⟩
  · obtain ⟨hlt, hst⟩ := hi.calls no c hc
    exact ⟨hlt, hst.claims, ht.free no c (hne no c hc) hc,
      fun tx h => ht.issued tx (hst.issued tx h), fun tx => ht.fresh no c tx (hne no c hc) hc,
      fun tx h => ht.grows _ (hst.decided tx h)⟩
  · obtain ⟨hlt, htells⟩ := hi.handles h x hx
    exact ⟨hlt, fun r hr => (htells r hr).mono ht.grows⟩

theorem step_cases (hi : n.Inv) (h : n.step sha a = some n') :
    (n.up = true ∧ Serves n n') ∨
    (∃ no c m, n.calls no = some c ∧ n.advance sha no c m = some n') ∨
    (∃ tx now f, n.up = true ∧ tx ∉ n.journal.issued ∧
      n' = { n with journal := n.journal.abort tx [] (ascii "recovery") now f }) ∨
    (∃ file, (∀ v ∈ file.versions, v ∈ n.journal.file.versions) ∧
      n' = { n.down with journal := { n.journal with file := file } }) ∨
    (a = .reopen ∧ n.up = false ∧ ∃ j, n.journal.reopen = some j ∧
      n' = { n with up := true, journal := j, applied := n.applied ++ commitsOf j.records }) := by
  cases a with
  | beginXTx key staged =>
    obtain ⟨hup, rfl⟩ := Runs.guarded h
    refine Or.inl ⟨hup, hup, rfl, rfl, rfl, Nat.le_refl _, Nat.le_succ _, fun _ _ hc => Or.inl hc,
      fun h' x' hx' => ?_, fun _ he => Or.inl he⟩
    have hx' : Function.update n.handles n.nextHandle (some ⟨key, staged, .active⟩) h' = some x' :=
      hx'
    by_cases he : h' = n.nextHandle
    · rw [he, update_self] at hx'
      cases hx'
      exact Or.inr ⟨he, he ▸ Nat.lt_succ_self _, rfl⟩
    · rw [update_of_ne he] at hx'
      exact Or.inl ⟨x', hx', rfl, Or.inl rfl⟩
  | stage h' staged =>
    obtain ⟨x, hx, h⟩ := bind_eq_some_iff.mp h
    obtain ⟨-, rfl⟩ := Runs.guarded h
    have hup := hi.up_of_handle hx
    exact Or.inl ⟨hup, serves_setHandle hup hx rfl (Or.inl rfl)⟩
  | close h' =>
    obtain ⟨x, hx, h⟩ := bind_eq_some_iff.mp h
    obtain ⟨-, rfl⟩ := Runs.guarded h
    have hup := hi.up_of_handle hx
    exact Or.inl ⟨hup, serves_setHandle hup hx rfl (Or.inr nofun)⟩
  | commitXTx key =>
    obtain ⟨hup, rfl⟩ := Runs.guarded h
    exact Or.inl ⟨hup, (serves_refl hup).enter rfl rfl nofun⟩
  | commit h' reads =>
    obtain ⟨x, hx, rfl⟩ := map_eq_some_iff.mp h
    exact Or.inl ⟨hi.up_of_handle hx, serves_commitHandle hi hx reads⟩
  | call no m =>
    obtain ⟨c, hc, h⟩ := bind_eq_some_iff.mp h
    exact Or.inr (Or.inl ⟨no, c, m, hc, h⟩)
  | presume tx now f =>
    obtain ⟨⟨hup, hnew⟩, rfl⟩ := Runs.guarded h
    exact Or.inr (Or.inr (Or.inl ⟨tx, now, f, hup, hnew, rfl⟩))
  | kill =>
    obtain ⟨-, rfl⟩ := Runs.guarded h
    exact Or.inr (Or.inr (Or.inr (Or.inl ⟨n.journal.file, fun _ hv => hv, rfl⟩)))
  | crash k =>
    cases h
    exact Or.inr (Or.inr (Or.inr (Or.inl ⟨_, fun _ hv => File.mem_crash hv, rfl⟩)))
  | reopen =>
    obtain ⟨hup, h⟩ := ite_none_left_eq_some.mp h
    obtain ⟨j, hj, rfl⟩ := map_eq_some_iff.mp h
    exact Or.inr (Or.inr (Or.inr (Or.inr ⟨rfl, by simpa using hup, j, hj, rfl⟩)))

theorem inv_step (hi : n.Inv) (hset : n.Settled a) (h : n.step sha a = some n') : n'.Inv := by
  rcases step_cases hi h with ⟨hup, hs⟩ | ⟨no, c, m, hc, h⟩ | ⟨tx, now, f, hup, hnew, rfl⟩ |
    ⟨file, hfile, rfl⟩ | ⟨rfl, hup, j, hj, rfl⟩
  · exact inv_serves hi hup hs
  · exact inv_move hi hc (moves_advance hi hc h)
  · exact inv_presume hi hup hnew now f
  · exact inv_down hi hfile
  · exact inv_reopen hi hup hset hj

theorem inv_fresh : Node.fresh.Inv :=
  ⟨⟨fun _ hv => Or.inl (File.mem_empty.mp hv), nofun, nofun, rfl⟩, nofun, nofun, nofun, nofun, nofun,
    nofun, fun _ => ⟨fun _ => rfl, fun _ => rfl⟩, nofun⟩

/-- What a commit under a key that has committed before returns: it writes nothing, and once it gets
to the lookup it returns that transaction as replayed. Otherwise it is refused, has staged nothing,
or returns the result it had before. -/
def Ending.Repeats (e : Ending) (tx : Bytes) : Prop :=
  e.wrote = false ∧ (e.looked = true → e.reply = .replayed tx) ∧
  (e.looked = false → e.reply = .refused ∨ e.reply = .empty ∨
    (e.again = true ∧ (e.reply = .committed tx ∨ e.reply = .replayed tx)))

/-- The commits numbered from `first` on are later than a COMMIT under their key. -/
structure Later (first : Nat) (key tx : Bytes) (n : Node) : Prop where
  applied : (key, tx) ∈ n.applied
  next : first ≤ n.nextCall
  calls : ∀ no c, first ≤ no → n.calls no = some c → c.key = key →
    c.phase = .entered ∨ c.phase = .claimed
  endings : ∀ e ∈ n.endings, first ≤ e.no → e.key = key → e.Repeats tx

theorem Node.Inv.committed_once (hi : n.Inv) {key tx tx' : Bytes} (hne : key ≠ [])
    (h : (key, tx) ∈ commitsOf n.journal.records) (h' : (key, tx') ∈ commitsOf n.journal.records) :
    tx = tx' := by
  obtain ⟨r, hr, hk, hrkey, rfl⟩ := mem_commitsOf.mp h
  obtain ⟨r', hr', hk', hrkey', rfl⟩ := mem_commitsOf.mp h'
  exact hi.journal.once r hr r' hr' hk hk' (hrkey ▸ hne) (hrkey.trans hrkey'.symm)

theorem advance_repeats {no : Nat} {c : Call} {m : Move} {tx : Bytes} (hi : n.Inv)
    (hne : c.key ≠ []) (htx : (c.key, tx) ∈ commitsOf n.journal.records)
    (hph : c.phase = .entered ∨ c.phase = .claimed) (h : n.advance sha no c m = some n') :
    (∃ reply state j, n' = { n.conclude no c reply state with journal := j } ∧
      (c.phase = .entered → reply = .refused) ∧ (c.phase = .claimed → reply = .replayed tx)) ∨
    ∃ inFlight, n' = { n.setCall no { c with phase := .claimed } with inFlight := inFlight } := by
  have hspec := advance_spec h
  cases m with
  | refuse canceled =>
    obtain ⟨hok, rfl⟩ := hspec
    refine Or.inl ⟨_, _, n.journal, rfl, fun _ => rfl, fun hcl => ?_⟩
    rw [hcl] at hok
    rcases hok with hok | hok <;> cases hok
  | claim =>
    obtain ⟨hen, ⟨hkey, -⟩ | ⟨-, rfl⟩ | ⟨-, -, rfl⟩⟩ := hspec
    · exact absurd hkey hne
    · exact Or.inl ⟨_, _, n.journal, rfl, fun _ => rfl, fun hcl => by cases hen.symm.trans hcl⟩
    · exact Or.inr ⟨_, rfl⟩
  | look =>
    obtain ⟨hfound, hfree⟩ := statusByKey_spec hi.journal hne
    obtain ⟨hcl, tx', ⟨hst, rfl⟩ | ⟨hno, -⟩⟩ := hspec
    · rw [hst] at hfound
      have hsame := hi.committed_once hne (hfound rfl) htx
      refine Or.inl ⟨_, _, n.journal, rfl, fun hen => ?_, fun _ => congrArg _ hsame⟩
      cases hcl.symm.trans hen
    · obtain ⟨r, hr, hk, hrkey, -⟩ := mem_commitsOf.mp htx
      exact absurd hrkey (hfree hno r hr hk)
  | allocate tx' =>
    obtain ⟨hlk, -⟩ := hspec
    rw [hlk] at hph
    rcases hph with hph | hph <;> cases hph
  | decide parts now f =>
    obtain ⟨tx', hal, -⟩ := hspec
    rw [hal] at hph
    rcases hph with hph | hph <;> cases hph
  | abort why now f =>
    obtain ⟨tx', hal, -⟩ := hspec
    rcases hph with hph | hph <;> rw [hph] at hal <;> cases hal
  | finish =>
    obtain ⟨tx', hde, -⟩ := hspec
    rw [hde] at hph
    rcases hph with hph | hph <;> cases hph

section Later

variable {first : Nat} {key tx : Bytes}

theorem Later.update (hl : Later first key tx n) {no : Nat} {oc : Option Call}
    (hoc : ∀ c, oc = some c → first ≤ no → c.key = key → c.phase = .entered ∨ c.phase = .claimed) :
    ∀ no' c, first ≤ no' → Function.update n.calls no oc no' = some c → c.key = key →
      c.phase = .entered ∨ c.phase = .claimed := by
  intro no' c hle hc hkey
  by_cases he : no' = no
  · rw [he, update_self] at hc
    exact hoc c hc (he ▸ hle) hkey
  · rw [update_of_ne he] at hc
    exact hl.calls no' c hle hc hkey

theorem later_advance {no : Nat} {c : Call} {m : Move} (hi : n.Inv) (hne : key ≠ [])
    (hl : Later first key tx n) (hc : n.calls no = some c) (h : n.advance sha no c m = some n') :
    Later first key tx n' := by
  by_cases hmine : first ≤ no ∧ c.key = key
  · obtain ⟨hle, rfl⟩ := hmine
    have hph := hl.calls no c hle hc rfl
    rcases advance_repeats hi hne (hi.applied _ hl.applied) hph h with
      ⟨reply, state, j, rfl, hent, hcl⟩ | ⟨inFlight, rfl⟩
    · refine ⟨hl.applied, hl.next, hl.update nofun, fun e he hle' hkey => ?_⟩
      rcases Runs.mem_concat he with he | rfl
      · exact hl.endings e he hle' hkey
      · rcases hph with hph | hph <;> simp_all [Ending.Repeats, Phase.tx]
    · exact ⟨hl.applied, hl.next, hl.update fun c' h _ _ => Option.some.inj h ▸ Or.inr rfl,
        hl.endings⟩
  · have hm := moves_advance hi hc h
    refine ⟨hm.kept _ hl.applied, hm.nextCall ▸ hl.next, fun no' c' hle hc' hkey => ?_,
      fun e he hle hkey => ?_⟩
    · by_cases hno : no' = no
      · rw [hno] at hle hc'
        exact absurd ⟨hle, (hm.own c' hc').1.symm.trans hkey⟩ hmine
      · rw [hm.others no' hno] at hc'
        exact hl.calls no' c' hle hc' hkey
    · rcases hm.endings e he with he | ⟨hno, hk⟩
      · exact hl.endings e he hle hkey
      · exact absurd ⟨hno ▸ hle, hk.symm.trans hkey⟩ hmine

theorem later_serves (hi : n.Inv) (hne : key ≠ []) (hl : Later first key tx n)
    (hs : Serves n n') : Later first key tx n' := by
  refine ⟨hs.applied ▸ hl.applied, hl.next.trans hs.nextCall, fun no c hle hc hkey => ?_,
    fun e he hle hkey => ?_⟩
  · rcases hs.calls no c hc with h | ⟨-, -, hph, -⟩
    · exact hl.calls no c hle h hkey
    · exact Or.inl hph
  · rcases hs.endings e he with h | ⟨-, hwrote, hlooked, hreply⟩
    · exact hl.endings e h hle hkey
    · refine ⟨hwrote, fun h => absurd (hlooked.symm.trans h) (by decide), fun _ => ?_⟩
      rcases hreply with h | h | ⟨hagain, h, x, hx, hk, hst⟩
      · exact Or.inl h
      · exact Or.inr (Or.inl h)
      · rcases (hi.handles h x hx).2 _ hst with h | ⟨tx', hr, htx'⟩
        · exact Or.inr (Or.inl h)
        · rw [hk, hkey] at htx'
          have hsame : tx' = tx := hi.committed_once hne htx' (hi.applied _ hl.applied)
          exact Or.inr (Or.inr ⟨hagain, hsame ▸ hr⟩)

theorem later_step (hi : n.Inv) (hne : key ≠ []) (hl : Later first key tx n)
    (h : n.step sha a = some n') : Later first key tx n' := by
  rcases step_cases hi h with ⟨-, hs⟩ | ⟨no, c, m, hc, h⟩ | ⟨tx, now, f, -, -, rfl⟩ |
    ⟨file, -, rfl⟩ | ⟨-, -, j, -, rfl⟩
  · exact later_serves hi hne hl hs
  · exact later_advance hi hne hl hc h
  · exact ⟨hl.applied, hl.next, hl.calls, hl.endings⟩
  · exact ⟨hl.applied, hl.next, nofun, hl.endings⟩
  · exact ⟨mem_append_left _ hl.applied, hl.next, hl.calls, hl.endings⟩

end Later

/-- Under one key at most one transaction is ever applied; the commits under it that begin when it
has been write nothing and return that transaction, as far as they look the key up; and the key is
reported committed exactly when a COMMIT under it is in the table. -/
theorem key_commits_once (sha : Bytes → Bytes) {n n' : Node}
    (hn : Runs.Reaches (Node.step sha) Node.Settled .fresh n)
    (hn' : Runs.Reaches (Node.step sha) Node.Settled n n') {key : Bytes} (hne : key ≠ []) :
    (∀ tx tx', (key, tx) ∈ n'.applied → (key, tx') ∈ n'.applied → tx = tx') ∧
    (∀ tx, (key, tx) ∈ n.applied → ∀ e ∈ n'.endings, n.nextCall ≤ e.no → e.key = key →
      e.Repeats tx) ∧
    (n'.up = true → ((n'.journal.statusByKey key).1 = .committed ↔
      ∃ tx d, n'.journal.table.byTx tx = some d ∧ d.outcome = kindCommit ∧ d.key = key)) := by
  have hi : n.Inv := hn.invariant inv_fresh fun hi hset hs => inv_step hi hset hs
  have hi' : n'.Inv := hn'.invariant hi fun hi hset hs => inv_step hi hset hs
  refine ⟨fun tx tx' htx htx' => ?_, fun tx htx e he hle hkey => ?_, fun _ => ?_⟩
  · exact hi'.committed_once hne (hi'.applied _ htx) (hi'.applied _ htx')
  · have hstart : Later n.nextCall key tx n := by
      refine ⟨htx, Nat.le_refl _, fun no c hle hc _ => ?_, fun e he hle _ => ?_⟩
      · exact absurd (hi.calls no c hc).1 (by omega)
      · exact absurd (hi.ended e he) (by omega)
    have hlater : n'.Inv ∧ Later n.nextCall key tx n' := by
      refine hn'.invariant (I := fun m => m.Inv ∧ Later n.nextCall key tx m) ⟨hi, hstart⟩ ?_
      rintro m a m' ⟨hm, hl⟩ hset hs
      exact ⟨inv_step hm hset hs, later_step hm hne hl hs⟩
    exact hlater.2.endings e he hle hkey
  · have hidx : Indexes n'.journal.records n'.journal.table :=
      Indexes.fold hi'.journal.decides hi'.journal.once hi'.journal.table
    obtain ⟨hfound, hfree⟩ := statusByKey_spec hi'.journal hne
    constructor
    · intro hc
      obtain ⟨r, hr, hk, hrkey, -⟩ := mem_commitsOf.mp (hfound hc)
      obtain ⟨d, hd, hdk, hdo⟩ := hidx.entered r hr
      exact ⟨r.tx, d, hd, hdo.trans hk, hdk.trans hrkey⟩
    · rintro ⟨tx, d, hd, hdo, hdk⟩
      by_contra hno
      obtain ⟨r, hr, -, hrkey, hrk⟩ := hidx.decided tx d hd
      exact hfree hno r hr (hrk.trans hdo) (hrkey.trans hdk)

end Run

def fine : Faults :=
  ⟨.ok, .ok, .ok⟩

def sampleCommit (no : Nat) (tx : Bytes) (f : Faults) : List Act :=
  [.commitXTx (ascii "k"), .call no .claim, .call no .look, .call no (.allocate tx),
    .call no (.decide sampleParts sampleClock f)]

def sampleRetries : List Act :=
  [.reopen] ++ sampleCommit 0 (ascii "t") ⟨.ok, .ok, .failed⟩ ++ [.crash 0, .reopen] ++
    [.commitXTx (ascii "k"), .call 1 .claim, .call 1 .look, .beginXTx (ascii "k") true,
      .commit 0 .passed, .call 2 .claim, .call 2 .look, .commit 0 .passed]

theorem key_commits_once_sample : ∃ n n',
    Runs.run (Node.step sampleHash) .fresh (sampleRetries.take 8) = some n ∧
    Runs.run (Node.step sampleHash) n (sampleRetries.drop 8) = some n' ∧
    (ascii "k", ascii "t") ∈ n.applied ∧ n'.endings.length = 4 ∧
    ∀ e ∈ n'.endings, n.nextCall ≤ e.no → e.key = ascii "k" → e.Repeats (ascii "t") := by
  obtain ⟨n, hn, hr, happlied, hok, n', hn', hlen⟩ := Runs.reached (Node.step sampleHash) Node.Settled
    .fresh (sampleRetries.take 8) (fun n => (ascii "k", ascii "t") ∈ n.applied ∧
      Runs.Meets (Node.step sampleHash) Node.Settled n (sampleRetries.drop 8) ∧
        ∃ n' ∈ Runs.run (Node.step sampleHash) n (sampleRetries.drop 8), n'.endings.length = 4)
    (by decide +kernel)
  refine ⟨n, n', hn, hn', happlied, hlen, ?_⟩
  exact (key_commits_once sampleHash hr (Runs.reaches_run hn' hok .refl) (by decide)).2.1 _ happlied

/-- A key is committed; a handle with the key that has staged nothing then commits and gets an empty
result, and the handle that had committed gets its own result again, neither of them as replayed. -/
theorem later_commit_not_replayed :
    (Runs.run (Node.step sampleHash) .fresh
      [.reopen, .beginXTx (ascii "k") true, .commit 0 .passed, .call 0 .claim, .call 0 .look,
        .call 0 (.allocate (ascii "t")), .call 0 (.decide sampleParts sampleClock fine),
        .call 0 .finish, .beginXTx (ascii "k") false, .commit 1 .passed, .commit 0 .passed]).map
      (fun n => (n.applied, n.endings.map Ending.reply)) =
    some ([(ascii "k", ascii "t")],
      [.committed (ascii "t"), .empty, .committed (ascii "t")]) := by
  decide +kernel

/-- An open may take a COMMIT for decided that is not on disk: the process ends after the failed
sync, the next one finds the COMMIT and applies it, and a crash then loses it. -/
theorem unsynced_commit_lost :
    (Runs.run (Node.step sampleHash) .fresh
      ([.reopen] ++ sampleCommit 0 (ascii "t") ⟨.ok, .ok, .failed⟩ ++
        [.kill, .reopen, .crash 1, .reopen] ++ sampleCommit 1 (ascii "u") fine)).map
      (fun n => n.applied) =
    some [(ascii "k", ascii "t"), (ascii "k", ascii "u")] := by
  decide +kernel

end Scriva.CommitKeys
