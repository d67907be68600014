import Scriva.XTxSerial

namespace Scriva.Serial

open List Option Function

/-- What a handle's observations and writes rest on, in the real run and in one by itself. -/
structure TxInv (cfg : String → Config) (cols : String → Store) (calls : List Call) (x : XTx) :
    Prop where
  observed : ∀ k obs, x.seen k = some obs → ObsInv (cols k.col) k.id obs
  based : Based x
  serial : ∀ (frozen : String → Collection) (now : Int),
    (∀ k obs, x.seen k = some obs → Agrees (frozen k.col) now k.id obs) →
      serially cfg frozen now (XTx.new x.parts) calls = some x

def ColsInv (cfg : String → Config) (handles : List Handle) (cols : String → Store) : Prop :=
  (∀ c, RevInv (cols c)) ∧ ∀ o ∈ handles, o.isOpen = true → TxInv cfg cols o.calls o.tx

/-- Collections are reached as in `RevSound`, without passes or new processes; at a commit the wall
clock is not behind a collection the handle touches, and its inserts have ids still reserved. -/
def Act.SerialSound (db : Db) : Act → Prop
  | .col c op => op.RevSound (db.cols c) ∧ keepsLines op = true
  | .commit h _ wall _ => ∀ o ∈ db.handles[h]?, 0 ≤ wall ∧
      (∀ c ∈ o.tx.participants ++ o.tx.readCols, (db.cols c).col.now ≤ wall) ∧
      ∀ w ∈ o.tx.writes, w.2.op = .insert → w.2.id ∈ (db.cols w.1.col).reserved
  | _ => True

section

variable {cfg : String → Config} {cols : String → Store} {calls : List Call} {x x' : XTx}
  {handles : List Handle} {db db' : Db} {c : String} {y : Store} {now : Int}

theorem tx_new (parts : List String) : TxInv cfg cols [] (XTx.new parts) :=
  ⟨nofun, nofun, fun _ _ _ => rfl⟩

theorem TxInv.call (h : TxInv cfg cols calls x) (hi : ∀ c, RevInv (cols c)) {a : Call}
    (hc : x.call (cfg a.doc.col) (cols a.doc.col).col now a = some x') :
    TxInv cfg cols (calls ++ [a]) x' := by
  have hcalled : Called (cfg a.doc.col) x a x' ∧
      (∀ k obs, x'.seen k = some obs → ObsInv (cols k.col) k.id obs) ∧ Based x' := by
    cases a with
    | get k =>
      obtain ⟨hcalled, hobs, hwrites⟩ := get_called hi h.observed hc
      exact ⟨hcalled, hobs, h.based.kept (fun w hw => hwrites ▸ hw) hcalled.kept⟩
    | insert k data expiresAt =>
      obtain ⟨hcalled, hobserved, hbased⟩ := insert_called h.based hc
      exact ⟨hcalled, fun k obs ho => h.observed k obs ((seen_congr hobserved k).symm.trans ho),
        hbased⟩
    | stage k op => exact stage_called hi h.based h.observed hc
  obtain ⟨hcalled, hobs, hbased⟩ := hcalled
  refine ⟨hobs, hbased, fun frozen now' hag => ?_⟩
  obtain ⟨hbefore, hcall⟩ := hcalled.serial frozen now' hag
  have hserial := h.serial frozen now' hbefore
  unfold serially at hserial ⊢
  rw [hcalled.parts, foldlM_append, hserial]
  simpa using hcall

theorem TxInv.col {op : StoreOp} (h : TxInv cfg cols calls x) (hi : RevInv (cols c))
    (hok : op.RevSound (cols c)) (hk : keepsLines op = true)
    (hs : (cols c).step (cfg c) op = some y) :
    TxInv cfg (Function.update cols c y) calls x := by
  refine ⟨fun k obs ho => ?_, h.based, h.serial⟩
  have hobs := h.observed k obs ho
  by_cases hc : k.col = c
  · subst hc
    rw [update_self]
    exact hobs.step hi hok hk hs
  · rw [update_of_ne hc]
    exact hobs

theorem ColsInv.col {op : StoreOp} (h : ColsInv cfg handles cols) (hok : op.RevSound (cols c))
    (hk : keepsLines op = true) (hs : (cols c).step (cfg c) op = some y) :
    ColsInv cfg handles (Function.update cols c y) := by
  refine ⟨fun c' => ?_, fun o ho hopen => (h.2 o ho hopen).col (h.1 c) hok hk hs⟩
  by_cases hc : c' = c
  · subst hc
    rw [update_self]
    exact rev_step (h.1 c') hok hs
  · rw [update_of_ne hc]
    exact h.1 c'

theorem ColsInv.commit {ps : List String} {txid : String} {r : Readings} {tx : XTx}
    {cols' : String → Store} (h : ColsInv cfg handles cols) (hn : ps.Nodup)
    (hok : ∀ c ∈ ps, (StoreOp.write (.commitXTx txid (tx.opsOf c) r)).RevSound (cols c))
    (hs : ps.foldlM (commitPart cfg txid tx r) cols = some cols') : ColsInv cfg handles cols' := by
  induction ps generalizing cols with
  | nil =>
    cases hs
    exact h
  | cons c ps ih =>
    obtain ⟨next, hnext, hs⟩ := bind_eq_some_iff.mp hs
    obtain ⟨y, hy, rfl⟩ := map_eq_some_iff.mp hnext
    obtain ⟨hnot, hn⟩ := nodup_cons.mp hn
    refine ih (h.col (hok c (by simp)) rfl hy) hn (fun c' hc' => ?_) hs
    have hne : c' ≠ c := fun heq => hnot (heq ▸ hc')
    rw [update_of_ne hne]
    exact hok c' (by simp [hc'])

theorem commit_revSound {tx : XTx} {txid : String} {r : Readings}
    (h : ∀ w ∈ tx.writes, w.2.op = .insert → w.2.id ∈ (cols w.1.col).reserved) (c : String) :
    (StoreOp.write (.commitXTx txid (tx.opsOf c) r)).RevSound (cols c) := by
  refine ⟨rfl, fun id hid => ?_, List.Pairwise.nil⟩
  obtain ⟨op, hop, rfl⟩ := mem_map.mp hid
  obtain ⟨hop, hins⟩ := mem_filter.mp hop
  obtain ⟨w, hw, rfl⟩ := mem_map.mp hop
  obtain ⟨hw, hcol⟩ := mem_filter.mp hw
  have hcol : w.1.col = c := by simpa using hcol
  exact hcol ▸ h w hw (by simpa using hins)

theorem ColsInv.set (h : ColsInv cfg handles cols) {o : Handle}
    (ho : o.isOpen = true → TxInv cfg cols o.calls o.tx) (n : Nat) :
    ColsInv cfg (handles.set n o) cols := by
  refine ⟨h.1, fun p hp hopen => ?_⟩
  rcases mem_or_eq_of_mem_set hp with hp | rfl
  · exact h.2 p hp hopen
  · exact ho hopen

theorem serial_step {a : Act} (h : ColsInv cfg db.handles db.cols) (hok : a.SerialSound db)
    (hs : db.step cfg a = some db') : ColsInv cfg db'.handles db'.cols := by
  cases a with
  | col c op =>
    obtain ⟨y, hy, rfl⟩ := map_eq_some_iff.mp hs
    exact h.col hok.1 hok.2 hy
  | begin parts =>
    cases hs
    refine ⟨h.1, fun o ho hopen => ?_⟩
    rcases Runs.mem_concat ho with ho | rfl
    · exact h.2 o ho hopen
    · exact tx_new parts
  | call n a wall =>
    obtain ⟨o, ho, hs⟩ := bind_eq_some_iff.mp hs
    obtain ⟨hopen, hs⟩ := guard_bind.mp hs
    obtain ⟨-, hs⟩ := guard_bind.mp hs
    obtain ⟨y, hy, hs⟩ := bind_eq_some_iff.mp hs
    obtain ⟨tx, htx, hs⟩ := bind_eq_some_iff.mp hs
    cases hs
    have hmem := mem_of_getElem? ho
    have hset := h.set (o := { o with tx := tx, calls := o.calls ++ [a] })
      (fun _ => (h.2 o hmem hopen).call h.1 htx) n
    refine hset.col ?_ ?_ hy
    · split
      · trivial
      · exact ⟨rfl, nofun, List.Pairwise.nil⟩
    · split <;> rfl
  | commit n txid wall r =>
    obtain ⟨o, ho, hs⟩ := bind_eq_some_iff.mp hs
    obtain ⟨-, hs⟩ := guard_bind.mp hs
    obtain ⟨cols', hcols, hs⟩ := bind_eq_some_iff.mp hs
    cases hs
    obtain ⟨-, hcols⟩ := guard_bind.mp hcols
    obtain ⟨-, -, hins⟩ := hok o ho
    have hset := h.set (o := { o with isOpen := false }) nofun n
    exact hset.commit (nodup_dedup _) (fun c _ => commit_revSound hins c) hcols
  | finish n =>
    obtain ⟨o, ho, rfl⟩ := map_eq_some_iff.mp hs
    exact h.set (o := { o with isOpen := false }) nofun n

theorem foldl_clock {f : String → Int} {wall acc : Int} {l : List String}
    (h : ∀ c ∈ l, f c = wall) (hacc : acc ≤ wall) (hne : l ≠ []) :
    l.foldl (fun now c => max now (f c)) acc = wall := by
  induction l generalizing acc with
  | nil => exact absurd rfl hne
  | cons c l ih =>
    rw [foldl_cons, h c (by simp), max_eq_right hacc]
    by_cases hl : l = []
    · rw [hl]
      rfl
    · exact ih (fun c hc => h c (by simp [hc])) (le_refl _) hl

theorem ttlNow_eq {wall : Int} {tx : XTx} (h0 : 0 ≤ wall)
    (h : ∀ c ∈ tx.participants ++ tx.readCols, (db.cols c).col.now ≤ wall) :
    ∀ c ∈ tx.participants ++ tx.readCols, db.clock wall c = db.ttlNow wall tx := by
  have hclock : ∀ c ∈ tx.participants ++ tx.readCols, db.clock wall c = wall :=
    fun c hc => max_eq_left (h c hc)
  intro c hc
  rw [hclock c hc]
  symm
  unfold Db.ttlNow
  by_cases hw : tx.writes.isEmpty = true
  · rw [if_pos hw]
    have hnone : tx.participants = [] := by
      rw [XTx.participants, List.isEmpty_iff.mp hw]
      rfl
    rw [hnone, nil_append] at hc hclock
    exact foldl_clock hclock h0 (ne_nil_of_mem hc)
  · rw [if_neg hw]
    obtain ⟨w, hmem⟩ := exists_mem_of_ne_nil _ fun hnil => hw (List.isEmpty_iff.mpr hnil)
    have hpart : w.1.col ∈ tx.participants := mem_dedup.mpr (mem_map.mpr ⟨w, hmem, rfl⟩)
    exact foldl_clock (fun c hc => hclock c (mem_append_left _ hc)) h0 (ne_nil_of_mem hpart)

theorem TxInv.validated (h : TxInv cfg db.cols calls x) (hv : db.validate x now = true) :
    ∀ k obs, x.seen k = some obs → (db.cols k.col).col.liveEntry k.id now = obs.version ∧
      Agrees (db.cols k.col).col now k.id obs := by
  intro k obs ho
  have hcheck := all_eq_true.mp hv (k, obs) (seen_mem ho)
  simp only [Bool.and_eq_true, beq_iff_eq] at hcheck
  have hobs := h.observed k obs ho
  have hsame := hobs.same hcheck.1 hcheck.2
  exact ⟨hsame, hobs.agrees hsame⟩

/-- The handle is as if its calls were made now, one after the other and with nobody else there:
its reads return what they returned, at an instant that the clock of every collection it touches
shows, and its writes are of the versions it has seen. -/
def SerialAt (cfg : String → Config) (db : Db) (wall : Int) (h : Nat) : Prop :=
  ∃ o, db.handles[h]? = some o ∧
    (∀ c ∈ o.tx.participants ++ o.tx.readCols, db.clock wall c = db.ttlNow wall o.tx) ∧
    serially cfg (fun c => (db.cols c).col) (db.ttlNow wall o.tx) (XTx.new o.tx.parts) o.calls =
      some o.tx ∧
    ∀ w ∈ o.tx.writes, w.2.op ≠ .insert → ∃ obs loc, o.tx.seen w.1 = some obs ∧
      obs.version = some loc ∧ w.2.expectedRev = loc.rev ∧
      (db.cols w.1.col).col.liveEntry w.1.id (db.ttlNow wall o.tx) = some loc

/-- In every run whose steps are sound, a handle that commits is serial at its commit. -/
theorem handles_serializable {start : Db} (hs : ∀ c, (start.cols c).Created)
    (hnone : start.handles = [])
    (hr : Runs.Reaches (Db.step cfg) (fun db a => a.SerialSound db) start db) {h : Nat}
    {txid : String} {wall : Int} {r : Readings}
    (hok : (Act.commit h txid wall r).SerialSound db)
    (hc : db.step cfg (.commit h txid wall r) = some db') : SerialAt cfg db wall h := by
  have hstart : ColsInv cfg start.handles start.cols :=
    ⟨fun c => (hs c).revInv, by simp [hnone]⟩
  have hinv : ColsInv cfg db.handles db.cols :=
    hr.invariant (I := fun db => ColsInv cfg db.handles db.cols) hstart serial_step
  obtain ⟨o, ho, hc⟩ := bind_eq_some_iff.mp hc
  obtain ⟨hopen, hc⟩ := guard_bind.mp hc
  obtain ⟨cols', hcols, -⟩ := bind_eq_some_iff.mp hc
  obtain ⟨hvalid, -⟩ := guard_bind.mp hcols
  obtain ⟨h0, hclock, -⟩ := hok o ho
  have htx := hinv.2 o (mem_of_getElem? ho) hopen
  have hseen := htx.validated hvalid
  refine ⟨o, ho, ttlNow_eq h0 hclock, htx.serial _ _ fun k obs hk => (hseen k obs hk).2,
    fun w hw hop => ?_⟩
  obtain ⟨obs, hobs, hpresent, hrev⟩ := htx.based w hw hop
  have hold := htx.observed w.1 obs hobs
  rw [hold.present] at hpresent
  obtain ⟨loc, hloc⟩ := isSome_iff_exists.mp hpresent
  refine ⟨obs, loc, hobs, hloc, ?_, (hseen w.1 obs hobs).1.trans hloc⟩
  rw [hrev, hold.rev, hloc]
  rfl

end

instance : ∀ (db : Db) (a : Act), Decidable (a.SerialSound db)
  | _, .col _ _ => inferInstanceAs (Decidable (_ ∧ _))
  | db, .commit h _ _ _ => inferInstanceAs (Decidable (∀ o ∈ db.handles[h]?, _))
  | _, .begin _ | _, .call _ _ _ | _, .finish _ => inferInstanceAs (Decidable True)

def emptyDb (store : Store) : Db :=
  { cols := fun _ => store, handles := [] }

def plainly : String → Config :=
  fun _ => plainConfig

def twoCollections : List Act :=
  [.col "a" (storeInsert 1), .begin ["a", "b"], .call 0 (.get ⟨"a", 1⟩) 2,
   .call 0 (.stage ⟨"a", 1⟩ ⟨.update, 1, some [("n", .int 2)], 0, 0⟩) 3, .col "a" (storeInsert 4),
   .call 0 (.insert ⟨"b", 1⟩ (some []) 0) 5, .call 0 (.get ⟨"b", 1⟩) 5]

theorem handles_serializable_sample : ∃ db db',
    Runs.run (Db.step plainly) (emptyDb emptyStore) twoCollections = some db ∧
      db.step plainly (.commit 0 "t" 6 (readingsAt 6)) = some db' ∧ SerialAt plainly db 6 0 := by
  obtain ⟨db, hdb, hr, hok, hsome⟩ := Runs.reached (Db.step plainly) (fun db a => a.SerialSound db)
    (emptyDb emptyStore) twoCollections (fun db =>
      (Act.commit 0 "t" 6 (readingsAt 6)).SerialSound db ∧
        (db.step plainly (.commit 0 "t" 6 (readingsAt 6))).isSome) (by decide)
  obtain ⟨db', hdb'⟩ := isSome_iff_exists.mp hsome
  exact ⟨db, db', hdb, hdb', handles_serializable (fun _ => emptyStore_created) rfl hr hok hdb'⟩

def readsHold (db : Db) (wall : Int) (h : Nat) : Option Bool :=
  db.handles[h]?.map fun o => o.tx.returned.all fun v =>
    decide ((db.cols v.1.col).col.get plainConfig v.1.id (db.clock wall v.1.col) = v.2)

def committedOver (start : Db) (acts : List Act) (wall : Int) : Option Bool := do
  let db ← Runs.run (Db.step plainly) start acts
  let _ ← db.step plainly (.commit 0 "t" wall (readingsAt wall))
  readsHold db wall 0

/-- A handle commits over a read that no longer holds: a legacy batch has deleted and updated the
document; and the wall clock was set back, so that the document has not expired by the clock of the
collection written, but has by that of the collection read. -/
theorem handle_commits_over_change :
    committedOver (emptyDb { emptyStore with col := { emptyCollection with decisions := none } })
      [.col "a" (storeInsert 1), .begin ["a"], .call 0 (.get ⟨"a", 1⟩) 2,
       .col "a" (.write (.commitTx "t" [⟨.delete, 1, none, Rfc3339.zeroTime⟩,
         ⟨.update, 1, some [("n", .int 2)], Rfc3339.zeroTime⟩] (readingsAt 3)))] 4 = some false ∧
    committedOver (emptyDb emptyStore)
      [.col "a" (.write (.insert (some []) 90 (readingsAt 1))), .begin ["a", "b"],
       .call 0 (.get ⟨"a", 1⟩) 80, .begin ["a"], .call 1 (.get ⟨"a", 1⟩) 100,
       .call 0 (.insert ⟨"b", 1⟩ (some []) 0) 85] 85 = some false := by
  decide

end Scriva.Serial
