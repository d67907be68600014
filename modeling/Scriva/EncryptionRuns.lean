import Scriva.KeptLines
import Scriva.IndexRuns

namespace Scriva.Encryption

open List Option

structure Kept where
  line : LogLine
  plain : Data
deriving DecidableEq, Repr

structure Vault where
  admin : Admin
  lines : List Kept

/-- One entry of a write: what is to be written, the encryptor and the key that are taken for it,
and the key of the record if an update keeps one. -/
structure Item where
  entry : Entry
  tx : Option TxStamp
  key : Option String
  enc : Option Encryptor
  sealing : Sealing

def Item.plain (i : Item) : Data :=
  (keepKey i.key i.entry.data).getD []

section

variable (c : Cipher)

/-- `sealEntryData`; the encryptor takes a nil map for an empty one. -/
def Item.sealed (i : Item) : Option (Option Data) :=
  match i.enc with
  | none => some i.entry.data
  | some e => (e.encrypt c i.sealing (i.entry.data.getD [])).map some

def Item.kept (i : Item) : Option Kept :=
  if i.entry.op = .delete then
    some { line := { entry := { i.entry with data := none, epoch := 0 }, tx := i.tx }, plain := [] }
  else
    (i.sealed c).map fun stored =>
      { line := { entry := { i.entry with data := persistedData (keepKey i.key stored)
                                          epoch := i.enc.elim 0 Encryptor.epoch }
                  tx := i.tx }
        plain := i.plain }

variable (keys : Keys)

def Kept.reencrypt (enc : Option Encryptor) (k : Sealing) (x : Kept) : Option Kept :=
  match enc with
  | none => some x
  | some e =>
    if x.line.tx.isSome ∨ x.line.entry.op = .delete ∨ x.line.entry.epoch = e.epoch then some x
    else (e.reencrypt c keys k (x.line.entry.data.getD [])).map fun stored =>
      { x with line := { x.line with entry := { x.line.entry with
          data := persistedData (some stored), epoch := e.epoch } } }

/-- What a reader makes of a line: `Get` and an unprojected scan take the encryptor in effect after
they have read it, and get an error of a line that does not decode. -/
def Vault.read (v : Vault) (l : LogLine) : Option Data :=
  if l.decodes then
    match v.admin.enc with
    | none => some (l.entry.data.getD [])
    | some e => e.materialize c keys (l.entry.data.getD [])
  else none

end

def Kept.rewritten (x : Kept) : Kept :=
  { x with line := { x.line with tx := if x.line.isPlain then none else x.line.tx } }

/-- The lines that a pass takes of those before it, each with the key it may be sealed anew with. -/
def picked (xs : List Kept) (picks : List (Nat × Sealing)) : List (Kept × Sealing) :=
  picks.filterMap fun p => xs[p.1]?.map fun x => (x.rewritten, p.2)

inductive VaultAct where
  | write (items : List Item)
  | compact (enc : Option Encryptor) (n : Nat) (picks : List (Nat × Sealing)) (d : Decisions)
      (now : Int)
  | admin (act : AdminAct)

section

variable (c : Cipher) (keys : Keys) (collection : String)

def resolvable (k : Sealing) : Bool :=
  keys k.keyID == some k.key

/-- A write of any kind appends its lines or, when one cannot be sealed, none. A pass over the
oldest lines keeps those that `resolveCompactEntries` names. Both may work with an encryptor that
has been replaced since they took it. -/
def Vault.step (v : Vault) : VaultAct → Option Vault
  | .write items =>
    if items.all fun i => v.admin.loaded.contains i.enc && resolvable keys i.sealing then
      (items.mapM (Item.kept c)).map fun xs => { v with lines := v.lines ++ xs }
    else none
  | .compact enc n picks d now =>
    let xs := picked (v.lines.take n) picks
    if v.admin.loaded.contains enc ∧ (picks.all fun p => resolvable keys p.2) ∧
        xs.map (fun x => x.1.line) = resolveLines ((v.lines.take n).map Kept.line) d now then
      (xs.mapM fun (x : Kept × Sealing) => x.1.reencrypt c keys enc x.2).map fun ys =>
        { v with lines := ys ++ v.lines.drop n }
    else none
  | .admin act => (v.admin.step collection act).map fun admin => { v with admin := admin }

end

def Vault.fresh (hasKeys : Bool) : Vault :=
  { admin := .fresh hasKeys, lines := [] }

def Vault.AsIs (v : Vault) (enc : Option Encryptor) : Prop :=
  ∀ e ∈ enc, ∀ x ∈ v.lines, x.line.entry.op ≠ .delete → readsAsIs e.readMode x.plain = true

/-- What is written is a map with some field and with integers that a float64 holds, which the
encryptor in effect would read as it is; and encryption is first put in effect only over records
that it reads as they are. -/
def Vault.Transparent (collection : String) (v : Vault) : VaultAct → Prop
  | .write items => ∀ i ∈ items, i.entry.op ≠ .delete →
      KeysAscend (i.entry.data.getD []) ∧ decodable (some i.plain) = true ∧
        ∀ e ∈ v.admin.enc, readsAsIs e.readMode i.plain = true
  | .admin .store => v.admin.enc = none → v.AsIs v.admin.changing
  | .admin (.reopen hasKeys config) => v.admin.enc = none →
      ∀ enc ∈ initEncryption collection hasKeys v.admin.block config, v.AsIs enc
  | _ => True

instance (v : Vault) (enc : Option Encryptor) : Decidable (v.AsIs enc) :=
  inferInstanceAs (Decidable (∀ e ∈ enc, _))

instance decidableTransparent (collection : String) (v : Vault) :
    ∀ a, Decidable (v.Transparent collection a) := by
  rintro (_ | _ | (_ | _ | _ | _)) <;> dsimp only [Vault.Transparent, KeysAscend] <;> infer_instance

section

variable {c : Cipher} {keys : Keys} {collection : String} {v v' : Vault}

variable {e : Encryptor} {enc : Option Encryptor} {x y : Kept} {i : Item} {k : Sealing}

theorem materialize_like {d : Encryptor} (h : d.Like e) (stored : Data) :
    d.materialize c keys stored = e.materialize c keys stored := by
  obtain ⟨dc, dm, dp, de⟩ := d
  obtain ⟨ec, em, ep, ee⟩ := e
  obtain ⟨hc, hm⟩ := h
  dsimp only at hc hm
  subst hc hm
  rfl

/-- A line is read as what was written with it, by the encryptor in effect or, without one, as it
stands. -/
structure Reads (c : Cipher) (keys : Keys) (enc : Option Encryptor) (x : Kept) : Prop where
  ascend : KeysAscend x.plain
  exact : decodable (some x.plain) = true
  decodes : x.line.decodes = true
  clear : enc = none → x.line.entry.data = some (asRead x.plain)
  asIs : ∀ e, enc = some e → readsAsIs e.readMode x.plain = true
  sealed : ∀ e, enc = some e →
    e.materialize c keys (x.line.entry.data.getD []) = some (asRead x.plain)

structure Vault.Inv (c : Cipher) (keys : Keys) (v : Vault) : Prop where
  admin : v.admin.Sound
  lines : ∀ x ∈ v.lines, x.line.entry.op ≠ .delete → Reads c keys v.admin.enc x

/-- Putting another encryptor in effect changes nothing for the readers, if there was one before or
the record is read as it is. -/
theorem Reads.change {enc' : Option Encryptor} (h : Reads c keys enc x)
    (hlike : enc = none ∨ ∃ d e, enc = some d ∧ enc' = some e ∧ e.Like d)
    (hplain : enc = none → ∀ e ∈ enc', readsAsIs e.readMode x.plain = true) :
    Reads c keys enc' x := by
  rcases hlike with hnone | ⟨d, e, rfl, rfl, hl⟩
  · have hdata := h.clear hnone
    refine ⟨h.ascend, h.exact, h.decodes, fun _ => hdata, fun e he => hplain hnone e he, fun e he => ?_⟩
    rw [hdata]
    exact materialize_asIs (hplain hnone e he)
  · refine ⟨h.ascend, h.exact, h.decodes, nofun, fun e' he => ?_, fun e' he => ?_⟩
    · cases he
      rw [hl.2]
      exact h.asIs d rfl
    · cases he
      rw [materialize_like hl]
      exact h.sealed d rfl

theorem plain_keysAscend (h : KeysAscend (i.entry.data.getD [])) : KeysAscend i.plain := by
  unfold Item.plain keepKey
  cases i.key with
  | none => exact h
  | some key => exact keysAscend_set h keyField (.str key)

theorem Item.stored_eq (henc : i.enc = some e) (hp : e.Proper) {stored : Option Data}
    (hasc : KeysAscend (i.entry.data.getD [])) (h : i.sealed c = some stored) :
    ∃ s, keepKey i.key stored = some s ∧ e.sealData c i.sealing i.plain = some s := by
  unfold Item.sealed at h
  rw [henc] at h
  obtain ⟨s, hs, rfl⟩ := map_eq_some_iff.mp h
  obtain ⟨-, hs⟩ := ite_none_left_eq_some.mp hs
  exact sealData_keepKey hp hasc hs i.key

theorem written_reads (hv : v.admin.Sound) (hin : i.enc ∈ v.admin.loaded)
    (hk : keys i.sealing.keyID = some i.sealing.key)
    (hok : KeysAscend (i.entry.data.getD []) ∧ decodable (some i.plain) = true ∧
      ∀ e ∈ v.admin.enc, readsAsIs e.readMode i.plain = true) (hop : i.entry.op ≠ .delete)
    (h : i.kept c = some x) : Reads c keys v.admin.enc x := by
  obtain ⟨hasc, hdec, hasIs⟩ := hok
  obtain ⟨stored, hs, rfl⟩ := map_eq_some_iff.mp ((if_neg hop).symm.trans h)
  have hplain := plain_keysAscend hasc
  cases henc : i.enc with
  | none =>
    -- Stored as it is; an encryptor that came into effect since reads it as it is.
    have hdata : persistedData (keepKey i.key stored) = some (asRead i.plain) := by
      unfold Item.sealed at hs
      rw [henc] at hs
      cases hs
      have hsome : keepKey i.key i.entry.data = some i.plain := by
        cases hkept : keepKey i.key i.entry.data with
        | none =>
          rw [Item.plain, hkept] at hdec
          cases hdec
        | some m => simp [Item.plain, hkept]
      rw [hsome]
      exact persistedData_some hplain hdec
    refine ⟨hplain, hdec, ?_, fun _ => hdata, hasIs, fun e he => ?_⟩
    · rw [LogLine.decodes, hdata, ← persistedData_some hplain hdec, decodable_persisted]
      exact hdec
    · dsimp only
      rw [hdata]
      exact materialize_asIs (hasIs e he)
  | some e =>
    rw [henc] at hin
    obtain ⟨d, hd, hlike⟩ := hv.loaded e hin
    have hproper := hv.proper e (Or.inr (Or.inr (Or.inr hin)))
    obtain ⟨s, hkept, hseal⟩ := Item.stored_eq henc hproper hasc hs
    have hstored := sealData_decodable hdec hseal
    refine ⟨hplain, hdec, ?_, fun hn => ?_, hasIs, fun d' hd' => ?_⟩
    · rw [LogLine.decodes, decodable_persisted, hkept]
      exact hstored
    · rw [hd] at hn
      cases hn
    · rw [hd] at hd'
      cases hd'
      dsimp only
      rw [hkept, persistedData_some (sealData_keysAscend hplain hseal) hstored]
      refine materialize_sealData hproper ⟨hlike.1.symm, hlike.2.symm⟩ hk hplain ?_ hseal
      rw [hlike.2]
      exact hasIs d hd

theorem reencrypt_cases (h : x.reencrypt c keys enc k = some y) :
    (y = x ∧ ∀ e, enc = some e →
      x.line.tx.isSome ∨ x.line.entry.op = .delete ∨ x.line.entry.epoch = e.epoch) ∨
    ∃ e plain stored, enc = some e ∧
      e.materialize c keys (x.line.entry.data.getD []) = some plain ∧
      e.sealData c k plain = some stored ∧
      y = { x with line := { x.line with entry := { x.line.entry with
        data := persistedData (some stored), epoch := e.epoch } } } := by
  unfold Kept.reencrypt at h
  cases enc with
  | none =>
    cases h
    exact Or.inl ⟨rfl, nofun⟩
  | some e =>
    dsimp only at h
    split at h
    case isTrue hskip =>
      cases h
      refine Or.inl ⟨rfl, fun d hd => ?_⟩
      cases hd
      exact hskip
    case isFalse =>
      obtain ⟨stored, hs, rfl⟩ := map_eq_some_iff.mp h
      obtain ⟨plain, hplain, hs⟩ := bind_eq_some_iff.mp hs
      obtain ⟨-, hs⟩ := ite_none_left_eq_some.mp hs
      exact Or.inr ⟨e, plain, stored, rfl, hplain, hs, rfl⟩

theorem reencrypt_op (h : x.reencrypt c keys enc k = some y) :
    y.line.entry.op = x.line.entry.op := by
  rcases reencrypt_cases h with ⟨rfl, -⟩ | ⟨e, plain, stored, -, -, -, rfl⟩
  · rfl
  · rfl

theorem resealed_reads {keys' : Keys} {plain stored : Data} (hv : v.admin.Sound)
    (hin : some e ∈ v.admin.loaded) (hk : keys' k.keyID = some k.key)
    (hr : Reads c keys v.admin.enc x)
    (hplain : e.materialize c keys (x.line.entry.data.getD []) = some plain)
    (hs : e.sealData c k plain = some stored) :
    Reads c keys' v.admin.enc { x with line := { x.line with entry := { x.line.entry with
      data := persistedData (some stored), epoch := e.epoch } } } := by
  obtain ⟨d, hd, hlike⟩ := hv.loaded e hin
  have hproper := hv.proper e (Or.inr (Or.inr (Or.inr hin)))
  rw [materialize_like hlike, hr.sealed d hd] at hplain
  cases hplain
  have hasc := keysAscend_asRead hr.ascend
  have hstored := sealData_decodable (decodable_asRead hr.ascend hr.exact) hs
  refine ⟨hr.ascend, hr.exact, ?_, fun hn => ?_, hr.asIs, fun d' hd' => ?_⟩
  · rw [LogLine.decodes, decodable_persisted]
    exact hstored
  · rw [hd] at hn
    cases hn
  · rw [hd] at hd'
    cases hd'
    dsimp only
    rw [persistedData_some (sealData_keysAscend hasc hs) hstored,
      getD_some, materialize_sealData hproper ⟨hlike.1.symm, hlike.2.symm⟩ hk hasc ?_ hs,
      asRead_asRead]
    rw [hlike.2]
    exact readsAsIs_asRead (hr.asIs d hd)

theorem reencrypt_reads (hv : v.admin.Sound) (hin : enc ∈ v.admin.loaded)
    (hk : keys k.keyID = some k.key) (hr : Reads c keys v.admin.enc x)
    (h : x.reencrypt c keys enc k = some y) : Reads c keys v.admin.enc y := by
  rcases reencrypt_cases h with ⟨rfl, -⟩ | ⟨e, plain, stored, rfl, hplain, hs, rfl⟩
  · exact hr
  · exact resealed_reads hv hin hk hr hplain hs

theorem write_lines {items : List Item}
    (h : v.step c keys collection (.write items) = some v') :
    ∃ xs, v' = { v with lines := v.lines ++ xs } ∧ ∀ x ∈ xs, ∃ i ∈ items,
      i.enc ∈ v.admin.loaded ∧ keys i.sealing.keyID = some i.sealing.key ∧ i.kept c = some x := by
  obtain ⟨hall, h⟩ := ite_none_right_eq_some.mp h
  obtain ⟨xs, hxs, rfl⟩ := map_eq_some_iff.mp h
  refine ⟨xs, rfl, fun x hx => ?_⟩
  obtain ⟨i, hi, hkept⟩ := Traverse.forall₂_mem (Traverse.forall₂_of_mapM_some hxs) hx
  have hok := Bool.and_eq_true_iff.mp (all_eq_true.mp hall i hi)
  exact ⟨i, hi, contains_iff_mem.mp hok.1, beq_iff_eq.mp hok.2, hkept⟩

theorem compact_lines {n : Nat} {picks : List (Nat × Sealing)} {d : Decisions} {now : Int}
    (h : v.step c keys collection (.compact enc n picks d now) = some v') :
    enc ∈ v.admin.loaded ∧ ∃ ys, v' = { v with lines := ys ++ v.lines.drop n } ∧
      ∀ y ∈ ys, ∃ x ∈ v.lines.take n, ∃ p ∈ picks, keys p.2.keyID = some p.2.key ∧
        x.rewritten.line ∈ resolveLines ((v.lines.take n).map Kept.line) d now ∧
        x.rewritten.reencrypt c keys enc p.2 = some y := by
  obtain ⟨⟨hload, hres, hout⟩, h⟩ := ite_none_right_eq_some.mp h
  obtain ⟨ys, hys, rfl⟩ := map_eq_some_iff.mp h
  refine ⟨contains_iff_mem.mp hload, ys, rfl, fun y hy => ?_⟩
  obtain ⟨⟨x, k⟩, hx, hxy⟩ := Traverse.forall₂_mem (Traverse.forall₂_of_mapM_some hys) hy
  have hline := hout ▸ mem_map_of_mem (f := fun x : Kept × Sealing => x.1.line) hx
  obtain ⟨p, hp, hpx⟩ := mem_filterMap.mp hx
  obtain ⟨z, hz, hzx⟩ := map_eq_some_iff.mp hpx
  cases hzx
  exact ⟨z, mem_of_getElem? hz, p, hp, beq_iff_eq.mp (all_eq_true.mp hres p hp), hline, hxy⟩

/-- Every outcome of `resolveCompactEntries` is one that a pass can pick. -/
theorem resolveLines_picked (xs : List Kept) (d : Decisions) (now : Int) (k : Sealing) :
    ∃ picks, (∀ p ∈ picks, p.2 = k) ∧
      (picked xs picks).map (fun x => x.1.line) = resolveLines (xs.map Kept.line) d now := by
  have hfrom : ∀ l ∈ resolveLines (xs.map Kept.line) d now,
      ∃ (j : Nat) (x : Kept), xs[j]? = some x ∧ x.rewritten.line = l := by
    intro l hl
    unfold resolveLines at hl
    rw [resolveScan_evidence] at hl
    rcases mem_append.mp hl with hl | hl
    · obtain ⟨hl, hev⟩ := mem_filter.mp hl
      obtain ⟨x, hx, rfl⟩ := mem_map.mp hl
      obtain ⟨j, hj⟩ := mem_iff_getElem?.mp hx
      have hstamped : x.line.isPlain = false := by
        simpa using (Bool.and_eq_true_iff.mp hev).1
      exact ⟨j, x, hj, by simp [Kept.rewritten, hstamped]⟩
    · obtain ⟨p, hlast, hplain, rfl⟩ := mem_resolvePlain hl
      obtain ⟨x, hx, rfl⟩ := mem_map.mp (KeyedLog.lastOf_some hlast).1
      obtain ⟨j, hj⟩ := mem_iff_getElem?.mp hx
      exact ⟨j, x, hj, by simp [Kept.rewritten, hplain]⟩
  generalize resolveLines (xs.map Kept.line) d now = ls at hfrom ⊢
  induction ls with
  | nil => exact ⟨[], nofun, rfl⟩
  | cons l ls ih =>
    obtain ⟨j, x, hj, hx⟩ := hfrom l mem_cons_self
    obtain ⟨picks, hk, hpicks⟩ := ih fun l' hl' => hfrom l' (mem_cons_of_mem _ hl')
    refine ⟨(j, k) :: picks, forall_mem_cons.mpr ⟨rfl, hk⟩, ?_⟩
    rw [← hpicks, ← hx]
    simp [picked, hj]

theorem kept_op (h : i.kept c = some x) : x.line.entry.op = i.entry.op := by
  unfold Item.kept at h
  split at h
  · cases h
    rfl
  · obtain ⟨stored, -, rfl⟩ := map_eq_some_iff.mp h
    rfl

theorem inv_write {items : List Item} (hi : v.Inv c keys)
    (hok : v.Transparent collection (.write items))
    (h : v.step c keys collection (.write items) = some v') : v'.Inv c keys := by
  obtain ⟨xs, rfl, hxs⟩ := write_lines h
  refine ⟨hi.admin, fun x hx hop => ?_⟩
  rcases mem_append.mp hx with hx | hx
  · exact hi.lines x hx hop
  · obtain ⟨i, hin, hload, hk, hkept⟩ := hxs x hx
    have hiop : i.entry.op ≠ .delete := kept_op hkept ▸ hop
    exact written_reads hi.admin hload hk (hok i hin hiop) hiop hkept

theorem inv_compact {n : Nat} {picks : List (Nat × Sealing)} {d : Decisions} {now : Int}
    (hi : v.Inv c keys) (h : v.step c keys collection (.compact enc n picks d now) = some v') :
    v'.Inv c keys := by
  obtain ⟨hload, ys, rfl, hys⟩ := compact_lines h
  refine ⟨hi.admin, fun y hy hop => ?_⟩
  rcases mem_append.mp hy with hy | hy
  · obtain ⟨x, hx, p, -, hk, -, hxy⟩ := hys y hy
    have hr := hi.lines x (mem_of_mem_take hx) (reencrypt_op hxy ▸ hop)
    refine reencrypt_reads hi.admin hload hk ?_ hxy
    exact ⟨hr.ascend, hr.exact, hr.decodes, hr.clear, hr.asIs, hr.sealed⟩
  · exact hi.lines y (mem_of_mem_drop hy) hop

theorem inv_admin {act : AdminAct} (hi : v.Inv c keys) (hok : v.Transparent collection (.admin act))
    (h : v.step c keys collection (.admin act) = some v') : v'.Inv c keys := by
  obtain ⟨admin, hadmin, rfl⟩ := map_eq_some_iff.mp h
  obtain ⟨hsound, hlike⟩ := hi.admin.step hadmin
  have hasIs : v.admin.enc = none → v.AsIs admin.enc := by
    intro hnone
    cases act with
    | setPolicy policy =>
      obtain ⟨-, henc, -, -⟩ := hi.admin.change (fun e he => setEncryptionPolicy_installed he) hadmin
      rw [henc, hnone]
      intro e he
      cases he
    | rotateKey =>
      obtain ⟨-, hadmin⟩ := ite_none_right_eq_some.mp hadmin
      obtain ⟨e, he, -⟩ := map_eq_some_iff.mp hadmin
      rw [hnone] at he
      cases he
    | store =>
      have hok : v.AsIs v.admin.changing := hok hnone
      obtain ⟨e, he, rfl⟩ := map_eq_some_iff.mp hadmin
      rw [he] at hok
      exact hok
    | reopen hasKeys config =>
      obtain ⟨enc, henc, rfl⟩ := map_eq_some_iff.mp hadmin
      exact hok hnone enc henc
  exact ⟨hsound, fun x hx hop => (hi.lines x hx hop).change hlike fun hnone e he =>
    hasIs hnone e he x hx hop⟩

theorem inv_step {a : VaultAct} (hi : v.Inv c keys) (hok : v.Transparent collection a)
    (h : v.step c keys collection a = some v') : v'.Inv c keys := by
  cases a with
  | write items => exact inv_write hi hok h
  | compact enc n picks d now => exact inv_compact hi h
  | admin act => exact inv_admin hi hok h

end

/-- In every run of writes, passes and policy changes that meets the condition, every line there is
reads back as the data written with it, as a decoder would give it back without encryption; so data
that a decoder has produced reads back as it is. -/
theorem reads_as_written (c : Cipher) (keys : Keys) (collection : String) (hasKeys : Bool)
    {v : Vault} (hr : Runs.Reaches (Vault.step c keys collection) (Vault.Transparent collection)
      (Vault.fresh hasKeys) v) :
    ∀ x ∈ v.lines, x.line.entry.op ≠ .delete →
      v.read c keys x.line = some (asRead x.plain) ∧
        (DecodedMembers x.plain → v.read c keys x.line = some x.plain) := by
  have hstart : (Vault.fresh hasKeys).Inv c keys :=
    ⟨Admin.fresh_sound hasKeys, nofun⟩
  have hinv := hr.invariant hstart inv_step
  intro x hx hop
  have hreads := hinv.lines x hx hop
  have hread : v.read c keys x.line = some (asRead x.plain) := by
    unfold Vault.read
    rw [if_pos hreads.decodes]
    cases henc : v.admin.enc with
    | none => exact congrArg some (by rw [hreads.clear henc]; rfl)
    | some e => exact hreads.sealed e henc
  exact ⟨hread, fun hd => by rw [hread, asRead_decoded hd]⟩

def oneKey : Keys := fun id => if id = "k" then some 1 else none

def sampleSealing : Sealing :=
  { keyID := "k", key := 1, nonce := fun _ => 0 }

def recordPolicy : Policy :=
  { mode := some .record, fields := [], indexFields := ["a"] }

def recordEncryptor (epoch : Nat) : Encryptor :=
  { collection := "c", readMode := .record, writePolicy := recordPolicy, epoch := epoch }

def disabledEncryptor : Encryptor :=
  { recordEncryptor 2 with writePolicy := .disabled }

def writeOf (id : Nat) (data : Data) (enc : Option Encryptor) : VaultAct :=
  .write [{ entry := { id := id, op := .insert, ts := Rfc3339.zeroTime, rev := 1, data := some data
                       epoch := 0, expiresAt := 0 }
            tx := none, key := none, enc := enc, sealing := sampleSealing }]

def sealedRun : List VaultAct :=
  [writeOf 1 [("a", .str "x"), ("b", .str "y")] none,
   .admin (.setPolicy (some recordPolicy)), .admin .store,
   writeOf 2 [("a", .str "z"), ("b", .bool true)] (some (recordEncryptor 1)),
   .admin .rotateKey, .admin .store,
   .compact (some (recordEncryptor 2)) 2 [(0, sampleSealing), (1, sampleSealing)] none 0,
   .admin (.setPolicy none), .admin .store, .admin (.reopen true none)]

set_option maxRecDepth 100000 in
theorem reads_as_written_sample : ∃ v x,
    Runs.run (Vault.step clearCipher oneKey "c") (Vault.fresh true) sealedRun = some v ∧
      x ∈ v.lines ∧ x.plain = [("a", .str "z"), ("b", .bool true)] ∧ x.line.entry.epoch = 2 ∧
      v.read clearCipher oneKey x.line = some [("a", .str "z"), ("b", .bool true)] := by
  obtain ⟨v, hv, hr, x, hmem, hplain, hepoch, hop⟩ := Runs.reached
    (Vault.step clearCipher oneKey "c") (Vault.Transparent "c") (Vault.fresh true) sealedRun
    (fun v => ∃ x ∈ v.lines, x.plain = [("a", .str "z"), ("b", .bool true)] ∧
      x.line.entry.epoch = 2 ∧ x.line.entry.op ≠ .delete) (by decide +kernel)
  have hread := reads_as_written clearCipher oneKey "c" true hr x hmem hop
  refine ⟨v, x, hv, hmem, hplain, hepoch, hplain ▸ hread.2 ?_⟩
  rw [hplain]
  exact ⟨trivial, trivial, trivial⟩

def readBack (acts : List VaultAct) : Option (Data × Option Data) :=
  (Runs.run (Vault.step clearCipher oneKey "c") (Vault.fresh true) acts).bind fun v =>
    v.lines.head?.map fun x => (x.plain, v.read clearCipher oneKey x.line)

set_option maxRecDepth 100000 in
/-- A field named like the blob is gone once records are sealed whole, whether it was written before
or while the policy seals nothing; a text that begins like an envelope cannot be read any more once
fields are sealed. -/
theorem sealing_hides_records :
    readBack [writeOf 1 [("secure_data", .str "x")] none, .admin (.setPolicy (some recordPolicy)),
        .admin .store] = some ([("secure_data", .str "x")], some []) ∧
    readBack [.admin (.setPolicy (some recordPolicy)), .admin .store, .admin (.setPolicy none),
        .admin .store, writeOf 1 [("secure_data", .str "x")]
          (some disabledEncryptor)] =
      some ([("secure_data", .str "x")], some []) ∧
    readBack [writeOf 1 [("a", .str "\x00scrivaenc:x")] none,
        .admin (.setPolicy (some { mode := some .fields, fields := ["ssn"], indexFields := [] })),
        .admin .store] = some ([("a", .str "\x00scrivaenc:x")], none) := by
  refine ⟨?_, ?_, ?_⟩
  · decide +kernel
  · decide +kernel
  · decide +kernel

end Scriva.Encryption
