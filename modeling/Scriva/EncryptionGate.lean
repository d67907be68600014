import Scriva.EncryptionRuns

namespace Scriva.Encryption

open JsonText KeyedLog List Option

inductive Meta where
  | missing
  | unparseable
  | parsed (block : Option Encryptor)
deriving DecidableEq, Repr

def Meta.block : Meta → Option Encryptor
  | .parsed block => block
  | _ => none

def maxEpoch (ls : List LogLine) (d : Decisions) : Nat :=
  ((ls.map LogLine.id).filterMap fun id => (records d ls id).map Record.epoch).foldl max 0

/-- How the marker stands in a line: the encoder writes its first character as an escape. -/
def markerOnDisk : List Char := "\\u0000scrivaenc:".toList

def holdsEnvelope (l : LogLine) : Bool :=
  (render (toJson (.map (l.entry.data.getD [])))).tails.any fun rest => markerOnDisk.isPrefixOf rest

inductive Evidence where
  | indexEpoch
  | sentinel
  | segmentMarker
deriving DecidableEq, Repr

inductive Problem where
  | missing
  | unparseable
  | lacksBlock
  | epochBehind
deriving DecidableEq, Repr

/-- `ErrEncryptionMetaIntegrity`, if the open is refused with it. -/
def checkEncryptionMeta (m : Meta) (sentinel : Bool) (ls : List LogLine) (d : Decisions) :
    Option (Evidence × Problem) :=
  let gone (p : Problem) : Option (Evidence × Problem) :=
    if 0 < maxEpoch ls d then some (.indexEpoch, p)
    else if sentinel then some (.sentinel, p)
    else if ls.any holdsEnvelope then some (.segmentMarker, p)
    else none
  match m with
  | .parsed none =>
    if 0 < maxEpoch ls d then some (.indexEpoch, .lacksBlock)
    else if sentinel then some (.sentinel, .lacksBlock)
    else none
  | .parsed (some e) => if e.epoch < maxEpoch ls d then some (.indexEpoch, .epochBehind) else none
  | .missing => gone .missing
  | .unparseable => gone .unparseable

def openedWith (collection : String) (hasKeys : Bool) (config : Option Policy) (m : Meta)
    (sentinel : Bool) (ls : List LogLine) (d : Decisions) : Option (Option Encryptor) :=
  if (checkEncryptionMeta m sentinel ls d).isSome then none
  else initEncryption collection hasKeys m.block config

/-- How far the process has come; a change of policy has made sure of the sentinel, or has written
its block. -/
inductive Phase where
  | closed
  | loaded
  | initialised
  | running
  | sentinelMade (change : AdminAct)
  | written
deriving DecidableEq, Repr

/-- The lines and the block of a collection, whether it has a `meta.json` at all and a sentinel. -/
structure Dir where
  vault : Vault
  created : Bool
  sentinel : Bool
  phase : Phase

def Dir.meta (s : Dir) : Meta :=
  if s.created then .parsed s.vault.admin.block else .missing

def Dir.log (s : Dir) : List LogLine :=
  s.vault.lines.map Kept.line

def Kept.Sealed (x : Kept) : Prop :=
  x.line.entry.data.getD [] ≠ (persistedData (some x.plain)).getD []

/-- Whether a replicated entry holds sealed data; its plaintext is then not known here. -/
def carriesEncryption (e : Entry) : Bool :=
  decide (0 < e.epoch) || (e.data.getD []).any fun kv => match kv.2 with
    | .str s => isEncrypted s
    | _ => false

inductive DirAct where
  | load (d : Decisions)
  | init (hasKeys : Bool) (config : Option Policy)
  | heal
  | begin (change : AdminAct)
  | writeBlock
  | store
  | work (act : VaultAct)
  | apply (e : Entry) (tx : Option TxStamp)
  | crash

def Phase.serves : Phase → Bool
  | .running | .sentinelMade _ | .written => true
  | _ => false

def isAdmin : VaultAct → Bool
  | .admin _ => true
  | _ => false

def isChange : AdminAct → Bool
  | .setPolicy _ | .rotateKey => true
  | _ => false

section

variable (c : Cipher) (keys : Keys) (collection : String)

/-- One file operation after the other. An open that finds no `meta.json` writes one without a
block before anything else; the block of a configured policy comes before its sentinel, the block
of a changed policy after it. -/
def Dir.step (s : Dir) : DirAct → Option Dir
  | .load d =>
    if s.phase = .closed ∧ checkEncryptionMeta s.meta s.sentinel s.log d = none then
      some { s with created := true, phase := .loaded }
    else none
  | .init hasKeys config =>
    if s.phase = .loaded then
      (s.vault.admin.step collection (.reopen hasKeys config)).map fun admin =>
        { s with vault := { s.vault with admin := admin }, phase := .initialised }
    else none
  | .heal =>
    if s.phase = .initialised then
      some { s with sentinel := s.sentinel || s.vault.admin.enc.isSome, phase := .running }
    else none
  | .begin change =>
    if s.phase = .running ∧ isChange change ∧ (s.vault.admin.step collection change).isSome then
      some { s with sentinel := true, phase := .sentinelMade change }
    else none
  | .writeBlock =>
    match s.phase with
    | .sentinelMade change => (s.vault.admin.step collection change).map fun admin =>
        { s with vault := { s.vault with admin := admin }, phase := .written }
    | _ => none
  | .store =>
    if s.phase = .written then
      (s.vault.admin.step collection .store).map fun admin =>
        { s with vault := { s.vault with admin := admin }, phase := .running }
    else none
  | .work act =>
    if s.phase.serves ∧ !isAdmin act then
      (s.vault.step c keys collection act).map fun vault => { s with vault := vault }
    else none
  | .apply e tx =>
    if s.phase.serves ∧ (s.vault.admin.block.isSome ∨ carriesEncryption e = false) then
      let x : Kept := { line := { entry := e.persisted, tx := tx }
                        plain := if carriesEncryption e then [] else e.data.getD [] }
      some { s with vault := { s.vault with lines := s.vault.lines ++ [x] } }
    else none
  | .crash => some { s with phase := .closed }

end

def Dir.fresh : Dir :=
  { vault := .fresh false, created := false, sentinel := false, phase := .closed }

/-- The process does not die between the sentinel and the block of the first policy, and the
entries of a leader carry no epoch above that of the local block. -/
def Dir.Safe (s : Dir) : DirAct → Prop
  | .crash => s.vault.admin.block = none → ∀ change, s.phase ≠ .sentinelMade change
  | .apply e _ => ∀ b ∈ s.vault.admin.block, e.epoch ≤ b.epoch
  | _ => True

theorem records_epoch {ls : List LogLine} {d : Decisions} {id : Nat} {r : Record}
    (h : records d ls id = some r) : ∃ l ∈ ls, l.entry.epoch = r.epoch := by
  rw [(records_eq d ls id).1] at h
  obtain ⟨l, hl, hr⟩ := bind_eq_some_iff.mp h
  refine ⟨l, (lastOf_some hl).1, ?_⟩
  unfold LogLine.recordAt at hr
  split at hr
  · cases hr
  · cases hr
    rfl

theorem maxEpoch_le {ls : List LogLine} {d : Decisions} {n : Nat}
    (h : ∀ l ∈ ls, l.entry.epoch ≤ n) : maxEpoch ls d ≤ n := by
  have hall : ∀ k ∈ (ls.map LogLine.id).filterMap fun id => (records d ls id).map Record.epoch,
      k ≤ n := by
    intro k hk
    obtain ⟨id, -, hid⟩ := mem_filterMap.mp hk
    obtain ⟨r, hr, rfl⟩ := map_eq_some_iff.mp hid
    obtain ⟨l, hl, he⟩ := records_epoch hr
    rw [← he]
    exact h l hl
  unfold maxEpoch
  generalize (ls.map LogLine.id).filterMap _ = ks at hall ⊢
  have hfold : ∀ (ks : List Nat) (m : Nat), m ≤ n → (∀ k ∈ ks, k ≤ n) → ks.foldl max m ≤ n := by
    intro ks
    induction ks with
    | nil => exact fun m hm _ => hm
    | cons k ks ih =>
      intro m hm hks
      refine ih (max m k) ?_ fun j hj => hks j (mem_cons_of_mem _ hj)
      exact Nat.max_le.mpr ⟨hm, hks k mem_cons_self⟩
  exact hfold ks 0 (Nat.zero_le n) hall

def epochOf (enc : Option Encryptor) : Nat :=
  enc.elim 0 Encryptor.epoch

/-- Epochs only grow: those of the encryptors that calls may have taken, that of the one in effect,
that of the block. -/
structure Admin.Epochs (a : Admin) : Prop where
  loaded : ∀ e, some e ∈ a.loaded → ∃ d, a.enc = some d ∧ (e = d ∨ e.epoch < d.epoch)
  enc : ∀ d, a.enc = some d → 0 < d.epoch ∧ ∃ b, a.block = some b ∧ (d = b ∨ d.epoch < b.epoch)
  changing : ∀ e, a.changing = some e → a.block = some e ∧ epochOf a.enc < e.epoch
  settled : a.changing = none → a.block = a.enc

theorem Admin.fresh_epochs (hasKeys : Bool) : (Admin.fresh hasKeys).Epochs := by
  refine ⟨fun e he => ?_, nofun, nofun, fun _ => rfl⟩
  cases mem_singleton.mp he

theorem epoch_le {d e : Encryptor} (h : d = e ∨ d.epoch < e.epoch) : d.epoch ≤ e.epoch := by
  rcases h with rfl | h
  · exact le_refl _
  · exact h.le

section

variable {a a' : Admin}

variable {enc : Option Encryptor} {collection : String} {hasKeys : Bool} {e : Encryptor}

theorem Admin.Epochs.loaded_le_enc (h : a.Epochs) (hin : enc ∈ a.loaded) :
    epochOf enc ≤ epochOf a.enc := by
  cases enc with
  | none => exact Nat.zero_le _
  | some e =>
    obtain ⟨d, hd, hed⟩ := h.loaded e hin
    rw [hd]
    exact epoch_le hed

theorem Admin.Epochs.enc_le (h : a.Epochs) : epochOf a.enc ≤ epochOf a.block := by
  cases henc : a.enc with
  | none => exact Nat.zero_le _
  | some d =>
    obtain ⟨-, b, hb, hdb⟩ := h.enc d henc
    rw [hb]
    exact epoch_le hdb

theorem Admin.Epochs.loaded_le (h : a.Epochs) (hin : enc ∈ a.loaded) :
    epochOf enc ≤ epochOf a.block :=
  (h.loaded_le_enc hin).trans h.enc_le

theorem Admin.Epochs.block (h : a.Epochs) : a.block = a.enc ∨ epochOf a.enc < epochOf a.block := by
  cases hc : a.changing with
  | none => exact Or.inl (h.settled hc)
  | some e =>
    obtain ⟨hb, hlt⟩ := h.changing e hc
    rw [hb]
    exact Or.inr hlt

theorem Admin.Epochs.change (h : a.Epochs) {next : Option Encryptor}
    (hnext : ∀ e, next = some e → epochOf a.enc < e.epoch) (hs : a.change next = some a') :
    a'.Epochs ∧ a'.enc = a.enc ∧ epochOf a.block ≤ epochOf a'.block ∧ a'.block.isSome = true := by
  obtain ⟨hnone, hs⟩ := ite_none_right_eq_some.mp hs
  obtain ⟨e, he, rfl⟩ := map_eq_some_iff.mp hs
  have hlt := hnext e he
  refine ⟨⟨h.loaded, fun d hd => ⟨(h.enc d hd).1, e, rfl, Or.inr ?_⟩, fun d hd => ?_,
    nofun⟩, rfl, ?_, rfl⟩
  · rw [show a.enc = some d from hd] at hlt
    exact hlt
  · cases hd
    exact ⟨rfl, hlt⟩
  · rw [h.settled (isNone_iff_eq_none.mp hnone)]
    exact hlt.le

theorem firstEncryptor_epoch {p : Policy} (h : firstEncryptor collection hasKeys p = some e) :
    e.epoch = 1 := by
  obtain ⟨-, h⟩ := ite_none_right_eq_some.mp h
  obtain ⟨m, -, rfl⟩ := map_eq_some_iff.mp h
  rfl

theorem setEncryptionPolicy_epoch {cur : Option Encryptor} {policy : Option Policy}
    (h : setEncryptionPolicy collection hasKeys cur policy = some e) :
    e.epoch = epochOf cur + 1 := by
  cases policy with
  | none =>
    cases cur with
    | none => cases h
    | some d =>
      obtain ⟨-, rfl⟩ := Runs.guarded h
      rfl
  | some p =>
    cases cur with
    | none => exact firstEncryptor_epoch h
    | some d =>
      obtain ⟨-, rfl⟩ := Runs.guarded h
      rfl

theorem rotateKey_epoch {cur : Option Encryptor} (h : rotateKey cur = some e) :
    e.epoch = epochOf cur + 1 := by
  obtain ⟨d, rfl, rfl⟩ := map_eq_some_iff.mp h
  rfl

theorem initEncryption_block {b : Encryptor} {config : Option Policy}
    (h : initEncryption collection hasKeys (some b) config = some enc) : enc = some b := by
  obtain ⟨-, h⟩ := ite_none_right_eq_some.mp h
  exact (Option.some.inj h).symm

theorem initEncryption_first {config : Option Policy}
    (h : initEncryption collection hasKeys none config = some enc) :
    enc = none ∨ epochOf enc = 1 := by
  cases config with
  | none => exact Or.inl (Option.some.inj h).symm
  | some p =>
    obtain ⟨e, he, rfl⟩ := map_eq_some_iff.mp h
    exact Or.inr (firstEncryptor_epoch he)

theorem Admin.Epochs.step (h : a.Epochs) {act : AdminAct} (hs : a.step collection act = some a') :
    a'.Epochs ∧ (a'.enc = a.enc ∨ epochOf a.enc < epochOf a'.enc) ∧
      epochOf a.block ≤ epochOf a'.block ∧
      (isChange act = true ∨ a.block.isSome = true → a'.block.isSome = true) := by
  cases act with
  | setPolicy policy =>
    obtain ⟨he, henc, hle, hb⟩ := h.change (fun e he => by
      rw [setEncryptionPolicy_epoch he]
      exact Nat.lt_succ_self _) hs
    exact ⟨he, Or.inl henc, hle, fun _ => hb⟩
  | rotateKey =>
    obtain ⟨he, henc, hle, hb⟩ := h.change (fun e he => by
      rw [rotateKey_epoch he]
      exact Nat.lt_succ_self _) hs
    exact ⟨he, Or.inl henc, hle, fun _ => hb⟩
  | store =>
    obtain ⟨e, he, rfl⟩ := map_eq_some_iff.mp hs
    obtain ⟨hblock, hlt⟩ := h.changing e he
    refine ⟨⟨fun d hd => ?_, fun d hd => ?_, nofun, fun _ => hblock⟩,
      Or.inr hlt, le_refl _, fun _ => by rw [hblock]; rfl⟩
    · refine ⟨e, rfl, ?_⟩
      rcases mem_cons.mp hd with hd | hd
      · cases hd
        exact Or.inl rfl
      · exact Or.inr ((h.loaded_le_enc hd).trans_lt hlt)
    · cases hd
      exact ⟨(Nat.zero_le _).trans_lt hlt, e, hblock, Or.inl rfl⟩
  | reopen hasKeys config =>
    obtain ⟨enc, henc, rfl⟩ := map_eq_some_iff.mp hs
    -- The block comes into effect; without one there was no encryptor, and there may now be a first.
    have hnew : (enc = a.enc ∨ epochOf a.enc < epochOf enc) ∧ epochOf a.block ≤ epochOf enc ∧
        (a.block.isSome = true → enc.isSome = true) := by
      cases hb : a.block with
      | some b =>
        rw [hb] at henc
        rw [initEncryption_block henc, ← hb]
        exact ⟨h.block, le_refl _, id⟩
      | none =>
        rw [hb] at henc
        have hnone : a.enc = none := by
          cases hd : a.enc with
          | none => rfl
          | some d =>
            obtain ⟨-, b, hb', -⟩ := h.enc d hd
            rw [hb] at hb'
            cases hb'
        refine ⟨?_, Nat.zero_le _, nofun⟩
        rw [hnone]
        rcases initEncryption_first henc with h0 | h1
        · exact Or.inl h0
        · exact Or.inr (h1 ▸ Nat.one_pos)
    obtain ⟨hstep, hle, hsome⟩ := hnew
    refine ⟨⟨fun e he => ⟨e, (mem_singleton.mp he).symm, Or.inl rfl⟩, fun d hd => ?_,
      nofun, fun _ => rfl⟩, hstep, hle, ?_⟩
    · refine ⟨?_, d, hd, Or.inl rfl⟩
      have hd : enc = some d := hd
      rcases hstep with heq | hlt
      · exact (h.enc d (heq ▸ hd)).1
      · rw [hd] at hlt
        exact (Nat.zero_le _).trans_lt hlt
    · rintro (hc | hb)
      · cases hc
      · exact hsome hb

end

/-- What the gate relies on: no line is ahead of the block; a sentinel without a block is only there
while the first policy is being put in place; and nothing is sealed without one. -/
structure Dir.Inv (s : Dir) : Prop where
  epochs : s.vault.admin.Epochs
  lines : ∀ x ∈ s.vault.lines, x.line.entry.epoch ≤ epochOf s.vault.admin.block
  sentinel : s.sentinel = true → s.vault.admin.block = none → ∃ change, s.phase = .sentinelMade change
  enabling : ∀ change, s.phase = .sentinelMade change → isChange change = true ∧ s.sentinel = true
  guarded : s.phase.serves = true → s.vault.admin.block.isSome = true → s.sentinel = true
  started : s.phase = .initialised → s.vault.admin.block = s.vault.admin.enc
  sealed : ∀ x ∈ s.vault.lines, x.Sealed → s.sentinel = true
  created : s.created = false → s.phase = .closed ∧ s.vault.lines = [] ∧
    s.vault.admin.block = none ∧ s.sentinel = false

section

variable {c : Cipher} {keys : Keys} {collection : String} {s s' : Dir}

theorem Dir.fresh_inv : Dir.fresh.Inv := by
  refine ⟨Admin.fresh_epochs false, nofun, nofun,
    nofun, nofun, nofun,
    nofun, fun _ => ⟨rfl, rfl, rfl, rfl⟩⟩

theorem clear_not_sealed {i : Item} {x : Kept} (henc : i.enc = none) (h : i.kept c = some x) :
    ¬ x.Sealed := by
  intro hsealed
  unfold Item.kept at h
  split at h
  · cases h
    exact hsealed rfl
  · obtain ⟨stored, hs, rfl⟩ := map_eq_some_iff.mp h
    unfold Item.sealed at hs
    rw [henc] at hs
    cases hs
    apply hsealed
    dsimp only
    unfold Item.plain
    cases keepKey i.key i.entry.data with
    | none => rfl
    | some m => rfl

theorem kept_epoch {i : Item} {x : Kept} (h : i.kept c = some x) :
    x.line.entry.epoch = 0 ∨ x.line.entry.epoch = epochOf i.enc := by
  unfold Item.kept at h
  split at h
  · cases h
    exact Or.inl rfl
  · obtain ⟨stored, -, rfl⟩ := map_eq_some_iff.mp h
    exact Or.inr rfl

theorem work_lines {act : VaultAct} {v v' : Vault} (hv : v.admin.Epochs)
    (hl : ∀ x ∈ v.lines, x.line.entry.epoch ≤ epochOf v.admin.block) (hact : isAdmin act = false)
    (h : v.step c keys collection act = some v') :
    v'.admin = v.admin ∧ ∀ x ∈ v'.lines, x.line.entry.epoch ≤ epochOf v.admin.block ∧
      (x.Sealed → v.admin.block.isSome = true ∨ ∃ z ∈ v.lines, z.Sealed) := by
  have hblock : ∀ e, some e ∈ v.admin.loaded → v.admin.block.isSome = true := by
    intro e he
    obtain ⟨d, hd, -⟩ := hv.loaded e he
    obtain ⟨-, b, hb, -⟩ := hv.enc d hd
    rw [hb]
    rfl
  have hold : ∀ x ∈ v.lines, x.line.entry.epoch ≤ epochOf v.admin.block ∧
      (x.Sealed → v.admin.block.isSome = true ∨ ∃ z ∈ v.lines, z.Sealed) :=
    fun x hx => ⟨hl x hx, fun hs => Or.inr ⟨x, hx, hs⟩⟩
  cases act with
  | write items =>
    obtain ⟨xs, rfl, hxs⟩ := write_lines h
    refine ⟨rfl, fun x hx => ?_⟩
    rcases mem_append.mp hx with hx | hx
    · exact hold x hx
    · obtain ⟨i, -, hin, -, hkept⟩ := hxs x hx
      refine ⟨?_, fun hs => Or.inl ?_⟩
      · rcases kept_epoch hkept with hz | he
        · exact hz ▸ Nat.zero_le _
        · exact he ▸ hv.loaded_le hin
      · cases henc : i.enc with
        | none => exact absurd hs (clear_not_sealed henc hkept)
        | some e => exact hblock e (henc ▸ hin)
  | compact enc n picks d now =>
    obtain ⟨hin, ys, rfl, hys⟩ := compact_lines h
    refine ⟨rfl, fun y hy => ?_⟩
    rcases mem_append.mp hy with hy | hy
    · obtain ⟨x, hx, p, -, -, -, hxy⟩ := hys y hy
      rcases reencrypt_cases hxy with ⟨rfl, -⟩ | ⟨e, plain, stored, rfl, -, -, rfl⟩
      · exact hold x (mem_of_mem_take hx)
      · exact ⟨hv.loaded_le hin, fun _ => Or.inl (hblock e hin)⟩
    · exact hold y (mem_of_mem_drop hy)
  | admin act => cases hact

theorem Dir.Inv.opened (hi : s.Inv) (h : s.phase ≠ .closed) {P : Prop} (hc : s.created = false) :
    P :=
  absurd (hi.created hc).1 h

theorem block_of_sentinel (hi : s.Inv) {phase : Phase} (hp : s.phase = phase)
    (h : ∀ change, phase ≠ .sentinelMade change) (hsent : s.sentinel = true) :
    s.vault.admin.block ≠ none := by
  intro hnone
  obtain ⟨change, hc⟩ := hi.sentinel hsent hnone
  exact h change (hp.symm.trans hc)

theorem serves_open {phase : Phase} (h : phase.serves = true) : phase ≠ .closed := by
  rintro rfl
  cases h

theorem inv_admin_step (hi : s.Inv) {act : AdminAct} {admin : Admin} {phase : Phase}
    (hopen : s.phase ≠ .closed) (h : s.vault.admin.step collection act = some admin)
    (hnew : s.vault.admin.block = none → s.sentinel = true → isChange act = true)
    (hguard : phase.serves = true → admin.block.isSome = true → s.sentinel = true)
    (hstart : phase = .initialised → admin.block = admin.enc)
    (hphase : ∀ change, phase ≠ .sentinelMade change) :
    Dir.Inv { s with vault := { s.vault with admin := admin }, phase := phase } := by
  obtain ⟨hepochs, -, hle, hsome⟩ := hi.epochs.step h
  refine ⟨hepochs, fun x hx => (hi.lines x hx).trans hle, fun hsent hnone => ?_,
    fun change hc => absurd hc (hphase change), hguard, hstart, hi.sealed, hi.opened hopen⟩
  have hnone : admin.block = none := hnone
  have hsome' : admin.block.isSome = true := by
    refine hsome ?_
    cases hb : s.vault.admin.block with
    | none => exact Or.inl (hnew hb hsent)
    | some b => exact Or.inr rfl
  rw [hnone] at hsome'
  cases hsome'

theorem inv_load {d : Decisions} (hi : s.Inv) (h : s.step c keys collection (.load d) = some s') :
    s'.Inv := by
  obtain ⟨⟨hphase, -⟩, rfl⟩ := Runs.guarded h
  refine ⟨hi.epochs, hi.lines, fun hsent hnone => ?_, nofun, nofun, nofun, hi.sealed, nofun⟩
  have hblock : s.vault.admin.block ≠ none := block_of_sentinel hi hphase nofun hsent
  exact absurd hnone hblock

theorem inv_heal (hi : s.Inv) (h : s.step c keys collection .heal = some s') : s'.Inv := by
  obtain ⟨hphase, rfl⟩ := Runs.guarded h
  refine ⟨hi.epochs, hi.lines, fun hsent hnone => ?_, nofun, fun _ hb => ?_, nofun,
    fun x hx hs => ?_, hi.opened (hphase ▸ nofun)⟩
  · have hnone : s.vault.admin.block = none := hnone
    rcases Bool.or_eq_true_iff.mp hsent with hsent | henc
    · exact absurd hnone (block_of_sentinel hi hphase nofun hsent)
    · obtain ⟨d, hd⟩ := isSome_iff_exists.mp henc
      obtain ⟨-, b, hb, -⟩ := hi.epochs.enc d hd
      rw [hnone] at hb
      cases hb
  · have hsettled := hi.started hphase
    dsimp only at hb ⊢
    rw [hsettled] at hb
    rw [hb, Bool.or_true]
  · dsimp only
    rw [hi.sealed x hx hs, Bool.true_or]

theorem inv_begin {change : AdminAct} (hi : s.Inv)
    (h : s.step c keys collection (.begin change) = some s') : s'.Inv := by
  obtain ⟨⟨hphase, hchange, -⟩, rfl⟩ := Runs.guarded h
  refine ⟨hi.epochs, hi.lines, fun _ _ => ⟨change, rfl⟩, fun ch hc => ?_, fun _ _ => rfl,
    nofun, fun _ _ _ => rfl, hi.opened (hphase ▸ nofun)⟩
  cases hc
  exact ⟨hchange, rfl⟩

theorem inv_work {act : VaultAct} (hi : s.Inv)
    (h : s.step c keys collection (.work act) = some s') : s'.Inv := by
  obtain ⟨⟨hserves, hact⟩, h⟩ := ite_none_right_eq_some.mp h
  obtain ⟨vault, hvault, rfl⟩ := map_eq_some_iff.mp h
  obtain ⟨hadmin, hlines⟩ := work_lines hi.epochs hi.lines (by simpa using hact) hvault
  refine ⟨hadmin ▸ hi.epochs, fun x hx => hadmin.symm ▸ (hlines x hx).1, fun hsent hnone => ?_,
    hi.enabling, fun _ hb => hi.guarded hserves (hadmin ▸ hb), fun hc => hadmin.symm ▸ hi.started hc,
    fun x hx hs => ?_, hi.opened (serves_open hserves)⟩
  · dsimp only at hnone
    rw [hadmin] at hnone
    exact hi.sentinel hsent hnone
  · rcases (hlines x hx).2 hs with hb | ⟨z, hz, hs⟩
    · exact hi.guarded hserves hb
    · exact hi.sealed z hz hs

theorem inv_apply {e : Entry} {tx : Option TxStamp} (hi : s.Inv) (hok : s.Safe (.apply e tx))
    (h : s.step c keys collection (.apply e tx) = some s') : s'.Inv := by
  obtain ⟨⟨hserves, hgate⟩, rfl⟩ := Runs.guarded h
  refine ⟨hi.epochs, fun x hx => ?_, hi.sentinel, hi.enabling, hi.guarded, hi.started,
    fun x hx hs => ?_, hi.opened (serves_open hserves)⟩
  · rcases Runs.mem_concat hx with hx | rfl
    · exact hi.lines x hx
    · show e.epoch ≤ epochOf s.vault.admin.block
      cases hb : s.vault.admin.block with
      | some b => exact hok b hb
      | none =>
        -- Without a block nothing sealed is let in, so the epoch is zero.
        rw [hb] at hgate
        have hplain : carriesEncryption e = false := by simpa using hgate
        have hzero := (Bool.or_eq_false_iff.mp hplain).1
        have : ¬ 0 < e.epoch := of_decide_eq_false hzero
        omega
  · rcases Runs.mem_concat hx with hx | rfl
    · exact hi.sealed x hx hs
    · rcases hgate with hb | hplain
      · exact hi.guarded hserves hb
      · refine absurd ?_ hs
        show (persistedData e.data).getD [] = (persistedData (some
          (if carriesEncryption e then [] else e.data.getD []))).getD []
        rw [hplain]
        cases e.data with
        | none => rfl
        | some m => rfl

theorem inv_dir_step {act : DirAct} (hi : s.Inv) (hok : s.Safe act)
    (h : s.step c keys collection act = some s') : s'.Inv := by
  cases act with
  | load d => exact inv_load hi h
  | init hasKeys config =>
    obtain ⟨hphase, h⟩ := ite_none_right_eq_some.mp h
    obtain ⟨admin, hadmin, rfl⟩ := map_eq_some_iff.mp h
    have hstart : admin.block = admin.enc := by
      obtain ⟨enc, -, rfl⟩ := map_eq_some_iff.mp hadmin
      rfl
    exact inv_admin_step hi (hphase ▸ nofun) hadmin (fun hnone hsent => absurd hnone
      (block_of_sentinel hi hphase nofun hsent)) nofun (fun _ => hstart) nofun
  | heal => exact inv_heal hi h
  | begin change => exact inv_begin hi h
  | writeBlock =>
    unfold Dir.step at h
    cases hphase : s.phase with
    | sentinelMade change =>
      rw [hphase] at h
      obtain ⟨admin, hadmin, rfl⟩ := map_eq_some_iff.mp h
      obtain ⟨hchange, hsent⟩ := hi.enabling change hphase
      exact inv_admin_step hi (hphase ▸ nofun) hadmin (fun _ _ => hchange) (fun _ _ => hsent)
        nofun nofun
    | _ =>
      rw [hphase] at h
      cases h
  | store =>
    obtain ⟨hphase, h⟩ := ite_none_right_eq_some.mp h
    obtain ⟨admin, hadmin, rfl⟩ := map_eq_some_iff.mp h
    have hblock : admin.block = s.vault.admin.block := by
      obtain ⟨e, -, rfl⟩ := map_eq_some_iff.mp hadmin
      rfl
    exact inv_admin_step hi (hphase ▸ nofun) hadmin (fun hnone hsent => absurd hnone
      (block_of_sentinel hi hphase nofun hsent))
      (fun _ hb => hi.guarded (by rw [hphase]; rfl) (hblock ▸ hb)) nofun nofun
  | work act => exact inv_work hi h
  | apply e tx => exact inv_apply hi hok h
  | crash =>
    cases h
    refine ⟨hi.epochs, hi.lines, fun hsent hnone => ?_, nofun, nofun, nofun, hi.sealed,
      fun hc => ⟨rfl, (hi.created hc).2⟩⟩
    obtain ⟨change, hc⟩ := hi.sentinel hsent hnone
    exact absurd hc (hok hnone change)

theorem not_refused (hi : s.Inv) (hphase : s.phase = .closed) (d : Decisions) :
    checkEncryptionMeta s.meta s.sentinel s.log d = none := by
  have hle : maxEpoch s.log d ≤ epochOf s.vault.admin.block := by
    refine maxEpoch_le fun l hl => ?_
    obtain ⟨x, hx, rfl⟩ := mem_map.mp hl
    exact hi.lines x hx
  unfold Dir.meta
  cases hc : s.created with
  | false =>
    obtain ⟨-, hlines, hblock, hsent⟩ := hi.created hc
    have hlog : s.log = [] := by
      unfold Dir.log
      rw [hlines]
      rfl
    rw [hblock] at hle
    have hzero : ¬ 0 < maxEpoch s.log d := Nat.not_lt.mpr hle
    rw [hlog] at hzero ⊢
    simp only [Bool.false_eq_true, if_false]
    unfold checkEncryptionMeta
    simp only [hzero, if_false, hsent, Bool.false_eq_true, any_nil]
  | true =>
    simp only [if_true]
    cases hb : s.vault.admin.block with
    | none =>
      have hsent : s.sentinel = false := by
        by_contra hne
        exact block_of_sentinel hi hphase nofun (Bool.eq_true_of_not_eq_false hne) hb
      rw [hb] at hle
      have hzero : ¬ 0 < maxEpoch s.log d := Nat.not_lt.mpr hle
      unfold checkEncryptionMeta
      simp only [hzero, if_false, hsent, Bool.false_eq_true]
    | some b =>
      rw [hb] at hle
      have hzero : ¬ b.epoch < maxEpoch s.log d := Nat.not_lt.mpr hle
      unfold checkEncryptionMeta
      simp only [hzero, if_false]

end

theorem refused_without_block {m : Meta} (ls : List LogLine) (d : Decisions)
    (hm : m.block = none) : (checkEncryptionMeta m true ls d).isSome = true := by
  unfold checkEncryptionMeta
  cases m with
  | missing | unparseable =>
    dsimp only
    split <;> rfl
  | parsed block =>
    have hm : block = none := hm
    subst hm
    dsimp only
    split <;> rfl

/-- In every run whose steps meet the condition, a collection that was left in any state is not
refused by the gate; and one that holds a sealed record is never opened as unencrypted, whatever
`meta.json` has become: without a block the open is refused. -/
theorem gate_sound (c : Cipher) (keys : Keys) (collection : String) {s : Dir}
    (hr : Runs.Reaches (Dir.step c keys collection) Dir.Safe Dir.fresh s) (d : Decisions) :
    (s.phase = .closed → checkEncryptionMeta s.meta s.sentinel s.log d = none) ∧
      ∀ x ∈ s.vault.lines, x.Sealed → ∀ m : Meta,
        (m.block = none → (checkEncryptionMeta m s.sentinel s.log d).isSome = true) ∧
        ∀ hasKeys config enc, openedWith collection hasKeys config m s.sentinel s.log d = some enc →
          enc ≠ none := by
  have hinv := hr.invariant Dir.fresh_inv inv_dir_step
  refine ⟨fun hphase => not_refused hinv hphase d, fun x hx hsealed m => ?_⟩
  rw [hinv.sealed x hx hsealed]
  refine ⟨refused_without_block s.log d, fun hasKeys config enc hopen => ?_⟩
  obtain ⟨hcheck, hopen⟩ := ite_none_left_eq_some.mp hopen
  rintro rfl
  cases hb : m.block with
  | none => exact hcheck (refused_without_block s.log d hb)
  | some b =>
    rw [hb] at hopen
    obtain ⟨-, hopen⟩ := ite_none_right_eq_some.mp hopen
    cases hopen

instance (x : Kept) : Decidable x.Sealed :=
  inferInstanceAs (Decidable (_ ≠ _))

instance decidableSafe (s : Dir) : ∀ act, Decidable (s.Safe act)
  | .crash =>
    match hp : s.phase with
    | .sentinelMade change =>
      decidable_of_iff (s.vault.admin.block ≠ none)
        ⟨fun h hn => absurd hn h, fun h hn => h hn change hp⟩
    | .closed | .loaded | .initialised | .running | .written =>
      .isTrue fun _ change hc => by rw [hp] at hc; cases hc
  | .apply e _ => inferInstanceAs (Decidable (∀ b ∈ s.vault.admin.block, e.epoch ≤ b.epoch))
  | .load _ | .init .. | .heal | .begin _ | .writeBlock | .store | .work _ => .isTrue trivial

def enabled : List DirAct :=
  [.load none, .init true none, .heal, .begin (.setPolicy (some recordPolicy)), .writeBlock, .store]

set_option maxRecDepth 100000 in
theorem gate_sound_sample : ∃ s x,
    Runs.run (Dir.step clearCipher oneKey "c") Dir.fresh (enabled ++
      [.work (writeOf 1 [("b", .str "y")] (some (recordEncryptor 1))), .crash]) = some s ∧
    checkEncryptionMeta s.meta s.sentinel s.log none = none ∧
    x ∈ s.vault.lines ∧ x.plain = [("b", .str "y")] ∧
    (checkEncryptionMeta .missing s.sentinel s.log none).isSome = true := by
  obtain ⟨s, hs, hr, hphase, x, hmem, hsealed, hplain⟩ := Runs.reached
    (Dir.step clearCipher oneKey "c") Dir.Safe Dir.fresh (enabled ++
      [.work (writeOf 1 [("b", .str "y")] (some (recordEncryptor 1))), .crash])
    (fun s => s.phase = .closed ∧ ∃ x ∈ s.vault.lines, x.Sealed ∧ x.plain = [("b", .str "y")])
    (by decide +kernel)
  have hgate := gate_sound clearCipher oneKey "c" hr none
  exact ⟨s, x, hs, hgate.1 hphase, hmem, hplain, (hgate.2 x hmem hsealed .missing).1 rfl⟩

def refusal (acts : List DirAct) : Option (Option (Evidence × Problem)) :=
  (Runs.run (Dir.step clearCipher oneKey "c") Dir.fresh (acts ++ [.crash])).map fun s =>
    checkEncryptionMeta s.meta s.sentinel s.log none

/-- A crash between the sentinel and the block of a first policy, and an entry of a leader whose
policy has moved on, each lock the collection. -/
theorem gate_locks_healthy :
    refusal [.load none, .init true none, .heal, .begin (.setPolicy (some recordPolicy))] =
      some (some (.sentinel, .lacksBlock)) ∧
    refusal (enabled ++ [.apply { id := 1, op := .insert, ts := Rfc3339.zeroTime, rev := 1
                                  data := some [("a", .str "x")], epoch := 2, expiresAt := 0 }
      none]) = some (some (.indexEpoch, .epochBehind)) := by
  refine ⟨?_, ?_⟩
  · decide +kernel
  · decide +kernel

end Scriva.Encryption
