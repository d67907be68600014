import Scriva.EncryptionGate

namespace Scriva.Encryption

open List Option

/-- How far a call of `MigrateNow` has come. After `resolved` it knows the lines to be replaced, the
encryptor, the keys and the decisions; `returned` is the moment it returns nil. -/
inductive Pass where
  | idle
  | begun
  | rotated
  | snapped (n : Nat)
  | resolved (n : Nat) (enc : Option Encryptor) (picks : List (Nat × Sealing)) (d : Decisions)
      (now : Int)
  | returned

def Pass.held : Pass → Bool
  | .snapped _ => true
  | .resolved .. => true
  | .returned => true
  | _ => false

def Pass.isIdle : Pass → Bool
  | .idle => true
  | _ => false

/-- The lines of a collection, how many of them are in sealed segments, the current key of the
provider, and which key was current at which epoch. -/
structure Mover where
  vault : Vault
  sealed : Nat
  current : String × Nat
  uses : List (Nat × String × Nat)
  pass : Pass

inductive MoverAct where
  | write (items : List Item)
  | rotateSegment
  | compact (enc : Option Encryptor) (n : Nat) (picks : List (Nat × Sealing)) (d : Decisions)
      (now : Int)
  | admin (act : AdminAct)
  | promote (key : String × Nat)
  | migrate
  | rotate
  | snapshot
  | resolve (picks : List (Nat × Sealing)) (d : Decisions) (now : Int)
  | swap
  | closed
  | finish

def inUse (uses : List (Nat × String × Nat)) (enc : Option Encryptor) (k : Sealing) : Bool :=
  uses.any fun u => decide (epochOf enc ≤ u.1) && decide (u.2 = (k.keyID, k.key))

def isReopen : AdminAct → Bool
  | .reopen .. => true
  | _ => false

section

variable (c : Cipher) (keys : Keys) (collection : String)

/-- The swap at the end of a pass: what was written meanwhile stays behind the new segments. -/
def Mover.compacted (m : Mover) (enc : Option Encryptor) (n : Nat) (picks : List (Nat × Sealing))
    (d : Decisions) (now : Int) : Option Mover :=
  (m.vault.step c keys collection (.compact enc n picks d now)).map fun v =>
    { m with vault := v, sealed := v.lines.length - (m.vault.lines.length - m.sealed) }

def Mover.step (m : Mover) : MoverAct → Option Mover
  | .write items =>
    if items.all fun i => inUse m.uses i.enc i.sealing then
      (m.vault.step c keys collection (.write items)).map fun v => { m with vault := v }
    else none
  | .rotateSegment => some { m with sealed := m.vault.lines.length }
  | .compact enc n picks d now =>
    if m.pass.held = false ∧ n ≤ m.sealed ∧ (picks.all fun p => inUse m.uses enc p.2) then
      m.compacted c keys collection enc n picks d now
    else none
  | .admin act =>
    (m.vault.step c keys collection (.admin act)).map fun v =>
      { m with
        vault := v
        uses := (epochOf v.admin.enc, m.current) :: m.uses
        pass := if isReopen act then .idle else m.pass }
  | .promote key =>
    some { m with current := key, uses := (epochOf m.vault.admin.enc, key) :: m.uses }
  | .migrate =>
    if m.pass.isIdle ∧ m.vault.admin.enc.isSome then some { m with pass := .begun } else none
  | .rotate =>
    match m.pass with
    | .begun => some { m with sealed := m.vault.lines.length, pass := .rotated }
    | _ => none
  | .snapshot =>
    match m.pass with
    | .rotated => some { m with pass := .snapped m.sealed }
    | _ => none
  | .resolve picks d now =>
    match m.pass with
    | .snapped n =>
      if picks.all fun p => inUse m.uses m.vault.admin.enc p.2 then
        some { m with pass := .resolved n m.vault.admin.enc picks d now }
      else none
    | _ => none
  | .swap =>
    match m.pass with
    | .resolved n enc picks d now =>
      (m.compacted c keys collection enc n picks d now).map fun m => { m with pass := .returned }
    | _ => none
  | .closed =>
    -- A collection that is closed meanwhile makes the pass return nil.
    match m.pass with
    | .rotated => some { m with pass := .returned }
    | _ => none
  | .finish =>
    match m.pass with
    | .returned => some { m with pass := .idle }
    | _ => none

end

def Mover.fresh (hasKeys : Bool) (current : String × Nat) : Mover :=
  { vault := .fresh hasKeys, sealed := 0, current := current, uses := [(0, current)], pass := .idle }

def Mover.UpToDate (m : Mover) (x : Kept) : Prop :=
  x.line.entry.op ≠ .delete → x.line.entry.epoch = epochOf m.vault.admin.enc

def Mover.snappedLines (m : Mover) : List Kept :=
  match m.pass with
  | .snapped n => m.vault.lines.take n
  | _ => []

/-- While a migration is under way nobody appends what was sealed under an earlier policy, the
policy and the key epoch stay, and the collection is not closed; and the lines of transactions, which
a pass keeps as they are, were written at the epoch in effect. -/
def Mover.Calm (m : Mover) : MoverAct → Prop
  | .write items => m.pass.isIdle = false →
      ∀ i ∈ items, i.entry.op ≠ .delete → i.enc = m.vault.admin.enc
  | .admin _ => m.pass.isIdle = true
  | .resolve _ d _ => ∀ x ∈ m.snappedLines, isEvidence d x.line = true → m.UpToDate x
  | .closed => False
  | _ => True

def Mover.Clear (collection : String) (m : Mover) : MoverAct → Prop
  | .write items => m.vault.Transparent collection (.write items)
  | .admin act => m.vault.Transparent collection (.admin act)
  | _ => True

instance (m : Mover) (x : Kept) : Decidable (m.UpToDate x) :=
  inferInstanceAs (Decidable (_ → _))

instance decidableCalm (m : Mover) : ∀ a, Decidable (m.Calm a) := by
  rintro (_ | _ | _ | _ | _ | _ | _ | _ | _ | _ | _ | _) <;> dsimp only [Mover.Calm] <;>
    infer_instance

instance decidableClear (collection : String) (m : Mover) :
    ∀ a, Decidable (m.Clear collection a) := by
  rintro (_ | _ | _ | _ | _ | _ | _ | _ | _ | _ | _ | _) <;> dsimp only [Mover.Clear] <;>
    infer_instance

def Filed (c : Cipher) (e : Encryptor) (k : Sealing) (x : Kept) : Prop :=
  ∃ plain key s, e.sealData c k plain = some s ∧
    x.line.entry.data = persistedData (keepKey key (some s))

def OpensWith (c : Cipher) (e : Encryptor) (k : Sealing) (x : Kept) : Prop :=
  ∀ keys : Keys, keys k.keyID = some k.key →
    e.materialize c keys (x.line.entry.data.getD []) = some (asRead x.plain)

def Mover.Dated (c : Cipher) (strict : Prop) (m : Mover) (x : Kept) : Prop :=
  x.line.entry.op ≠ .delete → x.line.entry.epoch ≤ epochOf m.vault.admin.enc ∧
    ∀ e, m.vault.admin.enc = some e → x.line.entry.epoch = e.epoch →
      ∃ k : Sealing, (e.epoch, k.keyID, k.key) ∈ m.uses ∧ Filed c e k x ∧
        (strict → OpensWith c e k x)

def Mover.Progress (m : Mover) : Pass → Prop
  | .idle => True
  | .begun => True
  | .rotated => ∀ x ∈ m.vault.lines.drop m.sealed, m.UpToDate x
  | .snapped n => n ≤ m.sealed ∧ ∀ x ∈ m.vault.lines.drop n, m.UpToDate x
  | .resolved n enc picks d _ => n ≤ m.sealed ∧ (∀ x ∈ m.vault.lines.drop n, m.UpToDate x) ∧
      enc = m.vault.admin.enc ∧ (∀ p ∈ picks, inUse m.uses enc p.2 = true) ∧
      ∀ x ∈ m.vault.lines.take n, isEvidence d x.line = true → m.UpToDate x
  | .returned => ∀ x ∈ m.vault.lines, m.UpToDate x

/-- The invariant; `strict` stands for a run in which, besides, records read as written. -/
structure Mover.Inv (c : Cipher) (keys : Keys) (strict : Prop) (m : Mover) : Prop where
  vault : strict → m.vault.Inv c keys
  epochs : m.vault.admin.Epochs
  uses : ∀ u ∈ m.uses, u.1 ≤ epochOf m.vault.admin.enc
  lines : ∀ x ∈ m.vault.lines, m.Dated c strict x
  sealed : m.sealed ≤ m.vault.lines.length
  some : m.pass.isIdle = false → m.vault.admin.enc.isSome = true
  progress : m.Progress m.pass

section

variable {c : Cipher} {keys : Keys} {collection : String} {strict : Prop} {m m' : Mover}

theorem Mover.fresh_inv (hasKeys : Bool) (current : String × Nat) :
    (Mover.fresh hasKeys current).Inv c keys strict := by
  refine ⟨fun _ => ⟨Admin.fresh_sound hasKeys, nofun⟩, Admin.fresh_epochs hasKeys,
    fun u hu => ?_, nofun, le_refl _, nofun, trivial⟩
  cases mem_singleton.mp hu
  exact le_refl _

variable {e : Encryptor} {k : Sealing} {i : Item} {x : Kept} {enc : Option Encryptor}
  {d : Decisions} {now : Int} {n : Nat} {picks : List (Nat × Sealing)}

theorem loaded_eq {a : Admin} (h : a.Epochs) {d : Encryptor} (hin : some e ∈ a.loaded)
    (hd : a.enc = some d) (hepoch : e.epoch = d.epoch) : e = d := by
  obtain ⟨d', hd', hed⟩ := h.loaded e hin
  rw [hd] at hd'
  cases hd'
  rcases hed with rfl | hlt
  · rfl
  · omega

theorem written_filed (henc : i.enc = some e) (hop : i.entry.op ≠ .delete) (h : i.kept c = some x) :
    Filed c e i.sealing x := by
  obtain ⟨stored, hsealed, rfl⟩ := map_eq_some_iff.mp ((if_neg hop).symm.trans h)
  unfold Item.sealed at hsealed
  rw [henc] at hsealed
  obtain ⟨s, hs, rfl⟩ := map_eq_some_iff.mp hsealed
  exact ⟨_, i.key, s, (ite_none_left_eq_some.mp hs).2, rfl⟩

theorem written_epoch (hop : i.entry.op ≠ .delete) (h : i.kept c = some x) :
    x.line.entry.epoch = epochOf i.enc := by
  obtain ⟨stored, -, rfl⟩ := map_eq_some_iff.mp ((if_neg hop).symm.trans h)
  rfl

theorem resolved_upToDate {y : Kept} {ls : List Kept} (hsome : m.vault.admin.enc.isSome = true)
    (hev : isEvidence d x.line = true → m.UpToDate x)
    (hline : x.rewritten.line ∈ resolveLines (ls.map Kept.line) d now)
    (h : x.rewritten.reencrypt c keys m.vault.admin.enc k = some y) : m.UpToDate y := by
  obtain ⟨e, he⟩ := isSome_iff_exists.mp hsome
  rcases reencrypt_cases h with ⟨rfl, hskip⟩ | ⟨d', plain, stored, hd', -, -, rfl⟩
  · intro hop
    rcases hskip e he with htx | hdel | hepoch
    · have hplain : x.line.isPlain = false := by
        by_contra hp
        rw [Bool.not_eq_false] at hp
        simp [Kept.rewritten, hp] at htx
      have hsame : x.rewritten.line = x.line := by simp [Kept.rewritten, hplain]
      rw [hsame] at hline
      refine hev ?_ hop
      rcases mem_append.mp hline with hl | hl
      · rw [resolveScan_evidence] at hl
        exact (mem_filter.mp hl).2
      · obtain ⟨entry, -, hentry⟩ := mem_map.mp hl
        rw [hsame, ← hentry] at htx
        cases htx
    · exact absurd hdel hop
    · rw [he]
      exact hepoch
  · intro _
    rw [hd']
    rfl

theorem compacted_cases (hn : n ≤ m.sealed) (hsealed : m.sealed ≤ m.vault.lines.length)
    (h : m.compacted c keys collection enc n picks d now = some m') :
    enc ∈ m.vault.admin.loaded ∧ ∃ ys,
      m' = { m with
        vault := { m.vault with lines := ys ++ m.vault.lines.drop n }
        sealed := ys.length + (m.sealed - n) } ∧
      ∀ y ∈ ys, ∃ x ∈ m.vault.lines.take n, ∃ p ∈ picks,
        x.rewritten.line ∈ resolveLines ((m.vault.lines.take n).map Kept.line) d now ∧
        x.rewritten.reencrypt c keys enc p.2 = some y := by
  obtain ⟨v, hv, rfl⟩ := map_eq_some_iff.mp h
  obtain ⟨hload, ys, rfl, hys⟩ := compact_lines hv
  refine ⟨hload, ys, ?_, fun y hy => ?_⟩
  · have hlen : (ys ++ m.vault.lines.drop n).length - (m.vault.lines.length - m.sealed) =
        ys.length + (m.sealed - n) := by
      rw [length_append, length_drop]
      omega
    dsimp only
    rw [hlen]
  · obtain ⟨x, hx, p, hp, -, hline, hxy⟩ := hys y hy
    exact ⟨x, hx, p, hp, hline, hxy⟩

theorem idle_of {p : Pass} (h : p.isIdle = true) : p = .idle := by
  cases p with
  | idle => rfl
  | _ => cases h

section Steps

variable (hi : m.Inv c keys strict)
include hi

theorem uses_epoch (he : m.vault.admin.enc = some e)
    (h : inUse m.uses (some e) k = true) : (e.epoch, k.keyID, k.key) ∈ m.uses := by
  obtain ⟨u, hu, hk⟩ := any_eq_true.mp h
  obtain ⟨hle, hk⟩ := Bool.and_eq_true_iff.mp hk
  have hle : e.epoch ≤ u.1 := of_decide_eq_true hle
  have hge := hi.uses u hu
  rw [he] at hge
  have hepoch : u.1 = e.epoch := le_antisymm hge hle
  rw [← hepoch, ← (of_decide_eq_true hk : u.2 = (k.keyID, k.key))]
  exact hu

theorem written_dated
    (hok : strict → i.entry.op ≠ .delete → KeysAscend (i.entry.data.getD []) ∧
      decodable (some i.plain) = true ∧ ∀ e ∈ m.vault.admin.enc, readsAsIs e.readMode i.plain = true)
    (hin : i.enc ∈ m.vault.admin.loaded) (huse : inUse m.uses i.enc i.sealing = true)
    (h : i.kept c = some x) : m.Dated c strict x := by
  intro hop
  have hiop : i.entry.op ≠ .delete := kept_op h ▸ hop
  rw [written_epoch hiop h]
  refine ⟨hi.epochs.loaded_le_enc hin, fun e he hepoch => ?_⟩
  cases henc : i.enc with
  | none =>
    rw [henc] at hepoch
    have hpos := (hi.epochs.enc e he).1
    rw [← hepoch] at hpos
    exact absurd hpos (lt_irrefl 0)
  | some d =>
    rw [henc] at hin huse hepoch
    cases loaded_eq hi.epochs hin he hepoch
    refine ⟨i.sealing, uses_epoch hi he huse, written_filed henc hiop h, fun hs keys' hk => ?_⟩
    have hreads : Reads c keys' m.vault.admin.enc x :=
      written_reads (hi.vault hs).admin (henc ▸ hin) hk (hok hs hiop) hiop h
    exact hreads.sealed e he

theorem reencrypt_dated {y : Kept} (hx : x ∈ m.vault.lines)
    (hin : enc ∈ m.vault.admin.loaded) (huse : inUse m.uses enc k = true)
    (h : x.rewritten.reencrypt c keys enc k = some y) : m.Dated c strict y := by
  rcases reencrypt_cases h with ⟨rfl, -⟩ | ⟨e, plain, stored, rfl, hplain, hs, rfl⟩
  · exact hi.lines x hx
  · intro hop
    refine ⟨hi.epochs.loaded_le_enc hin, fun d hd hepoch => ?_⟩
    cases loaded_eq hi.epochs hin hd hepoch
    refine ⟨k, uses_epoch hi hd huse, ⟨plain, none, stored, hs, rfl⟩, fun hstrict keys' hk => ?_⟩
    have hr := (hi.vault hstrict).lines x hx hop
    exact (resealed_reads (hi.vault hstrict).admin hin hk hr hplain hs).sealed e hd

theorem progress_append {xs : List Kept}
    (hxs : m.pass.isIdle = false → ∀ x ∈ xs, m.UpToDate x) :
    ({ m with vault := { m.vault with lines := m.vault.lines ++ xs } } : Mover).Progress m.pass := by
  have hp := hi.progress
  have hbehind : ∀ n, m.pass.isIdle = false → (∀ x ∈ m.vault.lines.drop n, m.UpToDate x) →
      ∀ x ∈ (m.vault.lines ++ xs).drop n, m.UpToDate x := by
    intro n hidle hold x hx
    rw [drop_append] at hx
    rcases mem_append.mp hx with hx | hx
    · exact hold x hx
    · exact hxs hidle x (mem_of_mem_drop hx)
  cases hpass : m.pass with
  | idle => trivial
  | begun => trivial
  | rotated =>
    rw [hpass] at hp hbehind
    exact hbehind _ rfl hp
  | snapped n =>
    rw [hpass] at hp hbehind
    exact ⟨hp.1, hbehind n rfl hp.2⟩
  | resolved n enc picks d now =>
    rw [hpass] at hp hbehind
    obtain ⟨hn, hold, henc, huse, hev⟩ := hp
    refine ⟨hn, hbehind n rfl hold, henc, huse, fun x hx => ?_⟩
    have htake : (m.vault.lines ++ xs).take n = m.vault.lines.take n :=
      take_append_of_le_length (hn.trans hi.sealed)
    exact hev x (htake ▸ hx)
  | returned =>
    rw [hpass] at hp hxs
    intro x hx
    rcases mem_append.mp hx with hx | hx
    · exact hp x hx
    · exact hxs rfl x hx

theorem mover_write {items : List Item} (hcalm : m.Calm (.write items))
    (hclear : strict → m.Clear collection (.write items))
    (h : m.step c keys collection (.write items) = some m') : m'.Inv c keys strict := by
  obtain ⟨hall, h⟩ := ite_none_right_eq_some.mp h
  obtain ⟨v, hv, rfl⟩ := map_eq_some_iff.mp h
  have hvault : strict → v.Inv c keys := fun hs => inv_write (hi.vault hs) (hclear hs) hv
  obtain ⟨xs, rfl, hxs⟩ := write_lines hv
  refine ⟨hvault, hi.epochs, hi.uses, fun x hx => ?_, ?_, hi.some, progress_append hi ?_⟩
  · rcases mem_append.mp hx with hx | hx
    · exact hi.lines x hx
    · obtain ⟨i, hin, hload, -, hkept⟩ := hxs x hx
      have hdated : m.Dated c strict x := written_dated hi (fun hs hop => hclear hs i hin hop) hload
        (all_eq_true.mp hall i hin) hkept
      exact hdated
  · exact hi.sealed.trans (by simp)
  · intro hidle x hx hop
    obtain ⟨i, hin, -, -, hkept⟩ := hxs x hx
    have hiop : i.entry.op ≠ .delete := kept_op hkept ▸ hop
    rw [written_epoch hiop hkept, hcalm hidle i hin hiop]

theorem compacted_inv (hn : n ≤ m.sealed)
    (huse : ∀ p ∈ picks, inUse m.uses enc p.2 = true)
    (h : m.compacted c keys collection enc n picks d now = some m') (pass : Pass)
    (hpass : pass.isIdle = false → m.pass.isIdle = false)
    (hp : ({ m' with pass := pass } : Mover).Progress pass) :
    ({ m' with pass := pass } : Mover).Inv c keys strict := by
  have hvault : strict → m'.vault.Inv c keys := by
    intro hs
    obtain ⟨v, hv, rfl⟩ := map_eq_some_iff.mp h
    exact inv_compact (hi.vault hs) hv
  obtain ⟨hload, ys, rfl, hys⟩ := compacted_cases hn hi.sealed h
  refine ⟨hvault, hi.epochs, hi.uses, fun y hy => ?_, ?_, fun hidle => hi.some (hpass hidle), hp⟩
  · rcases mem_append.mp hy with hy | hy
    · obtain ⟨x, hx, p, hpp, -, hxy⟩ := hys y hy
      have hdated : m.Dated c strict y :=
        reencrypt_dated hi (mem_of_mem_take hx) hload (huse p hpp) hxy
      exact hdated
    · exact hi.lines y (mem_of_mem_drop hy)
  · have hsealed := hi.sealed
    dsimp only
    rw [length_append, length_drop]
    omega

theorem mover_compact
    (h : m.step c keys collection (.compact enc n picks d now) = some m') :
    m'.Inv c keys strict := by
  obtain ⟨⟨hheld, hn, huse⟩, h⟩ := ite_none_right_eq_some.mp h
  have hprogress : m'.Progress m.pass := by
    obtain ⟨-, ys, rfl, -⟩ := compacted_cases hn hi.sealed h
    have hp := hi.progress
    cases hpass : m.pass with
    | idle => trivial
    | begun => trivial
    | rotated =>
      rw [hpass] at hp
      have hdrop : (ys ++ m.vault.lines.drop n).drop (ys.length + (m.sealed - n)) =
          m.vault.lines.drop m.sealed := by
        rw [drop_append, drop_eq_nil_of_le (Nat.le_add_right _ _), nil_append,
          drop_drop]
        congr 1
        omega
      intro x hx
      exact hp x (hdrop ▸ hx)
    | snapped n | resolved n enc picks d now | returned => rw [hpass] at hheld; cases hheld
  have hsame : m'.pass = m.pass := by
    obtain ⟨v, -, rfl⟩ := map_eq_some_iff.mp h
    rfl
  exact compacted_inv hi hn (fun p hp => all_eq_true.mp huse p hp) h m'.pass
    (fun hidle => hsame ▸ hidle) (hsame.symm ▸ hprogress)

theorem mover_swap (h : m.step c keys collection .swap = some m') :
    m'.Inv c keys strict := by
  unfold Mover.step at h
  dsimp only at h
  split at h
  case h_1 n enc picks d now hpass =>
    obtain ⟨m₁, hm, rfl⟩ := map_eq_some_iff.mp h
    have hp := hi.progress
    have hsome := hi.some
    rw [hpass] at hp hsome
    obtain ⟨hn, hold, rfl, huse, hev⟩ := hp
    refine compacted_inv hi hn huse hm .returned (fun _ => by rw [hpass]; rfl) ?_
    obtain ⟨-, ys, rfl, hys⟩ := compacted_cases hn hi.sealed hm
    intro y hy
    rcases mem_append.mp hy with hy | hy
    · obtain ⟨x, hx, p, -, hline, hxy⟩ := hys y hy
      exact resolved_upToDate (hsome rfl) (hev x hx) hline hxy
    · exact hold y hy
  case h_2 => cases h

theorem mover_admin {act : AdminAct} (hcalm : m.Calm (.admin act))
    (hclear : strict → m.Clear collection (.admin act))
    (h : m.step c keys collection (.admin act) = some m') : m'.Inv c keys strict := by
  obtain ⟨v, hv, rfl⟩ := map_eq_some_iff.mp h
  have hvault : strict → v.Inv c keys := fun hs => inv_admin (hi.vault hs) (hclear hs) hv
  obtain ⟨admin, hadmin, rfl⟩ := map_eq_some_iff.mp hv
  obtain ⟨hepochs, henc, -, -⟩ := hi.epochs.step hadmin
  have hle : epochOf m.vault.admin.enc ≤ epochOf admin.enc := by
    rcases henc with heq | hlt
    · rw [heq]
    · exact hlt.le
  have hpass : m.pass = .idle := idle_of hcalm
  refine ⟨hvault, hepochs, fun u hu => ?_, fun x hx hop => ?_, hi.sealed, fun hidle => ?_, ?_⟩
  · rcases mem_cons.mp hu with rfl | hu
    · exact le_refl _
    · exact (hi.uses u hu).trans hle
  · obtain ⟨hx, hfiled⟩ := hi.lines x hx hop
    refine ⟨hx.trans hle, fun e he hepoch => ?_⟩
    have he : admin.enc = some e := he
    rcases henc with heq | hlt
    · obtain ⟨k, hk, hf⟩ := hfiled e (heq ▸ he) hepoch
      exact ⟨k, mem_cons_of_mem _ hk, hf⟩
    · -- An encryptor that has just come into effect has sealed nothing yet.
      rw [he] at hlt
      have hlt : epochOf m.vault.admin.enc < e.epoch := hlt
      omega
  · dsimp only at hidle
    rw [hpass] at hidle
    split at hidle
    · cases hidle
    · cases hidle
  · dsimp only
    rw [hpass]
    split
    · trivial
    · trivial

theorem mover_promote {key : String × Nat}
    (h : m.step c keys collection (.promote key) = some m') : m'.Inv c keys strict := by
  cases h
  refine ⟨hi.vault, hi.epochs, fun u hu => ?_, fun x hx hop => ?_, hi.sealed, hi.some, ?_⟩
  · rcases mem_cons.mp hu with rfl | hu
    · exact le_refl _
    · exact hi.uses u hu
  · obtain ⟨hx, hfiled⟩ := hi.lines x hx hop
    refine ⟨hx, fun e he hepoch => ?_⟩
    obtain ⟨k, hk, hf⟩ := hfiled e he hepoch
    exact ⟨k, mem_cons_of_mem _ hk, hf⟩
  · have hp := hi.progress
    dsimp only
    cases hpass : m.pass with
    | resolved n enc picks d now =>
      rw [hpass] at hp
      obtain ⟨hn, hold, henc, huse, hev⟩ := hp
      refine ⟨hn, hold, henc, fun p hp => ?_, hev⟩
      unfold inUse
      rw [any_cons, Bool.or_eq_true]
      exact Or.inr (huse p hp)
    | _ =>
      rw [hpass] at hp
      exact hp

theorem mover_rotateSegment
    (h : m.step c keys collection .rotateSegment = some m') : m'.Inv c keys strict := by
  cases h
  refine ⟨hi.vault, hi.epochs, hi.uses, hi.lines, le_refl _, hi.some, ?_⟩
  have hp := hi.progress
  dsimp only
  cases hpass : m.pass with
  | rotated =>
    intro x hx
    dsimp only at hx
    rw [drop_length] at hx
    cases hx
  | snapped n | resolved n enc picks d now =>
    rw [hpass] at hp
    exact ⟨hp.1.trans hi.sealed, hp.2⟩
  | _ =>
    rw [hpass] at hp
    exact hp

theorem Mover.Inv.setPass {pass : Pass}
    (hs : pass.isIdle = false → m.vault.admin.enc.isSome = true) (hp : m.Progress pass) :
    ({ m with pass := pass } : Mover).Inv c keys strict :=
  ⟨hi.vault, hi.epochs, hi.uses, hi.lines, hi.sealed, hs, hp⟩

theorem mover_step {a : MoverAct} (hcalm : m.Calm a)
    (hclear : strict → m.Clear collection a) (h : m.step c keys collection a = some m') :
    m'.Inv c keys strict := by
  have hp := hi.progress
  have hsome := hi.some
  cases a with
  | write items => exact mover_write hi hcalm hclear h
  | rotateSegment => exact mover_rotateSegment hi h
  | compact enc n picks d now => exact mover_compact hi h
  | admin act => exact mover_admin hi hcalm hclear h
  | promote key => exact mover_promote hi h
  | swap => exact mover_swap hi h
  | migrate =>
    obtain ⟨⟨-, hs⟩, rfl⟩ := Runs.guarded h
    exact hi.setPass (fun _ => hs) trivial
  | rotate =>
    simp only [Mover.step] at h
    split at h
    · next hpass =>
      cases h
      rw [hpass] at hsome
      have hrotated : m.step c keys collection .rotateSegment = some _ := rfl
      refine (mover_rotateSegment hi hrotated).setPass (fun _ => hsome rfl) fun x hx => ?_
      rw [drop_length] at hx
      cases hx
    · cases h
  | snapshot =>
    simp only [Mover.step] at h
    split at h
    · next hpass =>
      cases h
      rw [hpass] at hsome hp
      exact hi.setPass (fun _ => hsome rfl) ⟨le_refl _, hp⟩
    · cases h
  | resolve picks d now =>
    simp only [Mover.step] at h
    split at h
    · next n hpass =>
      obtain ⟨huse, rfl⟩ := Runs.guarded h
      have hev : ∀ x ∈ m.snappedLines, isEvidence d x.line = true → m.UpToDate x := hcalm
      unfold Mover.snappedLines at hev
      rw [hpass] at hsome hp hev
      exact hi.setPass (fun _ => hsome rfl) ⟨hp.1, hp.2, rfl, all_eq_true.mp huse, hev⟩
    · cases h
  | closed => cases hcalm
  | finish =>
    simp only [Mover.step] at h
    split at h
    · cases h
      exact hi.setPass nofun trivial
    · cases h

end Steps

end

/-- In every run that meets the condition, when `MigrateNow` returns nil every line with data is at
the epoch in effect, made by the encryptor in effect with a key that has been current at this epoch;
and if records read as written at all, that key alone is needed to read the line. -/
theorem migration_complete (c : Cipher) (keys : Keys) (collection : String) (hasKeys : Bool)
    (current : String × Nat) {m : Mover} (hpass : m.pass = .returned) {e : Encryptor}
    (he : m.vault.admin.enc = some e)
    (hr : Runs.Reaches (Mover.step c keys collection) Mover.Calm (Mover.fresh hasKeys current) m) :
    (∀ x ∈ m.vault.lines, x.line.entry.op ≠ .delete → x.line.entry.epoch = e.epoch ∧
      ∃ k : Sealing, (e.epoch, k.keyID, k.key) ∈ m.uses ∧ Filed c e k x) ∧
    (Runs.Reaches (Mover.step c keys collection)
        (fun m a => m.Calm a ∧ m.Clear collection a) (Mover.fresh hasKeys current) m →
      ∀ x ∈ m.vault.lines, x.line.entry.op ≠ .delete → ∀ retained : Keys,
        (∀ k : Sealing, (e.epoch, k.keyID, k.key) ∈ m.uses → retained k.keyID = some k.key) →
        e.materialize c retained (x.line.entry.data.getD []) = some (asRead x.plain)) := by
  have hdone : ∀ {strict : Prop}, m.Inv c keys strict → ∀ x ∈ m.vault.lines,
      x.line.entry.op ≠ .delete → x.line.entry.epoch = e.epoch ∧
        ∃ k : Sealing, (e.epoch, k.keyID, k.key) ∈ m.uses ∧ Filed c e k x ∧
          (strict → OpensWith c e k x) := by
    intro strict hi x hx hop
    have hp := hi.progress
    rw [hpass] at hp
    have hepoch : x.line.entry.epoch = e.epoch := by
      have := hp x hx hop
      rw [he] at this
      exact this
    exact ⟨hepoch, (hi.lines x hx hop).2 e he hepoch⟩
  constructor
  · intro x hx hop
    have hi : m.Inv c keys False := hr.invariant (Mover.fresh_inv hasKeys current)
      fun hi hcalm hs => mover_step hi hcalm (fun hf => hf.elim) hs
    obtain ⟨hepoch, k, hk, hf, -⟩ := hdone hi x hx hop
    exact ⟨hepoch, k, hk, hf⟩
  · intro hr x hx hop retained hret
    have hi : m.Inv c keys True := hr.invariant (Mover.fresh_inv hasKeys current)
      fun hi hcalm hs => mover_step hi hcalm.1 (fun _ => hcalm.2) hs
    obtain ⟨-, k, hk, -, hopens⟩ := hdone hi x hx hop
    exact hopens trivial retained (hret k hk)

def twoKeys : Keys := fun id => if id = "k" then some 1 else if id = "j" then some 2 else none

def newKey : Keys := fun id => if id = "j" then some 2 else none

def newSealing : Sealing :=
  { keyID := "j", key := 2, nonce := fun _ => 0 }

def itemOf (id : Nat) (tx : Option TxStamp) (epoch : Nat) (k : Sealing) : Item :=
  { entry := { id := id, op := .insert, ts := Rfc3339.zeroTime, rev := 1
               data := some [("a", .str "x"), ("b", .str "y")], epoch := 0, expiresAt := 0 }
    tx := tx, key := none, enc := some (recordEncryptor epoch), sealing := k }

def migrationRun (before mid : List Item) (picks : List (Nat × Sealing)) : List MoverAct :=
  [.admin (.setPolicy (some recordPolicy)), .admin .store, .write before, .promote ("j", 2),
   .admin .rotateKey, .admin .store, .migrate, .rotate, .write mid, .snapshot,
   .resolve picks (some fun t => if t = "t" then some .commit else none) 0, .swap]

def afterMigration (acts : List MoverAct) : Option (List (Nat × Option Data)) :=
  (Runs.run (Mover.step clearCipher twoKeys "c") (Mover.fresh true ("k", 1)) acts).bind fun m =>
    match m.pass, m.vault.admin.enc with
    | .returned, some e => some (m.vault.lines.map fun x =>
        (x.line.entry.epoch, e.materialize clearCipher newKey (x.line.entry.data.getD [])))
    | _, _ => none

def sampleMigration : List MoverAct :=
  migrationRun [itemOf 1 none 1 sampleSealing] [itemOf 2 (some ⟨"t", 0, 1⟩) 2 newSealing]
    [(0, newSealing)]

set_option maxRecDepth 100000 in
theorem migration_complete_sample : ∃ m x,
    Runs.run (Mover.step clearCipher twoKeys "c") (Mover.fresh true ("k", 1)) sampleMigration =
      some m ∧ x ∈ m.vault.lines ∧ x.line.entry.id = 1 ∧ x.line.entry.epoch = 2 ∧
    (recordEncryptor 2).materialize clearCipher newKey (x.line.entry.data.getD []) =
      some (asRead [("a", .str "x"), ("b", .str "y")]) := by
  obtain ⟨m, hm, hr, hok, henc, huses, hpass, x, hmem, hid, hop, hplain⟩ := Runs.reached
    (Mover.step clearCipher twoKeys "c") Mover.Calm (Mover.fresh true ("k", 1)) sampleMigration
    (fun m => Runs.Meets (Mover.step clearCipher twoKeys "c") (fun m a => m.Calm a ∧ m.Clear "c" a)
      (Mover.fresh true ("k", 1)) sampleMigration ∧ m.vault.admin.enc = some (recordEncryptor 2) ∧
        (∀ u ∈ m.uses, u.1 ≠ 2 ∨ u.2 = ("j", 2)) ∧ m.pass matches .returned ∧
          ∃ x ∈ m.vault.lines, x.line.entry.id = 1 ∧ x.line.entry.op ≠ .delete ∧
            x.plain = [("a", .str "x"), ("b", .str "y")]) (by decide +kernel)
  have hpass : m.pass = .returned := by
    cases hp : m.pass with
    | returned => rfl
    | _ => rw [hp] at hpass; cases hpass
  obtain ⟨hepochs, hread⟩ := migration_complete clearCipher twoKeys "c" true ("k", 1) hpass henc hr
  have hretained : ∀ k : Sealing, ((recordEncryptor 2).epoch, k.keyID, k.key) ∈ m.uses →
      newKey k.keyID = some k.key := by
    intro k hk
    have hj : (k.keyID, k.key) = ("j", 2) := by simpa [recordEncryptor] using huses _ hk
    rw [(Prod.mk.inj hj).1, (Prod.mk.inj hj).2]
    rfl
  refine ⟨m, x, hm, hmem, hid, (hepochs x hmem hop).1, ?_⟩
  rw [← hplain]
  exact hread (Runs.reaches_run hm hok .refl) x hmem hop newKey hretained

set_option maxRecDepth 100000 in
/-- When `MigrateNow` returns nil, a line of a committed transaction is as it was before; and so is
one that was sealed before the new key and appended after the rotation. Without the old key neither
can be read. -/
theorem migration_leaves_sealed :
    afterMigration (migrationRun [itemOf 1 (some ⟨"t", 0, 1⟩) 1 sampleSealing] []
      [(0, newSealing)]) = some [(1, none)] ∧
    afterMigration (migrationRun [] [itemOf 1 none 1 sampleSealing] []) = some [(1, none)] := by
  constructor
  · decide +kernel
  · decide +kernel

end Scriva.Encryption
