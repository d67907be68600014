import Scriva.Disk
import Scriva.Lib.Runs

namespace Scriva.TxIds

open List Option Function

structure TxID where
  epoch : Nat
  seq : Nat
deriving DecidableEq

structure ReplBind where
  lsn : Nat
  leadTx : TxID
  digest : String
deriving DecidableEq

structure Decision where
  tx : TxID
  commit : Bool
  parts : List Disk.XTxPart
  bind : Option ReplBind
deriving DecidableEq

/-- A node: its journal, once it has one, the transactions that are part of its state and the LSN it
has applied. -/
structure Node where
  epoch : Option Nat
  nextSeq : Nat
  table : List Decision
  has : List Nat
  appliedLSN : Nat

/-- A committed transaction, numbered in the order of the commits, with the id and the LSN it was
published under. It has no LSN when the leader died before it could publish it. -/
structure Minted where
  serial : Nat
  tx : TxID
  lsn : Option Nat
  digest : String
  parts : List Disk.XTxPart
deriving DecidableEq

structure Group where
  nodes : Nat → Node
  leader : Nat
  lsn : Nat
  epochs : List Nat
  minted : List Minted

def maxSeq (table : List Decision) : Nat :=
  (table.map fun d => d.tx.seq).foldl max 0

def Node.ensureXTxJournal (n : Node) (epoch : Nat) : Node :=
  if n.epoch.isSome then n else { n with epoch := some epoch, nextSeq := 1 }

def Node.txID (n : Node) : TxID :=
  ⟨n.epoch.getD 0, n.nextSeq⟩

def Node.allocate (n : Node) : Node :=
  { n with nextSeq := n.nextSeq + 1 }

def Node.record (n : Node) (d : Decision) : Node :=
  { n with table := n.table ++ [d] }

/-- `boundDecision`: the commit bound to the LSN, then the last one bound to the leader's id. -/
def Node.boundDecision (n : Node) (lsn : Nat) (leadTx : TxID) : Option Decision :=
  (n.table.find? fun d => d.bind.any fun b => b.lsn == lsn).or
    (n.table.reverse.find? fun d => d.bind.any fun b => b.leadTx == leadTx)

inductive Verdict where
  | already
  | divergence
  | proceed
deriving DecidableEq

def Node.identifyOwn (n : Node) (m : Minted) : Verdict :=
  match n.table.find? fun d => d.tx == m.tx with
  | some d =>
    if d.commit ∧ d.bind = none then if d.parts = m.parts then .already else .divergence
    else .proceed
  | none => .proceed

/-- What `applyReplicatedTxLocked` makes of a transaction delivered at an LSN, before it looks at
its operations. -/
def Node.identify (n : Node) (lsn : Nat) (m : Minted) : Verdict :=
  match n.boundDecision lsn m.tx with
  | some d =>
    if d.commit then if d.bind = some ⟨lsn, m.tx, m.digest⟩ then .already else .divergence
    else n.identifyOwn m
  | none => n.identifyOwn m

def Node.apply (n : Node) (epoch lsn : Nat) (m : Minted) : Node :=
  let n := n.ensureXTxJournal epoch
  { n.allocate.record ⟨n.txID, true, m.parts, some ⟨lsn, m.tx, m.digest⟩⟩ with
      has := n.has ++ [m.serial], appliedLSN := lsn }

inductive Act where
  | entries (k : Nat)
  | commit (epoch : Nat) (digest : String) (parts : List Disk.XTxPart) (published : Bool)
  | abort (epoch : Nat) (recorded : Bool)
  | reopen (i seq : Nat)
  | bootstrap (i lsn : Nat)
  /-- A follower takes the next transaction; `present` tells that every operation of it is there. -/
  | deliver (i k : Nat) (epoch : Nat) (present : Bool)
  | advance (i lsn : Nat)
  | promote (i : Nat)

def Group.set (g : Group) (i : Nat) (n : Node) : Group :=
  { g with nodes := Function.update g.nodes i n }

def Group.newEpoch (g : Group) (i epoch : Nat) : Bool :=
  (g.nodes i).epoch.isSome || !g.epochs.contains epoch

def Group.noteEpoch (g : Group) (epoch : Nat) : Group :=
  { g with epochs := epoch :: g.epochs }

def Group.noneBetween (g : Group) (lo hi : Nat) : Bool :=
  g.minted.all fun m => m.lsn.all fun l => l ≤ lo || hi < l

def Group.commit (g : Group) (epoch : Nat) (digest : String) (parts : List Disk.XTxPart)
    (published : Bool) : Group :=
  let n := (g.nodes g.leader).ensureXTxJournal epoch
  let m : Minted := ⟨g.minted.length, n.txID, if published then some (g.lsn + 1) else none, digest, parts⟩
  { (g.noteEpoch epoch).set g.leader
      { n.allocate.record ⟨n.txID, true, parts, none⟩ with has := n.has ++ [m.serial] } with
    lsn := g.lsn + 1, minted := g.minted ++ [m] }

def Group.abort (g : Group) (epoch : Nat) (recorded : Bool) : Group :=
  let n := (g.nodes g.leader).ensureXTxJournal epoch
  (g.noteEpoch epoch).set g.leader
    (if recorded then n.allocate.record ⟨n.txID, false, [], none⟩ else n.allocate)

def Group.bootstrap (g : Group) (i lsn : Nat) : Group :=
  let n := g.nodes g.leader
  g.set i { n with nextSeq := maxSeq n.table + 1, appliedLSN := lsn }

def Group.deliver (g : Group) (i epoch lsn : Nat) (m : Minted) (present : Bool) : Option Group :=
  let n := g.nodes i
  match n.identify lsn m with
  | .divergence => none
  | .already => some (g.set i { n with appliedLSN := lsn })
  | .proceed =>
    if present then some (g.set i { n with appliedLSN := lsn })
    else some ((g.noteEpoch epoch).set i (n.apply epoch lsn m))

def Group.step (g : Group) : Act → Option Group
  | .entries k => some { g with lsn := g.lsn + k }
  | .commit epoch digest parts published =>
    if g.newEpoch g.leader epoch then some (g.commit epoch digest parts published) else none
  | .abort epoch recorded =>
    if g.newEpoch g.leader epoch then some (g.abort epoch recorded) else none
  | .reopen i seq =>
    if maxSeq (g.nodes i).table < seq ∧ seq ≤ (g.nodes i).nextSeq then
      some (g.set i { g.nodes i with nextSeq := seq })
    else none
  | .bootstrap i lsn => if i ≠ g.leader ∧ lsn ≤ g.lsn then some (g.bootstrap i lsn) else none
  | .deliver i k epoch present =>
    g.minted[k]?.bind fun m => m.lsn.bind fun lsn =>
      if i ≠ g.leader ∧ (g.nodes i).appliedLSN < lsn ∧
          g.noneBetween (g.nodes i).appliedLSN (lsn - 1) ∧ g.newEpoch i epoch then
        g.deliver i epoch lsn m present
      else none
  | .advance i lsn =>
    if i ≠ g.leader ∧ (g.nodes i).appliedLSN ≤ lsn ∧ lsn ≤ g.lsn ∧
        g.noneBetween (g.nodes i).appliedLSN lsn then
      some (g.set i { g.nodes i with appliedLSN := lsn })
    else none
  | .promote i =>
    if i ≠ g.leader ∧ g.lsn ≤ (g.nodes i).appliedLSN then some { g with leader := i } else none

def Group.start : Group :=
  { nodes := fun _ => ⟨none, 1, [], [], 0⟩, leader := 0, lsn := 0, epochs := [], minted := [] }

section

variable {g g' : Group} {n : Node} {m : Minted} {minted minted' : List Minted} {a : Act} {i lsn e : Nat}

/-- Every commit of a journal is a transaction of the group that is part of the node's state. -/
structure Knows (minted : List Minted) (n : Node) : Prop where
  bound : ∀ d ∈ n.table, ∀ b, d.bind = some b →
    ∃ m ∈ minted, m.lsn = some b.lsn ∧ m.tx = b.leadTx ∧ m.serial ∈ n.has
  own : ∀ d ∈ n.table, d.commit = true → d.bind = none →
    ∃ m ∈ minted, m.tx = d.tx ∧ m.serial ∈ n.has

theorem Knows.grow {n' : Node} (h : Knows minted n) (ds : List Decision)
    (hm : ∀ m ∈ minted, m ∈ minted') (hhas : ∀ s ∈ n.has, s ∈ n'.has) (ht : n'.table = n.table ++ ds)
    (hb : ∀ d ∈ ds, ∀ b, d.bind = some b →
      ∃ m ∈ minted', m.lsn = some b.lsn ∧ m.tx = b.leadTx ∧ m.serial ∈ n'.has)
    (ho : ∀ d ∈ ds, d.commit = true → d.bind = none →
      ∃ m ∈ minted', m.tx = d.tx ∧ m.serial ∈ n'.has) : Knows minted' n' := by
  refine ⟨fun d hd b hdb => ?_, fun d hd hc hdb => ?_⟩
  · rw [ht] at hd
    rcases mem_append.mp hd with hd | hd
    · obtain ⟨m, hmem, h1, h2, h3⟩ := h.bound d hd b hdb
      exact ⟨m, hm m hmem, h1, h2, hhas _ h3⟩
    · exact hb d hd b hdb
  · rw [ht] at hd
    rcases mem_append.mp hd with hd | hd
    · obtain ⟨m, hmem, h1, h2⟩ := h.own d hd hc hdb
      exact ⟨m, hm m hmem, h1, hhas _ h2⟩
    · exact ho d hd hc hdb

theorem Knows.mono (h : Knows minted n) (hm : ∀ m ∈ minted, m ∈ minted') : Knows minted' n :=
  h.grow [] hm (fun _ hs => hs) (by simp) nofun nofun

theorem Knows.same {n' : Node} (h : Knows minted n) (ht : n'.table = n.table) (hh : n'.has = n.has) :
    Knows minted n' :=
  h.grow [] (fun _ hm => hm) (fun _ hs => hh ▸ hs) (by simp [ht]) nofun nofun

theorem ensure_table (n : Node) (e : Nat) : (n.ensureXTxJournal e).table = n.table := by
  unfold Node.ensureXTxJournal
  split <;> rfl

theorem ensure_has (n : Node) (e : Nat) : (n.ensureXTxJournal e).has = n.has := by
  unfold Node.ensureXTxJournal
  split <;> rfl

theorem identify_cases (n : Node) (lsn : Nat) (m : Minted) : n.identify lsn m = .proceed ∨
    (∃ d ∈ n.table, ∃ b, d.bind = some b ∧ (b.lsn = lsn ∨ b.leadTx = m.tx)) ∨
    ∃ d ∈ n.table, d.commit = true ∧ d.bind = none ∧ d.tx = m.tx := by
  have hown : n.identifyOwn m = .proceed ∨
      ∃ d ∈ n.table, d.commit = true ∧ d.bind = none ∧ d.tx = m.tx := by
    unfold Node.identifyOwn
    cases hf : n.table.find? fun d => d.tx == m.tx with
    | none => exact Or.inl rfl
    | some d =>
      by_cases hd : d.commit ∧ d.bind = none
      · exact Or.inr ⟨d, mem_of_find?_eq_some hf, hd.1, hd.2, by simpa using List.find?_some hf⟩
      · exact Or.inl (by simp [hd])
  unfold Node.identify
  cases hf : n.boundDecision lsn m.tx with
  | none => exact hown.imp_right Or.inr
  | some d =>
    refine Or.inr (Or.inl ?_)
    rcases Option.or_eq_some_iff.mp hf with hx | ⟨-, hx⟩
    · have hp := List.find?_some hx
      cases hb : d.bind with
      | none => simp [hb] at hp
      | some b => exact ⟨d, mem_of_find?_eq_some hx, b, hb, Or.inl (by simpa [hb] using hp)⟩
    · have hp := List.find?_some hx
      cases hb : d.bind with
      | none => simp [hb] at hp
      | some b =>
        exact ⟨d, mem_reverse.mp (mem_of_find?_eq_some hx), b, hb,
          Or.inr (by simpa [hb] using hp)⟩

def Above (minted : List Minted) (n : Node) : Prop :=
  ∀ m ∈ minted, n.epoch = some m.tx.epoch → m.tx.seq < n.nextSeq

structure Distinct (minted : List Minted) (lsn : Nat) : Prop where
  lsns : ∀ m ∈ minted, ∀ l, m.lsn = some l → l ≤ lsn
  lsn_inj : ∀ m ∈ minted, ∀ m' ∈ minted, ∀ l, m.lsn = some l → m'.lsn = some l → m = m'
  tx_inj : ∀ m ∈ minted, ∀ m' ∈ minted, m.tx = m'.tx → m = m'

structure Unique (g : Group) : Prop where
  distinct : Distinct g.minted g.lsn
  epochs : ∀ m ∈ g.minted, m.tx.epoch ∈ g.epochs
  noted : ∀ i x, (g.nodes i).epoch = some x → x ∈ g.epochs
  above : Above g.minted (g.nodes g.leader)
  knows : ∀ i, Knows g.minted (g.nodes i)

theorem Distinct.mint (h : Distinct minted lsn) (hfresh : ∀ m' ∈ minted, m'.tx ≠ m.tx)
    (hlsn : ∀ l, m.lsn = some l → l = lsn + 1) : Distinct (minted ++ [m]) (lsn + 1) := by
  refine ⟨fun x hx l hl => ?_, fun x hx y hy l hxl hyl => ?_, fun x hx y hy hxy => ?_⟩
  · rcases Runs.mem_concat hx with hx | rfl
    · have hle := h.lsns x hx l hl
      omega
    · exact (hlsn l hl).le
  · rcases mem_append.mp hx with hx | hx <;> rcases mem_append.mp hy with hy | hy
    · exact h.lsn_inj x hx y hy l hxl hyl
    · cases mem_singleton.mp hy
      have hle := h.lsns x hx l hxl
      have heq := hlsn l hyl
      omega
    · cases mem_singleton.mp hx
      have hle := h.lsns y hy l hyl
      have heq := hlsn l hxl
      omega
    · rw [mem_singleton.mp hx, mem_singleton.mp hy]
  · rcases mem_append.mp hx with hx | hx <;> rcases mem_append.mp hy with hy | hy
    · exact h.tx_inj x hx y hy hxy
    · cases mem_singleton.mp hy
      exact absurd hxy (hfresh x hx)
    · cases mem_singleton.mp hx
      exact absurd hxy.symm (hfresh y hy)
    · rw [mem_singleton.mp hx, mem_singleton.mp hy]

/-- A node that takes the lead, or reopens in it, counts on above every id of its epoch. -/
def Act.IdSound (g : Group) : Act → Prop
  | .promote i => Above g.minted (g.nodes i)
  | .reopen i seq => i = g.leader → Above g.minted { g.nodes i with nextSeq := seq }
  | _ => True

theorem ensured_epoch (n : Node) (e : Nat) :
    (n.ensureXTxJournal e).epoch = some ((n.ensureXTxJournal e).epoch.getD 0) := by
  unfold Node.ensureXTxJournal
  split
  next hs =>
    obtain ⟨x, hx⟩ := isSome_iff_exists.mp hs
    simp [hx]
  next => rfl

section Unique

variable (h : Unique g)
include h

theorem Unique.ensured (he : g.newEpoch g.leader e = true) :
    Above g.minted ((g.nodes g.leader).ensureXTxJournal e) := by
  intro m hm hep
  unfold Node.ensureXTxJournal at hep ⊢
  split at hep
  next hs =>
    rw [if_pos hs]
    exact h.above m hm hep
  next hs =>
    have hnew : ¬ g.epochs.contains e = true := by
      simpa [Group.newEpoch, hs] using he
    cases hep
    exact absurd (contains_iff_mem.mpr (h.epochs m hm)) hnew

theorem Unique.noteEpoch (e : Nat) : Unique (g.noteEpoch e) :=
  ⟨h.distinct, fun m hm => mem_cons_of_mem _ (h.epochs m hm),
    fun i x hx => mem_cons_of_mem _ (h.noted i x hx), h.above, h.knows⟩

theorem Unique.ensured_noted (i e : Nat) :
    ∀ x, ((g.nodes i).ensureXTxJournal e).epoch = some x → x ∈ (g.noteEpoch e).epochs := by
  intro x hx
  unfold Node.ensureXTxJournal at hx
  split at hx
  next => exact mem_cons_of_mem _ (h.noted i x hx)
  next =>
    cases hx
    exact mem_cons_self

theorem Unique.set {n : Node} (hn : ∀ x, n.epoch = some x → x ∈ g.epochs)
    (hk : Knows g.minted n) (ha : i = g.leader → Above g.minted n) : Unique (g.set i n) := by
  refine ⟨h.distinct, h.epochs, fun j x hx => ?_, ?_, fun j => ?_⟩
  · by_cases hj : j = i
    · subst hj
      exact hn x (by simpa [Group.set] using hx)
    · exact h.noted j x (by simpa [Group.set, hj] using hx)
  · by_cases hi : g.leader = i
    · subst hi
      simpa [Group.set] using ha rfl
    · simpa [Group.set, hi] using h.above
  · by_cases hj : j = i
    · subst hj
      simpa [Group.set] using hk
    · simpa [Group.set, hj] using h.knows j

theorem Unique.commit (he : g.newEpoch g.leader e = true) {digest : String}
    {parts : List Disk.XTxPart} {published : Bool} : Unique (g.commit e digest parts published) := by
  have habove := h.ensured he
  have hnoted := h.ensured_noted g.leader e
  have hep := ensured_epoch (g.nodes g.leader) e
  have htable := ensure_table (g.nodes g.leader) e
  have hhas := ensure_has (g.nodes g.leader) e
  unfold Group.commit
  dsimp only
  generalize (g.nodes g.leader).ensureXTxJournal e = n at *
  generalize hm : Minted.mk g.minted.length n.txID (if published then some (g.lsn + 1) else none)
    digest parts = m
  have htx : m.tx = n.txID := by rw [← hm]
  have hserial : m.serial = g.minted.length := by rw [← hm]
  have hfresh : ∀ m' ∈ g.minted, m'.tx ≠ m.tx := by
    intro m' hm' heq
    rw [htx] at heq
    have hlt := habove m' hm' (by rw [heq]; exact hep)
    rw [heq] at hlt
    exact Nat.lt_irrefl _ hlt
  have hlsn : ∀ l, m.lsn = some l → l = g.lsn + 1 := by
    intro l hl
    cases published <;> simp [← hm] at hl
    exact hl.symm
  have hsub : ∀ x ∈ g.minted, x ∈ g.minted ++ [m] := fun x hx => mem_append_left _ hx
  have hlast : m ∈ g.minted ++ [m] := mem_append_right _ mem_cons_self
  refine ⟨h.distinct.mint hfresh hlsn, fun x hx => ?_, fun j x hx => ?_, ?_, fun j => ?_⟩
  · rcases mem_append.mp hx with hx | hx
    · exact mem_cons_of_mem _ (h.epochs x hx)
    · rw [mem_singleton.mp hx, htx]
      exact hnoted _ hep
  · by_cases hj : j = g.leader
    · subst hj
      exact hnoted x (by simpa [Group.set, Node.allocate, Node.record] using hx)
    · exact mem_cons_of_mem _ (h.noted j x (by simpa [Group.set, Group.noteEpoch, hj] using hx))
  · simp only [Group.set, Group.noteEpoch, update_self]
    intro x hx hxe
    show x.tx.seq < n.nextSeq + 1
    rcases mem_append.mp hx with hx | hx
    · exact Nat.lt_succ_of_lt (habove x hx hxe)
    · rw [mem_singleton.mp hx, htx]
      exact Nat.lt_succ_self _
  · by_cases hj : j = g.leader
    · subst hj
      simp only [Group.set, update_self]
      refine (h.knows g.leader).grow [⟨n.txID, true, parts, none⟩] hsub ?_ ?_ ?_ ?_
      · exact fun s hs => mem_append_left _ (hhas ▸ hs)
      · simp [Node.allocate, Node.record, htable]
      · intro d hd b hb
        cases mem_singleton.mp hd
        cases hb
      · intro d hd _ _
        cases mem_singleton.mp hd
        exact ⟨m, hlast, htx, mem_append_right _ (by rw [hserial]; exact mem_cons_self)⟩
    · simp only [Group.set, Group.noteEpoch, update_of_ne hj]
      exact (h.knows j).mono hsub

theorem Unique.abort (he : g.newEpoch g.leader e = true) (recorded : Bool) :
    Unique (g.abort e recorded) := by
  have habove := h.ensured he
  have hnoted := h.ensured_noted g.leader e
  have htable := ensure_table (g.nodes g.leader) e
  have hhas := ensure_has (g.nodes g.leader) e
  unfold Group.abort
  generalize (g.nodes g.leader).ensureXTxJournal e = n at *
  cases recorded with
  | false =>
    refine (h.noteEpoch e).set hnoted ((h.knows g.leader).same htable hhas) fun _ m hm hep => ?_
    exact Nat.lt_succ_of_lt (habove m hm hep)
  | true =>
    refine (h.noteEpoch e).set hnoted ?_ fun _ m hm hep => Nat.lt_succ_of_lt (habove m hm hep)
    refine (h.knows g.leader).grow [⟨n.txID, false, [], none⟩] (fun _ hm => hm)
      (fun s hs => hhas ▸ hs) (by simp [Node.allocate, Node.record, htable]) ?_ ?_
    · intro d hd b hb
      cases mem_singleton.mp hd
      cases hb
    · intro d hd hc
      cases mem_singleton.mp hd
      cases hc

theorem Unique.deliver (hi : i ≠ g.leader) (hm : m ∈ g.minted)
    (hl : m.lsn = some lsn) {present : Bool} (hs : g.deliver i e lsn m present = some g') :
    Unique g' := by
  have hskip : Unique (g.set i { g.nodes i with appliedLSN := lsn }) :=
    h.set (h.noted i) ((h.knows i).same rfl rfl) fun hc => absurd hc hi
  unfold Group.deliver at hs
  dsimp only at hs
  split at hs
  · cases hs
  · cases hs
    exact hskip
  · split at hs <;> cases hs
    · exact hskip
    · have hnoted := h.ensured_noted i e
      have htable := ensure_table (g.nodes i) e
      have hhas := ensure_has (g.nodes i) e
      unfold Node.apply
      generalize (g.nodes i).ensureXTxJournal e = n at *
      refine (h.noteEpoch e).set hnoted ?_ fun hc => absurd hc hi
      refine (h.knows i).grow [⟨n.txID, true, m.parts, some ⟨lsn, m.tx, m.digest⟩⟩]
        (fun _ hm => hm) (fun s hs => mem_append_left _ (hhas ▸ hs))
        (by simp [Node.allocate, Node.record, htable]) ?_ ?_
      · intro d hd b hb
        cases mem_singleton.mp hd
        cases hb
        exact ⟨m, hm, hl, rfl, mem_append_right _ mem_cons_self⟩
      · intro d hd _ hb
        cases mem_singleton.mp hd
        cases hb

theorem unique_step (hok : a.IdSound g) (hs : g.step a = some g') : Unique g' := by
  cases a with
  | entries k =>
    cases hs
    have hd : Distinct g.minted (g.lsn + k) :=
      ⟨fun m hm l hl => (h.distinct.lsns m hm l hl).trans (Nat.le_add_right _ _),
        h.distinct.lsn_inj, h.distinct.tx_inj⟩
    exact ⟨hd, h.epochs, h.noted, h.above, h.knows⟩
  | commit epoch digest parts published =>
    obtain ⟨he, rfl⟩ := Runs.guarded hs
    exact h.commit he
  | abort epoch recorded =>
    obtain ⟨he, rfl⟩ := Runs.guarded hs
    exact h.abort he recorded
  | reopen i seq =>
    obtain ⟨-, rfl⟩ := Runs.guarded hs
    exact h.set (h.noted i) ((h.knows i).same rfl rfl) hok
  | bootstrap i lsn =>
    obtain ⟨⟨hi, -⟩, rfl⟩ := Runs.guarded hs
    exact h.set (h.noted g.leader) ((h.knows g.leader).same rfl rfl) fun hc => absurd hc hi
  | deliver i k epoch present =>
    obtain ⟨m, hm, hs⟩ := bind_eq_some_iff.mp hs
    obtain ⟨lsn, hl, hs⟩ := bind_eq_some_iff.mp hs
    obtain ⟨⟨hi, -⟩, hs⟩ := ite_none_right_eq_some.mp hs
    exact h.deliver hi (mem_of_getElem? hm) hl hs
  | advance i lsn =>
    obtain ⟨⟨hi, -⟩, rfl⟩ := Runs.guarded hs
    exact h.set (h.noted i) ((h.knows i).same rfl rfl) fun hc => absurd hc hi
  | promote i =>
    obtain ⟨-, rfl⟩ := Runs.guarded hs
    exact ⟨h.distinct, h.epochs, h.noted, hok, h.knows⟩

end Unique

theorem unique_start : Unique Group.start :=
  ⟨⟨nofun, nofun, nofun⟩, nofun, nofun, nofun, fun _ => ⟨nofun, nofun⟩⟩

/-- In every run in which a node takes the lead, or reopens in it, above the ids of its epoch, no
two transactions have one id, and a node takes a transaction it does not have for a new one. -/
theorem txids_identify (hr : Runs.Reaches Group.step (fun g a => a.IdSound g) .start g) :
    (∀ m ∈ g.minted, ∀ m' ∈ g.minted, m.tx = m'.tx → m = m') ∧
      ∀ i, ∀ m ∈ g.minted, ∀ lsn, m.lsn = some lsn → m.serial ∉ (g.nodes i).has →
        (g.nodes i).identify lsn m = .proceed := by
  have h : Unique g := hr.invariant unique_start fun h hok hs => unique_step h hok hs
  refine ⟨h.distinct.tx_inj, fun i m hm lsn hl hnot => ?_⟩
  rcases identify_cases (g.nodes i) lsn m with hp | ⟨d, hd, b, hb, hor⟩ | ⟨d, hd, hc, hb, htx⟩
  · exact hp
  · obtain ⟨x, hx, hxl, hxt, hxs⟩ := (h.knows i).bound d hd b hb
    have heq : x = m := by
      rcases hor with hlsn | hlead
      · exact h.distinct.lsn_inj x hx m hm lsn (hlsn ▸ hxl) hl
      · exact h.distinct.tx_inj x hx m hm (hxt.trans hlead)
    exact absurd (heq ▸ hxs) hnot
  · obtain ⟨x, hx, hxt, hxs⟩ := (h.knows i).own d hd hc hb
    have heq : x = m := h.distinct.tx_inj x hx m hm (hxt.trans htx)
    exact absurd (heq ▸ hxs) hnot

instance (minted : List Minted) (n : Node) : Decidable (Above minted n) :=
  inferInstanceAs (Decidable (∀ m ∈ minted, n.epoch = some m.tx.epoch → m.tx.seq < n.nextSeq))

instance (g : Group) : ∀ a : Act, Decidable (a.IdSound g)
  | .promote i => inferInstanceAs (Decidable (Above g.minted (g.nodes i)))
  | .reopen i seq =>
    inferInstanceAs (Decidable (i = g.leader → Above g.minted { g.nodes i with nextSeq := seq }))
  | .entries _ | .commit _ _ _ _ | .abort _ _ | .bootstrap _ _ | .deliver _ _ _ _ | .advance _ _ =>
    isTrue trivial

def inStep : List Act :=
  [.commit 7 "d1" [⟨"c", 1, "p1"⟩] true, .bootstrap 1 1, .bootstrap 2 1,
   .commit 7 "d2" [⟨"c", 1, "p2"⟩] true, .deliver 1 1 7 false, .deliver 2 1 7 false, .promote 1,
   .commit 7 "d3" [⟨"c", 1, "p3"⟩] true]

theorem txids_identify_sample : ∃ g, Runs.run Group.step .start inStep = some g ∧
    g.minted.map Minted.tx = [⟨7, 1⟩, ⟨7, 2⟩, ⟨7, 3⟩] ∧
    (∀ m ∈ g.minted, ∀ m' ∈ g.minted, m.tx = m'.tx → m = m') ∧
      ∀ i, ∀ m ∈ g.minted, ∀ lsn, m.lsn = some lsn → m.serial ∉ (g.nodes i).has →
        (g.nodes i).identify lsn m = .proceed := by
  obtain ⟨g, hg, hr, htx⟩ := Runs.reached Group.step (fun g a => a.IdSound g) .start inStep
    (fun g => g.minted.map Minted.tx = [⟨7, 1⟩, ⟨7, 2⟩, ⟨7, 3⟩]) (by decide)
  exact ⟨g, hg, htx, txids_identify hr⟩

def outOfStep : List Act :=
  [.commit 7 "d1" [⟨"c", 1, "p1"⟩] true, .bootstrap 1 1, .bootstrap 2 1, .abort 7 true,
   .commit 7 "d2" [⟨"c", 1, "p2"⟩] true, .deliver 1 1 7 false, .deliver 2 1 7 false, .promote 1,
   .commit 7 "d3" [⟨"c", 1, "p3"⟩] true]

def outcome (i : Nat) (as : List Act) : Option (List TxID × Option (Bool × Verdict)) :=
  (Runs.run Group.step .start as).map fun g =>
    (g.minted.map Minted.tx, g.minted.getLast?.map fun m =>
      ((g.nodes i).has.contains m.serial, (g.nodes i).identify (m.lsn.getD 0) m))

/-- The new leader gives out the id of the second commit again, and the other follower reports that
the histories diverge. -/
theorem txid_published_twice : outcome 2 outOfStep =
    some ([⟨7, 1⟩, ⟨7, 3⟩, ⟨7, 3⟩], some (false, .divergence)) := by
  decide

end

end Scriva.TxIds
