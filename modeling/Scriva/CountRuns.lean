import Scriva.Counting

namespace Scriva.Counting

open Scanning KeyedLog JsonText List Option

section

variable {cfg : Config} {s t : Collection} {ls : List Line} {chs : List Change}

def Noted (s : Collection) (mayExpire : Bool) : Prop :=
  ∀ id loc, s.index id = some loc → loc.expiresAt ≠ 0 → mayExpire = true

theorem index_mem_ids (ha : Addressed s) {id : Nat} {loc : IndexEntry} (h : s.index id = some loc) :
    id ∈ s.ids := by
  obtain ⟨x, hx, -, -, hid, -⟩ := ha.sited id loc h
  exact mem_dedup.mpr (mem_map.mpr ⟨x.line, mem_located hx, hid⟩)

theorem noted_holds (ha : Addressed s) : Noted s (holdsDeadline s) := by
  intro id loc hloc hne
  refine any_eq_true.mpr ⟨id, index_mem_ids ha hloc, ?_⟩
  rw [hloc]
  simpa using hne

theorem Noted.or_left {m : Bool} (h : Noted s m) (n : Bool) : Noted s (m || n) := by
  intro id loc hloc hne
  rw [h id loc hloc hne]
  rfl

theorem Noted.or_right {m : Bool} (h : Noted s m) (n : Bool) : Noted s (n || m) := by
  rw [Bool.or_comm]
  exact h.or_left n

theorem Noted.appended {m : Bool} (h : Noted s m) (he : Appended s ls chs t) :
    Noted t (m || (t.log.drop s.log.length).any sets) := by
  intro id loc hloc hne
  rw [he.index] at hloc
  rcases putRun_sited he.carry hloc with hold | ⟨x, hx, ⟨-, -, -, hop⟩, hexp⟩
  · rw [h id loc hold hne]
    rfl
  · rw [Bool.or_eq_true]
    right
    rw [he.log, drop_left]
    obtain ⟨p, hp, rfl⟩ := mem_map.mp hx
    have hmem : p.2 ∈ ls := by
      rw [← withOffsets_map_snd s.active.size ls]
      exact mem_map_of_mem hp
    refine any_eq_true.mpr ⟨p.2.toLogLine, mem_map_of_mem hmem, ?_⟩
    have hne : p.2.entry.expiresAt ≠ 0 := hexp ▸ hne
    simp [sets, hop, hne]

theorem Noted.step {o : CollectionOp} {m : Bool} (hl : Latest t) (h : Noted s m)
    (hs : s.step cfg o = some t) (hopen : CollectionOp.isReopen o = false) :
    Noted t (m || if CollectionOp.isCompact o then holdsDeadline t
      else (t.log.drop s.log.length).any sets) := by
  by_cases hop : o.relays = false
  · obtain ⟨ls, chs, he⟩ := step_appended hop hs
    have hpass : CollectionOp.isCompact o = false := by
      cases o with
      | compact => cases hop
      | _ => rfl
    rw [hpass]
    exact h.appended he
  · cases o with
    | rotate =>
      cases hs
      exact Noted.or_left (fun id loc hloc hne => h id loc hloc hne) _
    | compact k at_ => exact (noted_holds hl.toAddressed).or_right m
    | reopen idSeq now => cases hopen
    | _ => exact absurd rfl hop

end

structure Counted.Sited (cfg : Config) (w : Counted) : Prop where
  ascending : Ascending w.col.segments
  nums : ∀ g ∈ w.col.segments, g.num ≤ w.col.segSeq
  clear : ∀ x ∈ w.col.sidxs, cfg.isEncryptedField x.field = false

structure Counted.Kept (cfg : Config) (w : Counted) : Prop extends Counted.Sited cfg w where
  sidx : w.up = true → SidxInv cfg true w.col
  latest : w.up = true → Latest w.col

/-- Every line of the files is there and decodes. -/
structure Counted.Whole (w : Counted) : Prop where
  damaged : w.damaged = []
  decodes : w.col.decodes = true

structure Counted.Inv (cfg : Config) (w : Counted) : Prop
    extends Counted.Kept cfg w, Counted.Whole w where
  noted : w.up = true → Noted w.col w.mayExpire

def Act.Keeps (cfg : Config) (w : Counted) : Act → Prop
  | .op o => o.SidxSound cfg true w.col ∧ (CollectionOp.isCompact o = true → w.damaged = [])
  | _ => True

section

variable {hash : Option Data → Nat} {cfg : Config} {w w' : Counted} {a : Act}

theorem Act.Sound.keeps (hw : w.Whole) (h : a.Sound cfg w) : a.Keeps cfg w := by
  cases a with
  | op o => exact ⟨h.1, fun _ => hw.damaged⟩
  | _ => trivial

theorem not_closed {P : Prop} (hdown : w.up = false) (hup : w.up = true) : P := by
  rw [hdown] at hup
  cases hup

theorem Counted.Sited.closed (h : w.Sited cfg) (hdown : w.up = false) : w.Kept cfg :=
  ⟨h, not_closed hdown, not_closed hdown⟩

theorem step_op {o : CollectionOp} (hpass : CollectionOp.isCompact o = true → w.damaged = [])
    (h : w.step hash cfg (.op o) = some w') : ∃ t, w.up = true ∧ CollectionOp.isReopen o = false ∧
      w.col.step cfg o = some t ∧
      w' = { w with
        col := t
        mayExpire := w.mayExpire || if CollectionOp.isCompact o then holdsDeadline t
          else (t.log.drop w.col.log.length).any sets } := by
  obtain ⟨hguard, h⟩ := ite_none_left_eq_some.mp h
  obtain ⟨hup, hopen⟩ := not_or.mp hguard
  have hserve : w.serve cfg o = some w' := by
    cases o with
    | compact k at_ =>
      have hnone : ¬ w.damaged ≠ [] := not_not.mpr (hpass rfl)
      have h : (if w.damaged ≠ [] then w.brokenPass cfg k at_
        else w.serve cfg (.compact k at_)) = some w' := h
      rw [if_neg hnone] at h
      exact h
    | _ => exact h
  obtain ⟨t, ht, hserve⟩ := bind_eq_some_iff.mp hserve
  obtain ⟨-, rfl⟩ := guard_some hserve
  exact ⟨t, by simpa using hup, by simpa using hopen, ht, rfl⟩

theorem reopened {t : Collection} {idSeq : Nat} {now : Int} (hi : w.Sited cfg)
    (h : w.col.reopen idSeq now = some t) : t.Opened ∧ t.segments = w.col.segments ∧
      t.index = w.col.rebuilt.index ∧ t.sidxs = w.col.rebuilt.sidxs := by
  obtain ⟨hids, rfl⟩ := guard_some h
  refine ⟨⟨hi.ascending, hi.nums, ?_, rfl, ?_⟩, rfl, rfl, rfl⟩
  · intro id hid
    exact of_decide_eq_true (all_eq_true.mp hids id hid)
  · intro x hx
    obtain ⟨y, -, rfl⟩ := mem_map.mp hx
    rfl

theorem step_reopen {idSeq : Nat} {now : Int} {how : Recovery} {loaded : Bool}
    (h : w.step hash cfg (.reopen idSeq now how loaded) = some w') : ∃ t,
      w.col.reopen idSeq now = some t ∧
      w' = { w with
        up := true
        col := t
        mayExpire := loaded || (decide (how ≠ .tolerant) && holdsDeadline t) } := by
  obtain ⟨-, h⟩ := guard_bind.mp h
  obtain ⟨t, ht, h⟩ := bind_eq_some_iff.mp h
  obtain ⟨-, h⟩ := guard_bind.mp h
  obtain ⟨-, rfl⟩ := guard_some h
  exact ⟨t, ht, rfl⟩

theorem kept_step (hi : w.Kept cfg) (hok : a.Keeps cfg w) (h : w.step hash cfg a = some w') :
    w'.Kept cfg := by
  cases a with
  | op o =>
    obtain ⟨t, hup, -, ht, rfl⟩ := step_op hok.2 h
    have hsidx := step_sidxInv (hi.sidx hup) hok.1 ht
    have hclear : ∀ x ∈ t.sidxs, cfg.isEncryptedField x.field = false := fun x hx =>
      hsidx.clear x.field (mem_map_of_mem (mem_filter.mpr ⟨hx, rfl⟩))
    exact ⟨⟨hsidx.tracks.ascending, hsidx.tracks.nums, hclear⟩, fun _ => hsidx,
      fun _ => step_latest (hi.latest hup) ht⟩
  | close =>
    obtain ⟨-, rfl⟩ := Runs.guarded h
    exact ⟨⟨hi.ascending, hi.nums, hi.clear⟩, nofun, nofun⟩
  | damage sealed active bad =>
    obtain ⟨⟨hup, hasc, -⟩, rfl⟩ := Runs.guarded h
    have hnums : ∀ g ∈ sealed ++ [active], g.num ≤ active.num := by
      intro g hg
      rcases mem_append.mp hg with hg | hg
      · exact ((pairwise_append.mp hasc).2.2 g hg active (by simp)).le
      · rw [mem_singleton.mp hg]
    have hsited : Counted.Sited cfg { w with
        col := { w.col with sealed := sealed, active := active, segSeq := active.num }
        damaged := bad } := ⟨hasc, hnums, hi.clear⟩
    exact hsited.closed hup
  | reopen idSeq now how loaded =>
    obtain ⟨t, ht, rfl⟩ := step_reopen h
    obtain ⟨hopened, -, -, hsidxs⟩ := reopened hi.toSited ht
    have hclear : ∀ x ∈ t.sidxs, cfg.isEncryptedField x.field = false := by
      intro x hx
      rw [hsidxs] at hx
      obtain ⟨y, hy, rfl⟩ := mem_map.mp hx
      exact hi.clear y hy
    refine ⟨⟨hopened.ascending, hopened.nums, hclear⟩, fun _ => ?_, fun _ => ?_⟩
    · refine ⟨hopened.indexInv.tracks, ?_, fun x hx => hopened.sidxs x (mem_filter.mp hx).1⟩
      intro f hf
      obtain ⟨x, hx, rfl⟩ := mem_map.mp hf
      exact hclear x (mem_filter.mp hx).1
    · exact .rebuilt hopened.addressed hopened.index

theorem reopened_deadlines {t : Collection} {idSeq : Nat} {now : Int} (hi : w.Sited cfg)
    (h : w.col.reopen idSeq now = some t) : holdsDeadline t = holdsDeadline w.col.rebuilt := by
  obtain ⟨-, hsegs, hindex, -⟩ := reopened hi h
  have hids : t.ids = w.col.rebuilt.ids := by
    unfold Collection.ids Collection.log
    rw [hsegs]
    rfl
  unfold holdsDeadline
  rw [hindex, hids]

theorem whole_step (hi : w.Inv cfg) (hok : a.Sound cfg w) (h : w.step hash cfg a = some w') :
    w'.Whole := by
  cases a with
  | op o =>
    obtain ⟨t, -, -, ht, rfl⟩ := step_op (fun _ => hi.damaged) h
    exact ⟨hi.damaged, hok.2 t ht⟩
  | close =>
    obtain ⟨-, rfl⟩ := Runs.guarded h
    exact ⟨hi.damaged, hi.decodes⟩
  | damage sealed active bad =>
    obtain ⟨-, rfl⟩ := Runs.guarded h
    exact ⟨hok.1, hok.2⟩
  | reopen idSeq now how loaded =>
    obtain ⟨t, ht, rfl⟩ := step_reopen h
    refine ⟨hi.damaged, ?_⟩
    show (logOf t.segments).all LogLine.decodes = true
    rw [(reopened hi.toSited ht).2.1]
    exact hi.decodes

theorem inv_step (hi : w.Inv cfg) (hok : a.Sound cfg w) (h : w.step hash cfg a = some w') :
    w'.Inv cfg := by
  have hkept := kept_step hi.toKept (hok.keeps hi.toWhole) h
  refine ⟨hkept, whole_step hi hok h, fun hup' => ?_⟩
  cases a with
  | op o =>
    obtain ⟨t, hup, hopen, ht, rfl⟩ := step_op (fun _ => hi.damaged) h
    exact (hi.noted hup).step (hkept.latest hup') ht hopen
  | close =>
    obtain ⟨-, rfl⟩ := Runs.guarded h
    cases hup'
  | damage sealed active bad =>
    obtain ⟨⟨hdown, -⟩, rfl⟩ := Runs.guarded h
    exact not_closed hdown hup'
  | reopen idSeq now how loaded =>
    obtain ⟨t, ht, rfl⟩ := step_reopen h
    have hnoted := noted_holds (reopened hi.toSited ht).1.addressed
    by_cases htol : how = .tolerant
    · -- A tolerant open looks for no deadline, and the condition says that there is none.
      subst htol
      rcases hok with hloaded | hnone
      · intro id loc _ _
        show (loaded || _) = true
        rw [hloaded]
        rfl
      · intro id loc hloc hne
        have := hnoted id loc hloc hne
        rw [reopened_deadlines hi.toSited ht, hnone] at this
        cases this
    · have hdec : decide (how ≠ .tolerant) = true := decide_eq_true htol
      show Noted t (loaded || (decide (how ≠ .tolerant) && holdsDeadline t))
      rw [hdec, Bool.true_and]
      exact hnoted.or_right loaded

end

section

variable {cfg : Config} {re : String → String → Bool}
  {ranges : Collection → FieldFilter → Option (List Nat)} {w : Counted} {keep : Data → Bool}

/-- Every unexpired record can be decrypted. -/
def Opens (cfg : Config) (s : Collection) : Prop :=
  ∀ k ∈ cfg.enc, ∀ id r, records s.decisions s.log id = some r →
    expired r.expiresAt s.now = false → (k.materialize r.data).isSome = true

end

instance decidableSound (cfg : Config) (w : Counted) : ∀ a : Act, Decidable (a.Sound cfg w)
  | .op o => inferInstanceAs (Decidable (o.SidxSound cfg true w.col ∧ o.Decodes cfg w.col))
  | .damage _ _ _ => inferInstanceAs (Decidable (_ = [] ∧ _ = true))
  | .close | .reopen _ _ .file _ | .reopen _ _ .rebuild _ => inferInstanceAs (Decidable True)
  | .reopen _ _ .tolerant _ => inferInstanceAs (Decidable (_ = true ∨ _ = false))

end Scriva.Counting
