import Scriva.CollectionInvariant

namespace Scriva

open KeyedLog List Option

def revOf (m : Index) (id : Nat) : Nat :=
  (m id).elim 0 IndexEntry.rev

def Outrun (rev : Nat → Nat) : List Entry → Prop
  | [] => True
  | e :: es => (e.op ≠ .delete → rev e.id < e.rev) ∧
      Outrun (Function.update rev e.id (if e.op = .delete then 0 else e.rev)) es

instance decidableOutrun : ∀ rev es, Decidable (Outrun rev es)
  | _, [] => inferInstanceAs (Decidable True)
  | rev, e :: es =>
    have := decidableOutrun (Function.update rev e.id (if e.op = .delete then 0 else e.rev)) es
    inferInstanceAs (Decidable (_ ∧ Outrun _ es))

theorem revOf_put (m : Index) (seg off : Nat) (e : Entry) :
    revOf (m.put seg off e) =
      Function.update (revOf m) e.id (if e.op = .delete then 0 else e.rev) := by
  funext id
  rw [put_eq]
  by_cases hid : id = e.id
  · subst hid
    by_cases hop : e.op = .delete <;> simp [revOf, hop]
  · simp [revOf, Function.update_of_ne hid]

theorem put_eq_applyOne {m : Index} {e : Entry} (seg off : Nat)
    (h : e.op ≠ .delete → revOf m e.id < e.rev) :
    m.put seg off e = applyOne m seg off e.persisted := by
  have hone : applyOne m seg off e.persisted = Function.update m e.id
      (if e.op = .delete then none else
        some { seg := seg, offset := off, rev := nextRev (revOf m e.id) e,
               expiresAt := e.expiresAt, epoch := e.epoch }) := by
    unfold applyOne
    cases hk : e.op <;> simp [Entry.persisted, hk, revOf, nextRev]
  rw [hone, put_eq]
  by_cases hop : e.op = .delete
  · simp only [hop, if_true]
  · have hlt := h hop
    have hrev : nextRev (revOf m e.id) e = e.rev := by unfold nextRev; omega
    rw [hrev]

theorem putRun_eq_replay {ls : List Line} {chs : List Change} (hc : Carry ls chs) {d : Decisions}
    (hv : ∀ l ∈ ls, l.toLogLine.visible d = true) (m : Index) (num off : Nat)
    (ho : Outrun (revOf m) (chs.map Change.entry)) :
    m.putRun num off ls chs = m.replay d (placed num off ls) := by
  induction hc generalizing m off with
  | nil => rfl
  | @cons l ch ls chs hl _ ih =>
    have hvl : Located.visible d ⟨num, off, l.toLogLine⟩ = true := hv l (by simp)
    rw [putRun_cons, placed_cons, replay_cons, if_pos hvl,
      ih (fun l hl => hv l (by simp [hl])) _ _ (by rw [revOf_put]; exact ho.2),
      put_eq_applyOne num off ho.1, ← hl]

structure IndexInv (s : Collection) : Prop where
  tracks : Tracks s
  index : s.index = Index.rebuild s.segments s.decisions

section Writes

variable {s s' : Collection} {ls : List Line} {chs : List Change}

theorem Wrote.rebuild (h : Wrote s ls chs s') (ha : Ascending s.segments) :
    Index.rebuild s'.segments s'.decisions =
      (Index.rebuild s.segments s.decisions).replay s'.decisions
        (placed s.active.num s.active.size ls) := by
  rw [rebuild_eq (h.ascending ha), rebuild_eq ha, h.located, replay_append]
  congr 1
  exact replay_congr fun x hx => h.before x.line (mem_located hx)

theorem Wrote.indexInv (h : Wrote s ls chs s') (hi : IndexInv s) (hc : Counts s chs s')
    (ho : Outrun (revOf s.index) (chs.map Change.entry)) : IndexInv s' := by
  refine ⟨h.tracks hi.tracks hc, ?_⟩
  rw [h.index, h.rebuild hi.tracks.ascending, ← hi.index]
  exact putRun_eq_replay h.carry h.visible _ _ _ ho

theorem IndexInv.frame (h : IndexInv s) {n : Nat} (hn : s.idSeq ≤ n) (xs : List SecondaryIndex)
    (now : Int) : IndexInv { s with idSeq := n, sidxs := xs, now := now } :=
  ⟨h.tracks.frame hn xs now, h.index⟩

end Writes

end Scriva
