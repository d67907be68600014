import Scriva.DecidedHistories
import Scriva.IndexMatchesLog
import Scriva.Lib.Runs

namespace Scriva

open List Option

/-- Inserts name ids that are free, and replicated writes carry revisions above those their ids
have. -/
def CollectionOp.IndexSound (s : Collection) : CollectionOp → Prop
  | .commitTx _ ops _ => s.InsertsUnused ops
  | .commitXTx _ ops _ => ∀ op ∈ ops, op.op = .insert → s.index op.id = none
  | .applyEntry e _ => e.op ≠ .delete → s.index e.id = none → e.rev ≠ 0
  | .applyReplicatedTx _ es _ => Outrun (revOf s.index) (es.filter fun e => !s.applied e)
  | _ => True

instance decidableIndexSound (s : Collection) : ∀ op : CollectionOp, Decidable (op.IndexSound s) := by
  rintro (_ | _ | _ | _) <;> dsimp only [CollectionOp.IndexSound] <;> infer_instance

def updatedIDs (ops : List TxOp) : List Nat :=
  (ops.filter fun op => op.kind == .update).map TxOp.id

def CollectionOp.updated (s : Collection) : CollectionOp → List Nat
  | .update id _ _ | .updateWithExpiry id _ _ _ => [id]
  | .updateByKey key _ r | .compareAndSwap key _ _ r => s.indexLookup key r.early
  | .upsert key _ r => (s.ensureIndex keyField true).indexLookup key r.early
  | .commitTx _ ops _ => updatedIDs ops
  | .commitXTx _ ops _ => (ops.filter fun op => op.op == .update).map XTxOp.id
  | _ => []

/-- What a write of one record writes. -/
def CollectionOp.written : CollectionOp → Option (Option Data)
  | .insert data _ _ | .update _ data _ | .updateWithExpiry _ data _ _ => some data
  | .insertWithKey key data _ | .updateByKey key data _ | .upsert key data _
  | .compareAndSwap key data _ _ => some (stampKey data key)
  | .delete .. | .deleteByKey .. => some none
  | _ => none

/-- The collection with the key index that an operation makes first. -/
def CollectionOp.base (s : Collection) : CollectionOp → Collection
  | .insertWithKey .. | .upsert .. => s.ensureIndex keyField true
  | .applyEntry e _ => s.ensureKeyIndexFor [e]
  | .applyReplicatedTx _ es _ => s.ensureKeyIndexFor es
  | _ => s

variable {cfg : Config} {s t : Collection}

theorem during_some {r : Readings} {next : Option Collection} (h : s.during r next = some t) :
    (s.now ≤ r.early ∧ r.early ≤ r.mid ∧ r.mid ≤ r.late) ∧
      ∃ u, next = some u ∧ t = { u with now := r.late } := by
  obtain ⟨htime, h⟩ := ite_none_right_eq_some.mp h
  obtain ⟨u, hu, rfl⟩ := map_eq_some_iff.mp h
  exact ⟨htime, u, hu, rfl⟩

theorem base_cases (s : Collection) (op : CollectionOp) :
    op.base s = s ∨ op.base s = s.ensureIndex keyField true := by
  have hfor : ∀ es, s.ensureKeyIndexFor es = s ∨
      s.ensureKeyIndexFor es = s.ensureIndex keyField true := by
    intro es
    unfold Collection.ensureKeyIndexFor
    split
    · exact .inr rfl
    · exact .inl rfl
  cases op with
  | insertWithKey | upsert => exact .inr rfl
  | applyEntry | applyReplicatedTx => exact hfor _
  | _ => exact .inl rfl

theorem base_eq (s : Collection) (op : CollectionOp) : ∃ xs, op.base s = { s with sidxs := xs } := by
  rcases base_cases s op with hs | hs
  · exact ⟨s.sidxs, hs⟩
  · rw [hs]
    exact ensureIndex_eq s keyField true

def CollectionOp.isFrame : CollectionOp → Bool
  | .tick .. | .reserveID | .ensureIndex .. | .dropIndex .. => true
  | _ => false

theorem step_frame {op : CollectionOp} (hop : op.isFrame = true) (h : s.step cfg op = some t) :
    ∃ n xs now, s.idSeq ≤ n ∧ s.now ≤ now ∧ t = { s with idSeq := n, sidxs := xs, now := now } := by
  cases op with
  | tick later =>
    obtain ⟨hle, rfl⟩ := Runs.guarded h
    exact ⟨_, _, later, le_rfl, hle, rfl⟩
  | reserveID =>
    cases h
    exact ⟨_, _, _, Nat.le_succ _, le_rfl, rfl⟩
  | ensureIndex field unique =>
    obtain ⟨-, rfl⟩ := Runs.barred h
    obtain ⟨xs, hxs⟩ := ensureIndex_eq s field unique
    exact ⟨_, xs, _, le_rfl, le_rfl, hxs⟩
  | dropIndex field =>
    obtain ⟨-, rfl⟩ := Runs.guarded h
    exact ⟨_, _, _, le_rfl, le_rfl, rfl⟩
  | _ => cases hop

theorem step_single {op : CollectionOp} {data : Option Data} (hop : op.written = some data)
    (h : s.step cfg op = some t) : ∃ r x u, WroteTo (op.events s) cfg (op.base s) r x data u ∧
      t = { u with now := r.late } := by
  have hout : ∀ {r next}, s.during r next = some t →
      (∀ {u}, next = some u → ∃ x, WroteTo (op.events s) cfg (op.base s) r x data u) →
      ∃ r x u, WroteTo (op.events s) cfg (op.base s) r x data u ∧ t = { u with now := r.late } := by
    intro r next hnext hwrote
    obtain ⟨-, u, hu, ht⟩ := during_some hnext
    obtain ⟨x, hw⟩ := hwrote hu
    exact ⟨r, x, u, hw, ht⟩
  cases op <;> cases hop
  case insert.refl => exact hout h fun hu => ⟨none, insert_to none (guard_bind.mp hu).2⟩
  case insertWithKey.refl => exact hout h fun hu => ⟨none, insertWithKey_to hu⟩
  case update.refl => exact hout h fun hu => ⟨none, update_to (guard_bind.mp hu).2⟩
  case updateWithExpiry.refl => exact hout h fun hu => ⟨_, update_to (guard_bind.mp hu).2⟩
  case delete.refl => exact hout h fun hu => ⟨none, delete_to none none hu⟩
  case updateByKey.refl => exact hout h fun hu => ⟨none, updateByKey_to hu⟩
  case deleteByKey.refl => exact hout h fun hu => ⟨none, deleteByKey_to hu⟩
  case upsert.refl => exact hout h fun hu => ⟨none, upsert_to hu⟩
  case compareAndSwap.refl => exact hout h fun hu => ⟨none, compareAndSwap_to hu⟩

end Scriva
