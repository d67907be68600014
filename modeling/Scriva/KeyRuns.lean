import Scriva.KeyBatches
import Scriva.SidxRuns

namespace Scriva

open List Option

/-- Checks see what is stored (`SidxSound`); a batch names keys as strings and with an index there;
a plain index replaces the key index only if there is one; a new deadline does not bring an expired
record back past the check on its key; and the clock of a new process is not behind. -/
def CollectionOp.KeySound (cfg : Config) (s : Collection) (op : CollectionOp) : Prop :=
  op.SidxSound cfg false s ∧
  match op with
  | .updateWithExpiry id data _ r =>
    s.sidxCheckUnique id (s.preserveReserved id data) r.late = true
  | .commitTx _ ops r =>
    (∀ op ∈ ops, op.kind ≠ .delete → Keyed s op.data) ∧
      ∀ op ∈ ops, op.kind = .update → ¬ Undeleted ops op.id → s.live op.id r.late = true
  | .commitXTx _ ops r =>
    (∀ op ∈ ops, op.op ≠ .delete → Keyed s op.data) ∧
      ∀ op ∈ ops, op.op = .update → op.expiresAt ≠ 0 → s.live op.id r.late = true
  | .ensureIndex f unique =>
    f = keyField → unique = true ∨ (s.sidx keyField).isSome = true
  | .reopen _ now => s.now ≤ now
  | _ => True

instance (s : Collection) (data : Option Data) : Decidable (Keyed s data) :=
  inferInstanceAs (Decidable (∀ v ∈ (data.getD []).get keyField, _))

instance (batch : List TxOp) (id : Nat) : Decidable (Undeleted batch id) :=
  inferInstanceAs (Decidable (∀ op ∈ batch, _))

instance decidableKeySound (cfg : Config) (s : Collection) :
    ∀ op : CollectionOp, Decidable (op.KeySound cfg s) := by
  rintro (_ | _ | _ | _) <;> dsimp only [CollectionOp.KeySound] <;> infer_instance

section

variable {cfg : Config} {guarded : List String} {s t : Collection} {now next : Int}

variable {f key : String} {r : Readings}

theorem ensureIndex_mem {unique : Bool} {x : SecondaryIndex} (hx : x ∈ s.sidxs) :
    x ∈ (s.ensureIndex f unique).sidxs := by
  unfold Collection.ensureIndex
  split
  · exact hx
  · exact mem_append_left _ hx

theorem ensureIndex_created (unique : Bool) (h : (s.sidx f).isNone = true) :
    ∃ y ∈ (s.ensureIndex f unique).sidxs, y.field = f ∧ y.unique = unique := by
  have hnone : ¬ (s.sidx f).isSome = true := by simpa using h
  rw [Collection.ensureIndex, if_neg hnone]
  exact ⟨_, mem_append_right _ (mem_singleton.mpr rfl), rfl, rfl⟩

section Kept

variable (hi : KeyInv cfg guarded s now)
include hi

theorem KeyInv.later (hle : now ≤ next) :
    KeyInv cfg guarded s next :=
  ⟨hi.sidx, hi.keyIndex, fun id v hv => hi.strings id v (carried_earlier hle hv), hi.indexes,
    fun f hf => (hi.distinct f hf).later hle⟩

theorem KeyInv.same (ht : SidxInv cfg false t)
    (hr : records t.decisions t.log = records s.decisions s.log)
    (hkey : ∀ y ∈ t.sidxs, y.field = keyField → y.unique = true) {guarded' : List String}
    (hix : ∀ f ∈ guarded', ∃ y ∈ t.sidxs, y.field = f ∧ y.unique = true)
    (hd : ∀ f ∈ guarded', f ∈ guarded ∨ s.Distinct f now) : KeyInv cfg guarded' t now := by
  have hcarried : ∀ f id, t.carried f now id = s.carried f now id := by
    intro f id
    unfold Collection.carried
    rw [hr]
  refine ⟨ht, hkey, fun id v hv => hi.strings id v (hcarried keyField id ▸ hv), hix,
    fun f hf i j v hvi hvj => ?_⟩
  have hs : s.Distinct f now := by
    rcases mem_cons.mp hf with rfl | hf
    · exact hi.distinct keyField (by simp)
    · rcases hd f hf with hf | hf
      · exact hi.distinct f (by simp [hf])
      · exact hf
  exact hs i j v (hcarried f i ▸ hvi) (hcarried f j ▸ hvj)

theorem KeyInv.ensureIndex {unique : Bool}
    (hclear : cfg.isEncryptedField f = false)
    (hkey : f = keyField → unique = true ∨ (s.sidx keyField).isSome = true) {guarded' : List String}
    (hix : ∀ f' ∈ guarded', f' ∈ guarded ∨
      f' = f ∧ unique = true ∧ (s.sidx f).isNone = true ∧ s.Distinct f now) :
    KeyInv cfg guarded' (s.ensureIndex f unique) now := by
  obtain ⟨xs, hxs⟩ := ensureIndex_eq s f unique
  refine hi.same (hi.sidx.ensureIndex hclear unique) (by rw [hxs]; rfl) (fun y hy hyf => ?_)
    (fun f' hf => ?_) fun f' hf => ?_
  · unfold Collection.ensureIndex at hy
    split at hy
    · exact hi.keyIndex y hy hyf
    · next hnone =>
      rcases Runs.mem_concat hy with hy | rfl
      · exact hi.keyIndex y hy hyf
      · have hyf : f = keyField := hyf
        rcases hkey hyf with hu | hsome
        · exact hu
        · exact (hnone (hyf ▸ hsome)).elim
  · rcases hix f' hf with hf | ⟨rfl, hu, hnone, -⟩
    · obtain ⟨x, hx, hxf, hxu⟩ := hi.indexes f' hf
      exact ⟨x, ensureIndex_mem hx, hxf, hxu⟩
    · obtain ⟨y, hy, hyf, hyu⟩ := ensureIndex_created unique hnone
      exact ⟨y, hy, hyf, hyu.trans hu⟩
  · rcases hix f' hf with hf | ⟨rfl, -, -, hd⟩
    · exact Or.inl hf
    · exact Or.inr hd

theorem KeyInv.ensureKey :
    KeyInv cfg guarded (s.ensureIndex keyField true) now :=
  hi.ensureIndex (key_clear cfg) (fun _ => Or.inl rfl) fun _ => Or.inl

theorem KeyInv.dropIndex (h : s.dropIndex f = some t) :
    KeyInv cfg (guarded.filter (· != f)) t now := by
  have hs := hi.sidx.dropIndex h
  obtain ⟨-, rfl⟩ := Runs.guarded h
  refine hi.same hs rfl (fun y hy => hi.keyIndex y (mem_filter.mp hy).1) (fun f' hf => ?_)
    fun f' hf => Or.inl (mem_filter.mp hf).1
  obtain ⟨hf, hne⟩ := mem_filter.mp hf
  obtain ⟨x, hx, rfl, hxu⟩ := hi.indexes f' hf
  exact ⟨x, mem_filter.mpr ⟨hx, hne⟩, rfl, hxu⟩

theorem KeyInv.reopen {idSeq : Nat} {clock : Int}
    (h : s.reopen idSeq clock = some t) : KeyInv cfg guarded t now := by
  have hs := hi.sidx.reopen h
  obtain ⟨-, rfl⟩ := guard_some h
  refine hi.same hs rfl (fun y hy => ?_) (fun f hf => ?_) fun _ => Or.inl
  · obtain ⟨x, hx, rfl⟩ := mem_map.mp hy
    exact hi.keyIndex x hx
  · obtain ⟨x, hx, hxf, hxu⟩ := hi.indexes f hf
    exact ⟨_, mem_map_of_mem hx, hxf, hxu⟩

theorem KeyInv.base (op : CollectionOp) : KeyInv cfg guarded (op.base s) now := by
  rcases base_cases s op with hs | hs
  · rw [hs]
    exact hi
  · rw [hs]
    exact hi.ensureKey

end Kept

end

section

variable {cfg : Config} {guarded : List String} {s t : Collection}

variable {op : CollectionOp}

theorem KeyInv.during {r : Readings} {next : Option Collection} (hs : SidxInv cfg false t)
    (hn : ∀ {u}, s.now ≤ r.late → SidxInv cfg false u → next = some u →
      KeyInv cfg guarded u r.late)
    (h : s.during r next = some t) : KeyInv cfg guarded t t.now := by
  obtain ⟨⟨hearly, hmid, hlate⟩, u, hu, rfl⟩ := during_some h
  have hsu : SidxInv cfg false u := hs.frame (le_refl _) u.now
  exact (hn (hearly.trans (hmid.trans hlate)) hsu hu).frame (le_refl _) r.late

end

def takenOver : List CollectionOp :=
  [.insertWithKey "k" none (readingsAt 1), .insertWithKey "k" none (readingsAt 20)]

end Scriva
