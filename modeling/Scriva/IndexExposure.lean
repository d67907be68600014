import Scriva.Encryption
import Scriva.SidxRuns

namespace Scriva.Encryption

open List
open Option (map_eq_some_iff bind_eq_some_iff ite_none_right_eq_some ite_none_left_eq_some)

/-- A collection with its policy, the files of its secondary indexes and the calls under way. -/
structure Node where
  col : Collection
  admin : Admin
  files : List SecondaryIndex
  /-- The calls of `EnsureIndex` that have passed their look at the policy. -/
  checked : List (String × Bool)
  copies : List SecondaryIndex
  /-- The calls of `DropIndex` that have yet to remove the file. -/
  dropping : List String

def isOwn : CollectionOp → Bool
  | .ensureIndex .. | .dropIndex .. | .reopen .. => false
  | _ => true

def AdminAct.isReopen : AdminAct → Bool
  | .reopen .. => true
  | _ => false

inductive Act where
  | op (enc : Option Encryptor) (o : CollectionOp)
  | check (field : String) (unique : Bool)
  | build (field : String) (unique saved : Bool)
  | abandon (field : String) (unique : Bool)
  | copy
  | save (i : Nat)
  | drop (field : String)
  | remove (field : String) (removed : Bool)
  | admin (act : AdminAct)
  | reopen (hasKeys : Bool) (config : Option Policy) (idSeq : Nat) (now : Int)

def saveFile (x : SecondaryIndex) (files : List SecondaryIndex) : List SecondaryIndex :=
  x :: files.filter fun y => y.field != x.field

section

variable (collection : String) (sealer : Encryptor → Scriva.Encryptor) (base : Config)

/-- One atomic piece of a call. `EnsureIndex` looks at the policy before it takes the lock under
which it builds and saves the index; a policy change writes its block and is in effect later;
`DropIndex` removes the file last, and does not ask whether that worked. -/
def Node.step (n : Node) : Act → Option Node
  | .op enc o =>
    if enc ∈ n.admin.loaded ∧ isOwn o then
      (n.col.step { base with enc := enc.map sealer } o).map fun col => { n with col := col }
    else none
  | .check field unique =>
    if (n.admin.enc.map fun e => e.isEncryptedField field) = some true then none
    else some { n with checked := (field, unique) :: n.checked }
  | .build field unique saved =>
    if (field, unique) ∈ n.checked then
      let col := n.col.ensureIndex field unique
      let x := (SecondaryIndex.empty field unique).rebuild n.col.segments n.col.decisions
      some { n with
        col := col
        checked := n.checked.erase (field, unique)
        files := if saved ∧ (n.col.sidx field).isNone then saveFile x n.files else n.files }
    else none
  | .abandon field unique => some { n with checked := n.checked.erase (field, unique) }
  | .copy => some { n with copies := n.col.sidxs ++ n.copies }
  | .save i =>
    n.copies[i]?.bind fun x =>
      if (n.col.sidx x.field).isSome then some { n with files := saveFile x n.files } else none
  | .drop field =>
    (n.col.dropIndex field).map fun col => { n with col := col, dropping := field :: n.dropping }
  | .remove field removed =>
    if field ∈ n.dropping then
      some { n with
        dropping := n.dropping.erase field
        files := if removed then n.files.filter fun x => x.field != field else n.files }
    else none
  | .admin act =>
    if act.isReopen then none
    else (n.admin.step collection act).map fun admin => { n with admin := admin }
  | .reopen hasKeys config idSeq now =>
    (n.admin.step collection (.reopen hasKeys config)).bind fun admin =>
      (Collection.reopen { n.col with sidxs := n.files } idSeq now).map fun col =>
        { n with col := col, admin := admin, checked := [], copies := [], dropping := [] }

end

def Node.fresh (col : Collection) (hasKeys : Bool) : Node :=
  { col := { col with sidxs := [] }, admin := .fresh hasKeys, files := [], checked := [],
    copies := [], dropping := [] }

def Node.fields (n : Node) : List String :=
  (n.col.sidxs ++ n.files).map SecondaryIndex.field

def Node.mayIndex (n : Node) : List String :=
  n.fields ++ n.checked.map Prod.fst

/-- A policy takes effect only while no index is, or is about to be, on a field it encrypts. -/
def Node.Clears (collection : String) (n : Node) : Act → Prop
  | .admin .store => ∀ e ∈ n.admin.changing, ∀ f ∈ n.mayIndex, e.isEncryptedField f = false
  | .reopen hasKeys config _ _ =>
    ∀ enc ∈ initEncryption collection hasKeys n.admin.block config, ∀ e ∈ enc,
      ∀ f ∈ n.files.map SecondaryIndex.field, e.isEncryptedField f = false
  | _ => True

def Node.Remembers (n : Node) : Act → Prop
  | .check f _ => ∀ p ∈ n.admin.past, p.isEncryptedField f = false
  | _ => True

instance decidableClears (collection : String) (n : Node) : ∀ a, Decidable (n.Clears collection a) := by
  rintro (_ | _ | _ | _ | _ | _ | _ | _ | (_ | _ | _ | _) | _) <;> dsimp only [Node.Clears] <;>
    infer_instance

instance decidableRemembers (n : Node) : ∀ a, Decidable (n.Remembers a) := by
  rintro (_ | _) <;> dsimp only [Node.Remembers] <;> infer_instance

section Fields

variable {cfg : Config} {s t : Collection} {r : Readings}

theorem fields_true (s : Collection) : s.fields true = s.sidxs.map SecondaryIndex.field := by
  simp [Collection.fields, Collection.watched]

theorem ensureIndex_fields (s : Collection) (field : String) (unique : Bool) :
    (s.ensureIndex field unique).fields true ⊆ field :: s.fields true := by
  unfold Collection.ensureIndex
  split
  · exact subset_cons_self _ _
  · intro f hf
    rw [fields_true] at hf ⊢
    rw [map_append, mem_append, map_singleton, mem_singleton] at hf
    rcases hf with hf | hf
    · exact mem_cons_of_mem _ hf
    · rw [hf]
      exact mem_cons_self

def OnlyKey (s t : Collection) : Prop :=
  t.fields true ⊆ keyField :: s.fields true

theorem OnlyKey.same (h : t.fields true = s.fields true) : OnlyKey s t := by
  unfold OnlyKey
  rw [h]
  exact subset_cons_self _ _

theorem rebuilt_fields (s : Collection) : s.rebuilt.fields true = s.fields true := by
  rw [fields_true, fields_true, Collection.rebuilt, map_map]
  exact map_congr_left fun _ _ => rfl

theorem onlyKey_appended {op : CollectionOp} {ls : List Line} {chs : List Change}
    (ha : Appended s ls chs t)
    (hx : t.sidxs = (op.base s).sidxs.map fun x => chs.foldl SecondaryIndex.put x) :
    OnlyKey s t := by
  unfold OnlyKey
  rw [(ha.base hx).fields]
  rcases base_cases s op with hs | hs
  · rw [hs]
    exact subset_cons_self _ _
  · rw [hs]
    exact ensureIndex_fields s keyField true

theorem step_onlyKey {op : CollectionOp} (ho : isOwn op = true) (h : s.step cfg op = some t) :
    OnlyKey s t := by
  have hself : OnlyKey s s := .same rfl
  rcases op.kinds with hk | hk | hk | hk | ⟨k, at_, rfl⟩
  · cases op with
    | reserveID | rotate =>
      cases h
      exact hself
    | reopen => cases ho
    | _ => cases hk
  · obtain ⟨ls, chs, hw⟩ := step_locally hk h
    exact onlyKey_appended hw.toAppended hw.sidxs
  · obtain ⟨ls, ha, hx, -⟩ := step_replicated hk h
    exact onlyKey_appended ha hx
  · cases op with
    | tick | decideElsewhere =>
      obtain ⟨-, rfl⟩ := Runs.guarded h
      exact hself
    | ensureIndex | dropIndex => cases ho
    | _ => cases hk
  · obtain ⟨segs, -, rfl, -⟩ := compact_spec h
    exact .same (rebuilt_fields _)

end Fields

section Runs

variable {collection : String} {sealer : Encryptor → Scriva.Encryptor} {base : Config}
  {n n' : Node} {a : Act}

variable {f : String}

theorem mem_fields :
    f ∈ n.fields ↔ f ∈ n.col.fields true ∨ f ∈ n.files.map SecondaryIndex.field := by
  rw [Node.fields, map_append, mem_append, fields_true]

theorem mem_mayIndex :
    f ∈ n.mayIndex ↔ f ∈ n.col.fields true ∨ f ∈ n.files.map SecondaryIndex.field ∨
      f ∈ n.checked.map Prod.fst := by
  rw [Node.mayIndex, mem_append, mem_fields, or_assoc]

theorem saveFile_fields {x : SecondaryIndex} {files : List SecondaryIndex}
    (h : f ∈ (saveFile x files).map SecondaryIndex.field) :
    f = x.field ∨ f ∈ files.map SecondaryIndex.field := by
  rcases mem_cons.mp h with h | h
  · exact Or.inl h
  · exact Or.inr (map_subset _ (filter_subset_self _) h)

theorem sidx_field {s : Collection} (h : (s.sidx f).isSome = true) : f ∈ s.fields true := by
  obtain ⟨x, hx⟩ := Option.isSome_iff_exists.mp h
  rw [fields_true]
  have hf : x.field = f := by simpa using List.find?_some hx
  rw [← hf]
  exact mem_map_of_mem (mem_of_find?_eq_some hx)

theorem reopen_mayIndex {hasKeys : Bool} {config : Option Policy} {idSeq : Nat} {now : Int}
    (h : n.step collection sealer base (.reopen hasKeys config idSeq now) = some n')
    (hf : f ∈ n'.mayIndex) : f ∈ n.files.map SecondaryIndex.field := by
  obtain ⟨admin, -, h⟩ := bind_eq_some_iff.mp h
  obtain ⟨col, hcol, rfl⟩ := map_eq_some_iff.mp h
  obtain ⟨-, rfl⟩ := guard_some hcol
  rcases mem_mayIndex.mp hf with hf | hf | hf
  · rw [rebuilt_fields, fields_true] at hf
    exact hf
  · exact hf
  · cases hf

theorem mayIndex_step (h : n.step collection sealer base a = some n') (hf : f ∈ n'.mayIndex) :
    f ∈ n.mayIndex ∨ f = keyField ∨ ∃ unique, a = .check f unique := by
  rw [mem_mayIndex] at hf ⊢
  cases a with
  | op enc o =>
    obtain ⟨⟨-, ho⟩, h⟩ := ite_none_right_eq_some.mp h
    obtain ⟨col, hcol, rfl⟩ := map_eq_some_iff.mp h
    rcases hf with hf | hf
    · rcases mem_cons.mp (step_onlyKey ho hcol hf) with hf | hf
      · exact Or.inr (Or.inl hf)
      · exact Or.inl (Or.inl hf)
    · exact Or.inl (Or.inr hf)
  | check field unique =>
    obtain ⟨-, rfl⟩ := Runs.barred h
    rcases hf with hf | hf | hf
    · exact Or.inl (Or.inl hf)
    · exact Or.inl (Or.inr (Or.inl hf))
    · rcases mem_cons.mp hf with rfl | hf
      · exact Or.inr (Or.inr ⟨unique, rfl⟩)
      · exact Or.inl (Or.inr (Or.inr hf))
  | build field unique saved =>
    obtain ⟨hin, h⟩ := ite_none_right_eq_some.mp h
    have hchecked : field ∈ n.checked.map Prod.fst := mem_map_of_mem hin
    cases h
    refine Or.inl ?_
    rcases hf with hf | hf | hf
    · rcases mem_cons.mp (ensureIndex_fields n.col field unique hf) with rfl | hf
      · exact Or.inr (Or.inr hchecked)
      · exact Or.inl hf
    · dsimp only at hf
      split at hf
      · rcases saveFile_fields hf with rfl | hf
        · exact Or.inr (Or.inr hchecked)
        · exact Or.inr (Or.inl hf)
      · exact Or.inr (Or.inl hf)
    · exact Or.inr (Or.inr (map_subset _ erase_subset hf))
  | abandon field unique =>
    cases h
    refine Or.inl (hf.imp_right (Or.imp_right fun hf => ?_))
    exact map_subset _ erase_subset hf
  | copy =>
    cases h
    exact Or.inl hf
  | save i =>
    obtain ⟨x, -, h⟩ := bind_eq_some_iff.mp h
    obtain ⟨hlive, rfl⟩ := Runs.guarded h
    refine Or.inl ?_
    rcases hf with hf | hf | hf
    · exact Or.inl hf
    · rcases saveFile_fields hf with rfl | hf
      · exact Or.inl (sidx_field hlive)
      · exact Or.inr (Or.inl hf)
    · exact Or.inr (Or.inr hf)
  | drop field =>
    obtain ⟨col, hcol, rfl⟩ := map_eq_some_iff.mp h
    obtain ⟨-, rfl⟩ := Runs.guarded hcol
    refine Or.inl (hf.imp_left fun hf => ?_)
    rw [fields_true] at hf ⊢
    exact map_subset _ (filter_subset_self _) hf
  | remove field removed =>
    obtain ⟨-, rfl⟩ := Runs.guarded h
    refine Or.inl (hf.imp_right (Or.imp_left fun hf => ?_))
    dsimp only at hf
    split at hf
    · exact map_subset _ (filter_subset_self _) hf
    · exact hf
  | admin act =>
    obtain ⟨-, h⟩ := ite_none_left_eq_some.mp h
    obtain ⟨admin, -, rfl⟩ := map_eq_some_iff.mp h
    exact Or.inl hf
  | reopen hasKeys config idSeq now =>
    refine Or.inl (Or.inr (Or.inl ?_))
    exact reopen_mayIndex h (mem_mayIndex.mpr hf)

theorem admin_step (h : n.step collection sealer base a = some n') :
    n'.admin = n.admin ∨ ∃ act, n.admin.step collection act = some n'.admin ∧
      (a = .admin act ∧ n'.mayIndex = n.mayIndex ∧ act.isReopen = false ∨
        ∃ hasKeys config idSeq now, act = .reopen hasKeys config ∧
          a = .reopen hasKeys config idSeq now) := by
  cases a with
  | op enc o =>
    obtain ⟨-, h⟩ := ite_none_right_eq_some.mp h
    obtain ⟨col, -, rfl⟩ := map_eq_some_iff.mp h
    exact Or.inl rfl
  | check field unique =>
    obtain ⟨-, rfl⟩ := Runs.barred h
    exact Or.inl rfl
  | build field unique saved =>
    obtain ⟨-, rfl⟩ := Runs.guarded h
    exact Or.inl rfl
  | abandon field unique | copy =>
    cases h
    exact Or.inl rfl
  | save i =>
    obtain ⟨x, -, h⟩ := bind_eq_some_iff.mp h
    obtain ⟨-, rfl⟩ := Runs.guarded h
    exact Or.inl rfl
  | drop field =>
    obtain ⟨col, -, rfl⟩ := map_eq_some_iff.mp h
    exact Or.inl rfl
  | remove field removed =>
    obtain ⟨-, rfl⟩ := Runs.guarded h
    exact Or.inl rfl
  | admin act =>
    obtain ⟨hact, h⟩ := ite_none_left_eq_some.mp h
    obtain ⟨admin, hadmin, rfl⟩ := map_eq_some_iff.mp h
    exact Or.inr ⟨act, hadmin, Or.inl ⟨rfl, rfl, by simpa using hact⟩⟩
  | reopen hasKeys config idSeq now =>
    obtain ⟨admin, hadmin, h⟩ := bind_eq_some_iff.mp h
    obtain ⟨col, -, rfl⟩ := map_eq_some_iff.mp h
    exact Or.inr ⟨.reopen hasKeys config, hadmin, Or.inr ⟨hasKeys, config, idSeq, now, rfl, rfl⟩⟩

theorem sound_step (hi : n.admin.Sound) (h : n.step collection sealer base a = some n') :
    n'.admin.Sound := by
  rcases admin_step h with hsame | ⟨act, hact, -⟩
  · rw [hsame]
    exact hi
  · exact (hi.step hact).1

theorem enc_step (hi : n.admin.Sound) (h : n.step collection sealer base a = some n') :
    (n'.admin.enc = n.admin.enc ∧ n'.admin.past = n.admin.past) ∨
      n'.admin.past = (n'.admin.enc.map Encryptor.writePolicy).toList ++ n.admin.past ∧
        (n.Clears collection a →
          ∀ e ∈ n'.admin.enc, ∀ f ∈ n'.mayIndex, e.isEncryptedField f = false) := by
  rcases admin_step h with hsame | ⟨act, hact, hwhich⟩
  · rw [hsame]
    exact Or.inl ⟨rfl, rfl⟩
  · rcases hwhich with ⟨rfl, hfields, hne⟩ | ⟨hasKeys, config, idSeq, now, rfl, rfl⟩
    · cases act with
      | setPolicy policy =>
        obtain ⟨-, henc, -, hpast⟩ := hi.change (fun e he => setEncryptionPolicy_installed he) hact
        exact Or.inl ⟨henc, hpast⟩
      | rotateKey =>
        obtain ⟨-, hact⟩ := ite_none_right_eq_some.mp hact
        obtain ⟨e, -, hact⟩ := map_eq_some_iff.mp hact
        rw [← hact]
        exact Or.inl ⟨rfl, rfl⟩
      | store =>
        obtain ⟨e, he, hact⟩ := map_eq_some_iff.mp hact
        rw [← hact, hfields]
        refine Or.inr ⟨rfl, fun hok d hd f hf => ?_⟩
        cases hd
        exact hok e he f hf
      | reopen hasKeys config => cases hne
    · obtain ⟨enc, henc, hact⟩ := map_eq_some_iff.mp hact
      rw [← hact]
      exact Or.inr ⟨rfl, fun hok d hd f hf => hok enc henc d hd f (reopen_mayIndex h hf)⟩

theorem unindexed_step {p : Policy} (hkey : p.isEncryptedField keyField = false)
    (hi : ∀ f ∈ n.mayIndex, p.isEncryptedField f = false)
    (hask : ∀ f unique, a = .check f unique → p.isEncryptedField f = false)
    (h : n.step collection sealer base a = some n') : ∀ f ∈ n'.mayIndex, p.isEncryptedField f = false := by
  intro f hf
  rcases mayIndex_step h hf with hf | rfl | ⟨unique, ha⟩
  · exact hi f hf
  · exact hkey
  · exact hask f unique ha

theorem check_asks {unique : Bool} {e : Encryptor} (he : n.admin.enc = some e)
    (h : n.step collection sealer base (.check f unique) = some n') :
    e.isEncryptedField f = false := by
  obtain ⟨hne, -⟩ := ite_none_left_eq_some.mp h
  rw [he] at hne
  simpa using hne

theorem current_step (hs : n.admin.Sound)
    (hi : ∀ e ∈ n.admin.enc, ∀ f ∈ n.mayIndex, e.isEncryptedField f = false)
    (hok : n.Clears collection a) (h : n.step collection sealer base a = some n') :
    ∀ e ∈ n'.admin.enc, ∀ f ∈ n'.mayIndex, e.isEncryptedField f = false := by
  rcases enc_step hs h with ⟨hsame, -⟩ | ⟨-, hnew⟩
  · intro e he
    rw [hsame] at he
    refine unindexed_step (hs.proper e (Or.inr (Or.inl he))).key (hi e he) (fun f unique ha => ?_) h
    subst ha
    exact check_asks he h
  · exact hnew hok

theorem past_step (hs : n.admin.Sound)
    (hi : ∀ p ∈ n.admin.past, p.isEncryptedField keyField = false ∧
      ∀ f ∈ n.mayIndex, p.isEncryptedField f = false)
    (hok : n.Clears collection a) (hrem : n.Remembers a)
    (h : n.step collection sealer base a = some n') :
    ∀ p ∈ n'.admin.past, p.isEncryptedField keyField = false ∧
      ∀ f ∈ n'.mayIndex, p.isEncryptedField f = false := by
  have hold : ∀ p ∈ n.admin.past, p.isEncryptedField keyField = false ∧
      ∀ f ∈ n'.mayIndex, p.isEncryptedField f = false := by
    intro p hp
    refine ⟨(hi p hp).1, unindexed_step (hi p hp).1 (hi p hp).2 (fun f unique ha => ?_) h⟩
    subst ha
    exact hrem p hp
  rcases enc_step hs h with ⟨-, hsame⟩ | ⟨hpast, hnew⟩
  · rw [hsame]
    exact hold
  · intro p hp
    rw [hpast] at hp
    rcases mem_append.mp hp with hp | hp
    · obtain ⟨e, he, rfl⟩ := map_eq_some_iff.mp (Option.mem_toList.mp hp)
      exact ⟨((sound_step hs h).proper e (Or.inr (Or.inl he))).key, hnew hok e he⟩
    · exact hold p hp

end Runs

/-- If every policy takes effect while no index is, or is about to be, on a field it encrypts, then
no field that the policy in effect encrypts ever has an index, in memory or on disk; and if no
index is asked for on a field that some earlier policy encrypted, no such field has one either. -/
theorem no_index_on_encrypted (collection : String) (sealer : Encryptor → Scriva.Encryptor)
    (base : Config) (col : Collection) (hasKeys : Bool) :
    (∀ n, Runs.Reaches (Node.step collection sealer base) (Node.Clears collection)
        (Node.fresh col hasKeys) n →
      ∀ e, n.admin.enc = some e → ∀ f, e.isEncryptedField f = true → f ∉ n.fields) ∧
    (∀ n, Runs.Reaches (Node.step collection sealer base)
        (fun n a => n.Clears collection a ∧ n.Remembers a) (Node.fresh col hasKeys) n →
      ∀ p ∈ n.admin.past, ∀ f, p.isEncryptedField f = true → f ∉ n.fields) := by
  have hsound : (Node.fresh col hasKeys).admin.Sound := Admin.fresh_sound hasKeys
  constructor
  · intro n hr e he f hf hin
    have hinv : n.admin.Sound ∧
        ∀ e ∈ n.admin.enc, ∀ f ∈ n.mayIndex, e.isEncryptedField f = false := by
      refine hr.invariant (I := fun n => n.admin.Sound ∧ ∀ e ∈ n.admin.enc, ∀ f ∈ n.mayIndex,
        e.isEncryptedField f = false) ⟨hsound, nofun⟩ fun hi hok h => ?_
      exact ⟨sound_step hi.1 h, current_step hi.1 hi.2 hok h⟩
    have hclear := hinv.2 e he f (mem_append_left _ hin)
    rw [hf] at hclear
    cases hclear
  · intro n hr p hp f hf hin
    have hinv : n.admin.Sound ∧ ∀ p ∈ n.admin.past, p.isEncryptedField keyField = false ∧
        ∀ f ∈ n.mayIndex, p.isEncryptedField f = false := by
      refine hr.invariant (I := fun n => n.admin.Sound ∧ ∀ p ∈ n.admin.past,
        p.isEncryptedField keyField = false ∧ ∀ f ∈ n.mayIndex, p.isEncryptedField f = false)
        ⟨hsound, nofun⟩ fun hi hok h => ?_
      exact ⟨sound_step hi.1 h, past_step hi.1 hi.2 hok.1 hok.2 h⟩
    have hclear := (hinv.2 p hp).2 f (mem_append_left _ hin)
    rw [hf] at hclear
    cases hclear

def sealSsn : Policy :=
  { mode := some .fields, fields := ["ssn"], indexFields := [] }

/-- In a run over the encryptors of the collection, every operation seals with the policy it has
loaded. -/
theorem loaded_policy {collection : String} {k : Scriva.Encryptor} {base : Config}
    {ok : Node → Act → Prop} {col : Collection} {hasKeys : Bool} {n : Node}
    (hr : Runs.Reaches (Node.step collection k.under base) ok (Node.fresh col hasKeys) n)
    {e : Encryptor} (he : some e ∈ n.admin.loaded) : (k.under e).policy = e := by
  have hsound : n.admin.Sound := hr.invariant (I := fun n => n.admin.Sound)
    (Admin.fresh_sound hasKeys) fun hi _ h => sound_step hi h
  exact k.under_policy (hsound.installed e (Or.inr (Or.inr (Or.inr he))))

def storedAsIs : Encryptor → Scriva.Encryptor :=
  (plaintextAt 0).under

def insertSsn (enc : Option Encryptor) : Act :=
  .op enc (.insert (some [("ssn", .str "123")]) 0 (readingsAt 1))

def sealedFirst : List Act :=
  [.admin (.setPolicy (some sealSsn)), .admin .store, insertSsn none, .check "n" false, .build "n" false true,
   .copy, .save 0]

theorem no_index_on_encrypted_sample : ∃ n,
    Runs.run (Node.step "c" storedAsIs plainConfig) (.fresh emptyCollection true) sealedFirst = some n ∧
      sealSsn ∈ n.admin.past ∧ n.fields = ["n", "n"] ∧ "ssn" ∉ n.fields := by
  obtain ⟨n, hn, hr, hpast, hfields⟩ := Runs.reached (Node.step "c" storedAsIs plainConfig)
    (fun n a => n.Clears "c" a ∧ n.Remembers a) (.fresh emptyCollection true) sealedFirst
    (fun n => sealSsn ∈ n.admin.past ∧ n.fields = ["n", "n"]) (by decide)
  exact ⟨n, hn, hpast, hfields, (no_index_on_encrypted "c" storedAsIs plainConfig emptyCollection
    true).2 n hr sealSsn hpast "ssn" rfl⟩

def exposingRuns : List (List Act) := [
  [.check "ssn" false, .build "ssn" false true, insertSsn none, .copy, .save 0,
    .admin (.setPolicy (some sealSsn)), .admin .store],
  [.check "ssn" false, .build "ssn" false true, insertSsn none, .copy, .save 0,
    .reopen true (some sealSsn) 1 2],
  [.check "ssn" false, insertSsn none, .admin (.setPolicy (some sealSsn)), .admin .store,
    .build "ssn" false true]]

/-- In each of these runs the index in memory or its file keeps the plaintext as a key. -/
theorem index_exposes_sealed_field :
    exposingRuns.map (fun run =>
      (Runs.run (Node.step "c" storedAsIs plainConfig) (.fresh emptyCollection true) run).map
        fun n => (n.admin.enc.map fun e => e.isEncryptedField "ssn", n.fields,
          (n.col.sidxs ++ n.files).map fun x => x.buckets "123" 1)) =
      List.replicate 3 (some (some true, ["ssn", "ssn"], [true, true])) := by
  decide

end Scriva.Encryption
