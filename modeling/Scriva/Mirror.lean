import Scriva.HeldRecords
import Scriva.KeyClaims

namespace Scriva

open KeyedLog Versioned List Option

def Owns (R : Records) (key : String) (now : Int) (id : Nat) : Prop :=
  ∃ r, R id = some r ∧ expired r.expiresAt now = false ∧ bucketKey keyField r.data = some key

def Contested (R : Records) (e : Entry) (now : Int) : Prop :=
  e.op ≠ .delete ∧ ∃ key, (e.data.getD []).get keyField = some (.str key) ∧
    ∃ id, id ≠ e.id ∧ Owns R key now id

/-- A collection that shows the given records, whose lines decode, with its key index in step and
there as soon as one of them carries a key. -/
structure Mirrors (s : Collection) (R : Records) : Prop where
  placed : Placed s
  held : s.held = R
  keys : ∀ x ∈ s.sidxs, x.field = keyField → x = x.rebuild s.segments s.decisions
  keyed : ∀ id r key, R id = some r → bucketKey keyField r.data = some key →
    (s.sidx keyField).isSome
  decodes : s.decodes = true

section

variable {cfg : Config} {s s' : Collection} {R : Records} {e : Entry} {r : Readings}

theorem sidx_some {field : String} {x : SecondaryIndex} (h : s.sidx field = some x) :
    x ∈ s.sidxs ∧ x.field = field := by
  refine ⟨mem_of_find?_eq_some h, ?_⟩
  simpa using List.find?_some h

theorem Placed.held_data (h : Placed s) (id : Nat) :
    (s.held id).map Record.data = (records s.decisions s.log id).map Record.data := by
  have hthere := h.tracks.present id
  rw [h.held, revised]
  cases hix : s.index id with
  | none =>
    rw [hix] at hthere
    have hnone : records s.decisions s.log id = none := by simpa using hthere.symm
    rw [hnone]
    rfl
  | some ix => cases hr : records s.decisions s.log id <;> rfl

theorem Placed.live (h : Placed s) (id : Nat) (now : Int) :
    s.live id now = (s.held id).elim false fun r => !expired r.expiresAt now := by
  have hstat := h.held_stat id
  unfold Collection.live
  cases hix : s.index id with
  | none =>
    rw [hix] at hstat
    have hnone : s.held id = none := by simpa using hstat
    rw [hnone]
    rfl
  | some ix =>
    rw [hix] at hstat
    obtain ⟨q, hq, hqs⟩ := map_eq_some_iff.mp hstat
    simp only [Record.stat, IndexEntry.stat, Prod.mk.injEq] at hqs
    rw [hq]
    simp [hqs]

theorem Mirrors.mem_indexLookup (h : Mirrors s R) (hx : (s.sidx keyField).isSome = true)
    {key : String} {now : Int} {id : Nat} : id ∈ s.indexLookup key now ↔ Owns R key now id := by
  obtain ⟨x, hx⟩ := isSome_iff_exists.mp hx
  obtain ⟨hmem, hfield⟩ := sidx_some hx
  have hre := h.keys x hmem hfield
  have hcons : x.Consistent := by
    rw [hre]
    exact x.rebuild_consistent _ _
  have hdata := h.placed.held_data id
  have hrev := rebuilt_reverse hre id
  rw [hfield] at hrev
  unfold Collection.indexLookup Owns
  rw [hx, elim_some, mem_filter, Bool.and_eq_true, hcons, hrev, h.placed.live, ← h.held]
  cases hq : s.held id with
  | none => simp
  | some q =>
    rw [hq] at hdata
    obtain ⟨p, hp, hpq⟩ := map_eq_some_iff.mp hdata.symm
    have hthere : (records s.decisions s.log id).isSome = true := by rw [hp]; rfl
    obtain ⟨l, hl, hid⟩ := records_id hthere
    have hids : id ∈ s.ids := mem_dedup.mpr (hid ▸ mem_map_of_mem hl)
    have hpq : p.data = q.data := hpq
    simp only [hp, bind_some, hpq, elim_some, Option.some.injEq, beq_iff_eq,
      Bool.not_eq_true', hids, true_and, exists_eq_left']
    exact and_comm

theorem Mirrors.ensureKeyIndexFor (h : Mirrors s R) (es : List Entry) :
    Mirrors (s.ensureKeyIndexFor es) R := by
  unfold Collection.ensureKeyIndexFor
  split
  swap
  · exact h
  unfold Collection.ensureIndex
  by_cases hsome : (s.sidx keyField).isSome = true
  · rw [if_pos hsome]
    exact h
  rw [if_neg hsome]
  refine ⟨h.placed.frame (le_refl _) _ s.now, h.held, fun x hx hf => ?_, fun _ _ _ _ _ => ?_,
    h.decodes⟩
  · rcases mem_append.mp hx with hx | hx
    · exact h.keys x hx hf
    · cases mem_singleton.mp hx
      rfl
  · simp [Collection.sidx, SecondaryIndex.rebuild, SecondaryIndex.empty]

theorem ensureKeyIndexFor_isSome {es : List Entry} (he : e ∈ es) (h : hasKey e.data = true) :
    ((s.ensureKeyIndexFor es).sidx keyField).isSome = true := by
  have hany : (es.any fun e => hasKey e.data) = true := any_eq_true.mpr ⟨e, he, h⟩
  unfold Collection.ensureKeyIndexFor Collection.ensureIndex
  rw [if_pos hany]
  by_cases hsome : (s.sidx keyField).isSome = true
  · rw [if_pos hsome]
    exact hsome
  · rw [if_neg hsome]
    simp [Collection.sidx, SecondaryIndex.rebuild, SecondaryIndex.empty]

theorem Wrote.sidx_isSome {ls : List Line} {chs : List Change} (h : Wrote s ls chs s')
    (field : String) : (s'.sidx field).isSome = (s.sidx field).isSome := by
  unfold Collection.sidx
  rw [h.sidxs, List.find?_map, isSome_map]
  congr 2
  funext x
  simp [(x.putAll_field chs).1]

theorem hasKey_of_bucketKey {data : Option Data} {key : String}
    (h : bucketKey keyField data = some key) : hasKey data = true := by
  obtain ⟨v, hv, -⟩ := bind_eq_some_iff.mp h
  rw [hasKey, hv]
  rfl

theorem Mirrors.wrote {ls : List Line} (h : Mirrors s R)
    (hw : Wrote s ls [replChange s e] s') (hc : Counts s [replChange s e] s')
    (hm : KeysAscend (e.data.getD [])) (hd : decodable e.data = true)
    (hx : hasKey e.data = true → (s.sidx keyField).isSome) :
    Mirrors s' (assign R e.update) := by
  have hplain : Textual [] e.data := ⟨hm, by simp⟩
  have htext : Textual [keyField] e.data := textual_key hplain (by simp)
  have hheld : s'.held = assign R e.update := by
    rw [hw.held h.placed hc, h.held]
    rfl
  refine ⟨hw.placed h.placed hc, hheld, fun y hy hf => ?_, fun id q key hq hkey => ?_,
    hw.decodes h.decodes fun ch hch => ?_⟩
  · rw [hw.sidxs] at hy
    obtain ⟨x, hxs, rfl⟩ := mem_map.mp hy
    rw [(x.putAll_field _).1] at hf
    refine hw.sidx_rebuild h.placed.tracks ⟨fun _ hfresh => ?_, trivial⟩ (h.keys x hxs hf) ?_
    · simpa [replChange, indexed] using hfresh
    · intro ch hch
      cases mem_singleton.mp hch
      rw [hf]
      exact replChange_faithful fun _ => htext
  · rw [hw.sidx_isSome]
    rw [assign_apply] at hq
    by_cases hid : e.update.key = id
    · rw [if_pos hid] at hq
      obtain ⟨-, hq⟩ := ite_none_left_eq_some.mp hq
      cases hq
      have hkey : bucketKey keyField (persistedData e.data) = some key := hkey
      rw [bucketKey_persisted htext (by simp)] at hkey
      exact hx (hasKey_of_bucketKey hkey)
    · rw [if_neg hid] at hq
      exact h.keyed id q key hq hkey
  · cases mem_singleton.mp hch
    exact hd

theorem Mirrors.applied (h : Mirrors s R) (e : Entry) :
    s.applied e = covers Record.rev R e.update := by
  have hstat := h.placed.held_stat e.id
  rw [h.held] at hstat
  unfold Collection.applied covers
  cases hix : s.index e.id with
  | none =>
    rw [hix] at hstat
    have hnone : R e.id = none := by simpa using hstat
    cases hop : e.op <;> simp [Entry.update, hop, hnone]
  | some ix =>
    rw [hix] at hstat
    obtain ⟨q, hq, hqs⟩ := map_eq_some_iff.mp hstat
    simp only [Record.stat, IndexEntry.stat, Prod.mk.injEq] at hqs
    cases hop : e.op <;> simp [Entry.update, Entry.shown, hop, hq, hqs.1]

theorem Mirrors.replKeyConflict (h : Mirrors s R)
    (hx : hasKey e.data = true → (s.sidx keyField).isSome) (now : Int) :
    s.replKeyConflict e [] now = true ↔ Contested R e now := by
  unfold Collection.replKeyConflict Contested
  by_cases hop : e.op = .delete
  · simp [hop]
  cases hv : (e.data.getD []).get keyField with
  | none => cases hop' : e.op <;> simp
  | some v =>
    have hsome : (s.sidx keyField).isSome = true := hx (by rw [hasKey, hv]; rfl)
    cases v with
    | str key =>
      have hany : ((s.indexLookup key now).any fun id => id != e.id && ! [].contains id) = true ↔
          ∃ id, id ≠ e.id ∧ Owns R key now id := by
        rw [List.any_eq_true]
        refine exists_congr fun id => ?_
        rw [h.mem_indexLookup hsome, and_comm]
        simp
      cases hop' : e.op with
      | delete => exact absurd hop' hop
      | insert | update => simpa using hany
    | _ => cases hop' : e.op <;> simp

/-- An entry is refused over a contested key, and is absorbed otherwise. -/
theorem Mirrors.applyEntry (h : Mirrors s R) (hm : KeysAscend (e.data.getD []))
    (hd : decodable e.data = true) :
    (covers Record.rev R e.update = false ∧ Contested R e r.early ∧
        s.applyEntry cfg e r = none) ∨
      (covers Record.rev R e.update = false → ¬ Contested R e r.early) ∧
        ∃ s', s.applyEntry cfg e r = some s' ∧ Mirrors s' (absorb Record.rev R e.update) := by
  have hb := h.ensureKeyIndexFor [e]
  have hx : hasKey e.data = true → ((s.ensureKeyIndexFor [e]).sidx keyField).isSome :=
    ensureKeyIndexFor_isSome (by simp)
  have happ := hb.applied e
  have hconf := hb.replKeyConflict hx r.early
  have hready : s.keyIndexReady [e] = true := by
    simp [Collection.keyIndexReady, Collection.buildable, h.decodes]
  unfold Collection.applyEntry absorb
  simp only [hready, Option.pure_def, bind_eq_bind]
  generalize s.ensureKeyIndexFor [e] = b at hb hx happ hconf ⊢
  simp only [happ]
  cases hcov : covers Record.rev R e.update with
  | true => exact Or.inr ⟨by simp, b, rfl, hb⟩
  | false =>
    by_cases hcon : Contested R e r.early
    · refine Or.inl ⟨rfl, hcon, ?_⟩
      simp [hconf.mpr hcon]
    · refine Or.inr ⟨fun _ => hcon, ?_⟩
      have hfree : b.replKeyConflict e [] r.early = false := by
        rw [← Bool.not_eq_true, hconf]
        exact hcon
      simp only [hfree, Bool.not_false, Bool.false_eq_true, if_false]
      refine ⟨_, rfl, hb.wrote ((wrote_put cfg b (replChange b e)).counted _ _) ?_ hm hd hx⟩
      exact counts_one (le_max_left _ _) fun _ => le_max_right _ _

end

end Scriva
