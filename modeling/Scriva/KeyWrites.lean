import Scriva.KeyClaims

namespace Scriva

open KeyedLog List Option

/-- At an instant no two unexpired records carry one key, which is a string, or one value of a
guarded field; each guarded field has a unique index, and so has the key field if it has one. -/
structure KeyInv (cfg : Config) (guarded : List String) (s : Collection) (now : Int) : Prop where
  sidx : SidxInv cfg false s
  keyIndex : ∀ x ∈ s.sidxs, x.field = keyField → x.unique = true
  strings : ∀ id v, s.carried keyField now id = some v → isString v = true
  indexes : ∀ f ∈ guarded, ∃ x ∈ s.sidxs, x.field = f ∧ x.unique = true
  distinct : ∀ f ∈ keyField :: guarded, s.Distinct f now

/-- A change brings to the key and to the guarded fields only what is claimed, or what its record
carried before. -/
def Owned (s : Collection) (guarded : List String) (now : Int)
    (claim : String → String → Nat → Prop) (ch : Change) : Prop :=
  ch.entry.op ≠ .delete → expired ch.entry.expiresAt now = false →
    ∀ f ∈ keyField :: guarded, ∀ v, ((persistedData ch.entry.data).getD []).get f = some v →
      acceptsIn f v = true ∧
        (claim f (toIndexKey v) ch.entry.id ∨ s.carried f now ch.entry.id = some v)

section

variable {cfg : Config} {guarded : List String} {s s' : Collection} {now next : Int}
  {ls : List Line} {chs : List Change} {claim : String → String → Nat → Prop}

theorem Wrote.carried (h : Wrote s ls chs s') {f : String} {id : Nat} {v : Value}
    (hv : s'.carried f now id = some v) :
    s.carried f now id = some v ∨ ∃ ch ∈ chs, ch.entry.id = id ∧ ch.entry.op ≠ .delete ∧
      expired ch.entry.expiresAt now = false ∧
      ((persistedData ch.entry.data).getD []).get f = some v := by
  obtain ⟨r, hr, hexp, hget⟩ := carried_some.mp hv
  rw [h.records] at hr
  rcases replay_last (ls.map Line.toLogLine) id with hlast | ⟨a, ha, hid, old, hlast⟩
  · rw [hlast] at hr
    exact Or.inl (carried_some.mpr ⟨r, hr, hexp, hget⟩)
  · rw [hlast] at hr
    obtain ⟨l, hl, rfl⟩ := mem_map.mp ha
    obtain ⟨ch, hch, hcarry⟩ := Traverse.forall₂_mem h.carry.flip hl
    have hact : Record.act ch.entry.persisted old = some r := hcarry ▸ hr
    have hchid : ch.entry.id = id := by rw [← hid, LogLine.id, hcarry]; rfl
    refine Or.inr ⟨ch, hch, hchid, ?_⟩
    unfold Record.act at hact
    cases hop : ch.entry.op with
    | delete => simp [Entry.persisted, hop] at hact
    | insert | update =>
      simp only [Entry.persisted, hop, Option.some.injEq] at hact
      subst hact
      exact ⟨by simp, hexp, hget⟩

variable {x : SecondaryIndex} {data : Option Data}

theorem Wrote.index_kept (h : Wrote s ls chs s') (hx : x ∈ s.sidxs) :
    ∃ y ∈ s'.sidxs, y.field = x.field ∧ y.unique = x.unique := by
  refine ⟨_, ?_, x.putAll_field chs⟩
  rw [h.sidxs]
  exact mem_map_of_mem (f := fun x => chs.foldl SecondaryIndex.put x) hx

/-- A write of keys that it owns leaves them unique. -/
theorem Wrote.keyInv (h : Wrote s ls chs s') (hi : KeyInv cfg guarded s now) (hle : now ≤ next)
    (hs : SidxInv cfg false s') (hc : Checked s next claim)
    (ho : ∀ ch ∈ chs, Owned s guarded next claim ch) : KeyInv cfg guarded s' next := by
  have horigin : ∀ f ∈ keyField :: guarded, ∀ id v, s'.carried f next id = some v →
      s.carried f next id = some v ∨
        acceptsIn f v = true ∧ (claim f (toIndexKey v) id ∨ s.carried f next id = some v) := by
    intro f hf id v hv
    rcases h.carried hv with hv | ⟨ch, hch, rfl, hop, hexp, hget⟩
    · exact Or.inl hv
    · exact Or.inr (ho ch hch hop hexp f hf v hget)
  have haccepts : ∀ f id v, s.carried f next id = some v → acceptsIn f v = true := by
    intro f id v hv
    by_cases hf : f = keyField
    · subst hf
      simp [acceptsIn, hi.strings id v (carried_earlier hle hv)]
    · simp [acceptsIn, hf]
  refine ⟨hs, fun y hy hyf => ?_, fun id v hv => ?_, fun f hf => ?_, fun f hf => ?_⟩
  · rw [h.sidxs] at hy
    obtain ⟨x, hx, rfl⟩ := mem_map.mp hy
    obtain ⟨hfield, huniq⟩ := x.putAll_field chs
    exact huniq.trans (hi.keyIndex x hx (hfield.symm.trans hyf))
  · rcases horigin keyField (by simp) id v hv with hv | ⟨hacc, -⟩
    · exact hi.strings id v (carried_earlier hle hv)
    · simpa [acceptsIn] using hacc
  · obtain ⟨x, hx, rfl, hu⟩ := hi.indexes f hf
    obtain ⟨y, hy, hyf, hyu⟩ := h.index_kept hx
    exact ⟨y, hy, hyf, hyu.trans hu⟩
  · refine distinct_of_origin hi.sidx ((hi.distinct f hf).later hle) hc fun id v hv => ?_
    rcases horigin f hf id v hv with hv | hv
    · exact ⟨haccepts f id v hv, Or.inr hv⟩
    · exact hv

def Keyed (s : Collection) (data : Option Data) : Prop :=
  ∀ v ∈ (data.getD []).get keyField, isString v = true ∧ (s.sidx keyField).isSome = true

theorem sidx_mem {f : String} (h : s.sidx f = some x) : x ∈ s.sidxs ∧ x.field = f :=
  ⟨mem_of_find?_eq_some h, by simpa using List.find?_some h⟩

theorem KeyInv.keyWatched (hi : KeyInv cfg guarded s now) (h : s.sidx keyField = some x) :
    x ∈ s.watched false ∧ x.field = keyField := by
  obtain ⟨hx, hf⟩ := sidx_mem h
  exact ⟨mem_filter.mpr ⟨hx, by simpa using hi.keyIndex x hx hf⟩, hf⟩

theorem bucketKey_key {key : String} (h : bucketKey keyField data = some key) :
    (data.getD []).get keyField = some (.str key) := by
  unfold bucketKey at h
  obtain ⟨v, hv, h⟩ := bind_eq_some_iff.mp h
  obtain ⟨hacc, h⟩ := ite_none_right_eq_some.mp h
  cases v <;> simp [acceptsIn, isString] at hacc
  case str text =>
    cases h
    rw [hv]
    simp [toIndexKey, printValue]

theorem KeyInv.reservedKey (hi : KeyInv cfg guarded s now) {id : Nat} {key : String}
    (h : s.reservedKey id data = some key) {cur : IndexEntry} (hcur : s.index id = some cur)
    (hexp : expired cur.expiresAt next = false) : s.carried keyField next id = some (.str key) := by
  unfold Collection.reservedKey at h
  obtain ⟨-, h⟩ := ite_none_left_eq_some.mp h
  obtain ⟨x, hx, hrev⟩ := bind_eq_some_iff.mp h
  obtain ⟨hx, hf⟩ := hi.keyWatched hx
  rw [hi.sidx.reverse hx, hf] at hrev
  obtain ⟨r, hr, hkey⟩ := bind_eq_some_iff.mp hrev
  have hdead := hi.sidx.tracks.deadlines id
  rw [hcur, hr] at hdead
  have hdead : cur.expiresAt = r.expiresAt := by simpa using hdead
  exact carried_some.mpr ⟨r, hr, hdead ▸ hexp, bucketKey_key hkey⟩

theorem owned_given (hi : KeyInv cfg guarded s now) (key : Option String) {ch : Change}
    (hclear : Clear (keyField :: s.fields false) (keepKey key data) ch.entry.data)
    (hasc : KeysAscend (ch.entry.data.getD [])) (htext : Textual (s.fields false) data)
    (hkeyed : Keyed s data)
    (hclaim : ∀ f k, f ∈ s.fields false → bucketKey f data = some k → claim f k ch.entry.id)
    (hkept : ∀ k, key = some k → expired ch.entry.expiresAt next = false →
      claim keyField k ch.entry.id ∨ s.carried keyField next ch.entry.id = some (.str k)) :
    Owned s guarded next claim ch := by
  intro _ hexp f hf w hw
  have hfield : f ∈ keyField :: s.fields false := by
    rcases mem_cons.mp hf with rfl | hf
    · simp
    · obtain ⟨x, hx, rfl, hu⟩ := hi.indexes f hf
      exact mem_cons_of_mem _ (mem_map_of_mem (mem_filter.mpr ⟨hx, by simpa using hu⟩))
  obtain ⟨g, hg, hget⟩ := get_persisted hasc
  rw [hget] at hw
  obtain ⟨v, hv, rfl⟩ := map_eq_some_iff.mp hw
  rw [hclear f hfield] at hv
  -- a value of the caller's own data is accepted by a unique index, and so was claimed
  have hgiven : (data.getD []).get f = some v → acceptsIn f (g v) = true ∧
      claim f (toIndexKey (g v)) ch.entry.id := by
    intro hv
    have hacc : acceptsIn f v = true ∧ f ∈ s.fields false := by
      rcases mem_cons.mp hfield with rfl | hfield
      · obtain ⟨hstr, hix⟩ := hkeyed v hv
        obtain ⟨x, hx⟩ := isSome_iff_exists.mp hix
        obtain ⟨hx, hxf⟩ := hi.keyWatched hx
        exact ⟨by simp [acceptsIn, hstr], hxf ▸ mem_map_of_mem hx⟩
      · by_cases hkf : f = keyField
        · subst hkf
          exact ⟨by simp [acceptsIn, (hkeyed v hv).1], hfield⟩
        · exact ⟨by simp [acceptsIn, hkf], hfield⟩
    have hsame : acceptsIn f (g v) = acceptsIn f v ∧ toIndexKey (g v) = toIndexKey v := by
      rcases hg with rfl | rfl
      · exact ⟨rfl, rfl⟩
      · exact ⟨acceptsIn_persisted f v, htext.2 f hacc.2 v hv hacc.1⟩
    rw [hsame.1, hsame.2]
    exact ⟨hacc.1, hclaim f _ hacc.2 (by simp [bucketKey, hv, hacc.1])⟩
  cases key with
  | none => exact ⟨(hgiven hv).1, Or.inl (hgiven hv).2⟩
  | some k =>
    have hv : (Data.set keyField (.str k) (data.getD [])).get f = some v := hv
    rw [get_setKey] at hv
    by_cases hkf : keyField = f
    · subst hkf
      rw [if_pos rfl] at hv
      cases hv
      have hstr : g (.str k) = .str k := by rcases hg with rfl | rfl <;> rfl
      have htextk : toIndexKey (.str k) = k := by simp [toIndexKey, printValue]
      rw [hstr, htextk]
      exact ⟨by simp [acceptsIn, isString], hkept k rfl hexp⟩
    · rw [if_neg hkf] at hv
      exact ⟨(hgiven hv).1, Or.inl (hgiven hv).2⟩

end

section

variable {cfg : Config} {guarded : List String} {s s' : Collection} {r : Readings} {now : Int}
  {ls : List Line} {chs : List Change} {data stored : Option Data} {ch : Change}

theorem sealed_given (hi : KeyInv cfg guarded s now) (htext : Textual (s.fields false) data)
    (hs : Sealed cfg data stored) :
    Clear (keyField :: s.fields false) data stored ∧ Textual (keyField :: s.fields false) stored := by
  have hclear : ∀ f ∈ keyField :: s.fields false, cfg.isEncryptedField f = false := by
    intro f hf
    rcases mem_cons.mp hf with rfl | hf
    · exact key_clear cfg
    · exact hi.sidx.clear f hf
  have htext : Textual (keyField :: s.fields false) data :=
    textual_key htext fun f hf => (mem_cons.mp hf).symm
  exact ⟨sealed_clear hclear hs, sealed_textual hclear htext hs⟩

theorem claimsOf_given {ops : List TxOp} (op : TxOp) (hop : op ∈ ops) (hk : op.kind ≠ .delete)
    {f key : String} (hf : f ∈ s.fields false) (hkey : bucketKey f op.data = some key) :
    claimsOf s ops f key op.id := by
  obtain ⟨x, hx, rfl⟩ := mem_map.mp hf
  obtain ⟨hx, hu⟩ := mem_filter.mp hx
  exact ⟨op, hop, hk, rfl, x, hx, rfl, by simpa using hu, hkey⟩

theorem bucketKey_preserved {id : Nat} {f key : String} (h : bucketKey f data = some key) :
    bucketKey f (s.preserveReserved id data) = some key := by
  unfold Collection.preserveReserved
  cases hres : s.reservedKey id data with
  | none => exact h
  | some k =>
    -- data that keeps a key has none of its own
    obtain ⟨hnone, -⟩ := ite_none_left_eq_some.mp hres
    have hne : keyField ≠ f := by
      rintro rfl
      have hget := bucketKey_key h
      exact hnone (by simp [hasKey, hget])
    have hget : ((keepKey (some k) data).getD []).get f = (data.getD []).get f := by
      show (Data.set keyField (.str k) (data.getD [])).get f = _
      rw [get_setKey, if_neg hne]
    rw [bucketKey, hget]
    exact h

theorem bucketKey_kept {key : String} : bucketKey keyField (keepKey (some key) data) = some key := by
  have hget : ((keepKey (some key) data).getD []).get keyField = some (.str key) := by
    show (Data.set keyField (.str key) (data.getD [])).get keyField = _
    rw [get_setKey, if_pos rfl]
  simp [bucketKey, hget, acceptsIn, isString, toIndexKey, printValue]

theorem Single.keyInv {x : Option Int} (h : Single cfg s r x data ch) (hw : Wrote s ls [ch] s')
    (hi : KeyInv cfg guarded s now) (hle : now ≤ r.late) (hs : SidxInv cfg false s')
    (htext : Textual (s.fields false) data) (hkeyed : Keyed s data)
    (hcheck : x ≠ none →
      s.sidxCheckUnique ch.entry.id (s.preserveReserved ch.entry.id data) r.late = true) :
    KeyInv cfg guarded s' r.late := by
  cases h with
  | @insert e _ _ _ hseal huniq =>
    obtain ⟨hclear, hst⟩ := sealed_given hi htext hseal
    let op : TxOp := { kind := .insert, id := e.id, data := data, ts := e.ts }
    have hc : Checked s r.late (claimsOf s [op]) :=
      sidxCheckUnique_checked (by simp [op]) rfl rfl huniq
    refine hw.keyInv hi hle hs hc fun c hmem => ?_
    cases mem_singleton.mp hmem
    exact owned_given hi none hclear hst.1 htext hkeyed
      (fun f k hf hkey => claimsOf_given op (by simp) (by simp [op]) hf hkey) (by simp)
  | @update e stored cur hcur _ _ hexp hseal hdata huniq =>
    obtain ⟨hclear, hst⟩ := sealed_given hi htext hseal
    have hclear : Clear (keyField :: s.fields false) (keepKey (s.reservedKey e.id data) data)
        e.data := by
      rw [hdata]
      exact hclear.keepKey _
    have hasc : KeysAscend (e.data.getD []) := by
      rw [hdata]
      exact (textual_keepKey hst _).1
    cases x with
    | none =>
      let op : TxOp := { kind := .update, id := e.id, data := data, ts := e.ts }
      have hc : Checked s r.late (claimsOf s [op]) :=
        sidxCheckUnique_checked (by simp [op]) rfl rfl huniq
      refine hw.keyInv hi hle hs hc fun c hmem => ?_
      cases mem_singleton.mp hmem
      refine owned_given hi _ hclear hasc htext hkeyed
        (fun f k hf hkey => claimsOf_given op (by simp) (by simp [op]) hf hkey)
        fun k hk hlive => Or.inr (hi.reservedKey hk hcur ?_)
      rw [hexp] at hlive
      exact hlive
    | some exp =>
      let op : TxOp :=
        { kind := .update, id := e.id, data := s.preserveReserved e.id data, ts := e.ts }
      have hc : Checked s r.late (claimsOf s [op]) :=
        sidxCheckUnique_checked (by simp [op]) rfl rfl (hcheck (by simp))
      refine hw.keyInv hi hle hs hc fun c hmem => ?_
      cases mem_singleton.mp hmem
      refine owned_given hi _ hclear hasc htext hkeyed (fun f k hf hkey =>
          claimsOf_given op (by simp) (by simp [op]) hf (bucketKey_preserved hkey))
        fun k hk _ => Or.inl (claimsOf_given op (by simp) (by simp [op]) ?_ ?_)
      · obtain ⟨-, hres⟩ := ite_none_left_eq_some.mp hk
        obtain ⟨y, hy, -⟩ := bind_eq_some_iff.mp hres
        obtain ⟨hy, hyf⟩ := hi.keyWatched hy
        exact hyf ▸ mem_map_of_mem hy
      · show bucketKey keyField (keepKey (s.reservedKey e.id data) data) = some k
        rw [hk]
        exact bucketKey_kept
  | delete _ hop =>
    have hc : Checked s r.late fun _ _ _ => False := fun _ _ _ h => h.elim
    refine hw.keyInv hi hle hs hc fun c hmem hne => ?_
    cases mem_singleton.mp hmem
    exact (hne hop).elim

theorem WroteTo.keyInv {evs : List WatchEvent} {x : Option Int}
    (h : WroteTo evs cfg s r x data s') (hi : KeyInv cfg guarded s now) (hle : now ≤ r.late)
    (hs : SidxInv cfg false s') (htext : Textual (s.fields false) data) (hkeyed : Keyed s data)
    (hcheck : x ≠ none → ∀ ev ∈ evs,
      s.sidxCheckUnique ev.id (s.preserveReserved ev.id data) r.late = true) :
    KeyInv cfg guarded s' r.late := by
  obtain ⟨ls, ch, hsingle, htold, hw, -⟩ := h.out
  obtain ⟨ev, hev, htell⟩ := Traverse.forall₂_mem htold (mem_singleton_self ch)
  refine hsingle.keyInv hw hi hle hs htext hkeyed fun hx => ?_
  rw [← htell.id]
  exact hcheck hx ev hev

end

end Scriva
