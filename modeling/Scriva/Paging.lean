import Scriva.TopRows
import Scriva.RoundTrip
import Scriva.Lib.Base64
import Scriva.Lib.Utf8

namespace Scriva.Paging

open JsonText Ranking List

structure PageCursor where
  keys : List Value
  id : UInt64
deriving DecidableEq

def PageCursor.members (c : PageCursor) : List (String × Json) :=
  [("k", .arr (elemsToJson c.keys)), ("i", jsonInt c.id.toNat)]

def encodeCursor (keys : List Value) (id : UInt64) : String :=
  String.ofList (Base64.encode (Utf8.encode (render (.obj (PageCursor.members ⟨keys, id⟩)))))

def keysField (ms : List (String × Json)) : Option (List Value) :=
  match fieldOf ms "k" with
  | none => some []
  | some .null => some []
  | some (.arr xs) => some (elemsOfJson xs)
  | some _ => none

def idField (ms : List (String × Json)) : Option UInt64 :=
  match natField ms "i" with
  | .ok n => if n < 2 ^ 64 then some (UInt64.ofNat n) else none
  | .error _ => none

def readCursor (ms : List (String × Json)) : Option PageCursor := do
  return { keys := ← keysField ms, id := ← idField ms }

def decodeCursor (tok : String) : Option PageCursor :=
  (Base64.decode tok.toList).bind fun b =>
    match parse (Utf8.decode b) with
    | some (.obj ms) => readCursor ms
    | some .null => readCursor []
    | _ => none

inductive ScanFault where
  | invalidPageToken
  | sliceBounds
deriving DecidableEq, Repr

def boundary (fields : List SortField) (cur : PageCursor) : ScanResult :=
  ⟨cur.id, (fields.zip cur.keys).foldl (fun m fk => Data.set fk.1.field fk.2 m) []⟩

def cursorAfter (token : String) (fields : List SortField) :
    Except ScanFault (ScanResult → Bool) :=
  if token = "" then .ok fun _ => true
  else
    match decodeCursor token with
    | none => .error .invalidPageToken
    | some cur =>
      if cur.keys.length ≠ fields.length then .error .invalidPageToken
      else .ok (sortLess fields (boundary fields cur))

def orderedRows (fields : List SortField) (limit offset : Int64) (matched : List ScanResult) :
    List ScanResult :=
  if 0 < limit then
    -- Only the smallest Offset+Limit rows are kept.
    (matched.foldl (TopK.push (sortLess fields)) ⟨offset + limit, #[]⟩).sorted (sortLess fields)
  else sort (sortLess fields) matched

def cutPage (limit offset : Int64) (page : List ScanResult) : List ScanResult :=
  if 0 < limit ∧ limit.toInt < (page.drop offset.toInt.toNat).length then
    (page.drop offset.toInt.toNat).take limit.toInt.toNat
  else page.drop offset.toInt.toNat

def nextPageToken (fields : List SortField) (limit offset : Int64) (matched : Nat)
    (page : List ScanResult) : String :=
  match page.getLast? with
  | none => ""
  | some last =>
    if 0 < limit ∧ (offset + limit).toInt < matched then
      encodeCursor (fields.map fun sf => last.value sf.field) last.id
    else ""

/-- `scanOrdered` over the rows that match, in the order the scan meets them. A slice with a negative
bound panics. -/
def scanOrdered (fields : List SortField) (limit offset : Int64) (token : String)
    (rows : List ScanResult) : Except ScanFault (List ScanResult × String) := do
  let after ← cursorAfter token fields
  let matched := rows.filter after
  let page := orderedRows fields limit offset matched
  if offset < 0 then throw .sliceBounds
  let page := cutPage limit offset page
  return (page, nextPageToken fields limit offset matched.length page)

/-- Every page a client sees that asks again with the token it was given, until it gets none. -/
def followPages (fields : List SortField) (size : Int64) (rows : List ScanResult) :
    Nat → String → Option (List (List ScanResult))
  | 0, _ => none
  | fuel + 1, token =>
    match scanOrdered fields size 0 token rows with
    | .error _ => none
    | .ok (page, next) =>
      if next = "" then some [page] else (followPages fields size rows fuel next).map (page :: ·)

def readRow (line : UInt64 × List (String × Json)) : ScanResult :=
  ⟨line.1, membersOfJson [] line.2⟩

def slice (limit offset : Int64) (l : List ScanResult) : List ScanResult :=
  if limit ≤ 0 then l.drop offset.toInt.toNat
  else (l.drop offset.toInt.toNat).take limit.toInt.toNat

theorem decoded_get {m : Data} (h : DecodedMembers m) {k : String} {v : Value}
    (hget : m.get k = some v) : Decoded v := by
  induction m with
  | nil => cases hget
  | cons kv m ih =>
    obtain ⟨k', w⟩ := kv
    rw [get_cons] at hget
    split_ifs at hget
    · cases hget
      exact h.1
    · exact ih h.2 hget

theorem decoded_value (line : UInt64 × List (String × Json)) (field : String) :
    Decoded ((readRow line).value field) := by
  have hdec : DecodedMembers (membersOfJson [] line.2) :=
    (decoded_membersOfJson line.2 [] List.Pairwise.nil trivial).2
  unfold ScanResult.value
  cases hget : (readRow line).data.get field with
  | none => trivial
  | some v => exact decoded_get hdec hget

theorem decoded_values {vs : List Value} (h : ∀ v ∈ vs, Decoded v) : DecodedElems vs := by
  induction vs with
  | nil => trivial
  | cons v vs ih =>
    exact ⟨h v mem_cons_self, ih fun w hw => h w (mem_cons_of_mem _ hw)⟩

theorem readCursor_members {keys : List Value} (h : DecodedElems keys) (id : UInt64) :
    readCursor (PageCursor.members ⟨keys, id⟩) = some ⟨keys, id⟩ := by
  have hkeys : keysField (PageCursor.members ⟨keys, id⟩) = some keys := by
    have hfield : fieldOf (PageCursor.members ⟨keys, id⟩) "k" = some (.arr (elemsToJson keys)) := rfl
    rw [keysField, hfield]
    exact congrArg some (elemsOfJson_elemsToJson keys h)
  have hid : idField (PageCursor.members ⟨keys, id⟩) = some id := by
    have hfield : fieldOf (PageCursor.members ⟨keys, id⟩) "i" = some (jsonInt id.toNat) := rfl
    rw [idField, natField_of_intField (intField_jsonInt hfield)]
    show (if id.toNat < 2 ^ 64 then _ else _) = _
    rw [if_pos id.toNat_lt, UInt64.ofNat_toNat]
  rw [readCursor, hkeys, hid]
  rfl

theorem decodeCursor_encode {keys : List Value} (h : DecodedElems keys) (id : UInt64) :
    decodeCursor (encodeCursor keys id) = some ⟨keys, id⟩ := by
  have hvalid : Valid (.obj (PageCursor.members ⟨keys, id⟩)) :=
    ⟨elemsToJson_valid keys, jsonInt_valid id.toNat, trivial⟩
  have hparse : parse (render (.obj (PageCursor.members ⟨keys, id⟩)) ++ []) = _ :=
    parse_render hvalid (by simp)
  rw [append_nil] at hparse
  rw [decodeCursor, encodeCursor, String.toList_ofList, Base64.decode_encode, Option.bind_some,
    Utf8.decode_encode, hparse]
  exact readCursor_members h id

theorem encodeCursor_ne (keys : List Value) (id : UInt64) : encodeCursor keys id ≠ "" := by
  intro he
  have htext : ∃ b bs, Utf8.encode (render (.obj (PageCursor.members ⟨keys, id⟩))) = b :: bs := by
    obtain ⟨b, bs, hb⟩ := Utf8.encodeChar_cons '\x7b'
    rw [render, Utf8.encode, flatMap_cons, hb]
    exact ⟨b, _, rfl⟩
  obtain ⟨b, bs, hb⟩ := htext
  have hnil := congrArg String.toList he
  rw [encodeCursor, String.toList_ofList, hb] at hnil
  exact Base64.encode_ne_nil (cons_ne_nil b bs) hnil

theorem foldl_set_get (r : ScanResult) (fields : List SortField) (m : Data) (f : String) :
    ((fields.zip (fields.map fun sf => r.value sf.field)).foldl
      (fun m fk => Data.set fk.1.field fk.2 m) m).get f =
    if ∃ sf ∈ fields, sf.field = f then some (r.value f) else m.get f := by
  induction fields generalizing m with
  | nil => simp
  | cons sf fields ih =>
    rw [map_cons, zip_cons_cons, foldl_cons, ih, get_setKey]
    by_cases hrest : ∃ sf' ∈ fields, sf'.field = f
    · rw [if_pos hrest, if_pos]
      obtain ⟨sf', hsf, he⟩ := hrest
      exact ⟨sf', mem_cons_of_mem _ hsf, he⟩
    · rw [if_neg hrest]
      by_cases he : sf.field = f
      · rw [if_pos he, if_pos ⟨sf, mem_cons_self, he⟩, he]
      · rw [if_neg he, if_neg]
        rintro ⟨sf', hsf, he'⟩
        rcases mem_cons.mp hsf with rfl | hsf
        · exact he he'
        · exact hrest ⟨sf', hsf, he'⟩

theorem sortLess_congr {fields : List SortField} {a a' : ScanResult} (hid : a.id = a'.id)
    (h : ∀ sf ∈ fields, a.value sf.field = a'.value sf.field) (r : ScanResult) :
    sortLess fields a r = sortLess fields a' r := by
  induction fields with
  | nil => simp only [sortLess, hid]
  | cons sf fields ih =>
    have hcmp : sf.compare a r = sf.compare a' r := by
      unfold SortField.compare
      rw [h sf mem_cons_self]
    rw [sortLess, sortLess, hcmp, ih fun sf' hsf => h sf' (mem_cons_of_mem _ hsf)]

theorem cursorAfter_encode (fields : List SortField) {r : ScanResult}
    (h : ∀ field, Decoded (r.value field)) :
    cursorAfter (encodeCursor (fields.map fun sf => r.value sf.field) r.id) fields =
      .ok (sortLess fields r) := by
  have hdec : DecodedElems (fields.map fun sf => r.value sf.field) := by
    refine decoded_values fun v hv => ?_
    obtain ⟨sf, -, rfl⟩ := mem_map.mp hv
    exact h sf.field
  rw [cursorAfter, if_neg (encodeCursor_ne _ _), decodeCursor_encode hdec]
  show (if (fields.map fun sf => r.value sf.field).length ≠ fields.length then _ else _) = _
  rw [if_neg (by simp)]
  congr 1
  funext r'
  have hid : (boundary fields ⟨fields.map fun sf => r.value sf.field, r.id⟩).id = r.id := rfl
  refine sortLess_congr hid (fun sf hsf => ?_) r'
  have hget := foldl_set_get r fields [] sf.field
  rw [if_pos ⟨sf, hsf, rfl⟩] at hget
  exact congrArg (Option.getD · .null) hget

section

variable {fields : List SortField} {limit offset : Int64} {token : String}
  {rows matched : List ScanResult} {after : ScanResult → Bool}

theorem scanOrdered_eq (h : cursorAfter token fields = .ok after) :
    scanOrdered fields limit offset token rows =
      if offset < 0 then .error .sliceBounds
      else .ok (cutPage limit offset (orderedRows fields limit offset (rows.filter after)),
        nextPageToken fields limit offset (rows.filter after).length
          (cutPage limit offset (orderedRows fields limit offset (rows.filter after)))) := by
  unfold scanOrdered
  rw [h]
  by_cases hneg : offset < 0
  · simp only [hneg, if_true]
    rfl
  · simp only [hneg, if_false]
    rfl

theorem pos_iff {n : Int64} : 0 < n ↔ 0 < n.toInt := Int64.lt_iff_toInt_lt

theorem nonpos_iff {n : Int64} : n ≤ 0 ↔ n.toInt ≤ 0 := Int64.le_iff_toInt_le

theorem add_fits (ho : 0 ≤ offset.toInt) (hl : 0 < limit.toInt)
    (hfits : offset.toInt + limit.toInt < 2 ^ 63) :
    (offset + limit).toInt = offset.toInt + limit.toInt := by
  rw [Int64.toInt_add]
  exact Int.bmod_eq_of_le (by omega) (by omega)

theorem add_wraps (ho : 0 ≤ offset.toInt) (hl : 0 < limit.toInt)
    (hover : 2 ^ 63 ≤ offset.toInt + limit.toInt) : (offset + limit).toInt < 0 := by
  have h1 := offset.toInt_lt
  have h2 := limit.toInt_lt
  rw [Int64.toInt_add, Int.bmod_def]
  omega

theorem orderedRows_limited (h : 0 < limit) : orderedRows fields limit offset matched =
    (matched.foldl (TopK.push (sortLess fields)) ⟨offset + limit, #[]⟩).sorted (sortLess fields) :=
  if_pos h

theorem orderedRows_all (h : ¬ 0 < limit) :
    orderedRows fields limit offset matched = sort (sortLess fields) matched :=
  if_neg h

theorem cutPage_limited (h : 0 < limit) (page : List ScanResult) :
    cutPage limit offset page = (page.drop offset.toInt.toNat).take limit.toInt.toNat := by
  unfold cutPage
  by_cases hlong : limit.toInt < (page.drop offset.toInt.toNat).length
  · rw [if_pos ⟨h, hlong⟩]
  · rw [if_neg fun hc => hlong hc.2, take_of_length_le (by omega)]

theorem cutPage_all (h : ¬ 0 < limit) (page : List ScanResult) :
    cutPage limit offset page = page.drop offset.toInt.toNat :=
  if_neg fun hc => h hc.1

theorem slice_limited (h : 0 < limit) (l : List ScanResult) :
    slice limit offset l = (l.drop offset.toInt.toNat).take limit.toInt.toNat := by
  have hnot : ¬ limit ≤ 0 := by
    rw [nonpos_iff]
    exact not_le.mpr (pos_iff.mp h)
  exact if_neg hnot

theorem slice_all (h : ¬ 0 < limit) (l : List ScanResult) :
    slice limit offset l = l.drop offset.toInt.toNat := by
  rw [pos_iff] at h
  exact if_pos (nonpos_iff.mpr (not_lt.mp h))

theorem cutPage_eq (h : StrictTotalOn (sortLess fields) rows) (hsub : matched ⊆ rows)
    (ho : 0 ≤ offset.toInt)
    (hfits : limit.toInt ≤ 0 ∨ offset.toInt + limit.toInt < 2 ^ 63) :
    cutPage limit offset (orderedRows fields limit offset matched) =
      slice limit offset (sort (sortLess fields) matched) := by
  by_cases hlim : 0 < limit
  · have hpos := pos_iff.mp hlim
    have hsum := add_fits ho hpos (by omega)
    have htake : (offset.toInt + limit.toInt).toNat = offset.toInt.toNat + limit.toInt.toNat := by
      omega
    rw [cutPage_limited hlim, slice_limited hlim, orderedRows_limited hlim,
      sorted_topK h hsub (by omega), hsum, htake, drop_take, Nat.add_sub_cancel_left,
      take_take, Nat.min_self]
  · rw [cutPage_all hlim, slice_all hlim, orderedRows_all hlim]

theorem cutPage_wraps (ho : 0 ≤ offset.toInt) (hlim : 0 < limit.toInt)
    (hover : 2 ^ 63 ≤ offset.toInt + limit.toInt) :
    cutPage limit offset (orderedRows fields limit offset matched) = [] := by
  have hneg := add_wraps ho hlim hover
  have hcap : TopK.cap ⟨offset + limit, #[]⟩ ≤ 0 := nonpos_iff.mpr (le_of_lt hneg)
  rw [cutPage_limited (pos_iff.mpr hlim), orderedRows_limited (pos_iff.mpr hlim),
    foldl_push_none matched hcap, TopK.sorted_empty, drop_nil, take_nil]

/-- The scan gives the slice exactly when the offset is none the slice expression rejects and the end
of the page fits into an int or nothing lies behind the offset. -/
theorem scan_slice_iff (h : StrictTotalOn (sortLess fields) rows)
    (hafter : cursorAfter token fields = .ok after) :
    (scanOrdered fields limit offset token rows).map Prod.fst =
      .ok (slice limit offset (sort (sortLess fields) (rows.filter after))) ↔
    0 ≤ offset.toInt ∧ (limit.toInt ≤ 0 ∨ offset.toInt + limit.toInt < 2 ^ 63 ∨
      ((rows.filter after).length : Int) ≤ offset.toInt) := by
  have hsub : rows.filter after ⊆ rows := fun _ hr => mem_of_mem_filter hr
  have hlen : (sort (sortLess fields) (rows.filter after)).length = (rows.filter after).length :=
    (perm_sort _ _).length_eq
  rw [scanOrdered_eq hafter]
  by_cases ho : 0 ≤ offset.toInt
  · have hneg : ¬ offset < 0 := by
      rw [Int64.lt_iff_toInt_lt]
      exact not_lt.mpr ho
    rw [if_neg hneg]
    simp only [Except.map, Except.ok.injEq]
    by_cases hfits : limit.toInt ≤ 0 ∨ offset.toInt + limit.toInt < 2 ^ 63
    · refine iff_of_true (cutPage_eq h hsub ho hfits) ⟨ho, ?_⟩
      rcases hfits with h1 | h1
      · exact Or.inl h1
      · exact Or.inr (Or.inl h1)
    · obtain ⟨hlim, hover⟩ := not_or.mp hfits
      rw [cutPage_wraps ho (by omega) (by omega), slice_limited (pos_iff.mpr (by omega))]
      constructor
      · intro hnil
        have hzero := congrArg List.length hnil
        rw [length_nil, length_take, length_drop, hlen] at hzero
        refine ⟨ho, Or.inr (Or.inr ?_)⟩
        omega
      · rintro ⟨-, hcases⟩
        symm
        apply eq_nil_of_length_eq_zero
        rw [length_take, length_drop, hlen]
        omega
  · have hneg : offset < 0 := by
      rw [Int64.lt_iff_toInt_lt]
      exact not_le.mp ho
    rw [if_pos hneg]
    simp [Except.map, ho]

theorem zero_add_toInt (size : Int64) : (0 + size).toInt = size.toInt := by
  rw [Int64.zero_add]

theorem scan_page (h : StrictTotalOn (sortLess fields) rows) {size : Int64} (hsize : 0 < size.toInt)
    (hafter : cursorAfter token fields = .ok after) {rest : List ScanResult}
    (hrest : sort (sortLess fields) (rows.filter after) = rest) :
    scanOrdered fields size 0 token rows = .ok (rest.take size.toInt.toNat,
      if rest.length ≤ size.toInt.toNat then ""
      else nextPageToken fields size 0 rest.length (rest.take size.toInt.toNat)) := by
  have hsub : rows.filter after ⊆ rows := fun _ hr => mem_of_mem_filter hr
  have hlen : rest.length = (rows.filter after).length := by
    rw [← hrest]
    exact (perm_sort _ _).length_eq
  have hlt := size.toInt_lt
  have hzero : (0 : Int64).toInt = 0 := rfl
  have hpage : cutPage size 0 (orderedRows fields size 0 (rows.filter after)) =
      rest.take size.toInt.toNat := by
    rw [cutPage_eq h hsub (by decide) (Or.inr (by omega)), hrest,
      slice_limited (pos_iff.mpr hsize)]
    rfl
  rw [scanOrdered_eq hafter, if_neg (by decide), hpage, ← hlen]
  by_cases hall : rest.length ≤ size.toInt.toNat
  · rw [if_pos hall, nextPageToken]
    cases hlast : (rest.take size.toInt.toNat).getLast? with
    | none => rfl
    | some last =>
      show Except.ok (_, if 0 < size ∧ (0 + size).toInt < (rest.length : Int) then _ else "") = _
      rw [if_neg]
      rintro ⟨-, hmore⟩
      rw [zero_add_toInt] at hmore
      omega
  · rw [if_neg hall]

theorem nextPageToken_last (fields : List SortField) {size : Int64} (hsize : 0 < size.toInt)
    {rest : List ScanResult} (hmore : size.toInt.toNat < rest.length) :
    ∃ front last, rest.take size.toInt.toNat = front ++ [last] ∧
      nextPageToken fields size 0 rest.length (rest.take size.toInt.toNat) =
        encodeCursor (fields.map fun sf => last.value sf.field) last.id := by
  have hne : rest.take size.toInt.toNat ≠ [] := by
    intro hnil
    have hzero := congrArg List.length hnil
    rw [length_take, length_nil] at hzero
    omega
  obtain ⟨front, last, hsplit⟩ : ∃ front last, rest.take size.toInt.toNat = front ++ [last] :=
    ⟨_, _, (dropLast_append_getLast hne).symm⟩
  refine ⟨front, last, hsplit, ?_⟩
  rw [nextPageToken, hsplit, List.getLast?_concat]
  show (if 0 < size ∧ (0 + size).toInt < (rest.length : Int) then _ else "") = _
  rw [zero_add_toInt, if_pos ⟨pos_iff.mpr hsize, by omega⟩]

end

theorem followPages_succ {fields : List SortField} {size : Int64} {rows page : List ScanResult}
    {token next : String} (h : scanOrdered fields size 0 token rows = .ok (page, next))
    (fuel : Nat) : followPages fields size rows (fuel + 1) token =
      if next = "" then some [page]
      else (followPages fields size rows fuel next).map (page :: ·) := by
  rw [followPages, h]

theorem followPages_rest {lines : List (UInt64 × List (String × Json))} {fields : List SortField}
    (h : StrictTotalOn (sortLess fields) (lines.map readRow)) (hnodup : (lines.map readRow).Nodup)
    {size : Int64} (hsize : 0 < size.toInt) {fuel : Nat} {token : String}
    {after : ScanResult → Bool} {done rest : List ScanResult}
    (hafter : cursorAfter token fields = .ok after)
    (hall : sort (sortLess fields) (lines.map readRow) = done ++ rest)
    (hrest : sort (sortLess fields) ((lines.map readRow).filter after) = rest)
    (hfuel : rest.length < fuel) :
    ∃ pages, followPages fields size (lines.map readRow) fuel token = some pages ∧
      pages.flatten = rest ∧ ∀ page ∈ pages, (page.length : Int) ≤ size.toInt := by
  induction fuel generalizing token after done rest with
  | zero => omega
  | succ fuel ih =>
    have hpage : ((rest.take size.toInt.toNat).length : Int) ≤ size.toInt := by
      have := length_take_le size.toInt.toNat rest
      omega
    rw [followPages_succ (scan_page h hsize hafter hrest)]
    by_cases hshort : rest.length ≤ size.toInt.toNat
    · refine ⟨[rest.take size.toInt.toNat], ?_, ?_, ?_⟩
      · rw [if_pos hshort, if_pos rfl]
      · rw [flatten_singleton, take_of_length_le hshort]
      · intro page hp
        rw [mem_singleton.mp hp]
        exact hpage
    · obtain ⟨front, last, htake, htok⟩ := nextPageToken_last fields hsize (not_le.mp hshort)
      have hcut := take_append_drop size.toInt.toNat rest
      have hplace : sort (sortLess fields) (lines.map readRow) =
          (done ++ front) ++ last :: rest.drop size.toInt.toNat := by
        rw [hall]
        nth_rewrite 1 [← hcut]
        rw [htake]
        simp
      have hlast : last ∈ lines.map readRow := by
        refine (perm_sort (sortLess fields) _).mem_iff.mp ?_
        rw [hplace]
        simp
      obtain ⟨line, -, rfl⟩ := mem_map.mp hlast
      have hnext := cursorAfter_encode fields (decoded_value line)
      have hleft : sort (sortLess fields) (lines.map readRow) =
          (done ++ rest.take size.toInt.toNat) ++ rest.drop size.toInt.toNat := by
        rw [hall, append_assoc, hcut]
      obtain ⟨pages, hfollow, hflat, hsizes⟩ := ih hnext hleft (h.sort_after hnodup hplace)
        (by rw [length_drop]; omega)
      refine ⟨rest.take size.toInt.toNat :: pages, ?_, ?_, ?_⟩
      · rw [if_neg hshort, htok, if_neg (encodeCursor_ne _ _), hfollow]
        rfl
      · rw [flatten_cons, hflat, hcut]
      · intro page hp
        rcases mem_cons.mp hp with rfl | hp
        · exact hpage
        · exact hsizes page hp

/-- Over rows that the sort orders strictly and totally, following the page tokens gives every row
once and in order; and a limit and an offset give the slice exactly when the end of the page fits
into an int or no row lies behind the offset. -/
theorem paging_exact (fields : List SortField) (lines : List (UInt64 × List (String × Json)))
    (hnodup : (lines.map readRow).Nodup)
    (horder : StrictTotalOn (sortLess fields) (lines.map readRow)) :
    (∀ size : Int64, 0 < size → ∀ fuel, lines.length < fuel →
      ∃ pages, followPages fields size (lines.map readRow) fuel "" = some pages ∧
        pages.flatten.Perm (lines.map readRow) ∧
        (pages.flatten.Pairwise fun a b => sortLess fields a b = true) ∧
        ∀ page ∈ pages, (page.length : Int) ≤ size.toInt) ∧
    ∀ (limit offset : Int64) (token : String) (after : ScanResult → Bool),
      cursorAfter token fields = .ok after →
      ∃ sorted, sorted.Perm ((lines.map readRow).filter after) ∧
        (sorted.Pairwise fun a b => sortLess fields a b = true) ∧
        ((scanOrdered fields limit offset token (lines.map readRow)).map Prod.fst =
            .ok (slice limit offset sorted) ↔
          0 ≤ offset.toInt ∧ (limit.toInt ≤ 0 ∨ offset.toInt + limit.toInt < 2 ^ 63 ∨
            (sorted.length : Int) ≤ offset.toInt)) := by
  have hstrict := horder.sort_strict hnodup
  refine ⟨?_, ?_⟩
  · intro size hsize fuel hfuel
    have hall : (lines.map readRow).filter (fun _ => true) = lines.map readRow := by simp
    have hlen : (sort (sortLess fields) (lines.map readRow)).length < fuel := by
      rw [(perm_sort _ _).length_eq, length_map]
      exact hfuel
    obtain ⟨pages, hfollow, hflat, hsizes⟩ := followPages_rest horder hnodup (pos_iff.mp hsize)
      (if_pos rfl : cursorAfter "" fields = _) (nil_append _).symm (by rw [hall]) hlen
    refine ⟨pages, hfollow, ?_, ?_, hsizes⟩
    · rw [hflat]
      exact perm_sort _ _
    · rw [hflat]
      exact hstrict
  · intro limit offset token after hafter
    refine ⟨sort (sortLess fields) ((lines.map readRow).filter after), perm_sort _ _, ?_, ?_⟩
    · rw [horder.sort_filter]
      exact hstrict.filter after
    · rw [(perm_sort _ _).length_eq]
      exact scan_slice_iff horder hafter

def sampleLines : List (UInt64 × List (String × Json)) :=
  [(1, [("f", .str "b")]), (2, [("f", .str "a")]), (3, [("f", .str "b")])]

theorem sampleLines_ordered :
    StrictTotalOn (sortLess [⟨"f", true⟩]) (sampleLines.map readRow) :=
  ⟨by decide +kernel, by decide +kernel, by decide +kernel⟩

theorem paging_exact_sample :
    (∃ pages, followPages [⟨"f", true⟩] 2 (sampleLines.map readRow) 4 "" = some pages ∧
      pages.flatten.Perm (sampleLines.map readRow) ∧
      (pages.flatten.Pairwise fun a b => sortLess [⟨"f", true⟩] a b = true) ∧
      ∀ page ∈ pages, (page.length : Int) ≤ (2 : Int64).toInt) ∧
    ∃ sorted, sorted.Perm ((sampleLines.map readRow).filter fun _ => true) ∧
      (sorted.Pairwise fun a b => sortLess [⟨"f", true⟩] a b = true) ∧
      ((scanOrdered [⟨"f", true⟩] 1 1 "" (sampleLines.map readRow)).map Prod.fst =
          .ok (slice 1 1 sorted) ↔
        0 ≤ (1 : Int64).toInt ∧ ((1 : Int64).toInt ≤ 0 ∨
          (1 : Int64).toInt + (1 : Int64).toInt < 2 ^ 63 ∨
          (sorted.length : Int) ≤ (1 : Int64).toInt)) := by
  have hpaging := paging_exact [⟨"f", true⟩] sampleLines (by decide +kernel) sampleLines_ordered
  exact ⟨hpaging.1 2 (by decide) 4 (by decide), hpaging.2 1 1 "" _ (if_pos rfl)⟩

/-- All rows behind the first, asked for with the largest limit there is: the end of the page wraps,
and the page is empty. -/
theorem page_end_wraps :
    (scanOrdered byField 9223372036854775807 1 "" (sampleLines.map readRow)).toOption =
      some ([], "") ∧
    slice 9223372036854775807 1 (sort (sortLess byField) (sampleLines.map readRow)) =
      [⟨1, [("f", .str "b")]⟩, ⟨3, [("f", .str "b")]⟩] := by
  decide +kernel

end Scriva.Paging
