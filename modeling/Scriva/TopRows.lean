import Scriva.SortOrder
import Scriva.Lib.Heap
import Scriva.Lib.Ranking

namespace Scriva.Paging

open Ranking List

structure TopK where
  cap : Int64
  buf : Array ScanResult

def TopK.push (less : ScanResult → ScanResult → Bool) (t : TopK) (r : ScanResult) : TopK :=
  if t.cap ≤ 0 then t
  else if (t.buf.size : Int) < t.cap.toInt then
    { t with buf := Heap.push (fun a b => less b a) t.buf r }
  else
    match t.buf[0]? with
    | none => t
    | some top =>
      if less r top then
        { t with buf := Heap.fix (fun a b => less b a) (t.buf.setIfInBounds 0 r) 0 }
      else t

def TopK.sorted (less : ScanResult → ScanResult → Bool) (t : TopK) : List ScanResult :=
  sort less t.buf.toList

variable {less : ScanResult → ScanResult → Bool} {rows seen : List ScanResult} {t : TopK}
  {r top : ScanResult}

/-- What the heap holds of the rows seen so far: as many as it has room for, none of them behind a
row it has dropped. -/
structure Kept (less : ScanResult → ScanResult → Bool) (rows seen : List ScanResult) (t : TopK) :
    Prop where
  split : ∃ rest, seen.Perm (t.buf.toList ++ rest) ∧
    ∀ x ∈ t.buf.toList, ∀ y ∈ rest, rank less rows x ≤ rank less rows y
  full : (t.buf.size : Int) = min t.cap.toInt seen.length
  ordered : Heap.Ordered (rank less rows) t.buf

theorem Kept.mem_rows (hk : Kept less rows seen t) (hseen : seen ⊆ rows) :
    ∀ x ∈ t.buf, x ∈ rows := by
  obtain ⟨rest, hperm, -⟩ := hk.split
  exact fun x hx => hseen (hperm.mem_iff.mpr (mem_append_left _ (Array.mem_toList_iff.mpr hx)))

theorem Kept.le_top (hk : Kept less rows seen t) (htop : t.buf[0]? = some top) :
    ∀ x ∈ t.buf.toList, rank less rows x ≤ rank less rows top := by
  intro x hx
  obtain ⟨i, hi⟩ := Array.getElem?_of_mem (Array.mem_toList_iff.mp hx)
  exact hk.ordered.root hi htop

theorem rankedBy_rank (h : StrictTotalOn less rows) :
    Heap.RankedBy (fun a b => less b a) (rank less rows) (· ∈ rows) :=
  fun _ _ hx hy => h.less_iff hy hx

theorem Kept.room (h : StrictTotalOn less rows) (hk : Kept less rows seen t) (hseen : seen ⊆ rows)
    (hr : r ∈ rows) (hroom : (t.buf.size : Int) < t.cap.toInt) :
    Kept less rows (seen ++ [r]) { t with buf := Heap.push (fun a b => less b a) t.buf r } := by
  obtain ⟨rest, hperm, -⟩ := hk.split
  have hfull := hk.full
  have hpush := Heap.perm_push (fun a b => less b a) t.buf r
  -- Room is left, so nothing was dropped so far.
  have hrest : rest = [] := by
    have hsum := hperm.length_eq
    have hsize : t.buf.toList.length = t.buf.size := Array.length_toList
    rw [length_append] at hsum
    exact length_eq_zero_iff.mp (by omega)
  refine ⟨⟨[], ?_, nofun⟩, ?_, Heap.ordered_push (rankedBy_rank h) (hk.mem_rows hseen) hr hk.ordered⟩
  · rw [append_nil]
    rw [hrest, append_nil] at hperm
    refine List.Perm.trans ?_ (Array.perm_iff_toList_perm.mp hpush).symm
    rw [Array.toList_push]
    exact hperm.append_right [r]
  · show (((Heap.push _ t.buf r).size : Nat) : Int) = min t.cap.toInt _
    rw [hpush.size_eq, Array.size_push, length_append, length_singleton]
    omega

theorem Kept.replace (h : StrictTotalOn less rows) (hk : Kept less rows seen t)
    (hseen : seen ⊆ rows) (hr : r ∈ rows) (hroom : ¬ (t.buf.size : Int) < t.cap.toInt)
    (htop : t.buf[0]? = some top) (hless : less r top = true) :
    Kept less rows (seen ++ [r])
      { t with buf := Heap.fix (fun a b => less b a) (t.buf.setIfInBounds 0 r) 0 } := by
  obtain ⟨rest, hperm, hle⟩ := hk.split
  have hfull := hk.full
  obtain ⟨hsize, rfl⟩ := Array.getElem?_eq_some_iff.mp htop
  have hrank := (h.less_iff hr (hk.mem_rows hseen _ (Array.getElem_mem hsize))).mp hless
  have hcons : t.buf.toList = t.buf[0] :: t.buf.toList.tail := by
    symm
    apply cons_head?_tail
    rw [head?_eq_getElem?, Array.getElem?_toList]
    exact htop
  have hfix := Heap.perm_fix (fun a b => less b a) (t.buf.setIfInBounds 0 r) 0
  have hlist : (Heap.fix (fun a b => less b a) (t.buf.setIfInBounds 0 r) 0).toList.Perm
      (r :: t.buf.toList.tail) := by
    refine (Array.perm_iff_toList_perm.mp hfix).trans ?_
    rw [Array.toList_setIfInBounds, hcons, set_cons_zero]
    exact List.Perm.refl _
  have hmoved : (t.buf.toList ++ rest ++ [r]).Perm
      ((r :: t.buf.toList.tail) ++ t.buf[0] :: rest) := by
    rw [hcons, tail_cons]
    refine (perm_append_singleton r _).trans ?_
    exact List.Perm.cons r perm_middle.symm
  refine ⟨⟨t.buf[0] :: rest, ?_, ?_⟩, ?_,
    Heap.ordered_fix (rankedBy_rank h) (hk.mem_rows hseen) hr hsize hk.ordered⟩
  · exact (hperm.append_right [r]).trans (hmoved.trans (hlist.symm.append_right _))
  · intro x hx y hy
    have hxle : rank less rows x ≤ rank less rows t.buf[0] ∧
        ∀ z ∈ rest, rank less rows x ≤ rank less rows z := by
      rcases mem_cons.mp (hlist.mem_iff.mp hx) with rfl | hx
      · refine ⟨hrank.le, fun z hz => hrank.le.trans ?_⟩
        exact hle _ (hcons ▸ mem_cons_self) z hz
      · have hx : x ∈ t.buf.toList := hcons ▸ mem_cons_of_mem _ hx
        exact ⟨hk.le_top htop x hx, hle x hx⟩
    rcases mem_cons.mp hy with rfl | hy
    · exact hxle.1
    · exact hxle.2 y hy
  · show (((Heap.fix _ (t.buf.setIfInBounds 0 r) 0).size : Nat) : Int) = min t.cap.toInt _
    rw [hfix.size_eq, Array.size_setIfInBounds, length_append, length_singleton]
    omega

theorem Kept.drop (h : StrictTotalOn less rows) (hk : Kept less rows seen t) (hseen : seen ⊆ rows)
    (hr : r ∈ rows) (hroom : ¬ (t.buf.size : Int) < t.cap.toInt) (htop : t.buf[0]? = some top)
    (hless : ¬ less r top = true) : Kept less rows (seen ++ [r]) t := by
  obtain ⟨rest, hperm, hle⟩ := hk.split
  have hfull := hk.full
  have htoprow := hk.mem_rows hseen top (Array.mem_of_getElem? htop)
  rw [h.less_iff hr htoprow] at hless
  refine ⟨⟨rest ++ [r], ?_, ?_⟩, ?_, hk.ordered⟩
  · rw [← append_assoc]
    exact hperm.append_right [r]
  · intro x hx y hy
    rcases mem_append.mp hy with hy | hy
    · exact hle x hx y hy
    · rw [mem_singleton.mp hy]
      exact (hk.le_top htop x hx).trans (not_lt.mp hless)
  · rw [length_append, length_singleton]
    omega

theorem Kept.push (h : StrictTotalOn less rows) (hseen : seen ⊆ rows) (hr : r ∈ rows)
    (hcap : 0 < t.cap.toInt) (hk : Kept less rows seen t) :
    Kept less rows (seen ++ [r]) (t.push less r) := by
  have hpos : ¬ t.cap ≤ 0 := by
    rw [Int64.le_iff_toInt_le]
    exact not_le.mpr hcap
  unfold TopK.push
  rw [if_neg hpos]
  split_ifs with hroom
  · exact hk.room h hseen hr hroom
  · have htop : t.buf[0]? = some t.buf[0] := Array.getElem?_eq_getElem (by omega)
    rw [htop]
    show Kept less rows _ (if less r t.buf[0] = true then _ else t)
    split_ifs with hless
    · exact hk.replace h hseen hr hroom htop hless
    · exact hk.drop h hseen hr hroom htop hless

theorem TopK.push_cap (t : TopK) (r : ScanResult) : (t.push less r).cap = t.cap := by
  unfold TopK.push
  split_ifs
  · rfl
  · rfl
  · cases t.buf[0]? with
    | none => rfl
    | some top =>
      show (if less r top = true then _ else t).cap = t.cap
      split_ifs <;> rfl

/-- After any rows the heap has the best of those seen. -/
theorem kept_foldl (h : StrictTotalOn less rows) {more : List ScanResult}
    (hsub : seen ++ more ⊆ rows) (hcap : 0 < t.cap.toInt) (hk : Kept less rows seen t) :
    Kept less rows (seen ++ more) (more.foldl (TopK.push less) t) := by
  induction more generalizing seen t with
  | nil =>
    rw [append_nil]
    exact hk
  | cons r more ih =>
    have hseen : seen ⊆ rows := fun x hx => hsub (mem_append_left _ hx)
    have hr : r ∈ rows := hsub (mem_append_right _ mem_cons_self)
    have happ : seen ++ r :: more = (seen ++ [r]) ++ more := by simp
    rw [foldl_cons, happ]
    rw [happ] at hsub
    exact ih hsub (by rw [TopK.push_cap]; exact hcap) (hk.push h hseen hr hcap)

theorem foldl_push_cap (l : List ScanResult) (t : TopK) :
    (l.foldl (TopK.push less) t).cap = t.cap := by
  induction l generalizing t with
  | nil => rfl
  | cons r l ih =>
    rw [foldl_cons, ih, TopK.push_cap]

theorem sorted_topK (h : StrictTotalOn less rows) {l : List ScanResult} (hl : l ⊆ rows)
    {cap : Int64} (hcap : 0 < cap.toInt) :
    (l.foldl (TopK.push less) ⟨cap, #[]⟩).sorted less = (sort less l).take cap.toInt.toNat := by
  have hempty : Kept less rows [] ⟨cap, #[]⟩ := by
    refine ⟨⟨[], List.Perm.refl _, nofun⟩, ?_, ?_⟩
    · show ((0 : Nat) : Int) = min cap.toInt ((0 : Nat) : Int)
      omega
    · intro i x y hx
      exact absurd hx (by simp)
  have hsub : [] ++ l ⊆ rows := hl
  have hk : Kept less rows l (l.foldl (TopK.push less) ⟨cap, #[]⟩) :=
    kept_foldl h hsub hcap hempty
  obtain ⟨rest, hperm, hle⟩ := hk.split
  have hfull := hk.full
  rw [foldl_push_cap] at hfull
  change _ = min cap.toInt _ at hfull
  generalize l.foldl (TopK.push less) ⟨cap, #[]⟩ = t at hperm hle hfull ⊢
  rw [h.sort_split hl hperm hle, TopK.sorted]
  have hsize : (sort less t.buf.toList).length = t.buf.size := by
    rw [(perm_sort less _).length_eq, Array.length_toList]
  have hbuf : t.buf.toList.length = t.buf.size := Array.length_toList
  have htotal := hperm.length_eq
  rw [length_append] at htotal
  by_cases hall : rest = []
  · subst hall
    have hnil : sort less ([] : List ScanResult) = [] := rfl
    rw [hnil, append_nil, take_of_length_le]
    omega
  · have hpos : 0 < rest.length := length_pos_iff.mpr hall
    rw [take_left']
    omega

theorem TopK.sorted_empty (cap : Int64) : TopK.sorted less ⟨cap, #[]⟩ = [] := rfl

theorem foldl_push_none (l : List ScanResult) {t : TopK} (h : t.cap ≤ 0) :
    l.foldl (TopK.push less) t = t := by
  induction l with
  | nil => rfl
  | cons r l ih =>
    rw [foldl_cons, TopK.push, if_pos h]
    exact ih

end Scriva.Paging
