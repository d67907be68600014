import Scriva.Lib.Decimal
import Mathlib.Data.List.DropRight

namespace Rfc3339

open List Option

open JsonText (toDigits_isDigit span_digits)

def isLeap (year : Int) : Bool :=
  year % 4 = 0 && (year % 100 ≠ 0 || year % 400 = 0)

def daysIn (month : Nat) (year : Int) : Nat :=
  if month = 2 then (if isLeap year then 29 else 28)
  else if month = 4 ∨ month = 6 ∨ month = 9 ∨ month = 11 then 30
  else 31

def validFields (year : Int) (month day hour minute second nano : Nat) : Bool :=
  1 ≤ month && month ≤ 12 && 1 ≤ day && day ≤ daysIn month year && hour < 24 && minute < 60 &&
    second < 60 && nano < 10 ^ 9

/-- An instant by its civil fields in a zone, with the zone's offset in seconds east. -/
structure Time where
  year : Int
  month : Nat
  day : Nat
  hour : Nat
  minute : Nat
  second : Nat
  nano : Nat
  offset : Int
  valid : validFields year month day hour minute second nano = true
deriving DecidableEq, Repr

def zeroTime : Time :=
  { year := 1, month := 1, day := 1, hour := 0, minute := 0, second := 0, nano := 0, offset := 0,
    valid := by decide }

def pad (k n : Nat) : List Char :=
  List.replicate (k - (Nat.toDigits 10 n).length) '0' ++ Nat.toDigits 10 n

def yearText (y : Int) : List Char :=
  if y < 0 then '-' :: pad 4 y.natAbs else pad 4 y.natAbs

def nanoText (n : Nat) : List Char :=
  let ds := (pad 9 n).rdropWhile (· == '0')
  if ds.isEmpty then [] else '.' :: ds

def zoneMinutes (t : Time) : Int :=
  t.offset.tdiv 60

def zoneText (t : Time) : List Char :=
  if t.offset = 0 then ['Z']
  else
    let m := (zoneMinutes t).natAbs
    (if zoneMinutes t < 0 then '-' else '+') :: (pad 2 (m / 60) ++ ':' :: pad 2 (m % 60))

def clockText (t : Time) : List Char :=
  pad 2 t.hour ++ ':' :: (pad 2 t.minute ++ ':' :: (pad 2 t.second ++
    (nanoText t.nano ++ zoneText t)))

def format (t : Time) : List Char :=
  yearText t.year ++ '-' :: (pad 2 t.month ++ '-' :: (pad 2 t.day ++ 'T' :: clockText t))

def takeNat (k : Nat) (s : List Char) : Option (Nat × List Char) :=
  if (s.take k).length = k ∧ (s.take k).all Char.isDigit then
    some (Nat.ofDigitChars 10 (s.take k) 0, s.drop k)
  else none

def expect (c : Char) : List Char → Option (List Char)
  | [] => none
  | d :: r => if d = c then some r else none

def parseNano : List Char → Option (Nat × List Char)
  | '.' :: r =>
    let ds := r.takeWhile Char.isDigit
    if ds.isEmpty then none
    else some (Nat.ofDigitChars 10 ((ds ++ List.replicate (9 - ds.length) '0').take 9) 0,
      r.dropWhile Char.isDigit)
  | r => some (0, r)

def parseZone : List Char → Option Int
  | ['Z'] => some 0
  | s :: r => do
    let (h, r) ← takeNat 2 r
    let r ← expect ':' r
    let (m, r) ← takeNat 2 r
    if h ≤ 24 ∧ m ≤ 60 ∧ r = [] ∧ (s = '+' ∨ s = '-') then
      some (if s = '-' then -(60 * (60 * h + m) : Int) else 60 * (60 * h + m))
    else none
  | [] => none

def parseClock (year : Int) (month day : Nat) (s : List Char) : Option Time := do
  let (hour, s) ← takeNat 2 s
  let s ← expect ':' s
  let (minute, s) ← takeNat 2 s
  let s ← expect ':' s
  let (second, s) ← takeNat 2 s
  let (nano, s) ← parseNano s
  let offset ← parseZone s
  if h : validFields year month day hour minute second nano = true then
    some { year, month, day, hour, minute, second, nano, offset, valid := h }
  else none

def parse (s : List Char) : Option Time := do
  let (year, s) ← takeNat 4 s
  let s ← expect '-' s
  let (month, s) ← takeNat 2 s
  let s ← expect '-' s
  let (day, s) ← takeNat 2 s
  let s ← expect 'T' s
  parseClock year month day s

/-- Four-digit years and whole-minute offsets: what the text can carry. -/
def Printable (t : Time) : Prop :=
  0 ≤ t.year ∧ t.year ≤ 9999 ∧ t.offset % 60 = 0 ∧ (zoneMinutes t).natAbs < 25 * 60

instance (t : Time) : Decidable (Printable t) :=
  inferInstanceAs (Decidable (_ ∧ _))

variable {k n : Nat} {t : Time}

theorem pad_length (hk : 0 < k) (h : n < 10 ^ k) : (pad k n).length = k := by
  have := (Nat.length_toDigits_le_iff (by decide) hk).mpr h
  simp only [pad, length_append, length_replicate]
  omega

theorem pad_isDigit : ∀ c ∈ pad k n, c.isDigit = true := by
  intro c hc
  rcases mem_append.mp hc with hc | hc
  · rw [eq_of_mem_replicate hc]; decide
  · exact toDigits_isDigit c hc

theorem pad_value (k n : Nat) : Nat.ofDigitChars 10 (pad k n) 0 = n := by
  rw [pad, Nat.ofDigitChars_append, Nat.ofDigitChars_replicate_zero, Nat.mul_zero,
    Nat.ofDigitChars_ten_toDigits]

theorem takeNat_pad (hk : 0 < k) (h : n < 10 ^ k) (r : List Char) :
    takeNat k (pad k n ++ r) = some (n, r) := by
  have hlen := pad_length hk h
  have htake : (pad k n ++ r).take k = pad k n := take_left' hlen
  have hdrop : (pad k n ++ r).drop k = r := drop_left' hlen
  rw [takeNat, htake, hdrop, if_pos ⟨hlen, all_eq_true.mpr pad_isDigit⟩, pad_value]

theorem rdropWhile_zero_pad (ds : List Char) :
    ds.rdropWhile (· == '0') ++
      List.replicate (ds.length - (ds.rdropWhile (· == '0')).length) '0' = ds := by
  induction ds using List.reverseRecOn with
  | nil => rfl
  | append_singleton ds c ih =>
    by_cases hc : c = '0'
    · subst hc
      have hle : (ds.rdropWhile (· == '0')).length ≤ ds.length :=
        (List.rdropWhile_prefix _ _).length_le
      rw [rdropWhile_concat_pos _ _ _ (by decide), length_append, length_singleton,
        Nat.succ_sub hle, replicate_succ', ← append_assoc, ih]
    · rw [rdropWhile_concat_neg _ _ _ (by simpa using hc)]
      simp

theorem parseNano_nanoText (h : n < 10 ^ 9) {r : List Char}
    (hr : ∀ c ∈ r.head?, c.isDigit = false ∧ c ≠ '.') :
    parseNano (nanoText n ++ r) = some (n, r) := by
  have hlen := pad_length (by decide) h
  have hpad := rdropWhile_zero_pad (pad 9 n)
  have hval := pad_value 9 n
  rw [hlen] at hpad
  unfold nanoText
  cases hds : (pad 9 n).rdropWhile (· == '0') with
  | nil =>
    have hn : n = 0 := by
      rw [hds, nil_append] at hpad
      rw [← hval, ← hpad, Nat.ofDigitChars_replicate_zero, Nat.mul_zero]
    subst hn
    cases r with
    | nil => rfl
    | cons c r =>
      simp only [isEmpty_nil, if_true, nil_append]
      rw [parseNano]
      intro r' hcr
      exact (hr c (by simp)).2 (head_eq_of_cons_eq hcr)
  | cons d ds =>
    have hdig : ∀ c ∈ d :: ds, c.isDigit = true := by
      intro c hc
      exact pad_isDigit (n := n) (k := 9) c ((List.rdropWhile_prefix _ _).subset (hds ▸ hc))
    have hs := span_digits hdig fun c hc => (hr c hc).1
    rw [hds] at hpad
    simp only [isEmpty_cons, Bool.false_eq_true, if_false, cons_append, parseNano]
    rw [← cons_append, hs.1, hs.2, hpad, take_of_length_le (by omega), hval]
    rfl

theorem zoneText_head (t : Time) :
    ∀ c ∈ (zoneText t).head?, c.isDigit = false ∧ c ≠ '.' := by
  intro c hc
  unfold zoneText at hc
  split at hc
  · cases (by simpa using hc : 'Z' = c); decide
  · simp only [List.head?_cons, Option.mem_some_iff] at hc
    subst hc
    split <;> decide

theorem takeNat_pad_long (hk : 0 < k) (h : 10 ^ k ≤ n) {c : Char} (hc : c.isDigit = false)
    (r : List Char) : ((takeNat k (pad k n ++ r)).bind fun p => expect c p.2) = none := by
  have hlen : k < (pad k n).length := by
    have : ¬ (Nat.toDigits 10 n).length ≤ k := by
      rw [Nat.length_toDigits_le_iff (by decide) hk]; omega
    simp only [pad, length_append]
    omega
  unfold takeNat
  split
  · have hne : (pad k n).drop k ≠ [] := by
      intro h0; rw [drop_eq_nil_iff] at h0; omega
    obtain ⟨d, ds, hd⟩ := exists_cons_of_ne_nil hne
    have hdig : d.isDigit = true := pad_isDigit d (mem_of_mem_drop (hd ▸ mem_cons_self))
    rw [bind_some, drop_append_of_le_length hlen.le, hd, cons_append, expect,
      if_neg (JsonText.isDigit_ne hdig hc)]
  · rfl

theorem parseZone_zoneText (h : t.offset % 60 = 0) (hm : (zoneMinutes t).natAbs < 25 * 60) :
    parseZone (zoneText t) = some t.offset := by
  obtain ⟨k, hk⟩ : ∃ k, t.offset = 60 * k := ⟨t.offset / 60, by omega⟩
  have hz : zoneMinutes t = k := by
    rw [zoneMinutes, hk]; exact Int.mul_tdiv_cancel_left k (by decide)
  unfold zoneText
  rw [hz] at hm ⊢
  by_cases h0 : t.offset = 0
  · rw [if_pos h0, h0]; rfl
  · rw [if_neg h0]
    have hh : k.natAbs / 60 < 10 ^ 2 := by omega
    have hmin : k.natAbs % 60 < 10 ^ 2 := by omega
    have hlast := takeNat_pad (by decide) hmin []
    rw [append_nil] at hlast
    rw [parseZone]
    · simp only [takeNat_pad (by decide) hh, bind_eq_bind, bind_some, expect,
        if_true, hlast]
      rw [if_pos ⟨by omega, by omega, trivial, by split <;> simp⟩]
      by_cases hneg : k < 0
      · simp only [hneg, if_true]; congr 1; omega
      · simp only [hneg, if_false, show ¬('+' = '-') by decide]; congr 1; omega
    · intro hs; split at hs <;> simp at hs

theorem parseZone_some {o : Int} (h : parseZone (zoneText t) = some o) :
    o % 60 = 0 ∧ (zoneMinutes t).natAbs < 25 * 60 := by
  unfold zoneText at h
  split at h
  · next h0 =>
    cases h
    exact ⟨rfl, by simp [zoneMinutes, h0]⟩
  · by_cases hh : (zoneMinutes t).natAbs / 60 < 10 ^ 2
    · have hmin : (zoneMinutes t).natAbs % 60 < 10 ^ 2 := by omega
      have hlast := takeNat_pad (by decide) hmin []
      rw [append_nil] at hlast
      rw [parseZone] at h
      · simp only [takeNat_pad (by decide) hh, bind_eq_bind, bind_some, expect,
          if_true, hlast, ite_none_right_eq_some, Option.some.injEq] at h
        obtain ⟨⟨hle, _⟩, ho⟩ := h
        refine ⟨?_, by omega⟩
        rw [← ho]
        split <;> omega
      · intro hs; split at hs <;> simp at hs
    · have hlong := takeNat_pad_long (k := 2) (by decide) (by omega) (c := ':') (by decide)
        (r := ':' :: pad 2 ((zoneMinutes t).natAbs % 60)) (n := (zoneMinutes t).natAbs / 60)
      rw [parseZone] at h
      · cases ht : takeNat 2 (pad 2 ((zoneMinutes t).natAbs / 60) ++
          ':' :: pad 2 ((zoneMinutes t).natAbs % 60)) with
        | none => rw [ht] at h; cases h
        | some p =>
          rw [ht, bind_some] at hlong
          simp only [ht, bind_eq_bind, bind_some, hlong, Option.bind_none] at h
          cases h
      · intro hs; split at hs <;> simp at hs

theorem parseClock_clockText (t : Time) :
    parseClock t.year t.month t.day (clockText t) =
      (parseZone (zoneText t)).map fun o => { t with offset := o } := by
  have hv := t.valid
  simp only [validFields, Bool.and_eq_true, decide_eq_true_eq] at hv
  obtain ⟨⟨⟨⟨_, hh⟩, hmin⟩, hs⟩, hn⟩ := hv
  unfold parseClock clockText
  simp only [takeNat_pad (k := 2) (by decide) (show t.hour < 10 ^ 2 by omega),
    takeNat_pad (k := 2) (by decide) (show t.minute < 10 ^ 2 by omega),
    takeNat_pad (k := 2) (by decide) (show t.second < 10 ^ 2 by omega),
    parseNano_nanoText hn (zoneText_head t), bind_eq_bind, bind_some, expect, if_true]
  cases parseZone (zoneText t) with
  | none => rfl
  | some o => simp only [bind_some, t.valid, dif_pos, map_some]

theorem parse_format_zone (h0 : 0 ≤ t.year) (h1 : t.year ≤ 9999) :
    parse (format t) = (parseZone (zoneText t)).map fun o => { t with offset := o } := by
  have hv := t.valid
  simp only [validFields, Bool.and_eq_true, decide_eq_true_eq] at hv
  obtain ⟨⟨⟨⟨⟨⟨⟨_, hmo⟩, _⟩, hd⟩, _⟩, _⟩, _⟩, _⟩ := hv
  have hday : t.day < 10 ^ 2 := by
    have : daysIn t.month t.year ≤ 31 := by unfold daysIn; split_ifs <;> omega
    omega
  have hyear : ((t.year.natAbs : Nat) : Int) = t.year := by omega
  unfold parse format yearText
  rw [if_neg (by omega)]
  simp only [takeNat_pad (k := 4) (by decide) (show t.year.natAbs < 10 ^ 4 by omega),
    takeNat_pad (k := 2) (by decide) (show t.month < 10 ^ 2 by omega),
    takeNat_pad (k := 2) (by decide) hday, bind_eq_bind, bind_some, expect, if_true,
    hyear]
  exact parseClock_clockText t

theorem parse_format_year (h : parse (format t) ≠ none) : 0 ≤ t.year ∧ t.year ≤ 9999 := by
  unfold parse format yearText at h
  by_cases h0 : t.year < 0
  · rw [if_pos h0] at h
    refine absurd ?_ h
    rw [takeNat, if_neg]
    · rfl
    · rintro ⟨_, hall⟩
      simp at hall
  · rw [if_neg h0] at h
    refine ⟨by omega, ?_⟩
    by_contra h1
    have hlong := takeNat_pad_long (k := 4) (by decide) (n := t.year.natAbs) (by omega) (c := '-')
      (by decide) (r := '-' :: (pad 2 t.month ++ '-' :: (pad 2 t.day ++ 'T' :: clockText t)))
    refine h ?_
    cases ht : takeNat 4 (pad 4 t.year.natAbs ++ '-' :: (pad 2 t.month ++ '-' ::
        (pad 2 t.day ++ 'T' :: clockText t))) with
    | none => rfl
    | some p =>
      rw [ht, bind_some] at hlong
      simp only [bind_eq_bind, bind_some, hlong, Option.bind_none]

theorem parse_format_iff (t : Time) : parse (format t) = some t ↔ Printable t := by
  constructor
  · intro h
    obtain ⟨h0, h1⟩ := parse_format_year (t := t) (by rw [h]; exact Option.some_ne_none t)
    rw [parse_format_zone h0 h1, map_eq_some_iff] at h
    obtain ⟨o, ho, heq⟩ := h
    obtain ⟨hmod, hm⟩ := parseZone_some ho
    rw [← heq] at h0 h1 ⊢
    exact ⟨h0, h1, hmod, by rw [heq]; exact hm⟩
  · rintro ⟨h0, h1, hmod, hm⟩
    rw [parse_format_zone h0 h1, parseZone_zoneText hmod hm]
    rfl

end Rfc3339
