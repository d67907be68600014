import Scriva.Lib.JsonText
import Mathlib.Tactic.Positivity

namespace JsonText

open List Option

structure NumLit where
  neg : Bool
  int : List Char
  frac : List Char
  exp : Option Int
deriving DecidableEq, Repr

def expText (x : Int) : List Char :=
  'e' :: (if x < 0 then '-' else '+') :: Nat.toDigits 10 x.natAbs

def fracText (frac : List Char) : List Char :=
  if frac.isEmpty then [] else '.' :: frac

def signText (neg : Bool) : List Char :=
  if neg then ['-'] else []

def NumLit.text (l : NumLit) : List Char :=
  signText l.neg ++ (l.int ++ (fracText l.frac ++ l.exp.elim [] expText))

structure NumLit.WF (l : NumLit) : Prop where
  int_digits : ∀ c ∈ l.int, c.isDigit = true
  int_lead : l.int = ['0'] ∨ (l.int ≠ [] ∧ l.int.head? ≠ some '0')
  frac_digits : ∀ c ∈ l.frac, c.isDigit = true

def expVal : List Char → Option Int
  | [] => none
  | _ :: '+' :: ds => some (Nat.ofDigitChars 10 ds 0)
  | _ :: '-' :: ds => some (-(Nat.ofDigitChars 10 ds 0 : Int))
  | _ :: ds => some (Nat.ofDigitChars 10 ds 0)

def fracSplit : List Char → List Char × List Char
  | '.' :: r => (r.takeWhile Char.isDigit, r.dropWhile Char.isDigit)
  | r => ([], r)

def unsignedParts (neg : Bool) (s : List Char) : NumLit :=
  let fe := fracSplit (s.dropWhile Char.isDigit)
  { neg := neg, int := s.takeWhile Char.isDigit, frac := fe.1, exp := expVal fe.2 }

def litParts : List Char → NumLit
  | '-' :: r => unsignedParts true r
  | r => unsignedParts false r

theorem isDigit_ne {c d : Char} (h : c.isDigit = true) (hd : d.isDigit = false) : c ≠ d := by
  intro he; rw [he, hd] at h; cases h

variable {n : Nat} {l : NumLit}

theorem toDigits_isDigit : ∀ c ∈ Nat.toDigits 10 n, c.isDigit = true :=
  fun _ hc => Nat.isDigit_of_mem_toDigits (by decide) (by decide) hc

theorem toDigits_head (h : n ≠ 0) : (Nat.toDigits 10 n).head? ≠ some '0' := by
  induction n using Nat.strongRecOn with
  | ind n ih =>
    by_cases hn : n < 10
    · rw [Nat.toDigits_of_lt_base hn]
      have : ∀ k < 10, k ≠ 0 → [k.digitChar].head? ≠ some '0' := by decide
      exact this n hn h
    · rw [Nat.toDigits_of_base_le (by decide) (by omega), List.head?_append]
      have hne := ih (n / 10) (by omega) (by omega)
      cases hd : (Nat.toDigits 10 (n / 10)).head? with
      | none => exact absurd (List.head?_eq_none_iff.mp hd) Nat.toDigits_ne_nil
      | some c => rw [hd] at hne; simpa using hne

theorem toDigits_lead (n : Nat) :
    Nat.toDigits 10 n = ['0'] ∨ (Nat.toDigits 10 n ≠ [] ∧ (Nat.toDigits 10 n).head? ≠ some '0') := by
  by_cases h : n = 0
  · exact Or.inl (h ▸ Nat.toDigits_zero 10)
  · exact Or.inr ⟨Nat.toDigits_ne_nil, toDigits_head h⟩

theorem span_digits {ds r : List Char} (h : ∀ c ∈ ds, c.isDigit = true)
    (hr : ∀ c ∈ r.head?, c.isDigit = false) :
    (ds ++ r).takeWhile Char.isDigit = ds ∧ (ds ++ r).dropWhile Char.isDigit = r := by
  have hnil : r.takeWhile Char.isDigit = [] ∧ r.dropWhile Char.isDigit = r := by
    cases r with
    | nil => exact ⟨rfl, rfl⟩
    | cons c r => simp [hr c (by simp)]
  rw [takeWhile_append_of_pos h, dropWhile_append_of_pos h, hnil.1, hnil.2]
  simp

theorem expText_head (e : Option Int) : ∀ c ∈ (e.elim [] expText).head?, c = 'e' := by
  cases e with
  | none => simp
  | some x => intro c hc; simpa [expText] using hc.symm

theorem expVal_expText (e : Option Int) : expVal (e.elim [] expText) = e := by
  cases e with
  | none => rfl
  | some x =>
    by_cases hx : x < 0
    · simp only [elim_some, expText, if_pos hx, expVal, Nat.ofDigitChars_ten_toDigits]
      congr 1; omega
    · simp only [elim_some, expText, if_neg hx, expVal, Nat.ofDigitChars_ten_toDigits]
      congr 1; omega

theorem fracSplit_text {frac : List Char} (h : ∀ c ∈ frac, c.isDigit = true) (e : Option Int) :
    fracSplit (fracText frac ++ e.elim [] expText) = (frac, e.elim [] expText) := by
  have he : ∀ c ∈ (e.elim [] expText).head?, c.isDigit = false := by
    intro c hc; rw [expText_head e c hc]; decide
  cases frac with
  | nil =>
    cases e with
    | none => rfl
    | some x => rfl
  | cons c cs =>
    have hs := span_digits h he
    simp only [fracText, isEmpty_cons, Bool.false_eq_true, if_false, cons_append,
      fracSplit]
    rw [← cons_append, hs.1, hs.2]

theorem fracText_head (frac : List Char) (e : Option Int) :
    ∀ c ∈ (fracText frac ++ e.elim [] expText).head?, c.isDigit = false := by
  cases frac with
  | nil => intro c hc; rw [expText_head e c (by simpa [fracText] using hc)]; decide
  | cons d ds => intro c hc; cases (by simpa [fracText] using hc : '.' = c); decide

theorem unsignedParts_text (h : l.WF) :
    unsignedParts l.neg (l.int ++ (fracText l.frac ++ l.exp.elim [] expText)) = l := by
  have hs := span_digits h.int_digits (fracText_head l.frac l.exp)
  simp only [unsignedParts, hs.1, hs.2, fracSplit_text h.frac_digits, expVal_expText]

theorem int_cons (h : l.WF) : ∃ c cs, l.int = c :: cs ∧ c.isDigit = true := by
  cases hi : l.int with
  | nil => rcases h.int_lead with hl | ⟨hl, _⟩ <;> simp_all
  | cons c cs => exact ⟨c, cs, rfl, h.int_digits c (by simp [hi])⟩

/-- A literal is read back from its text. -/
theorem litParts_text (h : l.WF) : litParts l.text = l := by
  obtain ⟨c, cs, hc, hd⟩ := int_cons h
  have hp := unsignedParts_text h
  unfold NumLit.text signText
  cases hn : l.neg with
  | true => rw [hn] at hp; simpa [litParts] using hp
  | false =>
    rw [hn] at hp
    simp only [Bool.false_eq_true, if_false, nil_append]
    rw [hc, cons_append] at hp ⊢
    rw [litParts]
    · exact hp
    · intro r hr; exact isDigit_ne hd (by decide) (head_eq_of_cons_eq hr)

theorem validExp_text (e : Option Int) : validExp (e.elim [] expText) = true := by
  cases e with
  | none => rfl
  | some x =>
    have hne : (Nat.toDigits 10 x.natAbs).isEmpty = false := by
      simp
    have hall : (Nat.toDigits 10 x.natAbs).all Char.isDigit = true :=
      all_eq_true.mpr toDigits_isDigit
    by_cases hx : x < 0
    · simp [expText, hx, validExp, hne, hall]
    · simp [expText, hx, validExp, hne, hall]

theorem validFrac_text {frac : List Char} (h : ∀ c ∈ frac, c.isDigit = true) (e : Option Int) :
    validFrac (fracText frac ++ e.elim [] expText) = true := by
  have he := validExp_text e
  cases frac with
  | nil =>
    cases e with
    | none => rfl
    | some x => exact he
  | cons c cs =>
    have hs := span_digits h (r := e.elim [] expText) (by
      intro d hd; rw [expText_head e d hd]; decide)
    simp only [fracText, isEmpty_cons, Bool.false_eq_true, if_false, cons_append,
      validFrac]
    rw [← cons_append, hs.1, hs.2, he]
    rfl

theorem validUnsigned_text (h : l.WF) :
    validUnsigned (l.int ++ (fracText l.frac ++ l.exp.elim [] expText)) = true := by
  have hs := span_digits h.int_digits (fracText_head l.frac l.exp)
  simp only [validUnsigned, hs.1, hs.2, validFrac_text h.frac_digits, Bool.and_true]
  rcases h.int_lead with hl | ⟨hne, hz⟩
  · simp [hl]
  · simp [hne, hz]

theorem isNumChar_of_isDigit {c : Char} (h : c.isDigit = true) : isNumChar c = true := by
  simp [isNumChar, h]

theorem text_isNumChar (h : l.WF) : ∀ c ∈ l.text, isNumChar c = true := by
  intro c hc
  simp only [NumLit.text, mem_append] at hc
  rcases hc with hc | hc | hc | hc
  · unfold signText at hc
    split at hc
    · cases mem_singleton.mp hc; decide
    · simp at hc
  · exact isNumChar_of_isDigit (h.int_digits c hc)
  · unfold fracText at hc
    split at hc
    · simp at hc
    · rcases mem_cons.mp hc with hc | hc
      · subst hc; decide
      · exact isNumChar_of_isDigit (h.frac_digits c hc)
  · cases he : l.exp with
    | none => simp [he] at hc
    | some x =>
      simp only [he, elim_some, expText, mem_cons] at hc
      rcases hc with hc | hc | hc
      · subst hc; decide
      · split at hc <;> (subst hc; decide)
      · exact isNumChar_of_isDigit (toDigits_isDigit c hc)

theorem valid_text (h : l.WF) : Valid (.num l.text) := by
  refine ⟨?_, text_isNumChar h⟩
  obtain ⟨c, cs, hc, hd⟩ := int_cons h
  have hv := validUnsigned_text h
  unfold NumLit.text signText
  cases hn : l.neg with
  | true => simpa [validNumber] using hv
  | false =>
    simp only [Bool.false_eq_true, if_false, nil_append]
    rw [hc, cons_append] at hv ⊢
    rw [validNumber]
    · exact hv
    · intro r hr; exact isDigit_ne hd (by decide) (head_eq_of_cons_eq hr)

def intLit (n : Int) : NumLit :=
  { neg := n < 0, int := Nat.toDigits 10 n.natAbs, frac := [], exp := none }

def NumLit.toInt (l : NumLit) : Option Int :=
  if l.frac = [] ∧ l.exp = none then
    let n : Int := Nat.ofDigitChars 10 l.int 0
    some (if l.neg then -n else n)
  else none

theorem intLit_wf (n : Int) : (intLit n).WF where
  int_digits := toDigits_isDigit
  int_lead := toDigits_lead _
  frac_digits := by simp [intLit]

theorem intLit_toInt (n : Int) : (intLit n).toInt = some n := by
  simp only [NumLit.toInt, intLit, and_self, if_true, Nat.ofDigitChars_ten_toDigits,
    decide_eq_true_eq]
  congr 1
  split <;> omega

/-- The number `± mant * 10 ^ exp`, without trailing zeros in `mant`. -/
structure Decimal where
  neg : Bool
  mant : Nat
  exp : Int
  normal : mant % 10 ≠ 0 ∨ (mant = 0 ∧ exp = 0)
deriving DecidableEq, Repr

def stripZeros : Nat → Nat → Int → Nat × Int
  | 0, m, e => (m, e)
  | k + 1, m, e => if m % 10 = 0 then stripZeros k (m / 10) (e + 1) else (m, e)

def normalise (m : Nat) (e : Int) : Nat × Int :=
  if m = 0 then (0, 0) else stripZeros m m e

theorem stripZeros_normal {k m : Nat} (hm : m ≠ 0) (hk : m ≤ k) (e : Int) :
    (stripZeros k m e).1 % 10 ≠ 0 := by
  induction k generalizing m e with
  | zero => omega
  | succ k ih =>
    rw [stripZeros]
    split
    · exact ih (by omega) (by omega) _
    · assumption

theorem normalise_normal (m : Nat) (e : Int) :
    (normalise m e).1 % 10 ≠ 0 ∨ ((normalise m e).1 = 0 ∧ (normalise m e).2 = 0) := by
  unfold normalise
  split
  · exact Or.inr ⟨rfl, rfl⟩
  · exact Or.inl (stripZeros_normal ‹_› (le_refl _) e)

theorem stripZeros_mul {m : Nat} (hm : m % 10 ≠ 0) (k f : Nat) (hf : k ≤ f) (e : Int) :
    stripZeros f (m * 10 ^ k) e = (m, e + k) := by
  induction k generalizing f e with
  | zero =>
    cases f with
    | zero => simp [stripZeros]
    | succ f => simp [stripZeros, hm]
  | succ k ih =>
    cases f with
    | zero => omega
    | succ f =>
      have hmod : m * 10 ^ (k + 1) % 10 = 0 := by
        rw [pow_succ, ← Nat.mul_assoc]; exact Nat.mul_mod_left _ _
      have hdiv : m * 10 ^ (k + 1) / 10 = m * 10 ^ k := by
        rw [pow_succ, ← Nat.mul_assoc]; exact Nat.mul_div_cancel _ (by decide)
      rw [stripZeros, if_pos hmod, hdiv, ih f (by omega)]
      congr 1
      push_cast
      omega

theorem normalise_mul (d : Decimal) (k : Nat) :
    normalise (d.mant * 10 ^ k) (d.exp - k) = (d.mant, d.exp) := by
  rcases d.normal with hm | ⟨hm, he⟩
  · have hpos : d.mant ≠ 0 := by intro h0; rw [h0] at hm; exact hm rfl
    have hne : d.mant * 10 ^ k ≠ 0 := Nat.mul_ne_zero hpos (by positivity)
    have hle : k ≤ d.mant * 10 ^ k :=
      le_trans (Nat.lt_pow_self (by decide)).le (Nat.le_mul_of_pos_left _ (by omega))
    rw [normalise, if_neg hne, stripZeros_mul hm k _ hle]
    congr 1
    omega
  · simp [normalise, hm, he]

def NumLit.toDecimal (l : NumLit) : Decimal :=
  let p := normalise (Nat.ofDigitChars 10 (l.int ++ l.frac) 0) (l.exp.getD 0 - l.frac.length)
  { neg := l.neg, mant := p.1, exp := p.2, normal := normalise_normal _ _ }

def Decimal.point (d : Decimal) : Int :=
  (Nat.toDigits 10 d.mant).length + d.exp

def Decimal.sciLit (d : Decimal) : NumLit :=
  let ds := Nat.toDigits 10 d.mant
  { neg := d.neg, int := ds.take 1, frac := ds.drop 1, exp := some (d.point - 1) }

def Decimal.plainLit (d : Decimal) : NumLit :=
  let ds := Nat.toDigits 10 d.mant
  if 0 ≤ d.exp then
    { neg := d.neg, int := ds ++ List.replicate d.exp.toNat '0', frac := [], exp := none }
  else if 0 < d.point then
    { neg := d.neg, int := ds.take d.point.toNat, frac := ds.drop d.point.toNat, exp := none }
  else
    { neg := d.neg, int := ['0'], frac := List.replicate (-d.point).toNat '0' ++ ds, exp := none }

/-- The literal a JSON encoder writes: plain digits, or an exponent for very small and very
large magnitudes. -/
def Decimal.lit (d : Decimal) : NumLit :=
  if d.mant ≠ 0 ∧ (d.point ≤ -6 ∨ 21 < d.point) then d.sciLit else d.plainLit

theorem Decimal.ofParts {d : Decimal} (k : Nat) (hn : l.neg = d.neg)
    (hm : Nat.ofDigitChars 10 (l.int ++ l.frac) 0 = d.mant * 10 ^ k)
    (he : l.exp.getD 0 - l.frac.length = d.exp - k) : l.toDecimal = d := by
  have hp := normalise_mul d k
  obtain ⟨neg, mant, exp, normal⟩ := d
  simp only [NumLit.toDecimal, hn, hm, he, hp]

theorem Decimal.sciLit_toDecimal (d : Decimal) : d.sciLit.toDecimal = d := by
  have hlen : 0 < (Nat.toDigits 10 d.mant).length := Nat.length_toDigits_pos
  refine ofParts 0 rfl ?_ ?_
  · simp only [sciLit, take_append_drop, Nat.ofDigitChars_ten_toDigits, pow_zero, mul_one]
  · simp only [sciLit, point, getD_some, length_drop]
    omega

theorem Decimal.plainLit_toDecimal (d : Decimal) : d.plainLit.toDecimal = d := by
  unfold plainLit
  simp only
  split_ifs with h1 h2
  · refine ofParts d.exp.toNat rfl ?_ ?_
    · simp only [append_nil, Nat.ofDigitChars_append, Nat.ofDigitChars_ten_toDigits,
        Nat.ofDigitChars_replicate_zero, Nat.mul_comm]
    · simp only [Option.getD_none, length_nil]
      omega
  · refine ofParts 0 rfl ?_ ?_
    · simp only [take_append_drop, Nat.ofDigitChars_ten_toDigits, pow_zero, mul_one]
    · simp only [Option.getD_none, length_drop, point] at h2 ⊢
      omega
  · refine ofParts 0 rfl ?_ ?_
    · simp only [singleton_append, Nat.ofDigitChars_cons, Nat.ofDigitChars_append,
        Nat.ofDigitChars_replicate_zero, pow_zero, mul_one]
      exact Nat.ofDigitChars_ten_toDigits
    · simp only [Option.getD_none, length_append, length_replicate, point] at h2 ⊢
      omega

/-- Printing a number loses nothing. -/
theorem Decimal.lit_toDecimal (d : Decimal) : d.lit.toDecimal = d := by
  unfold lit
  split
  · exact d.sciLit_toDecimal
  · exact d.plainLit_toDecimal

theorem take_lead {k : Nat} (h : n ≠ 0) (hk : 0 < k) :
    (Nat.toDigits 10 n).take k = ['0'] ∨ ((Nat.toDigits 10 n).take k ≠ [] ∧
      ((Nat.toDigits 10 n).take k).head? ≠ some '0') := by
  have hne : Nat.toDigits 10 n ≠ [] := Nat.toDigits_ne_nil
  refine Or.inr ⟨by simp [hne]; omega, ?_⟩
  rw [List.head?_take, if_neg (by omega)]
  exact toDigits_head h

theorem replicate_zero_isDigit (n : Nat) : ∀ c ∈ List.replicate n '0', c.isDigit = true := by
  intro c hc
  rw [eq_of_mem_replicate hc]
  decide

theorem Decimal.sciLit_wf {d : Decimal} (h : d.mant ≠ 0) : d.sciLit.WF :=
  ⟨fun c hc => toDigits_isDigit c (mem_of_mem_take hc), take_lead h (by decide),
    fun c hc => toDigits_isDigit c (mem_of_mem_drop hc)⟩

theorem Decimal.plainLit_wf (d : Decimal) : d.plainLit.WF := by
  have hd : ∀ c ∈ Nat.toDigits 10 d.mant, c.isDigit = true := toDigits_isDigit
  unfold plainLit
  simp only
  split_ifs with h1 h2
  · refine ⟨?_, ?_, by simp⟩
    · intro c hc
      rcases mem_append.mp hc with hc | hc
      · exact hd c hc
      · exact replicate_zero_isDigit _ c hc
    · by_cases h0 : d.mant = 0
      · rcases d.normal with hn | ⟨_, hn⟩
        · rw [h0] at hn; exact absurd rfl hn
        · exact Or.inl (by simp [h0, hn])
      · refine Or.inr ⟨by simp, ?_⟩
        rw [List.head?_append_of_ne_nil _ Nat.toDigits_ne_nil]
        exact toDigits_head h0
  · have hm : d.mant ≠ 0 := by
      intro h0
      rcases d.normal with hn | ⟨_, hn⟩
      · rw [h0] at hn; exact hn rfl
      · omega
    exact ⟨fun c hc => hd c (mem_of_mem_take hc), take_lead hm (by omega),
      fun c hc => hd c (mem_of_mem_drop hc)⟩
  · refine ⟨by simp, Or.inl rfl, ?_⟩
    intro c hc
    rcases mem_append.mp hc with hc | hc
    · exact replicate_zero_isDigit _ c hc
    · exact hd c hc

theorem Decimal.lit_wf (d : Decimal) : d.lit.WF := by
  unfold lit
  split
  · next h => exact sciLit_wf h.1
  · exact d.plainLit_wf

end JsonText
