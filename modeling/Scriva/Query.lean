import Scriva.SecondaryIndex
import Scriva.Lib.DecimalOrder

namespace Scriva

open JsonText List

/-- `asNumber`: strings that look like numbers are none. -/
def asNumber : Value → Option Decimal
  | .float d => some d
  | .int n => some (intLit n).toDecimal
  | _ => none

def equalValues (a b : Value) : Bool :=
  match asNumber a, asNumber b with
  | some x, some y => x.cmp y == .eq
  | _, _ => toIndexKey a == toIndexKey b

def compareValues (a b : Value) : Ordering :=
  match asNumber a, asNumber b with
  | some x, some y => x.cmp y
  | _, _ => if toIndexKey a < toIndexKey b then .lt else if toIndexKey a = toIndexKey b then .eq else .gt

inductive QueryOp where
  | eq
  | neq
  | gt
  | gte
  | lt
  | lte
  | contains
  | regex
deriving DecidableEq, Repr

structure FieldFilter where
  field : String
  op : QueryOp
  value : String
deriving DecidableEq, Repr

/-- `filterValueTyped`: what is no JSON is taken as a plain string. -/
def filterValueTyped (value : String) : Value :=
  match parse value.toList with
  | some j => ofJson j
  | none => .str value

def QueryOp.test (re : String → String → Bool) (op : QueryOp) (v cmp : Value) : Bool :=
  match op with
  | .eq => equalValues v cmp
  | .neq => !equalValues v cmp
  | .gt => compareValues v cmp == .gt
  | .gte => compareValues v cmp != .lt
  | .lt => compareValues v cmp == .lt
  | .lte => compareValues v cmp != .gt
  | .contains => decide (printValue cmp <:+: printValue v)
  | .regex => re (toIndexKey cmp) (toIndexKey v)

def FieldFilter.matches (re : String → String → Bool) (f : FieldFilter) (record : Data) : Bool :=
  match record.get f.field with
  | none => false
  | some v => f.op.test re v (filterValueTyped f.value)

theorem expDigits_value (x : Int) : expVal (expDigits x) = some x := by
  unfold expDigits
  by_cases hx : x < 0
  · simp only [if_pos hx, expVal, Rfc3339.pad_value]
    congr 1
    omega
  · simp only [if_neg hx, expVal, Rfc3339.pad_value]
    congr 1
    omega

theorem litParts_expDigits {l : NumLit} (h : l.WF) (hexp : l.exp = none) (x : Int) :
    litParts (l.text ++ expDigits x) = { l with exp := some x } := by
  obtain ⟨c, cs, hc, hd⟩ := int_cons h
  have htext : l.text = signText l.neg ++ (l.int ++ fracText l.frac) := by
    simp [NumLit.text, hexp]
  have hhead : ∀ c ∈ (expDigits x).head?, c.isDigit = false := by
    intro c hc
    cases (by simpa [expDigits] using hc : 'e' = c)
    decide
  have hfrac : fracSplit (fracText l.frac ++ expDigits x) = (l.frac, expDigits x) := by
    cases hf : l.frac with
    | nil =>
      show fracSplit (expDigits x) = _
      rfl
    | cons d ds =>
      have hs := span_digits (hf ▸ h.frac_digits) hhead
      simp only [fracText, isEmpty_cons, Bool.false_eq_true, if_false, cons_append,
        fracSplit]
      rw [← cons_append, hs.1, hs.2]
  have hrest : ∀ c ∈ (fracText l.frac ++ expDigits x).head?, c.isDigit = false := by
    intro c hc
    unfold fracText at hc
    split at hc
    · exact hhead c hc
    · cases (by simpa using hc : '.' = c)
      decide
  have hparts : ∀ neg, unsignedParts neg (l.int ++ (fracText l.frac ++ expDigits x)) =
      { neg := neg, int := l.int, frac := l.frac, exp := some x } := by
    intro neg
    have hs := span_digits h.int_digits hrest
    simp only [unsignedParts, hs.1, hs.2, hfrac, expDigits_value]
  rw [htext, append_assoc, append_assoc]
  unfold signText
  cases hn : l.neg with
  | true =>
    simp only [if_true, singleton_append, litParts]
    rw [hparts true]
  | false =>
    simp only [Bool.false_eq_true, if_false, nil_append]
    have hp := hparts false
    rw [hc, cons_append] at hp ⊢
    rw [litParts]
    · exact hp
    · intro r hr
      exact isDigit_ne hd (by decide) (head_eq_of_cons_eq hr)

theorem floatText_parse (d : Decimal) : (litParts (floatText d)).toDecimal = d := by
  unfold floatText
  split
  · next h =>
    have hwf : ({ d.sciLit with exp := none } : NumLit).WF := by
      obtain ⟨hi, hl, hf⟩ := Decimal.sciLit_wf h.1
      exact ⟨hi, hl, hf⟩
    rw [litParts_expDigits hwf rfl]
    exact d.sciLit_toDecimal
  · rw [litParts_text d.plainLit_wf]
    exact d.plainLit_toDecimal

theorem toIndexKey_toList (v : Value) : (toIndexKey v).toList = printValue v :=
  String.toList_ofList

theorem toIndexKey_str (s : String) : toIndexKey (.str s) = s :=
  String.ofList_toList

end Scriva
