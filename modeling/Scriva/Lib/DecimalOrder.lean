import Scriva.Lib.Decimal
import Mathlib.Data.Rat.Cast.Order
import Mathlib.Tactic.FieldSimp

namespace JsonText

def Decimal.num (d : Decimal) : Int :=
  if d.neg then -(d.mant : Int) else d.mant

def Decimal.scaled (d : Decimal) (e : Int) : Int :=
  d.num * 10 ^ (d.exp - e).toNat

def Decimal.cmp (a b : Decimal) : Ordering :=
  compare (a.scaled (min a.exp b.exp)) (b.scaled (min a.exp b.exp))

def Decimal.isZero (d : Decimal) : Bool :=
  d.mant == 0

def Decimal.toRat (d : Decimal) : ℚ :=
  d.num * (10 : ℚ) ^ d.exp

variable {a b : Decimal}

theorem Decimal.scaled_eq (d : Decimal) {e : Int} (h : e ≤ d.exp) :
    ((d.scaled e : Int) : ℚ) = d.toRat * (10 : ℚ) ^ (-e) := by
  have hnat : ((d.exp - e).toNat : Int) = d.exp - e := Int.toNat_of_nonneg (by omega)
  have hpow : (10 : ℚ) ^ (d.exp - e).toNat = (10 : ℚ) ^ d.exp * (10 : ℚ) ^ (-e) := by
    rw [← zpow_natCast, hnat, ← zpow_add₀ (by norm_num)]
    rfl
  rw [Decimal.scaled, Decimal.toRat]
  push_cast
  rw [hpow, mul_assoc]

theorem Decimal.cmp_eq (a b : Decimal) : a.cmp b = compare a.toRat b.toRat := by
  have hpos : (0 : ℚ) < (10 : ℚ) ^ (-(min a.exp b.exp)) := zpow_pos (by norm_num) _
  have ha := a.scaled_eq (min_le_left a.exp b.exp)
  have hb := b.scaled_eq (min_le_right a.exp b.exp)
  unfold Decimal.cmp
  rcases lt_trichotomy a.toRat b.toRat with hlt | heq | hgt
  · have : a.scaled (min a.exp b.exp) < b.scaled (min a.exp b.exp) := by
      have h := mul_lt_mul_of_pos_right hlt hpos
      rw [← ha, ← hb] at h
      exact_mod_cast h
    rw [compare_lt_iff_lt.mpr this, compare_lt_iff_lt.mpr hlt]
  · have : a.scaled (min a.exp b.exp) = b.scaled (min a.exp b.exp) := by
      rw [heq] at ha
      have h := ha.trans hb.symm
      exact_mod_cast h
    rw [compare_eq_iff_eq.mpr this, compare_eq_iff_eq.mpr heq]
  · have : b.scaled (min a.exp b.exp) < a.scaled (min a.exp b.exp) := by
      have h := mul_lt_mul_of_pos_right hgt hpos
      rw [← ha, ← hb] at h
      exact_mod_cast h
    rw [compare_gt_iff_gt.mpr this, compare_gt_iff_gt.mpr hgt]

theorem Decimal.num_eq_zero : a.num = 0 ↔ a.mant = 0 := by
  unfold Decimal.num
  split <;> omega

theorem normal_exp_le {m n : Nat} {k : Nat} (hm : m % 10 ≠ 0) (h : m = n * 10 ^ k) : k = 0 := by
  cases k with
  | zero => rfl
  | succ k =>
    rw [pow_succ, ← Nat.mul_assoc] at h
    rw [h, Nat.mul_mod_left] at hm
    exact absurd rfl hm

theorem Decimal.eq_of_scaled {e : Int} (ha : a.mant ≠ 0) (hb : b.mant ≠ 0) (hea : e = a.exp)
    (heb : e ≤ b.exp) (h : a.scaled e = b.scaled e) : a = b := by
  have hpow : (0 : Int) < 10 ^ (b.exp - e).toNat := by positivity
  have ha0 : (a.exp - e).toNat = 0 := by omega
  rw [Decimal.scaled, Decimal.scaled, ha0, pow_zero, mul_one] at h
  have hsign : a.neg = b.neg := by
    unfold Decimal.num at h
    have hbm : (0 : Int) < b.mant := by omega
    have hprod : 0 < (b.mant : Int) * 10 ^ (b.exp - e).toNat := mul_pos hbm hpow
    cases hna : a.neg <;> cases hnb : b.neg <;> simp only [hna, hnb, if_true, Bool.false_eq_true,
      if_false, neg_mul] at h
    · rfl
    · omega
    · omega
    · rfl
  have hmant : a.mant = b.mant * 10 ^ (b.exp - e).toNat := by
    unfold Decimal.num at h
    rw [hsign] at h
    cases hnb : b.neg <;> simp only [hnb, if_true, Bool.false_eq_true, if_false, neg_mul,
      neg_inj] at h <;> exact_mod_cast h
  have hk : (b.exp - e).toNat = 0 :=
    normal_exp_le (a.normal.resolve_right fun h0 => ha h0.1) hmant
  rw [hk, pow_zero, mul_one] at hmant
  have hexp : a.exp = b.exp := by omega
  obtain ⟨an, am, ae, anorm⟩ := a
  obtain ⟨bn, bm, be, bnorm⟩ := b
  simp only at hsign hmant hexp
  subst hsign hmant hexp
  rfl

theorem Decimal.scaled_zero {e : Int} : a.scaled e = 0 ↔ a.mant = 0 := by
  rw [Decimal.scaled, mul_eq_zero, Decimal.num_eq_zero, or_iff_left (by positivity)]

theorem Decimal.cmp_eq_eq : a.cmp b = .eq ↔ a = b ∨ a.isZero = true ∧ b.isZero = true := by
  unfold Decimal.cmp Decimal.isZero
  rw [compare_eq_iff_eq, beq_iff_eq, beq_iff_eq]
  constructor
  · intro h
    by_cases ha : a.mant = 0
    · refine Or.inr ⟨ha, ?_⟩
      rw [Decimal.scaled_zero.mpr ha] at h
      exact Decimal.scaled_zero.mp h.symm
    · have hb : b.mant ≠ 0 := fun h0 => by
        rw [Decimal.scaled_zero.mpr h0] at h
        exact ha (Decimal.scaled_zero.mp h)
      refine Or.inl ?_
      rcases le_total a.exp b.exp with hle | hle
      · exact Decimal.eq_of_scaled ha hb (min_eq_left hle) (by omega) h
      · exact (Decimal.eq_of_scaled hb ha (min_eq_right hle) (by omega) h.symm).symm
  · rintro (rfl | ⟨ha, hb⟩)
    · rfl
    · rw [Decimal.scaled_zero.mpr ha, Decimal.scaled_zero.mpr hb]

end JsonText
