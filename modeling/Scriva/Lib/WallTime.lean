import Mathlib.Tactic.NormNum
import Mathlib.Tactic.Push

namespace WallTime

theorem bmod_turns (n : Int) :
    ∃ k : Int, n.bmod (2 ^ 64) = n - 2 ^ 64 * k ∧ -2 ^ 63 ≤ n - 2 ^ 64 * k ∧
      n - 2 ^ 64 * k < 2 ^ 63 := by
  rw [Int.bmod_def]
  have hdiv := Int.emod_add_mul_ediv n (2 ^ 64)
  have hlt := Int.emod_lt_of_pos n (show (0 : Int) < 2 ^ 64 by decide)
  have hge := Int.emod_nonneg n (show (2 ^ 64 : Int) ≠ 0 by decide)
  norm_num at hdiv hlt hge ⊢
  split_ifs with h
  · exact ⟨n / 18446744073709551616, by omega, by omega, by omega⟩
  · exact ⟨n / 18446744073709551616 + 1, by omega, by omega, by omega⟩

theorem bmod_of_fits {n : Int} (hlow : -2 ^ 63 ≤ n) (hhigh : n < 2 ^ 63) : n.bmod (2 ^ 64) = n := by
  obtain ⟨k, hk, hlow', hhigh'⟩ := bmod_turns n
  have h0 : k = 0 := by omega
  rw [hk, h0]
  omega

/-- `time.Second`, and the nanoseconds of a second. -/
def second : Int64 := 1000000000

/-- An instant, as `time.Time` has it: seconds since the beginning of the year 1, and nanoseconds
within the second. -/
structure Time where
  sec : Int64
  nsec : Nat
  within : nsec < 1000000000
deriving DecidableEq

def unixToInternal : Int64 := 62135596800

def Time.zero : Time :=
  ⟨0, 0, by decide⟩

def Time.isZero (t : Time) : Bool :=
  t.sec == 0 && t.nsec == 0

/-- `UnixNano`, which wraps around outside of the years 1678 to 2262. -/
def Time.unixNano (t : Time) : Int64 :=
  (t.sec - unixToInternal) * second + Int64.ofNat t.nsec

def Time.after (t u : Time) : Bool :=
  u.sec < t.sec || (t.sec == u.sec && u.nsec < t.nsec)

def Time.unix (n : Int64) : Time :=
  ⟨Int64.ofInt (n.toInt / 1000000000) + unixToInternal, (n.toInt % 1000000000).toNat, by omega⟩

/-- `Add`: the seconds stop at the ends of their range. -/
def Time.add (t : Time) (d : Int64) : Time :=
  let nanos : Int := t.nsec + d.toInt
  let sum := t.sec.toInt + nanos / 1000000000
  ⟨Int64.ofInt (max (-(2 ^ 63 - 1)) (min sum (2 ^ 63 - 1))), (nanos % 1000000000).toNat, by omega⟩

theorem second_toInt : second.toInt = 1000000000 := rfl

theorem unixToInternal_toInt : unixToInternal.toInt = 62135596800 := rfl

def Time.nanos (t : Time) : Int :=
  (t.sec.toInt - 62135596800) * 1000000000 + t.nsec

theorem ofNat_nsec (t : Time) : (Int64.ofNat t.nsec).toInt = t.nsec :=
  Int64.toInt_ofNat_of_lt (Nat.lt_trans t.within (by decide))

theorem unixNano_turns (t : Time) : ∃ k : Int, t.unixNano.toInt = t.nanos - 2 ^ 64 * k := by
  unfold Time.unixNano Time.nanos
  rw [Int64.toInt_add, Int64.toInt_mul, Int64.toInt_sub, second_toInt, unixToInternal_toInt,
    ofNat_nsec]
  obtain ⟨a, ha, -, -⟩ := bmod_turns (t.sec.toInt - 62135596800)
  rw [ha]
  obtain ⟨b, hb, -, -⟩ := bmod_turns ((t.sec.toInt - 62135596800 - 2 ^ 64 * a) * 1000000000)
  rw [hb]
  obtain ⟨c, hc, -, -⟩ := bmod_turns ((t.sec.toInt - 62135596800 - 2 ^ 64 * a) * 1000000000 -
    2 ^ 64 * b + t.nsec)
  rw [hc]
  exact ⟨1000000000 * a + b + c, by omega⟩

/-- Within 64 bits `UnixNano` is exact. -/
theorem unixNano_of_fits {t : Time} (hlow : -2 ^ 63 ≤ t.nanos) (hhigh : t.nanos < 2 ^ 63) :
    t.unixNano.toInt = t.nanos := by
  obtain ⟨k, hk⟩ := unixNano_turns t
  have h1 := t.unixNano.toInt_lt
  have h2 := t.unixNano.le_toInt
  omega

theorem after_iff {t u : Time} : t.after u = true ↔ u.nanos < t.nanos := by
  have ht := t.within
  have hu := u.within
  unfold Time.after Time.nanos
  simp only [Bool.or_eq_true, Bool.and_eq_true, decide_eq_true_eq, beq_iff_eq,
    Int64.lt_iff_toInt_lt, ← Int64.toInt_inj]
  omega

theorem not_after_iff {t u : Time} : u.after t = false ↔ u.nanos ≤ t.nanos := by
  rw [Bool.eq_false_iff, Ne, after_iff, Int.not_lt]

theorem nanos_unix (n : Int64) : (Time.unix n).nanos = n.toInt := by
  have h1 := n.toInt_lt
  have h2 := n.le_toInt
  have hdiv : (Int64.ofInt (n.toInt / 1000000000)).toInt = n.toInt / 1000000000 := by
    rw [Int64.toInt_ofInt]
    exact bmod_of_fits (by omega) (by omega)
  have hsec : (Time.unix n).sec.toInt = n.toInt / 1000000000 + 62135596800 := by
    show (Int64.ofInt (n.toInt / 1000000000) + unixToInternal).toInt = _
    rw [Int64.toInt_add, hdiv, unixToInternal_toInt]
    exact bmod_of_fits (by omega) (by omega)
  have hnsec : ((Time.unix n).nsec : Int) = n.toInt % 1000000000 := by
    show ((n.toInt % 1000000000).toNat : Int) = _
    omega
  unfold Time.nanos
  rw [hsec, hnsec]
  omega

theorem nanos_add_unix (n d : Int64) : ((Time.unix n).add d).nanos = n.toInt + d.toInt := by
  have hn := nanos_unix n
  have h1 := n.toInt_lt
  have h2 := n.le_toInt
  have h3 := d.toInt_lt
  have h4 := d.le_toInt
  have hsec : ((Time.unix n).add d).sec.toInt =
      (Time.unix n).sec.toInt + ((Time.unix n).nsec + d.toInt) / 1000000000 := by
    show (Int64.ofInt _).toInt = _
    unfold Time.nanos at hn
    rw [Int64.toInt_ofInt]
    refine (bmod_of_fits (by omega) (by omega)).trans ?_
    omega
  have hnsec : (((Time.unix n).add d).nsec : Int) =
      ((Time.unix n).nsec + d.toInt) % 1000000000 := by
    show ((((Time.unix n).nsec + d.toInt) % 1000000000).toNat : Int) = _
    omega
  unfold Time.nanos at hn ⊢
  rw [hsec, hnsec]
  omega

theorem isZero_nanos {t : Time} (h : t.isZero = true) : t.nanos = -62135596800 * 1000000000 := by
  unfold Time.isZero at h
  rw [Bool.and_eq_true, beq_iff_eq, beq_iff_eq] at h
  unfold Time.nanos
  rw [h.1, h.2]
  rfl

end WallTime
