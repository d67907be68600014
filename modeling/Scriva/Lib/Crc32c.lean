import Mathlib.Algebra.Group.Nat.Defs
import Mathlib.Logic.Function.Iterate

namespace Crc32c

open List

def utf8 (cs : List Char) : List Nat :=
  cs.flatMap fun c => (String.utf8EncodeChar c).map UInt8.toNat

/-- The `k` low bytes of a number, lowest first. -/
def le : Nat → Nat → List Nat
  | 0, _ => []
  | k + 1, n => n % 256 :: le k (n / 256)

theorem le_length (k n : Nat) : (le k n).length = k := by
  induction k generalizing n with
  | zero => rfl
  | succ k ih => rw [le, length_cons, ih]

theorem le_mod {k n m : Nat} (h : le k n = le k m) : n % 256 ^ k = m % 256 ^ k := by
  induction k generalizing n m with
  | zero => rw [Nat.pow_zero, Nat.mod_one, Nat.mod_one]
  | succ k ih =>
    obtain ⟨hlow, hhigh⟩ := List.cons.inj h
    have hrest := ih hhigh
    rw [Nat.pow_succ', Nat.mod_mul, Nat.mod_mul, hlow, hrest]

theorem le_add (j k n : Nat) : le (j + k) n = le j n ++ le k (n / 256 ^ j) := by
  induction j generalizing n with
  | zero => rw [Nat.zero_add, Nat.pow_zero, Nat.div_one, le, nil_append]
  | succ j ih =>
    rw [Nat.succ_add, le, le, ih, Nat.div_div_eq_div_mul, ← Nat.pow_succ', cons_append]

theorem le_append_inj {k n m : Nat} {r r' : List Nat} (hn : n < 256 ^ k) (hm : m < 256 ^ k)
    (h : le k n ++ r = le k m ++ r') : n = m ∧ r = r' := by
  obtain ⟨hle, hr⟩ := append_inj h (by rw [le_length, le_length])
  have hmod := le_mod hle
  rw [Nat.mod_eq_of_lt hn, Nat.mod_eq_of_lt hm] at hmod
  exact ⟨hmod, hr⟩

def crcBit (c : Nat) : Nat :=
  if c % 2 = 1 then (c / 2) ^^^ 0x82F63B78 else c / 2

def crcByte (crc b : Nat) : Nat :=
  crcBit^[8] (crc ^^^ b)

def crc32c (bs : List Nat) : Nat :=
  bs.foldl crcByte 0xFFFFFFFF ^^^ 0xFFFFFFFF

example : crc32c (utf8 "123456789".toList) = 0xE3069283 := by decide +kernel

end Crc32c
