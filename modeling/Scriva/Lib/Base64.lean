import Mathlib.Data.List.Basic

namespace Base64

open List

def alphabet : List Char :=
  "ABCDEFGHIJKLMNOPQRSTUVWXYZabcdefghijklmnopqrstuvwxyz0123456789-_".toList

def digit (n : Nat) : Char :=
  alphabet.getD n 'A'

def value (c : Char) : Option Nat :=
  alphabet.idxOf? c

def sextets : List UInt8 → List Nat
  | [] => []
  | [a] => [a.toNat / 4, a.toNat % 4 * 16]
  | [a, b] => [a.toNat / 4, a.toNat % 4 * 16 + b.toNat / 16, b.toNat % 16 * 4]
  | a :: b :: c :: rest =>
    a.toNat / 4 :: (a.toNat % 4 * 16 + b.toNat / 16) :: (b.toNat % 16 * 4 + c.toNat / 64) ::
      c.toNat % 64 :: sextets rest

def octets : List Nat → Option (List UInt8)
  | [] => some []
  | [_] => none
  | [x, y] => some [UInt8.ofNat (x * 4 + y / 16)]
  | [x, y, z] => some [UInt8.ofNat (x * 4 + y / 16), UInt8.ofNat (y % 16 * 16 + z / 4)]
  | x :: y :: z :: w :: rest =>
    (octets rest).map fun bs => UInt8.ofNat (x * 4 + y / 16) ::
      UInt8.ofNat (y % 16 * 16 + z / 4) :: UInt8.ofNat (z % 4 * 64 + w) :: bs

def encode (bs : List UInt8) : List Char :=
  (sextets bs).map digit

def decode (cs : List Char) : Option (List UInt8) :=
  ((cs.filter fun c => c != '\n' && c != '\r').mapM value).bind octets

theorem digit_spec : ∀ n < 64, value (digit n) = some n ∧ digit n ≠ '\n' ∧ digit n ≠ '\r' := by
  decide

theorem sextets_lt (bs : List UInt8) : ∀ n ∈ sextets bs, n < 64 := by
  fun_induction sextets bs with
  | case1 => simp
  | case2 a =>
    have := a.toNat_lt
    simp only [mem_cons, not_mem_nil, or_false]
    omega
  | case3 a b =>
    have := a.toNat_lt
    have := b.toNat_lt
    simp only [mem_cons, not_mem_nil, or_false]
    omega
  | case4 a b c rest ih =>
    have := a.toNat_lt
    have := b.toNat_lt
    have := c.toNat_lt
    intro n hn
    simp only [mem_cons] at hn
    rcases hn with h | h | h | h | h
    · omega
    · omega
    · omega
    · omega
    · exact ih n h

theorem ofNat_eq {n : Nat} {a : UInt8} (h : n = a.toNat) : UInt8.ofNat n = a := by
  rw [h]
  exact UInt8.ofNat_toNat

theorem octets_sextets (bs : List UInt8) : octets (sextets bs) = some bs := by
  fun_induction sextets bs with
  | case1 => rfl
  | case2 a =>
    rw [octets, ofNat_eq (a := a) (by omega)]
  | case3 a b =>
    have := b.toNat_lt
    rw [octets, ofNat_eq (a := a) (by omega), ofNat_eq (a := b) (by omega)]
  | case4 a b c rest ih =>
    have := b.toNat_lt
    have := c.toNat_lt
    rw [octets, ih, ofNat_eq (a := a) (by omega), ofNat_eq (a := b) (by omega),
      ofNat_eq (a := c) (by omega)]
    rfl

theorem mapM_value {xs : List Nat} (h : ∀ n ∈ xs, n < 64) :
    (xs.map digit).mapM value = some xs := by
  induction xs with
  | nil => rfl
  | cons n xs ih =>
    rw [map_cons, mapM_cons, (digit_spec n (h n mem_cons_self)).1,
      ih fun m hm => h m (mem_cons_of_mem _ hm)]
    rfl

theorem decode_encode (bs : List UInt8) : decode (encode bs) = some bs := by
  have hkeep : (encode bs).filter (fun c => c != '\n' && c != '\r') = encode bs := by
    refine filter_eq_self.mpr fun c hc => ?_
    obtain ⟨n, hn, rfl⟩ := mem_map.mp hc
    have hspec := (digit_spec n (sextets_lt bs n hn)).2
    simp [hspec.1, hspec.2]
  rw [decode, hkeep, encode, mapM_value (sextets_lt bs)]
  exact octets_sextets bs

theorem encode_ne_nil {bs : List UInt8} (h : bs ≠ []) : encode bs ≠ [] := by
  intro he
  have hdec := decode_encode bs
  rw [he] at hdec
  exact h (Option.some.inj hdec).symm

end Base64
