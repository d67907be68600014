import Mathlib.Data.List.Basic
import Mathlib.Data.Nat.ModEq

structure RingBuffer (α : Type) where
  slots : List α
  head : Nat
  size : Nat
  head_lt : head < slots.length
  size_le : size ≤ slots.length

namespace RingBuffer

open List

variable {α : Type} [Inhabited α]

def empty (cap : Nat) (h : 0 < cap) : RingBuffer α where
  slots := List.replicate cap default
  head := 0
  size := 0
  head_lt := by simpa using h
  size_le := Nat.zero_le _

def cap (b : RingBuffer α) : Nat :=
  b.slots.length

def slot (b : RingBuffer α) (i : Nat) : Nat :=
  (b.head + i) % b.cap

def read (b : RingBuffer α) (i : Nat) : α :=
  b.slots.getD (b.slot i) default

def toList (b : RingBuffer α) : List α :=
  (List.range b.size).map b.read

def popFront (b : RingBuffer α) : RingBuffer α where
  slots := b.slots.set b.head default
  head := (b.head + 1) % b.cap
  size := b.size - 1
  head_lt := by
    rw [length_set]
    exact Nat.mod_lt _ (Nat.lt_of_le_of_lt (Nat.zero_le _) b.head_lt)
  size_le := by
    rw [length_set]
    exact (Nat.sub_le _ _).trans b.size_le

def pushBack (b : RingBuffer α) (x : α) : RingBuffer α where
  slots := b.slots.set (b.slot b.size) x
  head := b.head
  size := min (b.size + 1) b.cap
  head_lt := by simpa using b.head_lt
  size_le := by simp [cap]

def clear (b : RingBuffer α) : RingBuffer α where
  slots := b.slots.map fun _ => default
  head := 0
  size := 0
  head_lt := by
    rw [length_map]
    exact Nat.lt_of_le_of_lt (Nat.zero_le _) b.head_lt
  size_le := Nat.zero_le _

@[simp] theorem length_toList (b : RingBuffer α) : b.toList.length = b.size := by
  simp [toList]

@[simp] theorem cap_popFront (b : RingBuffer α) : b.popFront.cap = b.cap := by
  simp [popFront, cap]

omit [Inhabited α] in
@[simp] theorem cap_pushBack (b : RingBuffer α) (x : α) : (b.pushBack x).cap = b.cap := by
  simp [pushBack, cap]

omit [Inhabited α] in
theorem cap_pos (b : RingBuffer α) : 0 < b.cap :=
  Nat.lt_of_le_of_lt (Nat.zero_le _) b.head_lt

omit [Inhabited α] in
theorem slot_lt (b : RingBuffer α) (i : Nat) : b.slot i < b.cap :=
  Nat.mod_lt _ b.cap_pos

omit [Inhabited α] in
theorem slot_ne (b : RingBuffer α) {i j : Nat} (hij : i < j) (hj : j < b.cap) :
    b.slot i ≠ b.slot j := by
  intro h
  have hmod : i % b.cap = j % b.cap := Nat.ModEq.add_left_cancel' b.head h
  rw [Nat.mod_eq_of_lt (hij.trans hj), Nat.mod_eq_of_lt hj] at hmod
  omega

omit [Inhabited α] in
theorem slot_zero (b : RingBuffer α) : b.slot 0 = b.head :=
  Nat.mod_eq_of_lt b.head_lt

theorem slot_popFront (b : RingBuffer α) (i : Nat) : b.popFront.slot i = b.slot (i + 1) := by
  unfold slot
  rw [cap_popFront]
  change ((b.head + 1) % b.cap + i) % b.cap = (b.head + (i + 1)) % b.cap
  rw [Nat.mod_add_mod]
  congr 1
  omega

theorem read_popFront (b : RingBuffer α) {i : Nat} (hi : i + 1 < b.cap) :
    b.popFront.read i = b.read (i + 1) := by
  unfold read
  rw [slot_popFront]
  have hne := b.slot_ne (Nat.succ_pos i) hi
  rw [slot_zero] at hne
  simp [popFront, getD_eq_getElem?_getD, List.getElem?_set_ne hne]

theorem toList_eq_cons (b : RingBuffer α) (h : 0 < b.size) :
    b.toList = b.read 0 :: b.popFront.toList := by
  obtain ⟨n, hn⟩ := Nat.exists_eq_add_one_of_ne_zero (Nat.ne_of_gt h)
  have hsize : b.popFront.size = n := by
    change b.size - 1 = n
    omega
  unfold toList
  rw [hn, hsize, range_succ_eq_map, map_cons, map_map]
  congr 1
  apply map_congr_left
  intro i hi
  have hle := b.size_le
  have hlt := List.mem_range.mp hi
  exact (b.read_popFront (by unfold cap; omega)).symm

@[simp] theorem toList_popFront (b : RingBuffer α) : b.popFront.toList = b.toList.tail := by
  by_cases h : 0 < b.size
  · rw [toList_eq_cons b h, tail_cons]
  · have h0 : b.size = 0 := by omega
    have hp : b.popFront.size = 0 := by
      change b.size - 1 = 0
      omega
    simp [toList, h0, hp]

theorem read_pushBack_of_lt (b : RingBuffer α) (x : α) {i : Nat} (hi : i < b.size)
    (hfree : b.size < b.cap) : (b.pushBack x).read i = b.read i := by
  have hne := (b.slot_ne hi hfree).symm
  have hslot : (b.pushBack x).slot i = b.slot i := by
    unfold slot
    rw [cap_pushBack]
    rfl
  unfold read
  rw [hslot]
  simp [pushBack, getD_eq_getElem?_getD, List.getElem?_set_ne hne]

theorem read_pushBack_size (b : RingBuffer α) (x : α) : (b.pushBack x).read b.size = x := by
  have hslot : (b.pushBack x).slot b.size = b.slot b.size := by
    unfold slot
    rw [cap_pushBack]
    rfl
  have hlt : b.slot b.size < b.slots.length := b.slot_lt _
  unfold read
  rw [hslot]
  simp [pushBack, getD_eq_getElem?_getD, hlt]

/-- A buffer with room takes an element at its end. -/
theorem toList_pushBack (b : RingBuffer α) (x : α) (hfree : b.size < b.cap) :
    (b.pushBack x).toList = b.toList ++ [x] := by
  have hsize : (b.pushBack x).size = b.size + 1 := Nat.min_eq_left hfree
  unfold toList
  rw [hsize, range_succ, map_append, map_singleton, read_pushBack_size]
  congr 1
  apply map_congr_left
  intro i hi
  exact b.read_pushBack_of_lt x (List.mem_range.mp hi) hfree

theorem head?_toList (b : RingBuffer α) (h : 0 < b.size) : b.toList.head? = some (b.read 0) := by
  rw [toList_eq_cons b h, List.head?_cons]

end RingBuffer
