import Mathlib.Data.List.GetD

namespace Durable

open List

structure File (α : Type) where
  current : List α
  past : List (List α)
deriving DecidableEq, Repr

variable {α : Type}

def File.empty : File α :=
  ⟨[], []⟩

def File.versions (f : File α) : List (List α) :=
  f.current :: f.past

def File.append (f : File α) (a : α) : File α :=
  ⟨f.current ++ [a], f.versions⟩

def File.truncate (f : File α) (n : Nat) : File α :=
  ⟨f.current.take n, f.versions⟩

def File.sync (f : File α) : File α :=
  ⟨f.current, []⟩

def File.crash (f : File α) (k : Nat) : File α :=
  ⟨f.versions.getD k f.current, []⟩

theorem File.current_mem (f : File α) : f.current ∈ f.versions :=
  mem_cons_self

variable {f : File α} {v : List α}

@[simp] theorem File.mem_append {a : α} :
    v ∈ (f.append a).versions ↔ v = f.current ++ [a] ∨ v ∈ f.versions :=
  mem_cons

@[simp] theorem File.mem_truncate {n : Nat} :
    v ∈ (f.truncate n).versions ↔ v = f.current.take n ∨ v ∈ f.versions :=
  mem_cons

@[simp] theorem File.mem_sync : v ∈ f.sync.versions ↔ v = f.current :=
  mem_singleton

@[simp] theorem File.mem_empty : v ∈ (File.empty : File α).versions ↔ v = [] :=
  mem_singleton

theorem File.mem_crash {k : Nat} (h : v ∈ (f.crash k).versions) : v ∈ f.versions := by
  obtain rfl : v = f.versions.getD k f.current := mem_singleton.mp h
  by_cases hk : k < f.versions.length
  · rw [getD_eq_getElem _ _ hk]
    exact getElem_mem hk
  · rw [getD_eq_default _ _ (Nat.le_of_not_lt hk)]
    exact f.current_mem

end Durable
