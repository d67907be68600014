import Mathlib.Data.List.Basic

namespace Faulty

open List

inductive Prog (W C : Type) (R : C → Type) (α : Type) where
  | ret (a : α)
  | look (k : W → Prog W C R α)
  | set (f : W → W) (p : Prog W C R α)
  | call (c : C) (k : R c → Prog W C R α)

section

variable {W C F α β : Type} {R : C → Type}

def Prog.bind : Prog W C R α → (α → Prog W C R β) → Prog W C R β
  | .ret a, g => g a
  | .look k, g => .look fun w => (k w).bind g
  | .set f p, g => .set f (p.bind g)
  | .call c k, g => .call c fun r => (k r).bind g

instance : Monad (Prog W C R) where
  pure := Prog.ret
  bind := Prog.bind

def get : Prog W C R W :=
  .look .ret

def modify (f : W → W) : Prog W C R Unit :=
  .set f (.ret ())

def call (c : C) : Prog W C R (R c) :=
  .call c .ret

abbrev Device (W C F : Type) (R : C → Type) : Type :=
  W → (c : C) → F → W × R c

def Prog.run (dev : Device W C F R) (ok : F) : Prog W C R α → W → List F → W × α
  | .ret a, w, _ => (w, a)
  | .look k, w, fs => (k w).run dev ok w fs
  | .set f p, w, fs => p.run dev ok (f w) fs
  | .call c k, w, fs => (k (dev w c (fs.headD ok)).2).run dev ok (dev w c (fs.headD ok)).1 fs.tail

def Prog.stops (dev : Device W C F R) (ok : F) : Prog W C R α → W → List F → List W
  | .ret _, w, _ => [w]
  | .look k, w, fs => (k w).stops dev ok w fs
  | .set f p, w, fs => p.stops dev ok (f w) fs
  | .call c k, w, fs =>
    w :: (k (dev w c (fs.headD ok)).2).stops dev ok (dev w c (fs.headD ok)).1 fs.tail

def Prog.calls (dev : Device W C F R) (ok : F) : Prog W C R α → W → List F → List (C × F)
  | .ret _, _, _ => []
  | .look k, w, fs => (k w).calls dev ok w fs
  | .set f p, w, fs => p.calls dev ok (f w) fs
  | .call c k, w, fs =>
    (c, fs.headD ok) :: (k (dev w c (fs.headD ok)).2).calls dev ok (dev w c (fs.headD ok)).1 fs.tail

/-- Under every schedule of admitted faults, the invariant holds wherever the program may be
stopped, and the postcondition at its end. -/
def Holds (dev : Device W C F R) (admitted : C → F → Prop) (I : W → Prop) :
    Prog W C R α → (W → α → Prop) → W → Prop
  | .ret a, Q, w => I w ∧ Q w a
  | .look k, Q, w => Holds dev admitted I (k w) Q w
  | .set f p, Q, w => Holds dev admitted I p Q (f w)
  | .call c k, Q, w =>
    I w ∧ ∀ f, admitted c f → Holds dev admitted I (k (dev w c f).2) Q (dev w c f).1

/-- The postcondition of a program of which only the invariant is asked. -/
def Any (_ : W) (_ : α) : Prop :=
  True

variable {dev : Device W C F R} {ok : F} {admitted : C → F → Prop} {I : W → Prop} {w : W}
  {p : Prog W C R α} {Q Q' : W → α → Prop}

theorem holds_bind {g : α → Prog W C R β} {Q : W → β → Prop}
    (h : Holds dev admitted I p (fun w a => Holds dev admitted I (g a) Q w) w) :
    Holds dev admitted I (p >>= g) Q w := by
  induction p generalizing w with
  | ret a => exact h.2
  | look k ih => exact ih w h
  | set f p ih => exact ih h
  | call c k ih => exact ⟨h.1, fun f hf => ih _ (h.2 f hf)⟩

section Held

variable (h : Holds dev admitted I p Q w)
include h

theorem Holds.mono (hQ : ∀ w a, I w → Q w a → Q' w a) :
    Holds dev admitted I p Q' w := by
  induction p generalizing w with
  | ret a => exact ⟨h.1, hQ w a h.1 h.2⟩
  | look k ih => exact ih w h
  | set f p ih => exact ih h
  | call c k ih => exact ⟨h.1, fun f hf => ih _ (h.2 f hf)⟩

theorem Holds.any : Holds dev admitted I p Any w :=
  h.mono fun _ _ _ _ => trivial

theorem Holds.weaken {J : W → Prop} {less : C → F → Prop}
    (hJ : ∀ w, I w → J w) (hless : ∀ c f, less c f → admitted c f) :
    Holds dev less J p Q w := by
  induction p generalizing w with
  | ret a => exact ⟨hJ w h.1, h.2⟩
  | look k ih => exact ih w h
  | set f p ih => exact ih h
  | call c k ih => exact ⟨hJ w h.1, fun f hf => ih _ (h.2 f (hless c f hf))⟩

theorem Holds.andThen {g : α → Prog W C R β} {Q' : W → β → Prop}
    (hg : ∀ w a, I w → Q w a → Holds dev admitted I (g a) Q' w) :
    Holds dev admitted I (p >>= g) Q' w :=
  holds_bind (h.mono hg)

theorem run_of_holds {fs : List F}
    (hfs : ∀ x ∈ p.calls dev ok w fs, admitted x.1 x.2) :
    Q (p.run dev ok w fs).1 (p.run dev ok w fs).2 := by
  induction p generalizing w fs with
  | ret a => exact h.2
  | look k ih => exact ih w h hfs
  | set f p ih => exact ih h hfs
  | call c k ih =>
    have hc := hfs _ mem_cons_self
    exact ih _ (h.2 _ hc) fun x hx => hfs x (mem_cons_of_mem _ hx)

/-- The invariant holds at the end of every run. -/
theorem invariant_of_holds {fs : List F}
    (hfs : ∀ x ∈ p.calls dev ok w fs, admitted x.1 x.2) : I (p.run dev ok w fs).1 :=
  run_of_holds (Q := fun w _ => I w) (h.mono fun _ _ hI _ => hI) hfs

/-- The invariant holds wherever a crash may stop the run. -/
theorem stops_of_holds {fs : List F}
    (hfs : ∀ x ∈ p.calls dev ok w fs, admitted x.1 x.2) : ∀ u ∈ p.stops dev ok w fs, I u := by
  induction p generalizing w fs with
  | ret a =>
    intro u hu
    cases mem_singleton.mp hu
    exact h.1
  | look k ih => exact ih w h hfs
  | set f p ih => exact ih h hfs
  | call c k ih =>
    intro u hu
    rcases mem_cons.mp hu with rfl | hu
    · exact h.1
    · have hc := hfs _ mem_cons_self
      exact ih _ (h.2 _ hc) (fun x hx => hfs x (mem_cons_of_mem _ hx)) u hu

end Held

end

end Faulty
