import Scriva.DiskMachine

namespace Scriva.Disk

open Durable Faulty

section

variable {α β : Type} {A : Call → Answer → Prop} {I : World → Prop} {w : World}

variable {Q : World → β → Prop} {c : String} {g : Unit → Go β}

theorem holds_look {g : Col → Go β} :
    Holds disk A I (look c >>= g) Q w ↔ Holds disk A I (g (w.cols c)) Q w :=
  Iff.rfl

theorem holds_request {g : Nat → Go β} :
    Holds disk A I (request >>= g) Q w ↔ Holds disk A I (g w.req) Q w :=
  Iff.rfl

theorem holds_journal {g : Journal → Go β} :
    Holds disk A I (journal >>= g) Q w ↔ Holds disk A I (g w.journal) Q w :=
  Iff.rfl

theorem holds_get {g : World → Go β} :
    Holds disk A I (get >>= g) Q w ↔ Holds disk A I (g w) Q w :=
  Iff.rfl

theorem holds_modify {f : World → World} :
    Holds disk A I (modify f >>= g) Q w ↔ Holds disk A I (g ()) Q (f w) :=
  Iff.rfl

theorem holds_change {f : Col → Col} :
    Holds disk A I (change c f >>= g) Q w ↔ Holds disk A I (g ()) Q (w.change c f) :=
  Iff.rfl

theorem holds_fence {op : String} :
    Holds disk A I (fence c op >>= g) Q w ↔ Holds disk A I (g ()) Q (w.change c (·.fence op)) :=
  Iff.rfl

theorem holds_changeJournal {f : Journal → Journal} :
    Holds disk A I (changeJournal f >>= g) Q w ↔ Holds disk A I (g ()) Q (w.changeJournal f) :=
  Iff.rfl

theorem holds_call {k : Call} {g : Answer → Go β} :
    Holds disk A I (call k >>= g) Q w ↔
      I w ∧ ∀ a, A k a → Holds disk A I (g a) Q (w.after a k) :=
  Iff.rfl

variable {cs : List String} {Q : World → Option Err → Prop}

theorem holds_unlessErr {p q : Go (Option Err)} {R : World → Option Err → Prop}
    (h : Holds disk A I p R w) (he : ∀ w e, I w → R w (some e) → Q w (some e))
    (hn : ∀ w, I w → R w none → Holds disk A I q Q w) : Holds disk A I (unlessErr p q) Q w := by
  refine h.andThen fun u e hu hr => ?_
  cases e with
  | none => exact hn u hu hr
  | some e => exact ⟨hu, he u e hu hr⟩

theorem keeps_unlessErr {p q : Go (Option Err)} {R : World → Option Err → Prop}
    (h : Holds disk A I p R w) (hn : ∀ w, I w → R w none → Holds disk A I q Any w) :
    Holds disk A I (unlessErr p q) Any w :=
  holds_unlessErr h (fun _ _ _ _ => trivial) hn

variable {e : Option Err} {q : Go (Option Err)}

theorem keeps_unless (hI : I w) (h : Holds disk A I q Any w) :
    Holds disk A I (unlessErr (pure e) q) Any w := by
  cases e with
  | none => exact h
  | some e => exact ⟨hI, trivial⟩

theorem holds_unless (he : e = none) (h : Holds disk A I q Q w) :
    Holds disk A I (unlessErr (pure e) q) Q w := by
  subst he
  exact h

def World.fencedAt (w : World) (cs : List String) : Prop :=
  ∃ c ∈ cs, (w.cols c).fenced.isSome = true

/-- A check of the fences of some collections: it changes nothing and fails if one is fenced. -/
def Checked (cs : List String) (err : Err) (w u : World) (e : Option Err) : Prop :=
  u = w ∧ (e = none ∧ ¬w.fencedAt cs ∨ e = some err ∧ w.fencedAt cs)

theorem fencedAt_cons : w.fencedAt (c :: cs) ↔ (w.cols c).fenced.isSome = true ∨ w.fencedAt cs := by
  simp [World.fencedAt]

theorem fencedAt_single : w.fencedAt [c] ↔ (w.cols c).fenced.isSome = true := by
  simp [World.fencedAt]

theorem not_fencedAt (h : ¬w.fencedAt cs) (hc : c ∈ cs) : (w.cols c).fenced = none := by
  by_contra hne
  exact h ⟨c, hc, Option.isSome_iff_ne_none.mpr hne⟩

theorem checkFenced_holds (c : String) (hI : I w) :
    Holds disk A I (checkFenced c) (Checked [c] [.collectionFenced] w) w := by
  unfold checkFenced
  rw [holds_look]
  split
  · next hf => exact ⟨hI, rfl, Or.inr ⟨rfl, fencedAt_single.mpr hf⟩⟩
  · next hf => exact ⟨hI, rfl, Or.inl ⟨rfl, fun h => hf (fencedAt_single.mp h)⟩⟩

/-- The checks of several collections in a row; `g` is what is added to the error. -/
theorem checked_cons (g : Err → Err) (hI : I w)
    (h : Holds disk A I q (Checked cs (g [.collectionFenced]) w) w) :
    Holds disk A I (do
      match ← checkFenced c with
      | some e => return some (g e)
      | none => q) (Checked (c :: cs) (g [.collectionFenced]) w) w := by
  refine (checkFenced_holds c hI).andThen ?_
  rintro u e hu ⟨rfl, ⟨rfl, hf⟩ | ⟨rfl, hf⟩⟩
  · unfold Checked
    rw [fencedAt_cons, or_iff_right (mt fencedAt_single.mpr hf)]
    exact h
  · exact ⟨hu, rfl, Or.inr ⟨rfl, fencedAt_cons.mpr (Or.inl (fencedAt_single.mp hf))⟩⟩

theorem holds_checkFenced (hI : I w) (he : w.fencedAt [c] → Q w (some [.collectionFenced]))
    (hn : (w.cols c).fenced = none → Holds disk A I q Q w) :
    Holds disk A I (unlessErr (checkFenced c) q) Q w := by
  refine (checkFenced_holds c hI).andThen ?_
  rintro u e hu ⟨rfl, ⟨rfl, hf⟩ | ⟨rfl, hf⟩⟩
  · exact hn (not_fencedAt hf List.mem_cons_self)
  · exact ⟨hu, he hf⟩

end

end Scriva.Disk
