import Mathlib.Data.List.MinMax

namespace Versioned

open List

structure Update (K V : Type) where
  key : K
  value : Option V

variable {K V : Type} [DecidableEq K]

def assign (m : K → Option V) (u : Update K V) : K → Option V :=
  Function.update m u.key u.value

def after (m : K → Option V) (us : List (Update K V)) : K → Option V :=
  us.foldl assign m

def versions (m : K → Option V) (us : List (Update K V)) (k : K) : List V :=
  us.foldl (fun vs u => if u.key = k then u.value.elim [] fun v => vs ++ [v] else vs) (m k).toList

section Assign

variable {m : K → Option V} {us vs : List (Update K V)} {u : Update K V} {k : K}

@[simp] theorem after_nil : after m [] = m := rfl

theorem after_append : after m (us ++ vs) = after (after m us) vs :=
  foldl_append

theorem assign_apply : assign m u k = if u.key = k then u.value else m k := by
  by_cases hk : u.key = k
  · subst hk
    simp [assign]
  · rw [if_neg hk]
    exact Function.update_of_ne (Ne.symm hk) _ _

theorem after_concat : after m (us ++ [u]) = assign (after m us) u :=
  after_append

theorem versions_concat : versions m (us ++ [u]) k =
    if u.key = k then u.value.elim [] fun v => versions m us k ++ [v] else versions m us k := by
  simp [versions]

theorem after_eq_getLast (m : K → Option V) (us : List (Update K V)) (k : K) :
    after m us k = (versions m us k).getLast? := by
  induction us using List.reverseRecOn with
  | nil => cases hm : m k <;> simp [versions, hm]
  | append_singleton us u ih =>
    rw [after_concat, assign_apply, versions_concat, ih]
    by_cases hk : u.key = k
    · cases hv : u.value <;> simp [hk]
    · simp [hk]

theorem versions_start (us : List (Update K V)) (k : K) :
    (∀ m m', versions m us k = versions m' us k) ∨
      ∃ vs, ∀ m, versions m us k = (m k).toList ++ vs := by
  induction us using List.reverseRecOn with
  | nil => exact Or.inr ⟨[], fun m => by simp [versions]⟩
  | append_singleton us u ih =>
    simp only [versions_concat]
    by_cases hk : u.key = k
    · cases hv : u.value with
      | none => exact Or.inl fun m m' => by simp [hk]
      | some v =>
        rcases ih with hsame | ⟨vs, hvs⟩
        · exact Or.inl fun m m' => by simp [hk, hsame m m']
        · exact Or.inr ⟨vs ++ [v], fun m => by simp [hk, hvs m]⟩
    · simpa [hk] using ih

end Assign

section Absorb

variable (rev : V → Nat)

/-- The table shows the update's effect, or a version that is no older. -/
def covers (m : K → Option V) (u : Update K V) : Bool :=
  match u.value with
  | none => (m u.key).isNone
  | some v => (m u.key).elim false fun cur => decide (rev v ≤ rev cur)

def absorb (m : K → Option V) (u : Update K V) : K → Option V :=
  if covers rev m u then m else assign m u

def absorbed (m : K → Option V) (us : List (Update K V)) : K → Option V :=
  us.foldl (absorb rev) m

def newest (m : K → Option V) (us : List (Update K V)) (k : K) : Option V :=
  (versions m us k).argmax rev

/-- Each new value has a higher version than the one it replaces. -/
def Rising (m : K → Option V) (us : List (Update K V)) : Prop :=
  ∀ pre u post, us = pre ++ u :: post → ∀ v ∈ u.value, ∀ cur ∈ after m pre u.key, rev cur < rev v

variable {rev} {m : K → Option V} {us vs : List (Update K V)} {u : Update K V} {k : K}

theorem absorbed_append : absorbed rev m (us ++ vs) = absorbed rev (absorbed rev m us) vs :=
  foldl_append

theorem absorb_of_ne (h : u.key ≠ k) : absorb rev m u k = m k := by
  unfold absorb
  split
  · rfl
  · rw [assign_apply, if_neg h]

theorem absorb_none (h : u.value = none) : absorb rev m u u.key = none := by
  unfold absorb covers
  simp only [h]
  cases hm : m u.key <;> simp [assign, h, hm]

theorem absorb_some {v : V} (h : u.value = some v) : absorb rev m u u.key =
    some ((m u.key).elim v fun cur => if rev cur < rev v then v else cur) := by
  unfold absorb covers
  simp only [h]
  cases hm : m u.key with
  | none => simp [assign, h]
  | some cur =>
    by_cases hlt : rev cur < rev v
    · simp [assign, h, hlt, Nat.not_le.mpr hlt]
    · simp [hm, hlt, Nat.not_lt.mp hlt]

theorem absorbed_eq_newest (m : K → Option V) (us : List (Update K V)) :
    absorbed rev m us = newest rev m us := by
  funext k
  induction us using List.reverseRecOn with
  | nil => cases hm : m k <;> simp [absorbed, newest, versions, hm]
  | append_singleton us u ih =>
    rw [absorbed_append, newest, versions_concat]
    by_cases hk : u.key = k
    · subst hk
      rw [if_pos rfl]
      cases hv : u.value with
      | none => exact absorb_none hv
      | some v =>
        refine (absorb_some hv).trans ?_
        rw [ih, newest, Option.elim_some, argmax_concat]
        cases List.argmax rev (versions m us u.key) with
        | none => rfl
        | some cur => by_cases hlt : rev cur < rev v <;> simp [hlt]
    · rw [if_neg hk]
      exact (absorb_of_ne hk).trans ih

theorem argmax_of_rising {vs : List V} (h : vs.Pairwise fun a b => rev a < rev b) :
    vs.argmax rev = vs.getLast? := by
  induction vs using List.reverseRecOn with
  | nil => rfl
  | append_singleton vs v ih =>
    obtain ⟨hpair, -, hlast⟩ := pairwise_append.mp h
    rw [argmax_concat, ih hpair, List.getLast?_append]
    cases hvs : vs.getLast? with
    | none => rfl
    | some b =>
      have hlt := hlast b (mem_of_getLast? hvs) v (by simp)
      simp [hlt]

theorem argmax_head {vs : List V} {v : V} (h : ∀ a ∈ vs, rev a ≤ rev v) :
    (v :: vs).argmax rev = some v := by
  induction vs using List.reverseRecOn with
  | nil => rfl
  | append_singleton vs a ih =>
    have hle := h a (by simp)
    rw [← cons_append, argmax_concat, ih fun b hb => h b (by simp [hb])]
    simp [Nat.not_lt.mpr hle]

theorem rising_nil : Rising rev m [] := by
  intro pre u post hnil
  simp at hnil

theorem rising_cons : Rising rev m (u :: us) ↔
    (∀ v ∈ u.value, ∀ cur ∈ m u.key, rev cur < rev v) ∧ Rising rev (assign m u) us := by
  constructor
  · intro h
    exact ⟨h [] u us rfl, fun pre v post hus => h (u :: pre) v post (by rw [hus]; rfl)⟩
  · rintro ⟨hfirst, hnext⟩ pre v post hus
    cases pre with
    | nil =>
      cases hus
      exact hfirst
    | cons x pre =>
      obtain ⟨hx, htail⟩ := List.cons.inj hus
      subst hx
      exact hnext pre v post htail

theorem Rising.left (h : Rising rev m (us ++ vs)) : Rising rev m us := by
  intro pre u post hus
  exact h pre u (post ++ vs) (by simp [hus])

theorem Rising.versions (h : Rising rev m us) (k : K) :
    (versions m us k).Pairwise fun a b => rev a < rev b := by
  induction us using List.reverseRecOn with
  | nil => cases hm : m k <;> simp [Versioned.versions, hm]
  | append_singleton us u ih =>
    have hpair := ih h.left
    rw [versions_concat]
    by_cases hk : u.key = k
    · subst hk
      rw [if_pos rfl]
      cases hv : u.value with
      | none => exact List.Pairwise.nil
      | some v =>
        have hlast : ∀ cur ∈ (Versioned.versions m us u.key).getLast?, rev cur < rev v := by
          rw [← after_eq_getLast]
          exact h us u [] rfl v hv
        refine pairwise_append.mpr ⟨hpair, pairwise_singleton _ _, fun a ha b hb => ?_⟩
        cases mem_singleton.mp hb
        -- the last version is below the new one, and the others are below the last
        obtain ⟨ws, w, hws⟩ := eq_nil_or_concat' (Versioned.versions m us u.key) |>.resolve_left
          (ne_nil_of_mem ha)
        rw [hws] at ha hpair hlast
        have hw := hlast w (by simp)
        rcases mem_append.mp ha with ha | ha
        · exact ((pairwise_append.mp hpair).2.2 a ha w (by simp)).trans hw
        · cases mem_singleton.mp ha
          exact hw
    · rw [if_neg hk]
      exact hpair

theorem absorbed_again (h : Rising rev m us) : absorbed rev (after m us) us = after m us := by
  funext k
  have hpair := h.versions k
  rw [absorbed_eq_newest, newest]
  rcases versions_start us k with hsame | ⟨vs, hvs⟩
  · rw [hsame _ m, argmax_of_rising hpair, after_eq_getLast]
  · have hlast := after_eq_getLast m us k
    rw [hvs] at hpair hlast ⊢
    rcases eq_nil_or_concat' vs with rfl | ⟨ws, w, rfl⟩
    · cases hm : after m us k <;> simp
    · have htop : after m us k = some w := by
        rw [hlast, ← append_assoc, List.getLast?_concat]
      rw [htop]
      show (w :: (ws ++ [w])).argmax rev = some w
      refine argmax_head fun a ha => ?_
      rcases mem_append.mp ha with ha | ha
      · rw [← append_assoc] at hpair
        exact ((pairwise_append.mp hpair).2.2 a (mem_append_right _ ha) w (by simp)).le
      · cases mem_singleton.mp ha
        exact le_refl _

/-- A table that is ahead of the updates it is given, because it has a part of them already, ends
where the updates lead. -/
theorem absorbed_overlap (h : Rising rev m (us ++ vs)) :
    absorbed rev (after m us) (us ++ vs) = after m (us ++ vs) := by
  induction vs using List.reverseRecOn with
  | nil =>
    rw [append_nil] at h ⊢
    exact absorbed_again h
  | append_singleton vs v ih =>
    rw [← append_assoc] at h ⊢
    rw [absorbed_append, ih h.left, after_concat]
    show absorb rev (after m (us ++ vs)) v = _
    funext k
    by_cases hk : v.key = k
    · subst hk
      rw [assign_apply, if_pos rfl]
      cases hv : v.value with
      | none => exact absorb_none hv
      | some x =>
        rw [absorb_some hv]
        cases hcur : after m (us ++ vs) v.key with
        | none => rfl
        | some cur =>
          have hlt := h (us ++ vs) v [] rfl x hv cur hcur
          simp [hlt]
    · rw [absorb_of_ne hk, assign_apply, if_neg hk]

end Absorb

end Versioned
