import Mathlib.Data.List.Basic
import Mathlib.Data.List.Induction
import Mathlib.Order.Basic

namespace KeyedLog

open List

variable {K V W A : Type} [DecidableEq K]

def apply (key : A → K) (act : A → Option V → Option V) (m : K → Option V) (a : A) : K → Option V :=
  fun k => if key a = k then act a (m k) else m k

def replay (key : A → K) (act : A → Option V → Option V) (m : K → Option V) (as : List A) :
    K → Option V :=
  as.foldl (apply key act) m

section Replay

variable {key : A → K} {act : A → Option V → Option V} {m : K → Option V}

theorem replay_cons (a : A) (as : List A) :
    replay key act m (a :: as) = replay key act (apply key act m a) as := rfl

theorem replay_append (xs ys : List A) :
    replay key act m (xs ++ ys) = replay key act (replay key act m xs) ys :=
  foldl_append

theorem replay_concat (xs : List A) (a : A) :
    replay key act m (xs ++ [a]) = apply key act (replay key act m xs) a := by
  rw [replay_append]; rfl

@[simp] theorem apply_self (a : A) : apply key act m a (key a) = act a (m (key a)) := by
  simp [apply]

theorem apply_of_ne {a : A} {k : K} (h : key a ≠ k) : apply key act m a k = m k := by
  simp [apply, h]

theorem replay_at (as : List A) (k : K) :
    replay key act m as k = (as.filter fun a => key a = k).foldl (fun v a => act a v) (m k) := by
  induction as generalizing m with
  | nil => rfl
  | cons a as ih =>
    rw [replay_cons, ih]
    by_cases h : key a = k
    · subst h; simp
    · simp [h, apply_of_ne h]

theorem replay_last (as : List A) (k : K) :
    replay key act m as k = m k ∨ ∃ a ∈ as, key a = k ∧ ∃ v, replay key act m as k = act a v := by
  induction as generalizing m with
  | nil => exact Or.inl rfl
  | cons a as ih =>
    rw [replay_cons]
    rcases ih (m := apply key act m a) with h | ⟨b, hb, hk, hv⟩
    · by_cases hk : key a = k
      · subst hk
        exact Or.inr ⟨a, by simp, rfl, m (key a), h.trans (apply_self a)⟩
      · exact Or.inl (h.trans (apply_of_ne hk))
    · exact Or.inr ⟨b, by simp [hb], hk, hv⟩

end Replay

theorem replay_bind {key : A → K} {act : A → Option V → Option V} {act' : A → Option W → Option W}
    {f : V → Option W} {as : List A} (h : ∀ a ∈ as, ∀ v, (act a v).bind f = act' a (v.bind f))
    (m : K → Option V) (k : K) :
    (replay key act m as k).bind f = replay key act' (fun k => (m k).bind f) as k := by
  rw [replay_at, replay_at]
  generalize m k = v
  induction as generalizing v with
  | nil => rfl
  | cons a as ih =>
    have ih' := ih fun b hb => h b (by simp [hb])
    by_cases hk : key a = k
    · simp only [hk, decide_true, filter_cons_of_pos, foldl_cons]
      rw [ih', h a (by simp)]
    · simpa [hk] using ih' v

theorem replay_map_actions {B : Type} (f : B → A) (key : A → K) (act : A → Option V → Option V)
    (m : K → Option V) (bs : List B) :
    replay key act m (bs.map f) = replay (fun b => key (f b)) (fun b => act (f b)) m bs := by
  induction bs generalizing m with
  | nil => rfl
  | cons b bs ih =>
    rw [map_cons, replay_cons, replay_cons, ih]
    rfl

def lastOf (p : A → Bool) (as : List A) : Option A :=
  (as.filter p).getLast?

section LastOf

variable {p q : A → Bool}

theorem lastOf_append (xs ys : List A) :
    lastOf p (xs ++ ys) = (lastOf p ys).or (lastOf p xs) := by
  simp only [lastOf, filter_append, List.getLast?_append]

theorem lastOf_concat (xs : List A) (a : A) :
    lastOf p (xs ++ [a]) = if p a then some a else lastOf p xs := by
  rw [lastOf_append]
  by_cases h : p a <;> simp [lastOf, h]

theorem lastOf_cons (a : A) (as : List A) :
    lastOf p (a :: as) = (lastOf p as).or (if p a then some a else none) := by
  rw [← singleton_append, lastOf_append]
  by_cases h : p a <;> simp [lastOf, h]

theorem lastOf_some {as : List A} {a : A} (h : lastOf p as = some a) : a ∈ as ∧ p a = true := by
  have := mem_of_getLast? h
  exact mem_filter.mp this

theorem lastOf_eq_none {as : List A} : lastOf p as = none ↔ ∀ a ∈ as, p a = false := by
  simp [lastOf]

theorem lastOf_congr {as : List A} (h : ∀ a ∈ as, p a = q a) : lastOf p as = lastOf q as := by
  rw [lastOf, lastOf, filter_congr h]

theorem lastOf_filter (as : List A) : lastOf p (as.filter q) = lastOf (fun a => p a && q a) as := by
  rw [lastOf, lastOf, filter_filter]

theorem lastOf_map {B : Type} (f : B → A) (bs : List B) :
    lastOf p (bs.map f) = (lastOf (fun b => p (f b)) bs).map f := by
  unfold lastOf
  rw [filter_map, List.getLast?_map]
  rfl

theorem lastOf_narrow {as : List A} {a : A} (hpq : ∀ b ∈ as, q b = true → p b = true)
    (h : lastOf p as = some a) (hq : q a = true) : lastOf q as = some a := by
  induction as using List.reverseRecOn with
  | nil => cases h
  | append_singleton as b ih =>
    rw [lastOf_concat] at h ⊢
    by_cases hqb : q b = true
    · rw [if_pos hqb]
      rwa [if_pos (hpq b (by simp) hqb)] at h
    · rw [if_neg hqb]
      by_cases hpb : p b = true
      · rw [if_pos hpb] at h
        cases h
        exact absurd hq hqb
      · rw [if_neg hpb] at h
        exact ih (fun c hc => hpq c (by simp [hc])) h

theorem lastOf_split {as : List A} {a : A} (h : lastOf p as = some a) :
    ∃ pre post, as = pre ++ a :: post ∧ p a = true ∧ ∀ b ∈ post, p b = false := by
  induction as using List.reverseRecOn with
  | nil => cases h
  | append_singleton as b ih =>
    rw [lastOf_concat] at h
    by_cases hb : p b = true
    · rw [if_pos hb] at h
      cases h
      exact ⟨as, [], rfl, hb, by simp⟩
    · rw [if_neg hb] at h
      obtain ⟨pre, post, has, ha, hpost⟩ := ih h
      refine ⟨pre, post ++ [b], by simp [has], ha, ?_⟩
      intro c hc
      rcases mem_append.mp hc with hc | hc
      · exact hpost c hc
      · cases mem_singleton.mp hc
        simpa using hb

end LastOf

theorem replay_overwrite {key : A → K} (act : A → Option V) (as : List A) (k : K) :
    replay key (fun a _ => act a) (fun _ => none) as k =
      (lastOf (fun a => key a == k) as).bind act := by
  induction as using List.reverseRecOn with
  | nil => rfl
  | append_singleton as a ih =>
    rw [replay_concat, apply, lastOf_concat, ih]
    by_cases hk : key a = k <;> simp [hk]

/-- What a scan finds before it stops, it also finds in a front part that has it. -/
theorem mem_takeWhile_front {p : A → Bool} {front as : List A} (h : front <+: as) {a : A}
    (ha : a ∈ as.takeWhile p) (hf : a ∈ front) : a ∈ front.takeWhile p := by
  obtain ⟨rest, rfl⟩ := h
  rw [takeWhile_append] at ha
  split at ha
  · next hall =>
      have hpre : front.takeWhile p <+: front := takeWhile_prefix p
      rwa [hpre.eq_of_length hall]
  · exact ha

end KeyedLog
