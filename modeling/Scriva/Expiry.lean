import Scriva.Lib.WallTime

namespace Scriva.Expiry

open WallTime

/-- The high-water mark of the clock, which starts at zero and only rises. -/
structure Clock where
  floor : Int64
  nonneg : 0 ≤ floor

def Clock.now (k : Clock) (reading : Int64) : Int64 :=
  if reading ≤ k.floor then k.floor else reading

def Clock.raise (k : Clock) (reading : Int64) : Clock :=
  ⟨k.now reading, by
    unfold Clock.now
    split
    · exact k.nonneg
    · next h =>
      have := k.nonneg
      rw [Int64.le_iff_toInt_le] at *
      omega⟩

structure Defaults where
  explicitDefaultTTLSecs : Int64
  defaultTTL : Int64
deriving DecidableEq

def resolveInsertExpiryAt (c : Defaults) (explicit : Time) (now : Int64) : Int64 :=
  if !explicit.isZero then explicit.unixNano
  else if 0 < c.explicitDefaultTTLSecs then now + c.explicitDefaultTTLSecs * second
  else if 0 < c.defaultTTL then now + c.defaultTTL
  else 0

def setDefaultTTL (c : Defaults) (ttl : Int64) : Defaults :=
  if ttl ≤ 0 then c else { c with explicitDefaultTTLSecs := ttl / second }

/-- `CreateCollection` of the service, on a server with a default of its own. -/
def createCollection (defaultTTL ttlSeconds : Int64) : Option Defaults :=
  if ttlSeconds < 0 then none
  else if 0 < ttlSeconds then some (setDefaultTTL ⟨0, defaultTTL⟩ (ttlSeconds * second))
  else some ⟨0, defaultTTL⟩

def ttlDeadline (wall : Time) (ttlSeconds : Int64) : Time :=
  if ttlSeconds ≤ 0 then .zero else wall.add (ttlSeconds * second)

def insertDeadline (c : Defaults) (wall : Time) (ttlSeconds now : Int64) : Option Int64 :=
  if ttlSeconds < 0 then none
  else some (resolveInsertExpiryAt c (ttlDeadline wall ttlSeconds) now)

def updateDeadline (c : Defaults) (wall : Time) (ttlSeconds now cur : Int64) : Option Int64 :=
  if ttlSeconds < 0 then none
  else if 0 < ttlSeconds then some (resolveInsertExpiryAt c (ttlDeadline wall ttlSeconds) now)
  else some cur

def Outlives (now deadline : Int64) : Prop :=
  deadline ≠ 0 ∧ now < deadline

section

variable {c : Defaults} {k : Clock} {reading : Int64}

theorem now_nonneg (k : Clock) (reading : Int64) : 0 ≤ (k.now reading).toInt := by
  have h := (k.raise reading).nonneg
  rw [Int64.le_iff_toInt_le] at h
  exact h

/-- Every explicit instant behind the clock and up to a bound gets a deadline that lies ahead, and a
later one no earlier deadline. -/
def KeptUpTo (c : Defaults) (now : Int64) (t : Time) : Prop :=
  (∀ u : Time, u.after (.unix now) = true → u.after t = false →
    Outlives now (resolveInsertExpiryAt c u now)) ∧
  ∀ u v : Time, u.after (.unix now) = true → u.after v = false → v.after t = false →
    resolveInsertExpiryAt c u now ≤ resolveInsertExpiryAt c v now

variable {now ttl : Int64}

def tooLate : Time :=
  ⟨9223372036 + unixToInternal, 854775808, by decide⟩

theorem signs_of_pos (h : 0 < ttl.toInt) : ¬ ttl < 0 ∧ 0 < ttl ∧ ¬ ttl ≤ 0 := by
  rw [Int64.lt_iff_toInt_lt, Int64.lt_iff_toInt_lt, Int64.le_iff_toInt_le]
  exact ⟨Int.not_lt.mpr h.le, h, Int.not_le.mpr h⟩

theorem ttl_turns (c : Defaults) (now wall : Int64) (hpos : 0 < ttl.toInt) :
    ∃ d : Int64, insertDeadline c (.unix wall) ttl now = some d ∧
      (∀ cur, updateDeadline c (.unix wall) ttl now cur = some d) ∧
      ∃ m : Int, d.toInt = wall.toInt + ttl.toInt * 1000000000 - 2 ^ 64 * m := by
  obtain ⟨hlt, hgt, hle⟩ := signs_of_pos hpos
  refine ⟨resolveInsertExpiryAt c (ttlDeadline (.unix wall) ttl) now, ?_, fun cur => ?_, ?_⟩
  · unfold insertDeadline
    rw [if_neg hlt]
  · unfold updateDeadline
    rw [if_neg hlt, if_pos hgt]
  · have hdeadline : ttlDeadline (.unix wall) ttl = (Time.unix wall).add (ttl * second) := by
      unfold ttlDeadline
      rw [if_neg hle]
    have hnanos := nanos_add_unix wall (ttl * second)
    rw [hdeadline]
    have h1 := wall.le_toInt
    have h2 := (ttl * second).le_toInt
    have hzero : ((Time.unix wall).add (ttl * second)).isZero = false := by
      by_contra hz
      have := isZero_nanos (by simpa using hz)
      omega
    have hres : resolveInsertExpiryAt c ((Time.unix wall).add (ttl * second)) now =
        ((Time.unix wall).add (ttl * second)).unixNano := by
      unfold resolveInsertExpiryAt
      rw [hzero]
      rfl
    rw [hres]
    obtain ⟨a, ha⟩ := unixNano_turns ((Time.unix wall).add (ttl * second))
    obtain ⟨b, hb, -, -⟩ := bmod_turns (ttl.toInt * 1000000000)
    have hmul : (ttl * second).toInt = ttl.toInt * 1000000000 - 2 ^ 64 * b := by
      rw [Int64.toInt_mul, second_toInt, hb]
    exact ⟨a + b, by omega⟩

theorem exists_first_over (base bound : Int) (hi : Int64) (hlow : base < 2 ^ 63)
    (hbase : -2 ^ 63 ≤ base) (hover : 2 ^ 63 ≤ base + hi.toInt * 1000000000)
    (hbound : base + bound * 1000000000 < 2 ^ 63) :
    ∃ s : Int64, bound < s.toInt ∧ 0 < s.toInt ∧ s.toInt ≤ hi.toInt ∧
      2 ^ 63 ≤ base + s.toInt * 1000000000 ∧ base + s.toInt * 1000000000 < 2 ^ 63 + 1000000000 := by
  have h1 := hi.toInt_lt
  refine ⟨Int64.ofInt ((2 ^ 63 - base + 999999999) / 1000000000), ?_⟩
  have hval : (Int64.ofInt ((2 ^ 63 - base + 999999999) / 1000000000)).toInt =
      (2 ^ 63 - base + 999999999) / 1000000000 := by
    rw [Int64.toInt_ofInt]
    exact bmod_of_fits (by omega) (by omega)
  rw [hval]
  omega

theorem isZero_zero : Time.zero.isZero = true := rfl

theorem created_turns (server now : Int64) (hpos : 0 < ttl.toInt)
    (hfits : ttl.toInt * 1000000000 < 2 ^ 63) :
    ∃ d, createCollection server ttl = some d ∧
      ∃ m : Int, (resolveInsertExpiryAt d .zero now).toInt =
        now.toInt + ttl.toInt * 1000000000 - 2 ^ 64 * m := by
  have hmul : (ttl * second).toInt = ttl.toInt * 1000000000 := by
    rw [Int64.toInt_mul, second_toInt]
    exact bmod_of_fits (by omega) hfits
  have hdiv : ttl * second / second = ttl := by
    rw [← Int64.toInt_inj, Int64.toInt_div, hmul, second_toInt, Int.mul_tdiv_cancel _ (by decide)]
    exact bmod_of_fits ttl.le_toInt ttl.toInt_lt
  have hnot : ¬ ttl * second ≤ 0 := by
    rw [Int64.le_iff_toInt_le, hmul]
    show ¬ ttl.toInt * 1000000000 ≤ 0
    omega
  obtain ⟨hneg, hgt, -⟩ := signs_of_pos hpos
  refine ⟨⟨ttl, server⟩, ?_, ?_⟩
  · unfold createCollection setDefaultTTL
    rw [if_neg hneg, if_pos hgt, if_neg hnot, hdiv]
  · unfold resolveInsertExpiryAt
    rw [isZero_zero]
    simp only [Bool.not_true, Bool.false_eq_true, if_false, hgt, if_true]
    rw [Int64.toInt_add, hmul]
    obtain ⟨m, hm, -, -⟩ := bmod_turns (now.toInt + ttl.toInt * 1000000000)
    exact ⟨m, hm⟩

theorem created_dropped (now : Int64) (hover : 2 ^ 63 ≤ ttl.toInt * 1000000000)
    (hunder : ttl.toInt * 1000000000 < 2 ^ 64) :
    createCollection 0 ttl = some ⟨0, 0⟩ ∧ resolveInsertExpiryAt ⟨0, 0⟩ .zero now = 0 := by
  obtain ⟨hneg, hgt, -⟩ := signs_of_pos (show 0 < ttl.toInt by omega)
  have hdrop : ttl * second ≤ 0 := by
    rw [Int64.le_iff_toInt_le, Int64.toInt_mul, second_toInt]
    obtain ⟨m, hm, h1, h2⟩ := bmod_turns (ttl.toInt * 1000000000)
    have hone : m = 1 := by
      generalize ttl.toInt * 1000000000 = x at hover hunder h1 h2
      omega
    rw [hm, hone]
    show _ ≤ (0 : Int)
    omega
  refine ⟨?_, rfl⟩
  unfold createCollection setDefaultTTL
  rw [if_neg hneg, if_pos hgt, if_pos hdrop]

section Clock

variable (hnow : 0 ≤ now.toInt)
include hnow

theorem resolve_explicit {u : Time} (h : u.after (.unix now) = true) :
    resolveInsertExpiryAt c u now = u.unixNano := by
  have hlt := after_iff.mp h
  rw [nanos_unix] at hlt
  have hzero : u.isZero = false := by
    by_contra hz
    have := isZero_nanos (by simpa using hz)
    omega
  unfold resolveInsertExpiryAt
  rw [hzero]
  rfl

theorem outlives_iff {deadline : Int64} :
    Outlives now deadline ↔ now.toInt < deadline.toInt := by
  unfold Outlives
  rw [Int64.lt_iff_toInt_lt]
  refine ⟨fun h => h.2, fun h => ⟨fun h0 => ?_, h⟩⟩
  rw [h0] at h
  have : (0 : Int64).toInt = 0 := rfl
  omega

theorem explicit_kept_iff (t : Time) :
    KeptUpTo c now t ↔ t.nanos < 2 ^ 63 := by
  have hlt := now.toInt_lt
  constructor
  · intro h
    by_contra hbig
    have hlate : tooLate.nanos = 2 ^ 63 := by decide
    have hafter : tooLate.after (.unix now) = true := by
      rw [after_iff, nanos_unix, hlate]
      exact hlt
    have hupto : tooLate.after t = false := not_after_iff.mpr (by omega)
    have hout := h.1 tooLate hafter hupto
    rw [resolve_explicit hnow hafter, outlives_iff hnow] at hout
    have hval : tooLate.unixNano.toInt = -2 ^ 63 := by decide
    omega
  · intro hfits
    have hstored : ∀ u : Time, u.after (.unix now) = true → u.after t = false →
        (resolveInsertExpiryAt c u now).toInt = u.nanos ∧ now.toInt < u.nanos := by
      intro u hafter hupto
      have h1 := after_iff.mp hafter
      rw [nanos_unix] at h1
      have h2 := not_after_iff.mp hupto
      rw [resolve_explicit hnow hafter]
      exact ⟨unixNano_of_fits (by omega) (by omega), h1⟩
    refine ⟨fun u hafter hupto => ?_, fun u v hafter huv hvt => ?_⟩
    · obtain ⟨hs, hn⟩ := hstored u hafter hupto
      rw [outlives_iff hnow, hs]
      exact hn
    · have h1 := not_after_iff.mp huv
      have h2 := not_after_iff.mp hvt
      have h3 := after_iff.mp hafter
      have hv : v.after (.unix now) = true := after_iff.mpr (by omega)
      have hu : u.after t = false := not_after_iff.mpr (by omega)
      rw [Int64.le_iff_toInt_le, (hstored u hafter hu).1, (hstored v hv hvt).1]
      omega

theorem ttl_kept_iff {wall lo hi : Int64} (hpos : 0 < lo.toInt)
    (hle : lo ≤ hi) (hfits : wall.toInt + lo.toInt * 1000000000 < 2 ^ 63) :
    (∀ ttl, lo ≤ ttl → ttl ≤ hi → ∃ d, insertDeadline c (.unix wall) ttl now = some d ∧
      (∀ cur, updateDeadline c (.unix wall) ttl now cur = some d) ∧ Outlives now d) ↔
    now.toInt < wall.toInt + lo.toInt * 1000000000 ∧
      wall.toInt + hi.toInt * 1000000000 < 2 ^ 63 := by
  rw [Int64.le_iff_toInt_le] at hle
  have hw1 := wall.le_toInt
  have hw2 := wall.toInt_lt
  constructor
  · intro h
    have hdeadline : ∀ ttl : Int64, lo.toInt ≤ ttl.toInt → ttl.toInt ≤ hi.toInt →
        ∃ d : Int64, now.toInt < d.toInt ∧
          ∃ m : Int, d.toInt = wall.toInt + ttl.toInt * 1000000000 - 2 ^ 64 * m := by
      intro ttl h1 h2
      obtain ⟨d, hd, -, hout⟩ := h ttl (Int64.le_iff_toInt_le.mpr h1) (Int64.le_iff_toInt_le.mpr h2)
      obtain ⟨d', hd', -, m, hm⟩ := ttl_turns c now wall (show 0 < ttl.toInt by omega)
      cases hd.symm.trans hd'
      exact ⟨d, (outlives_iff hnow).mp hout, m, hm⟩
    refine ⟨?_, ?_⟩
    · obtain ⟨d, hd, m, hm⟩ := hdeadline lo (by omega) hle
      have h3 := d.toInt_lt
      omega
    · by_contra hover
      obtain ⟨s, hs1, -, hs2, hs3, hs4⟩ := exists_first_over wall.toInt lo.toInt hi hw2 hw1
        (by omega) hfits
      obtain ⟨d, hd, m, hm⟩ := hdeadline s (by omega) hs2
      have h3 := d.toInt_lt
      omega
  · rintro ⟨hlow, hhigh⟩ ttl h1 h2
    rw [Int64.le_iff_toInt_le] at h1 h2
    obtain ⟨d, hd, hup, m, hm⟩ := ttl_turns c now wall (show 0 < ttl.toInt by omega)
    refine ⟨d, hd, hup, (outlives_iff hnow).mpr ?_⟩
    have h3 := d.toInt_lt
    have h4 := d.le_toInt
    omega

theorem default_kept {server : Int64} (hpos : 0 < ttl.toInt)
    (hfits : now.toInt + ttl.toInt * 1000000000 < 2 ^ 63) :
    ∃ d, createCollection server ttl = some d ∧ Outlives now (resolveInsertExpiryAt d .zero now) := by
  obtain ⟨d, hd, m, hm⟩ := created_turns server now hpos (by omega)
  refine ⟨d, hd, (outlives_iff hnow).mpr ?_⟩
  have h1 := (resolveInsertExpiryAt d .zero now).toInt_lt
  have h2 := (resolveInsertExpiryAt d .zero now).le_toInt
  omega

theorem default_kept_iff :
    (∀ s : Int64, 0 < s → s ≤ ttl → ∃ d, createCollection 0 s = some d ∧
      Outlives now (resolveInsertExpiryAt d .zero now)) ↔
    now.toInt + ttl.toInt * 1000000000 < 2 ^ 63 := by
  constructor
  · intro h
    by_contra hover
    obtain ⟨s, -, hs1, hs2, hs3, hs4⟩ := exists_first_over now.toInt 0 ttl
      now.toInt_lt (by omega) (by omega) (by have := now.toInt_lt; omega)
    obtain ⟨d, hd, hout⟩ := h s (Int64.lt_iff_toInt_lt.mpr hs1) (Int64.le_iff_toInt_le.mpr hs2)
    rw [outlives_iff hnow] at hout
    by_cases hfits : s.toInt * 1000000000 < 2 ^ 63
    · obtain ⟨d', hd', m, hm⟩ := created_turns 0 now hs1 hfits
      cases hd.symm.trans hd'
      have h1 := (resolveInsertExpiryAt d .zero now).toInt_lt
      omega
    · obtain ⟨hd', hzero⟩ := created_dropped now
        (show 2 ^ 63 ≤ s.toInt * 1000000000 by omega) (by omega)
      cases hd.symm.trans hd'
      rw [hzero] at hout
      have : (0 : Int64).toInt = 0 := rfl
      omega
  · intro hfits s hs1 hs2
    rw [Int64.lt_iff_toInt_lt] at hs1
    rw [Int64.le_iff_toInt_le] at hs2
    exact default_kept hnow hs1 (by omega)

theorem server_default_kept_iff {server : Int64} (hpos : 0 < server) :
    Outlives now (resolveInsertExpiryAt ⟨0, server⟩ .zero now) ↔
      now.toInt + server.toInt < 2 ^ 63 := by
  have hres : resolveInsertExpiryAt ⟨0, server⟩ .zero now = now + server := by
    unfold resolveInsertExpiryAt
    rw [isZero_zero]
    simp [hpos]
  rw [hres, outlives_iff hnow, Int64.toInt_add]
  rw [Int64.lt_iff_toInt_lt] at hpos
  have hpos : 0 < server.toInt := hpos
  obtain ⟨m, hm, h1, h2⟩ := bmod_turns (now.toInt + server.toInt)
  have h3 := now.toInt_lt
  have h4 := server.toInt_lt
  rw [hm]
  omega

end Clock

end

/-- Deadlines lie ahead of the clock: for explicit instants, which keep their order, up to a bound;
for the lifetimes of a range; and for the defaults of a collection and of the server. -/
theorem deadline_ahead_iff (c : Defaults) (k : Clock) (reading : Int64) :
    (∀ t : Time, KeptUpTo c (k.now reading) t ↔ t.nanos < 2 ^ 63) ∧
    (∀ wall lo hi : Int64, 0 < lo → lo ≤ hi → wall.toInt + lo.toInt * 1000000000 < 2 ^ 63 →
      ((∀ ttl, lo ≤ ttl → ttl ≤ hi → ∃ d,
        insertDeadline c (.unix wall) ttl (k.now reading) = some d ∧
        (∀ cur, updateDeadline c (.unix wall) ttl (k.now reading) cur = some d) ∧
        Outlives (k.now reading) d) ↔
      (k.now reading).toInt < wall.toInt + lo.toInt * 1000000000 ∧
        wall.toInt + hi.toInt * 1000000000 < 2 ^ 63)) ∧
    (∀ ttl : Int64, 0 < ttl →
      ((∀ s : Int64, 0 < s → s ≤ ttl → ∃ d, createCollection 0 s = some d ∧
        Outlives (k.now reading) (resolveInsertExpiryAt d .zero (k.now reading))) ↔
      (k.now reading).toInt + ttl.toInt * 1000000000 < 2 ^ 63)) ∧
    (∀ server ttl : Int64, 0 < ttl →
      (k.now reading).toInt + ttl.toInt * 1000000000 < 2 ^ 63 →
      ∃ d, createCollection server ttl = some d ∧
        Outlives (k.now reading) (resolveInsertExpiryAt d .zero (k.now reading))) ∧
    ∀ server : Int64, 0 < server →
      (Outlives (k.now reading) (resolveInsertExpiryAt ⟨0, server⟩ .zero (k.now reading)) ↔
        (k.now reading).toInt + server.toInt < 2 ^ 63) := by
  have hnow := now_nonneg k reading
  refine ⟨explicit_kept_iff hnow, fun wall lo hi hlo => ?_, fun ttl _ => ?_,
    fun server ttl hpos => ?_, fun server hpos => server_default_kept_iff hnow hpos⟩
  · exact ttl_kept_iff hnow (Int64.lt_iff_toInt_lt.mp hlo)
  · exact default_kept_iff hnow
  · exact default_kept hnow (Int64.lt_iff_toInt_lt.mp hpos)

theorem deadline_ahead_hour :
    ∃ d, insertDeadline ⟨0, 0⟩ (.unix 1000000000000000000) 3600
        ((⟨0, by decide⟩ : Clock).now 1000000000000000000) = some d ∧
      Outlives ((⟨0, by decide⟩ : Clock).now 1000000000000000000) d := by
  obtain ⟨d, hd, -, hout⟩ := ((deadline_ahead_iff ⟨0, 0⟩ ⟨0, by decide⟩ 1000000000000000000).2.1
    1000000000000000000 3600 3600 (by decide) (by decide) (by decide)).mpr (by decide) 3600
    (by decide) (by decide)
  exact ⟨d, hd, hout⟩

/-- In the year 2001, with lifetimes of 293 years: a deadline lies in the past, a default is
dropped, and a later instant has an earlier deadline. And where the wall clock lies two seconds
behind the collection clock, a lifetime of one second is over when it begins. -/
theorem deadline_wraps :
    insertDeadline ⟨0, 0⟩ (.unix 1000000000000000000) 9223372037 1000000000000000000 =
      some (-8223372036709551616) ∧
    (createCollection 0 9223372037).map (resolveInsertExpiryAt · .zero 1000000000000000000) =
      some 0 ∧
    resolveInsertExpiryAt ⟨0, 0⟩ ⟨10413792000 + unixToInternal, 0, by decide⟩ 1000000000000000000 <
      resolveInsertExpiryAt ⟨0, 0⟩ ⟨7258118400 + unixToInternal, 0, by decide⟩
        1000000000000000000 ∧
    insertDeadline ⟨0, 0⟩ (.unix 999999998000000000) 1 1000000000000000000 =
      some 999999999000000000 := by
  decide

end Scriva.Expiry
