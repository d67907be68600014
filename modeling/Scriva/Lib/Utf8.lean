import Scriva.Lib.JsonText

namespace Utf8

open JsonText List

def encode (cs : List Char) : List UInt8 :=
  cs.flatMap String.utf8EncodeChar

def lead : List UInt8 → Nat
  | [] => 0
  | a :: bs =>
    let low (i : Nat) : Nat := (bs.getD i 0).toNat - 128
    if a.toNat < 192 then a.toNat
    else if a.toNat < 224 then (a.toNat - 192) * 64 + low 0
    else if a.toNat < 240 then (a.toNat - 224) * 4096 + low 0 * 64 + low 1
    else (a.toNat - 240) * 262144 + low 0 * 4096 + low 1 * 64 + low 2

/-- Bytes begin with a character if they begin with its shortest encoding. -/
def charAt (bs : List UInt8) : Option Char :=
  let c := Char.ofNat (lead bs)
  if (String.utf8EncodeChar c).isPrefixOf bs then some c else none

def runesFrom : Nat → List UInt8 → List (Option Char)
  | 0, _ => []
  | _, [] => []
  | fuel + 1, b :: bs =>
    match charAt (b :: bs) with
    | some c => some c :: runesFrom fuel ((b :: bs).drop (String.utf8EncodeChar c).length)
    | none => none :: runesFrom fuel bs

def runes (bs : List UInt8) : List (Option Char) :=
  runesFrom bs.length bs

def isText (bs : List UInt8) : Bool :=
  (runes bs).all Option.isSome

def decode (bs : List UInt8) : List Char :=
  (runes bs).map fun r => r.getD '�'

theorem byte_toNat {n : Nat} (h : n < 256) : (UInt8.ofNat n).toNat = n := by
  rw [UInt8.toNat_ofNat', Nat.mod_eq_of_lt h]

theorem toNat_lt (c : Char) : c.toNat < 1114112 := by
  rcases c.valid with hc | ⟨-, hc⟩
  · change c.toNat < 55296 at hc
    omega
  · exact hc

theorem encodeChar_eq (c : Char) : String.utf8EncodeChar c =
    if c.toNat ≤ 127 then [UInt8.ofNat c.toNat] else
    if c.toNat ≤ 2047 then [UInt8.ofNat (c.toNat / 64 % 32 + 192), UInt8.ofNat (c.toNat % 64 + 128)]
    else if c.toNat ≤ 65535 then [UInt8.ofNat (c.toNat / 4096 % 16 + 224),
      UInt8.ofNat (c.toNat / 64 % 64 + 128), UInt8.ofNat (c.toNat % 64 + 128)]
    else [UInt8.ofNat (c.toNat / 262144 % 8 + 240), UInt8.ofNat (c.toNat / 4096 % 64 + 128),
      UInt8.ofNat (c.toNat / 64 % 64 + 128), UInt8.ofNat (c.toNat % 64 + 128)] :=
  rfl

theorem lead_encode (c : Char) (rest : List UInt8) :
    lead (String.utf8EncodeChar c ++ rest) = c.toNat := by
  have hmax := toNat_lt c
  rw [encodeChar_eq]
  generalize c.toNat = v at hmax ⊢
  split_ifs with h1 h2 h3
  · simp only [cons_append, nil_append, lead]
    rw [byte_toNat (by omega), if_pos (by omega)]
  · simp only [cons_append, nil_append, lead, getD_cons_zero]
    rw [byte_toNat (by omega), byte_toNat (by omega)]
    split_ifs <;> omega
  · simp only [cons_append, nil_append, lead, getD_cons_zero, getD_cons_succ]
    rw [byte_toNat (by omega), byte_toNat (by omega), byte_toNat (by omega)]
    split_ifs <;> omega
  · simp only [cons_append, nil_append, lead, getD_cons_zero, getD_cons_succ]
    rw [byte_toNat (by omega), byte_toNat (by omega), byte_toNat (by omega), byte_toNat (by omega)]
    split_ifs <;> omega

theorem charAt_encode (c : Char) (rest : List UInt8) :
    charAt (String.utf8EncodeChar c ++ rest) = some c := by
  unfold charAt
  rw [lead_encode, Char.ofNat_toNat]
  exact if_pos (List.isPrefixOf_iff_prefix.mpr (prefix_append _ _))

variable {bs : List UInt8} {b : UInt8}

theorem charAt_some {c : Char} (h : charAt bs = some c) :
    String.utf8EncodeChar c ++ bs.drop (String.utf8EncodeChar c).length = bs := by
  unfold charAt at h
  obtain ⟨hpre, h⟩ := Option.ite_none_right_eq_some.mp h
  cases h
  exact prefix_iff_eq_append.mp (List.isPrefixOf_iff_prefix.mp hpre)

theorem encodeChar_cons (c : Char) : ∃ b bs, String.utf8EncodeChar c = b :: bs := by
  cases h : String.utf8EncodeChar c with
  | nil =>
    have := String.length_utf8EncodeChar c
    rw [h] at this
    have hpos := c.utf8Size_pos
    simp at this
    omega
  | cons b bs => exact ⟨b, bs, rfl⟩

theorem runesFrom_encode (cs : List Char) {fuel : Nat} (h : (encode cs).length ≤ fuel) :
    runesFrom fuel (encode cs) = cs.map some := by
  induction cs generalizing fuel with
  | nil => cases fuel <;> rfl
  | cons c cs ih =>
    have hsplit : encode (c :: cs) = String.utf8EncodeChar c ++ encode cs := by
      simp [encode]
    obtain ⟨b, bs, hc⟩ := encodeChar_cons c
    rw [hsplit, length_append] at h
    have hlen : (String.utf8EncodeChar c).length = bs.length + 1 := by rw [hc]; rfl
    cases fuel with
    | zero => omega
    | succ fuel =>
      have hchar := charAt_encode c (encode cs)
      have hdrop : (String.utf8EncodeChar c ++ encode cs).drop (String.utf8EncodeChar c).length =
          encode cs := drop_left
      rw [hc, cons_append] at hchar
      rw [hc, cons_append] at hdrop
      rw [hsplit, hc, cons_append, runesFrom, hchar]
      simp only [hc] at hdrop ⊢
      rw [hdrop, ih (by omega), map_cons]

theorem runes_encode (cs : List Char) : runes (encode cs) = cs.map some :=
  runesFrom_encode cs (Nat.le_refl _)

theorem decode_encode (cs : List Char) : decode (encode cs) = cs := by
  unfold decode
  rw [runes_encode, map_map]
  exact map_id _

theorem isText_encode (cs : List Char) : isText (encode cs) = true := by
  unfold isText
  rw [runes_encode]
  simp

theorem encode_runes {fuel : Nat} (hf : bs.length ≤ fuel)
    (h : (runesFrom fuel bs).all Option.isSome = true) :
    encode ((runesFrom fuel bs).map fun r => r.getD '�') = bs := by
  induction fuel generalizing bs with
  | zero =>
    have : bs = [] := eq_nil_of_length_eq_zero (by omega)
    rw [this]
    rfl
  | succ fuel ih =>
    cases bs with
    | nil => rfl
    | cons b bs =>
      rw [runesFrom] at h ⊢
      cases hc : charAt (b :: bs) with
      | none =>
        rw [hc] at h
        simp at h
      | some c =>
        rw [hc] at h
        simp only [all_cons, Option.isSome_some, Bool.true_and] at h
        obtain ⟨x, xs, hx⟩ := encodeChar_cons c
        have hlen : ((b :: bs).drop (String.utf8EncodeChar c).length).length ≤ fuel := by
          rw [hx, length_drop]
          simp only [length_cons] at hf ⊢
          omega
        have hrest := ih hlen h
        have hall := charAt_some hc
        simp only [map_cons, Option.getD_some]
        have hsplit : ∀ rest, encode (c :: rest) = String.utf8EncodeChar c ++ encode rest := by
          intro rest
          simp [encode]
        rw [hsplit, hrest, hall]

/-- Bytes are text if decoding them loses nothing. -/
theorem isText_iff : isText bs = true ↔ encode (decode bs) = bs := by
  constructor
  · intro h
    exact encode_runes (Nat.le_refl _) h
  · intro h
    rw [← h]
    exact isText_encode _

theorem ascii_mem_encodeChar {c : Char} (h : b ∈ String.utf8EncodeChar c) (hb : b.toNat < 128) :
    c.toNat = b.toNat := by
  have hmax := toNat_lt c
  rw [encodeChar_eq] at h
  generalize c.toNat = v at hmax h ⊢
  have hbeyond : ∀ n, 128 ≤ n → n < 256 → b ≠ UInt8.ofNat n := by
    intro n hn hlt hbn
    rw [hbn, byte_toNat hlt] at hb
    omega
  split_ifs at h with h1 h2 h3
  · rw [mem_singleton.mp h, byte_toNat (by omega)]
  all_goals
    simp only [mem_cons, not_mem_nil, or_false] at h
    repeat (first
      | exact absurd h (hbeyond _ (by omega) (by omega))
      | refine absurd h (not_or_intro (hbeyond _ (by omega) (by omega)) fun h => ?_))

theorem ascii_mem_encode {cs : List Char} (h : b ∈ encode cs) (hb : b.toNat < 128) :
    ∃ c ∈ cs, c.toNat = b.toNat := by
  obtain ⟨c, hc, h⟩ := mem_flatMap.mp h
  exact ⟨c, hc, ascii_mem_encodeChar h hb⟩

theorem encodeChar_ascii (h : b.toNat < 128) :
    String.utf8EncodeChar (Char.ofNat b.toNat) = [b] := by
  have hv : (Char.ofNat b.toNat).toNat = b.toNat := by
    rw [Char.ofNat, dif_pos (Or.inl (by omega))]
    show (UInt32.ofNatLT b.toNat _).toNat = _
    exact UInt32.toNat_ofNatLT ..
  unfold String.utf8EncodeChar
  change (if (Char.ofNat b.toNat).toNat ≤ 127 then [UInt8.ofNat (Char.ofNat b.toNat).toNat]
    else _) = _
  rw [hv, if_pos (by omega), UInt8.ofNat_toNat]

theorem isText_ascii (h : ∀ b ∈ bs, b.toNat < 128) : isText bs = true := by
  have hbs : encode (bs.map fun b => Char.ofNat b.toNat) = bs := by
    induction bs with
    | nil => rfl
    | cons b bs ih =>
      have hb := encodeChar_ascii (h b mem_cons_self)
      have hrest := ih fun x hx => h x (mem_cons_of_mem _ hx)
      simp only [encode, map_cons, flatMap_cons, hb] at hrest ⊢
      rw [hrest]
      rfl
  rw [← hbs]
  exact isText_encode _

/-- An encoder writes a byte that is in no character as an escaped replacement character. -/
def escapeRune : Option Char → List Char
  | some c => escapeChar c
  | none => ['\\', 'u', 'f', 'f', 'f', 'd']

def quote (bs : List UInt8) : List Char :=
  '"' :: ((runes bs).flatMap escapeRune ++ ['"'])

theorem quote_encode (cs : List Char) : quote (encode cs) = renderString (String.ofList cs) := by
  unfold quote renderString escape
  rw [runes_encode, flatMap_map, String.toList_ofList]
  rfl

/-- No control character. -/
def Printable (l : List Char) : Prop :=
  ∀ x ∈ l, 32 ≤ x.toNat

theorem printable_of_all {l : List Char} (h : l.all (fun x => Nat.ble 32 x.toNat) = true) :
    Printable l :=
  fun x hx => Nat.le_of_ble_eq_true (all_eq_true.mp h x hx)

theorem escapeChar_printable (c : Char) : Printable (escapeChar c) := by
  have hdigit : ∀ n < 16, 32 ≤ (Nat.digitChar n).toNat := by decide
  have hhex : ∀ m, 32 ≤ (Nat.digitChar (m % 16)).toNat := fun m =>
    hdigit _ (Nat.mod_lt _ (by decide))
  unfold escapeChar
  split_ifs with h1 h2 h3 h4 h5 h6 h7 h8
  · exact printable_of_all rfl
  · exact printable_of_all rfl
  · exact printable_of_all rfl
  · exact printable_of_all rfl
  · exact printable_of_all rfl
  · exact printable_of_all rfl
  · exact printable_of_all rfl
  · intro x hx
    simp only [hex4, mem_cons, not_mem_nil, or_false] at hx
    rcases hx with rfl | rfl | rfl | rfl | rfl | rfl
    · decide
    · decide
    all_goals exact hhex _
  · intro x hx
    rw [mem_singleton.mp hx]
    by_contra hlt
    exact h8 (by simp [needsHex, show c.toNat < 32 by omega])

theorem quote_printable (bs : List UInt8) : Printable (quote bs) := by
  intro x hx
  simp only [quote, mem_cons, mem_append, mem_flatMap, not_mem_nil,
    or_false] at hx
  rcases hx with rfl | ⟨r, -, hx⟩ | rfl
  · decide
  · cases r with
    | some c => exact escapeChar_printable c x hx
    | none =>
      have hall : (escapeRune none).all (fun y => Nat.ble 32 y.toNat) = true := rfl
      exact printable_of_all hall x hx
  · decide

end Utf8
