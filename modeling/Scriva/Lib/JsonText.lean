import Mathlib.Data.List.Basic

namespace JsonText

open List Option

inductive Json where
  | null
  | bool (b : Bool)
  | num (lit : List Char)
  | str (s : String)
  | arr (xs : List Json)
  | obj (ms : List (String × Json))
deriving Repr, Inhabited

def hex4 (n : Nat) : List Char :=
  [(n / 4096 % 16).digitChar, (n / 256 % 16).digitChar, (n / 16 % 16).digitChar,
    (n % 16).digitChar]

/-- Control characters, the HTML characters and the two JavaScript line ends. -/
def needsHex (c : Char) : Bool :=
  c.toNat < 0x20 || c == '<' || c == '>' || c == '&' || c.toNat == 0x2028 || c.toNat == 0x2029

def escapeChar (c : Char) : List Char :=
  if c = '"' then ['\\', '"']
  else if c = '\\' then ['\\', '\\']
  else if c = '\x08' then ['\\', 'b']
  else if c = '\x0c' then ['\\', 'f']
  else if c = '\n' then ['\\', 'n']
  else if c = '\r' then ['\\', 'r']
  else if c = '\t' then ['\\', 't']
  else if needsHex c then '\\' :: 'u' :: hex4 c.toNat
  else [c]

def escape (cs : List Char) : List Char :=
  cs.flatMap escapeChar

def renderString (s : String) : List Char :=
  '"' :: (escape s.toList ++ ['"'])

def hexVal (c : Char) : Option Nat :=
  if c.isDigit then some (c.toNat - '0'.toNat)
  else if 'a' ≤ c ∧ c ≤ 'f' then some (c.toNat - 'a'.toNat + 10)
  else if 'A' ≤ c ∧ c ≤ 'F' then some (c.toNat - 'A'.toNat + 10)
  else none

/-- The code point of four hex digits; a surrogate, which the encoder never writes, is replaced. -/
def hexChar (a b c d : Char) : Option Char := do
  let n := (((← hexVal a) * 16 + (← hexVal b)) * 16 + (← hexVal c)) * 16 + (← hexVal d)
  some (if 0xd800 ≤ n ∧ n < 0xe000 then '�' else Char.ofNat n)

def unescapeChar (c : Char) : Option Char :=
  if c = '"' ∨ c = '\\' ∨ c = '/' then some c
  else if c = 'b' then some '\x08'
  else if c = 'f' then some '\x0c'
  else if c = 'n' then some '\n'
  else if c = 'r' then some '\r'
  else if c = 't' then some '\t'
  else none

def parseChars : List Char → Option (List Char × List Char)
  | [] => none
  | '"' :: rest => some ([], rest)
  | '\\' :: 'u' :: a :: b :: c :: d :: rest => do
    let x ← hexChar a b c d
    let (cs, r) ← parseChars rest
    some (x :: cs, r)
  | '\\' :: e :: rest => do
    let x ← unescapeChar e
    let (cs, r) ← parseChars rest
    some (x :: cs, r)
  | c :: rest =>
    if c.toNat < 0x20 then none
    else (parseChars rest).map fun (cs, r) => (c :: cs, r)

theorem hexVal_digitChar : ∀ n < 16, hexVal n.digitChar = some n := by
  decide

variable {c : Char} {v : Json} {r : List Char} {n : Nat} {k : String} {ms : List (String × Json)}

theorem hexChar_hex4 (h : c.toNat < 65536) :
    hexChar (c.toNat / 4096 % 16).digitChar (c.toNat / 256 % 16).digitChar
      (c.toNat / 16 % 16).digitChar (c.toNat % 16).digitChar = some c := by
  have hv : ∀ n, hexVal (n % 16).digitChar = some (n % 16) := fun n =>
    hexVal_digitChar _ (Nat.mod_lt _ (by decide))
  have hn : ((c.toNat / 4096 % 16 * 16 + c.toNat / 256 % 16) * 16 + c.toNat / 16 % 16) * 16 +
      c.toNat % 16 = c.toNat := by omega
  have hs : ¬(0xd800 ≤ c.toNat ∧ c.toNat < 0xe000) := by
    rcases c.valid with hc | ⟨hc, _⟩
    · intro ⟨h1, _⟩; exact absurd hc (by change ¬ c.toNat < 55296; omega)
    · intro ⟨_, h2⟩; exact absurd hc (by change ¬ 57343 < c.toNat; omega)
  simp only [hexChar, hv, bind_eq_bind, bind_some, hn, if_neg hs, Char.ofNat_toNat]

theorem needsHex_lt (h : needsHex c = true) : c.toNat < 65536 := by
  simp only [needsHex, Bool.or_eq_true, decide_eq_true_eq, beq_iff_eq] at h
  rcases h with ((((h | h) | h) | h) | h) | h
  · omega
  all_goals first | (subst h; decide) | omega

theorem parseChars_escapeChar (c : Char) (rest : List Char) :
    parseChars (escapeChar c ++ rest) =
      (parseChars rest).map fun p => (c :: p.1, p.2) := by
  have bindMap : ∀ (o : Option (List Char × List Char)),
      (o.bind fun p => some (c :: p.1, p.2)) = o.map fun p => (c :: p.1, p.2) := by
    intro o; cases o <;> rfl
  unfold escapeChar
  split_ifs with h1 h2 h3 h4 h5 h6 h7 h8
  · subst h1; exact bindMap _
  · subst h2; exact bindMap _
  · subst h3; exact bindMap _
  · subst h4; exact bindMap _
  · subst h5; exact bindMap _
  · subst h6; exact bindMap _
  · subst h7; exact bindMap _
  · simp only [hex4, cons_append, nil_append, parseChars,
      hexChar_hex4 (needsHex_lt h8), bind_eq_bind, bind_some]
    exact bindMap _
  · have hc : ¬ c.toNat < 0x20 := by
      intro h; exact h8 (by simp [needsHex, h])
    rw [singleton_append, parseChars, if_neg hc]
    · intro h; exact h1 h
    · intro a b x d r h _; exact h2 h
    · intro e r h _; exact h2 h

theorem parseChars_escape (cs rest : List Char) :
    parseChars (escape cs ++ '"' :: rest) = some (cs, rest) := by
  induction cs with
  | nil => rfl
  | cons c cs ih =>
    simp only [escape, flatMap_cons, append_assoc] at ih ⊢
    rw [parseChars_escapeChar, ih]
    rfl

def isNumChar (c : Char) : Bool :=
  c.isDigit || c == '-' || c == '+' || c == '.' || c == 'e' || c == 'E'

def validExp : List Char → Bool
  | [] => true
  | e :: rest =>
    let digits := match rest with
      | '+' :: r => r
      | '-' :: r => r
      | r => r
    (e == 'e' || e == 'E') && !digits.isEmpty && digits.all Char.isDigit

def validFrac : List Char → Bool
  | '.' :: rest => !(rest.takeWhile Char.isDigit).isEmpty && validExp (rest.dropWhile Char.isDigit)
  | rest => validExp rest

/-- The number grammar: no leading zero, and digits after a point, an `e` or a sign. -/
def validUnsigned (lit : List Char) : Bool :=
  let int := lit.takeWhile Char.isDigit
  (int == ['0'] || (!int.isEmpty && int.head? != some '0')) &&
    validFrac (lit.dropWhile Char.isDigit)

def validNumber : List Char → Bool
  | '-' :: rest => validUnsigned rest
  | lit => validUnsigned lit

def skipWs : List Char → List Char
  | [] => []
  | c :: rest => if c = ' ' ∨ c = '\t' ∨ c = '\n' ∨ c = '\r' then skipWs rest else c :: rest

mutual

def render : Json → List Char
  | .null => ['n', 'u', 'l', 'l']
  | .bool true => ['t', 'r', 'u', 'e']
  | .bool false => ['f', 'a', 'l', 's', 'e']
  | .num lit => lit
  | .str s => renderString s
  | .arr xs => '[' :: (renderElems xs ++ [']'])
  | .obj ms => '{' :: (renderMembers ms ++ ['}'])

def renderElems : List Json → List Char
  | [] => []
  | [x] => render x
  | x :: y :: xs => render x ++ ',' :: renderElems (y :: xs)

def renderMembers : List (String × Json) → List Char
  | [] => []
  | [(k, v)] => renderString k ++ ':' :: render v
  | (k, v) :: m :: ms => renderString k ++ ':' :: (render v ++ ',' :: renderMembers (m :: ms))

end

mutual

def parseValue : Nat → List Char → Option (Json × List Char)
  | 0, _ => none
  | n + 1, s =>
    match skipWs s with
    | 'n' :: 'u' :: 'l' :: 'l' :: r => some (.null, r)
    | 't' :: 'r' :: 'u' :: 'e' :: r => some (.bool true, r)
    | 'f' :: 'a' :: 'l' :: 's' :: 'e' :: r => some (.bool false, r)
    | '"' :: r => (parseChars r).map fun (cs, r) => (.str (String.ofList cs), r)
    | '[' :: r =>
      match skipWs r with
      | ']' :: r => some (.arr [], r)
      | r => (parseElems n r).map fun (xs, r) => (.arr xs, r)
    | '{' :: r =>
      match skipWs r with
      | '}' :: r => some (.obj [], r)
      | r => (parseMembers n r).map fun (ms, r) => (.obj ms, r)
    | r =>
      let lit := r.takeWhile isNumChar
      if validNumber lit then some (.num lit, r.dropWhile isNumChar) else none

def parseElems : Nat → List Char → Option (List Json × List Char)
  | 0, _ => none
  | n + 1, s => do
    let (x, r) ← parseValue n s
    match skipWs r with
    | ',' :: r => do
      let (xs, r) ← parseElems n r
      some (x :: xs, r)
    | ']' :: r => some ([x], r)
    | _ => none

def parseMembers : Nat → List Char → Option (List (String × Json) × List Char)
  | 0, _ => none
  | n + 1, s =>
    match skipWs s with
    | '"' :: r => do
      let (k, r) ← parseChars r
      match skipWs r with
      | ':' :: r => do
        let (v, r) ← parseValue n r
        match skipWs r with
        | ',' :: r => do
          let (ms, r) ← parseMembers n r
          some ((String.ofList k, v) :: ms, r)
        | '}' :: r => some ([(String.ofList k, v)], r)
        | _ => none
      | _ => none
    | _ => none

end

def parse (s : List Char) : Option Json := do
  let (v, r) ← parseValue (s.length + 1) s
  if (skipWs r).isEmpty then some v else none

mutual

def Valid : Json → Prop
  | .num lit => validNumber lit = true ∧ ∀ c ∈ lit, isNumChar c = true
  | .arr xs => ValidElems xs
  | .obj ms => ValidMembers ms
  | _ => True

def ValidElems : List Json → Prop
  | [] => True
  | x :: xs => Valid x ∧ ValidElems xs

def ValidMembers : List (String × Json) → Prop
  | [] => True
  | (_, v) :: ms => Valid v ∧ ValidMembers ms

end

mutual

def size : Json → Nat
  | .arr xs => 1 + sizeElems xs
  | .obj ms => 1 + sizeMembers ms
  | _ => 1

def sizeElems : List Json → Nat
  | [] => 0
  | x :: xs => 1 + size x + sizeElems xs

def sizeMembers : List (String × Json) → Nat
  | [] => 0
  | (_, v) :: ms => 1 + size v + sizeMembers ms

end

/-- What may stand behind a value: nothing that would continue a number. -/
def Follows (r : List Char) : Prop :=
  ∀ c ∈ r.head?, isNumChar c = false

def isStart (c : Char) : Bool :=
  c == 'n' || c == 't' || c == 'f' || c == '"' || c == '[' || c == '{' || isNumChar c

theorem isStart_ne {d : Char} (h : isStart c = true) (hd : isStart d = false) : c ≠ d := by
  intro he; rw [he, hd] at h; cases h

theorem skipWs_start (h : isStart c = true) (r : List Char) : skipWs (c :: r) = c :: r := by
  rw [skipWs, if_neg]
  rintro (hc | hc | hc | hc)
  all_goals exact isStart_ne h (by rw [show isStart _ = false by decide]) hc

theorem render_head (h : Valid v) : ∃ c t, render v = c :: t ∧ isStart c = true := by
  cases v with
  | null => exact ⟨_, _, rfl, by decide⟩
  | bool b => cases b <;> exact ⟨_, _, rfl, by decide⟩
  | num lit =>
    obtain ⟨hv, hc⟩ := h
    cases lit with
    | nil => simp [validNumber, validUnsigned] at hv
    | cons c t => exact ⟨c, t, rfl, by simp [isStart, hc c (by simp)]⟩
  | str s | arr xs | obj ms => exact ⟨_, _, rfl, by decide⟩

theorem takeWhile_append_follows {lit : List Char} (h : ∀ c ∈ lit, isNumChar c = true)
    (hr : Follows r) :
    (lit ++ r).takeWhile isNumChar = lit ∧ (lit ++ r).dropWhile isNumChar = r := by
  have hnil : r.takeWhile isNumChar = [] ∧ r.dropWhile isNumChar = r := by
    cases r with
    | nil => exact ⟨rfl, rfl⟩
    | cons c r =>
      have hc := hr c (by simp)
      simp [hc]
  rw [takeWhile_append_of_pos h, dropWhile_append_of_pos h, hnil.1, hnil.2]
  simp

theorem parseValue_num {lit : List Char} (h : Valid (.num lit)) (hr : Follows r) :
    parseValue (n + 1) (lit ++ r) = some (.num lit, r) := by
  obtain ⟨c, t, hct, hs⟩ := render_head h
  obtain ⟨hv, hc⟩ := h
  obtain ⟨htake, hdrop⟩ := takeWhile_append_follows hc hr
  simp only [render] at hct
  have hcn := hc c (by simp [hct])
  have hskip : skipWs (lit ++ r) = lit ++ r := by
    rw [hct, cons_append, skipWs_start hs]
  have hne : ∀ d, isNumChar d = false → ∀ r', lit ++ r ≠ d :: r' := by
    intro d hd r' he
    rw [hct, cons_append] at he
    cases head_eq_of_cons_eq he
    rw [hcn] at hd; cases hd
  rw [parseValue, hskip]
  split
  case h_7 => simp only [htake, hdrop, hv, if_true]
  all_goals exact absurd ‹_› (hne _ (by decide) _)

theorem follows_cons (h : isNumChar c = false) (r : List Char) : Follows (c :: r) := by
  intro d hd
  rw [List.head?_cons, Option.mem_some_iff] at hd
  exact hd ▸ h

theorem renderElems_head {x : Json} (h : Valid x) (xs : List Json) :
    ∃ c t, renderElems (x :: xs) = c :: t ∧ isStart c = true := by
  obtain ⟨c, t, hct, hs⟩ := render_head h
  cases xs with
  | nil => exact ⟨c, t, by rw [renderElems, hct], hs⟩
  | cons y ys => exact ⟨c, t ++ ',' :: renderElems (y :: ys), by rw [renderElems, hct]; rfl, hs⟩

theorem renderMembers_head (k : String) (v : Json) (ms : List (String × Json)) :
    ∃ t, renderMembers ((k, v) :: ms) = '"' :: t := by
  cases ms with
  | nil | cons m ms => exact ⟨_, rfl⟩

theorem parseValue_arr {x : Json} {xs : List Json} (h : Valid x)
    (hp : parseElems n (renderElems (x :: xs) ++ ']' :: r) = some (x :: xs, r)) :
    parseValue (n + 1) (render (.arr (x :: xs)) ++ r) = some (.arr (x :: xs), r) := by
  obtain ⟨c, t, hct, hs⟩ := renderElems_head h xs
  have hskip : skipWs (renderElems (x :: xs) ++ ']' :: r) = renderElems (x :: xs) ++ ']' :: r := by
    rw [hct, cons_append, skipWs_start hs]
  have hne : ∀ r', renderElems (x :: xs) ++ ']' :: r ≠ ']' :: r' := by
    intro r' he
    rw [hct, cons_append] at he
    exact isStart_ne hs (by decide) (head_eq_of_cons_eq he)
  have happ : render (.arr (x :: xs)) ++ r = '[' :: (renderElems (x :: xs) ++ ']' :: r) := by
    simp [render]
  rw [happ, parseValue, skipWs_start (by decide)]
  simp only [hskip]
  rw [hp]; rfl

theorem parseValue_obj
    (hp : parseMembers n (renderMembers ((k, v) :: ms) ++ '}' :: r) = some ((k, v) :: ms, r)) :
    parseValue (n + 1) (render (.obj ((k, v) :: ms)) ++ r) = some (.obj ((k, v) :: ms), r) := by
  obtain ⟨t, ht⟩ := renderMembers_head k v ms
  have happ : render (.obj ((k, v) :: ms)) ++ r =
      '{' :: (renderMembers ((k, v) :: ms) ++ '}' :: r) := by
    simp [render]
  rw [ht, cons_append] at hp
  rw [happ, parseValue, skipWs_start (by decide), ht, cons_append]
  simp only [skipWs_start (show isStart '"' = true by decide)]
  change (parseMembers n ('"' :: (t ++ '}' :: r))).map _ = _
  rw [hp]; rfl

mutual

theorem parseValue_render : ∀ (v : Json) (n : Nat) (r : List Char), Valid v → size v ≤ n →
    Follows r → parseValue n (render v ++ r) = some (v, r)
  | v, 0, r, _, hn, _ => by cases v <;> simp [size] at hn
  | .null, n + 1, r, _, _, _ => rfl
  | .bool true, n + 1, r, _, _, _ => rfl
  | .bool false, n + 1, r, _, _, _ => rfl
  | .num lit, n + 1, r, h, _, hr => parseValue_num h hr
  | .str s, n + 1, r, _, _, _ => by
    have happ : render (.str s) ++ r = '"' :: (escape s.toList ++ '"' :: r) := by
      simp [render, renderString]
    rw [happ, parseValue, skipWs_start (by decide)]
    simp only [parseChars_escape, map_some, String.ofList_toList]
  | .arr [], n + 1, r, _, _, _ => rfl
  | .arr (x :: xs), n + 1, r, h, hn, _ => by
    simp only [size] at hn
    simp only [Valid] at h
    exact parseValue_arr h.1 (parseElems_render x xs n r h (by omega))
  | .obj [], n + 1, r, _, _, _ => rfl
  | .obj ((k, v) :: ms), n + 1, r, h, hn, _ => by
    simp only [size] at hn
    simp only [Valid] at h
    exact parseValue_obj (parseMembers_render k v ms n r h (by omega))

theorem parseElems_render : ∀ (x : Json) (xs : List Json) (n : Nat) (r : List Char),
    ValidElems (x :: xs) → sizeElems (x :: xs) ≤ n →
    parseElems n (renderElems (x :: xs) ++ ']' :: r) = some (x :: xs, r)
  | _, _, 0, _, _, hn => by simp [sizeElems] at hn
  | x, [], n + 1, r, h, hn => by
    simp only [sizeElems] at hn
    rw [renderElems, parseElems,
      parseValue_render x n _ h.1 (by omega) (follows_cons (by decide) r)]
    rfl
  | x, y :: ys, n + 1, r, h, hn => by
    rw [sizeElems] at hn
    have happ : renderElems (x :: y :: ys) ++ ']' :: r =
        render x ++ ',' :: (renderElems (y :: ys) ++ ']' :: r) := by
      simp [renderElems]
    rw [happ, parseElems,
      parseValue_render x n _ h.1 (by omega) (follows_cons (by decide) _)]
    change (parseElems n (renderElems (y :: ys) ++ ']' :: r)).bind _ = _
    rw [parseElems_render y ys n r h.2 (by omega)]
    rfl

theorem parseMembers_render : ∀ (k : String) (v : Json) (ms : List (String × Json)) (n : Nat)
    (r : List Char), ValidMembers ((k, v) :: ms) → sizeMembers ((k, v) :: ms) ≤ n →
    parseMembers n (renderMembers ((k, v) :: ms) ++ '}' :: r) = some ((k, v) :: ms, r)
  | _, _, _, 0, _, _, hn => by simp [sizeMembers] at hn
  | k, v, [], n + 1, r, h, hn => by
    simp only [sizeMembers] at hn
    have happ : renderMembers [(k, v)] ++ '}' :: r =
        '"' :: (escape k.toList ++ '"' :: ':' :: (render v ++ '}' :: r)) := by
      simp [renderMembers, renderString]
    rw [happ, parseMembers, skipWs_start (by decide)]
    simp only [parseChars_escape, bind_eq_bind, bind_some]
    change (parseValue n (render v ++ '}' :: r)).bind _ = _
    rw [parseValue_render v n _ h.1 (by omega) (follows_cons (by decide) r)]
    simp only [bind_some, skipWs, String.ofList_toList]
    rfl
  | k, v, m :: ms, n + 1, r, h, hn => by
    obtain ⟨k', v'⟩ := m
    rw [sizeMembers] at hn
    have happ : renderMembers ((k, v) :: (k', v') :: ms) ++ '}' :: r =
        '"' :: (escape k.toList ++ '"' :: ':' ::
          (render v ++ ',' :: (renderMembers ((k', v') :: ms) ++ '}' :: r))) := by
      simp [renderMembers, renderString]
    rw [happ, parseMembers, skipWs_start (by decide)]
    simp only [parseChars_escape, bind_eq_bind, bind_some]
    change (parseValue n (render v ++ ',' :: (renderMembers ((k', v') :: ms) ++ '}' :: r))).bind _
      = _
    rw [parseValue_render v n _ h.1 (by omega) (follows_cons (by decide) _)]
    change (parseMembers n (renderMembers ((k', v') :: ms) ++ '}' :: r)).bind _ = _
    rw [parseMembers_render k' v' ms n r h.2 (by omega)]
    simp only [bind_some, String.ofList_toList]

end

mutual

theorem size_le_length : ∀ v : Json, Valid v → size v ≤ (render v).length
  | .null, _ => by decide
  | .bool true, _ => by decide
  | .bool false, _ => by decide
  | .num lit, h => by
    obtain ⟨c, t, hct, _⟩ := render_head h
    simp [hct, size]
  | .str s, _ => by simp [size, render, renderString]
  | .arr xs, h => by
    simp only [Valid] at h
    have := sizeElems_le_length xs h
    simp only [size, render, length_cons, length_append, length_nil]
    omega
  | .obj ms, h => by
    simp only [Valid] at h
    have := sizeMembers_le_length ms h
    simp only [size, render, length_cons, length_append, length_nil]
    omega

theorem sizeElems_le_length : ∀ xs : List Json, ValidElems xs →
    sizeElems xs ≤ (renderElems xs).length + 1
  | [], _ => by simp [sizeElems]
  | [x], h => by
    have := size_le_length x h.1
    simp only [sizeElems, renderElems]
    omega
  | x :: y :: xs, h => by
    have hx := size_le_length x h.1
    have hxs := sizeElems_le_length (y :: xs) h.2
    rw [sizeElems, renderElems, length_append, length_cons]
    omega

theorem sizeMembers_le_length : ∀ ms : List (String × Json), ValidMembers ms →
    sizeMembers ms ≤ (renderMembers ms).length + 1
  | [], _ => by simp [sizeMembers]
  | [(k, v)], h => by
    have := size_le_length v h.1
    simp only [sizeMembers, renderMembers, length_append, length_cons]
    omega
  | (k, v) :: m :: ms, h => by
    have hv := size_le_length v h.1
    have hms := sizeMembers_le_length (m :: ms) h.2
    rw [sizeMembers, renderMembers]
    simp only [length_append, length_cons]
    omega

end

/-- A rendered value is parsed back, whatever newlines follow it. -/
theorem parse_render (h : Valid v) {ws : List Char} (hw : ∀ c ∈ ws, c = '\n') :
    parse (render v ++ ws) = some v := by
  have hfollow : Follows ws := by
    intro c hc
    rw [hw c (mem_of_mem_head? hc)]
    decide
  have hskip : skipWs ws = [] := by
    clear hfollow
    induction ws with
    | nil => rfl
    | cons c ws ih =>
      rw [skipWs, if_pos (Or.inr (Or.inr (Or.inl (hw c (by simp)))))]
      exact ih fun d hd => hw d (by simp [hd])
  have hsize := size_le_length v h
  unfold parse
  rw [parseValue_render v _ ws h (by rw [length_append]; omega) hfollow]
  simp [hskip]

theorem key_infix_renderMembers (h : (k, v) ∈ ms) : renderString k <:+: renderMembers ms := by
  induction ms with
  | nil => simp at h
  | cons m ms ih =>
    obtain ⟨k', v'⟩ := m
    rcases mem_cons.mp h with heq | hmem
    · cases heq
      cases ms with
      | nil => exact ⟨[], ':' :: render v, rfl⟩
      | cons m ms => exact ⟨[], ':' :: (render v ++ ',' :: renderMembers (m :: ms)), by
          simp [renderMembers]⟩
    · cases ms with
      | nil => simp at hmem
      | cons m ms =>
        obtain ⟨s, t, hst⟩ := ih hmem
        refine ⟨renderString k' ++ ':' :: (render v' ++ ',' :: s), t, ?_⟩
        rw [renderMembers, ← hst]
        simp

theorem key_infix_render (h : (k, v) ∈ ms) : renderString k <:+: render (.obj ms) := by
  obtain ⟨s, t, hst⟩ := key_infix_renderMembers h
  exact ⟨'{' :: s, t ++ ['}'], by rw [render, ← hst]; simp⟩

end JsonText
