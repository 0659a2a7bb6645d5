/-
  File:      GroverTax/Python/Json.lean
  Subject:   The module `json` of the language: `dumps` of a dict of strings with
             `ensure_ascii=False` and the separators `,` and `:`, and `loads`.

  A raised exception is `none`. A number keeps its text. An escape may name a surrogate, which is no
  character: a string that is read is the list of its code points.

  * `loads_fuel` -- the scanner's fuel never runs out;
  * `scanString_escapeStr`, `scanString_torn` -- a written string is read back; without its closing
    quote it is not read;
  * `loads_dumps` -- **what is written is read back**;
  * `loads_torn` -- a text that ends inside a value of the dict is refused.
-/
import GroverTax.Python.Hex
import GroverTax.Python.Text

namespace GroverTax.Python

open GroverTax.Lib
open GroverTax.Kickmix (isAsciiDigit)

/-! ## 1. Writing -/

/-- `'{0:04x}'.format(n)`. -/
def hex4 (n : ℕ) : List Char :=
  [hexChar (n / 4096 % 16), hexChar (n / 256 % 16), hexChar (n / 16 % 16), hexChar (n % 16)]

/-- `ESCAPE_DCT`: quote, backslash and control characters; every other character stands for
    itself. -/
def escapeChar (c : Char) : List Char :=
  if c = '"' then ['\\', '"']
  else if c = '\\' then ['\\', '\\']
  else if c = '\n' then ['\\', 'n']
  else if c = '\r' then ['\\', 'r']
  else if c = '\t' then ['\\', 't']
  else if c = '\x08' then ['\\', 'b']
  else if c = '\x0c' then ['\\', 'f']
  else if c.toNat < 0x20 then '\\' :: 'u' :: hex4 c.toNat
  else [c]

def escapeStr (s : List Char) : List Char := s.flatMap escapeChar

/-- `encode_basestring`. -/
def encodeString (s : List Char) : List Char := '"' :: (escapeStr s ++ ['"'])

/-- The members of a dict, between commas. -/
def dumpMembers : List (List Char × List Char) → List Char
  | [] => []
  | [(key, v)] => encodeString key ++ ':' :: encodeString v
  | (key, v) :: members => encodeString key ++ ':' :: (encodeString v ++ ',' :: dumpMembers members)

def dumps (members : List (List Char × List Char)) : List Char :=
  '{' :: (dumpMembers members ++ ['}'])

/-! ## 2. Reading -/

inductive Json where
  | null
  | bool (b : Bool)
  | num (text : List Char)
  | str (codes : List ℕ)
  | arr (items : List Json)
  | obj (members : List (List ℕ × Json))
  deriving Repr

/-- The code points of a text. -/
def codePoints (s : List Char) : List ℕ := s.map Char.toNat

/-- `d.get(key)` of a dict: of two members with one key the later one counts. -/
def Json.get? (key : List Char) : Json → Option Json
  | .obj members => (members.reverse.find? fun m => m.1 = codePoints key).map Prod.snd
  | _ => none

def hex4Value (a b c d : Char) : Option ℕ := do
  return (((← hexDigit a) * 16 + (← hexDigit b)) * 16 + (← hexDigit c)) * 16 + (← hexDigit d)

def isHighSurrogate (n : ℕ) : Bool := 0xD800 ≤ n ∧ n ≤ 0xDBFF

def isLowSurrogate (n : ℕ) : Bool := 0xDC00 ≤ n ∧ n ≤ 0xDFFF

/-- `BACKSLASH`: the escapes of one character. -/
def backslash (e : Char) : Option ℕ :=
  if e = '"' then some 0x22
  else if e = '\\' then some 0x5C
  else if e = '/' then some 0x2F
  else if e = 'b' then some 0x08
  else if e = 'f' then some 0x0C
  else if e = 'n' then some 0x0A
  else if e = 'r' then some 0x0D
  else if e = 't' then some 0x09
  else none

/-- A code in front of the rest of a string. A high surrogate takes the low one behind it; either
    can only come from an escape. -/
def consCode (n : ℕ) (p : List ℕ × List Char) : List ℕ × List Char :=
  match p.1 with
  | [] => ([n], p.2)
  | n' :: codes =>
      if isHighSurrogate n ∧ isLowSurrogate n' then
        ((0x10000 + (n - 0xD800) * 0x400 + (n' - 0xDC00)) :: codes, p.2)
      else (n :: n' :: codes, p.2)

/-- `scanstring`, behind the opening quote: the string and what follows its closing quote. -/
def scanString : List Char → Option (List ℕ × List Char)
  | [] => none
  | c :: s =>
      if c = '"' then some ([], s)
      else if c = '\\' then
        match s with
        | 'u' :: a :: b :: c :: d :: s => do
            let u ← hex4Value a b c d
            (scanString s).map (consCode u)
        | e :: s => do
            let u ← backslash e
            (scanString s).map (consCode u)
        | [] => none
      else if c.toNat < 0x20 then none
      else (scanString s).map (consCode c.toNat)

/-- `WHITESPACE`. -/
def isJsonSpace (c : Char) : Bool := c = ' ' ∨ c = '\t' ∨ c = '\n' ∨ c = '\r'

def skipSpace (s : List Char) : List Char := s.dropWhile isJsonSpace

/-- The digits at the front. -/
def spanDigits (s : List Char) : List Char × List Char :=
  (s.takeWhile isAsciiDigit, s.dropWhile isAsciiDigit)

/-- `(-?(?:0|[1-9][0-9]*))` without the sign. -/
def scanInt : List Char → List Char × List Char
  | '0' :: s => (['0'], s)
  | s => spanDigits s

/-- `(\.[0-9]+)?` -/
def scanFrac : List Char → List Char × List Char
  | '.' :: s => if (spanDigits s).1 = [] then ([], '.' :: s) else ('.' :: (spanDigits s).1, (spanDigits s).2)
  | s => ([], s)

/-- The optional sign at the front. -/
def scanSign (signs : List Char) : List Char → List Char × List Char
  | [] => ([], [])
  | c :: s => if c ∈ signs then ([c], s) else ([], c :: s)

/-- `([eE][-+]?[0-9]+)?` -/
def scanExp : List Char → List Char × List Char
  | [] => ([], [])
  | e :: s =>
      if e = 'e' ∨ e = 'E' then
        let (sign, s') := scanSign ['-', '+'] s
        let (digits, rest) := spanDigits s'
        if digits = [] then ([], e :: s) else (e :: sign ++ digits, rest)
      else ([], e :: s)

/-- `NUMBER_RE`. An integer of more than 4300 digits is a ValueError. -/
def scanNumber (s : List Char) : Option (Json × List Char) :=
  let (sign, s) := scanSign ['-'] s
  let (digits, s) := scanInt s
  let (frac, s) := scanFrac s
  let (exp, s) := scanExp s
  if digits = [] then none
  else if frac = [] ∧ exp = [] ∧ digits.length > 4300 then none
  else some (.num (sign ++ digits ++ frac ++ exp), s)

/-- The names `scan_once` knows. -/
def words : List (List Char × Json) :=
  [("null".toList, .null), ("true".toList, .bool true), ("false".toList, .bool false),
    ("NaN".toList, .num "NaN".toList), ("Infinity".toList, .num "Infinity".toList),
    ("-Infinity".toList, .num "-Infinity".toList)]

/-- A name, or a number. -/
def scanAtom (s : List Char) : Option (Json × List Char) :=
  match words.find? fun w => w.1.isPrefixOf s with
  | some (name, v) => some (v, s.drop name.length)
  | none => scanNumber s

mutual

/-- `scan_once`. -/
def scanOnce : ℕ → List Char → Option (Json × List Char)
  | 0, _ => none
  | _ + 1, [] => none
  | fuel + 1, c :: s =>
      if c = '"' then (scanString s).map fun (codes, s) => (.str codes, s)
      else if c = '{' then
        match skipSpace s with
        | '}' :: s => some (.obj [], s)
        | s => (scanMembers fuel s).map fun (members, s) => (.obj members, s)
      else if c = '[' then
        match skipSpace s with
        | ']' :: s => some (.arr [], s)
        | s => (scanItems fuel s).map fun (items, s) => (.arr items, s)
      else scanAtom (c :: s)
termination_by structural fuel => fuel

/-- The loop of `JSONObject`, at a key. -/
def scanMembers : ℕ → List Char → Option (List (List ℕ × Json) × List Char)
  | 0, _ => none
  | fuel + 1, s =>
      match s with
      | '"' :: s => do
          let (key, s) ← scanString s
          match skipSpace s with
          | ':' :: s => do
              let (v, s) ← scanOnce fuel (skipSpace s)
              match skipSpace s with
              | '}' :: s => some ([(key, v)], s)
              | ',' :: s => do
                  let (members, s) ← scanMembers fuel (skipSpace s)
                  some ((key, v) :: members, s)
              | _ => none
          | _ => none
      | _ => none
termination_by structural fuel => fuel

/-- The loop of `JSONArray`, at an item. -/
def scanItems : ℕ → List Char → Option (List Json × List Char)
  | 0, _ => none
  | fuel + 1, s => do
      let (v, s) ← scanOnce fuel s
      match skipSpace s with
      | ']' :: s => some ([v], s)
      | ',' :: s => do
          let (items, s) ← scanItems fuel (skipSpace s)
          some (v :: items, s)
      | _ => none
termination_by structural fuel => fuel

end

/-- `json.loads` of a `str`. The fuel is two calls of the scanner for each character. -/
def loads (text : List Char) : Option Json :=
  if text.head? = some '\uFEFF' then none
  else do
    let (v, s) ← scanOnce (2 * text.length + 2) (skipSpace text)
    if skipSpace s = [] then some v else none

/-! ## 3. Fuel -/

section Fuel

variable {s s' : List Char} {fuel : ℕ}

theorem length_skipSpace_le (s : List Char) : (skipSpace s).length ≤ s.length :=
  (List.dropWhile_suffix _).length_le

theorem exists_of_map_consCode {n : ℕ} {v : List ℕ}
    (h : (scanString s).map (consCode n) = some (v, s')) : ∃ v', scanString s = some (v', s') := by
  obtain ⟨⟨v', t⟩, hscan, e⟩ := Option.map_eq_some_iff.mp h
  have hsnd : (consCode n (v', t)).2 = t := by
    unfold consCode
    cases v' with
    | nil => rfl
    | cons n' codes =>
      dsimp only
      split_ifs <;> rfl
  rw [e] at hsnd
  exact ⟨v', by rw [hscan, ← hsnd]⟩

theorem length_scanString {v : List ℕ} (h : scanString s = some (v, s')) :
    s'.length < s.length := by
  fun_induction scanString s generalizing v with
  | case1 => cases h
  | case2 s =>
    cases h
    exact Nat.lt_succ_self _
  | case3 a b c d s _ ih =>
    obtain ⟨u, -, h⟩ := Option.bind_eq_some_iff.mp h
    obtain ⟨v', hscan⟩ := exists_of_map_consCode h
    have := ih hscan
    simp only [List.length_cons]
    omega
  | case4 e s _ _ ih =>
    obtain ⟨u, -, h⟩ := Option.bind_eq_some_iff.mp h
    obtain ⟨v', hscan⟩ := exists_of_map_consCode h
    have := ih hscan
    simp only [List.length_cons]
    omega
  | case5 => cases h
  | case6 => cases h
  | case7 c s _ _ _ ih =>
    obtain ⟨v', hscan⟩ := exists_of_map_consCode h
    exact (ih hscan).trans (Nat.lt_succ_self _)

theorem length_scanSign_le (signs s : List Char) : (scanSign signs s).2.length ≤ s.length := by
  cases s with
  | nil => exact Nat.le_refl 0
  | cons c s =>
    rw [scanSign]
    split_ifs
    · exact Nat.le_succ _
    · exact Nat.le_refl _

theorem length_spanDigits_le (s : List Char) : (spanDigits s).2.length ≤ s.length :=
  (List.dropWhile_suffix _).length_le

theorem length_scanInt_le (s : List Char) : (scanInt s).2.length ≤ s.length := by
  unfold scanInt
  split
  · exact Nat.le_succ _
  · exact length_spanDigits_le s

theorem length_scanFrac_le (s : List Char) : (scanFrac s).2.length ≤ s.length := by
  unfold scanFrac
  split
  · split_ifs
    · exact Nat.le_refl _
    · exact (length_spanDigits_le _).trans (Nat.le_succ _)
  · exact Nat.le_refl _

theorem length_scanExp_le (s : List Char) : (scanExp s).2.length ≤ s.length := by
  cases s with
  | nil => exact Nat.le_refl 0
  | cons e s =>
    unfold scanExp
    dsimp only
    split_ifs
    · exact Nat.le_refl _
    · exact ((length_spanDigits_le _).trans (length_scanSign_le _ s)).trans (Nat.le_succ _)
    · exact Nat.le_refl _

theorem length_scanAtom_le {v : Json} (h : scanAtom s = some (v, s')) : s'.length ≤ s.length := by
  unfold scanAtom at h
  split at h
  · cases h
    rw [List.length_drop]
    exact Nat.sub_le ..
  · unfold scanNumber at h
    dsimp only at h
    split_ifs at h
    cases h
    exact (length_scanExp_le _).trans ((length_scanFrac_le _).trans
      ((length_scanInt_le _).trans (length_scanSign_le _ s)))

theorem length_lt_of_skipSpace {c : Char} {r : List Char} (h : skipSpace s = c :: r) :
    r.length < s.length := by
  have hle := length_skipSpace_le s
  rwa [h] at hle

/-- What the scanner leaves is not longer than what it got. -/
def Shrinks {V : Type} (scan : List Char → Option (V × List Char)) : Prop :=
  ∀ s s' v, scan s = some (v, s') → s'.length ≤ s.length

theorem scanOnce_shrinks (hmembers : Shrinks (scanMembers fuel)) (hitems : Shrinks (scanItems fuel)) :
    Shrinks (scanOnce (fuel + 1)) := by
  intro s s' v h
  cases s with
  | nil =>
    rw [scanOnce] at h
    cases h
  | cons c s =>
    have hskip := length_skipSpace_le s
    rw [scanOnce] at h
    rw [List.length_cons]
    split_ifs at h
    · obtain ⟨⟨codes, t⟩, hs, e⟩ := Option.map_eq_some_iff.mp h
      cases e
      exact (length_scanString hs).le.trans (Nat.le_succ _)
    · split at h
      · rename_i e
        cases h
        have := length_lt_of_skipSpace e
        omega
      · obtain ⟨⟨members, t⟩, hs, e⟩ := Option.map_eq_some_iff.mp h
        cases e
        exact (hmembers _ _ _ hs).trans (hskip.trans (Nat.le_succ _))
    · split at h
      · rename_i e
        cases h
        have := length_lt_of_skipSpace e
        omega
      · obtain ⟨⟨items, t⟩, hs, e⟩ := Option.map_eq_some_iff.mp h
        cases e
        exact (hitems _ _ _ hs).trans (hskip.trans (Nat.le_succ _))
    · exact length_scanAtom_le h

theorem scanMembers_shrinks (honce : Shrinks (scanOnce fuel)) (hmembers : Shrinks (scanMembers fuel)) :
    Shrinks (scanMembers (fuel + 1)) := by
  intro s s' v h
  rw [scanMembers.eq_def] at h
  dsimp only at h
  split at h
  · rename_i s
    obtain ⟨⟨key, t⟩, hs, h⟩ := Option.bind_eq_some_iff.mp h
    have h1 := length_scanString hs
    dsimp only at h
    rw [List.length_cons]
    split at h
    · rename_i r e
      have h2 := length_lt_of_skipSpace e
      obtain ⟨⟨v', t'⟩, hs', h⟩ := Option.bind_eq_some_iff.mp h
      have h3 := honce _ _ _ hs'
      have h4 := length_skipSpace_le r
      dsimp only at h
      split at h
      · rename_i e'
        cases h
        have h5 := length_lt_of_skipSpace e'
        omega
      · rename_i r' e'
        have h5 := length_lt_of_skipSpace e'
        obtain ⟨⟨members, t''⟩, hs'', e''⟩ := Option.bind_eq_some_iff.mp h
        cases e''
        have h6 := hmembers _ _ _ hs''
        have h7 := length_skipSpace_le r'
        dsimp only
        omega
      · cases h
    · cases h
  · cases h

theorem scanItems_shrinks (honce : Shrinks (scanOnce fuel)) (hitems : Shrinks (scanItems fuel)) :
    Shrinks (scanItems (fuel + 1)) := by
  intro s s' v h
  rw [scanItems] at h
  obtain ⟨⟨v', t⟩, hs, h⟩ := Option.bind_eq_some_iff.mp h
  have h1 := honce _ _ _ hs
  dsimp only at h
  split at h
  · rename_i e
    cases h
    have h2 := length_lt_of_skipSpace e
    omega
  · rename_i r e
    have h2 := length_lt_of_skipSpace e
    obtain ⟨⟨items, t'⟩, hs', e'⟩ := Option.bind_eq_some_iff.mp h
    cases e'
    have h3 := hitems _ _ _ hs'
    have h4 := length_skipSpace_le r
    dsimp only
    omega
  · cases h

theorem scan_shrinks : ∀ fuel : ℕ,
    Shrinks (scanOnce fuel) ∧ Shrinks (scanMembers fuel) ∧ Shrinks (scanItems fuel)
  | 0 => by
      refine ⟨fun s s' v h => ?_, fun s s' v h => ?_, fun s s' v h => ?_⟩
      · rw [scanOnce] at h
        cases h
      · rw [scanMembers] at h
        cases h
      · rw [scanItems] at h
        cases h
  | fuel + 1 =>
      have ⟨honce, hmembers, hitems⟩ := scan_shrinks fuel
      ⟨scanOnce_shrinks hmembers hitems, scanMembers_shrinks honce hmembers,
        scanItems_shrinks honce hitems⟩

/-- One call more changes nothing on a text with two calls a character and `k` more. -/
def Enough {V : Type} (scan : ℕ → List Char → Option (V × List Char)) (k fuel : ℕ) : Prop :=
  ∀ s : List Char, 2 * s.length + k ≤ fuel → scan fuel s = scan (fuel + 1) s

theorem scanOnce_enough (hmembers : Enough scanMembers 2 fuel) (hitems : Enough scanItems 2 fuel) :
    Enough scanOnce 1 (fuel + 1) := by
  intro s h
  cases s with
  | nil => rw [scanOnce, scanOnce]
  | cons c s =>
    have hskip := length_skipSpace_le s
    rw [List.length_cons] at h
    have e1 := hmembers (skipSpace s) (by omega)
    have e2 := hitems (skipSpace s) (by omega)
    rw [scanOnce, scanOnce]
    split_ifs
    · rfl
    · split
      · rfl
      · rw [e1]
    · split
      · rfl
      · rw [e2]
    · rfl

theorem scanMembers_enough (honce : Enough scanOnce 1 fuel) (hmembers : Enough scanMembers 2 fuel) :
    Enough scanMembers 2 (fuel + 1) := by
  intro s h
  rw [scanMembers.eq_def, scanMembers.eq_def (fuel + 1 + 1)]
  dsimp only
  split
  · rename_i s
    rw [List.length_cons] at h
    refine Option.bind_congr fun ⟨key, t⟩ hs => ?_
    have h1 := length_scanString hs
    dsimp only
    split
    · rename_i r e
      have h2 := length_lt_of_skipSpace e
      have h3 := length_skipSpace_le r
      rw [← honce (skipSpace r) (by omega)]
      refine Option.bind_congr fun ⟨v', t'⟩ hs' => ?_
      have h4 := (scan_shrinks fuel).1 _ _ _ hs'
      dsimp only
      split
      · rfl
      · rename_i r' e'
        have h5 := length_lt_of_skipSpace e'
        have h6 := length_skipSpace_le r'
        rw [hmembers (skipSpace r') (by omega)]
      · rfl
    · rfl
  · rfl

theorem scanItems_enough (honce : Enough scanOnce 1 fuel) (hitems : Enough scanItems 2 fuel) :
    Enough scanItems 2 (fuel + 1) := by
  intro s h
  rw [scanItems, scanItems, ← honce s (by omega)]
  refine Option.bind_congr fun ⟨v', t⟩ hs => ?_
  have h1 := (scan_shrinks fuel).1 _ _ _ hs
  dsimp only
  split
  · rfl
  · rename_i r e
    have h2 := length_lt_of_skipSpace e
    have h3 := length_skipSpace_le r
    rw [hitems (skipSpace r) (by omega)]
  · rfl

/-- **More fuel than two calls a character changes nothing.** -/
theorem scan_fuel : ∀ fuel : ℕ,
    Enough scanOnce 1 fuel ∧ Enough scanMembers 2 fuel ∧ Enough scanItems 2 fuel
  | 0 => ⟨fun _ h => absurd h (Nat.not_succ_le_zero _), fun _ h => absurd h (Nat.not_succ_le_zero _),
      fun _ h => absurd h (Nat.not_succ_le_zero _)⟩
  | fuel + 1 =>
      have ⟨honce, hmembers, hitems⟩ := scan_fuel fuel
      ⟨scanOnce_enough hmembers hitems, scanMembers_enough honce hmembers,
        scanItems_enough honce hitems⟩

/-- **`loads` has fuel enough**: it is the scanner at any larger amount. -/
theorem loads_fuel (text : List Char) (extra : ℕ) : loads text =
    if text.head? = some '\uFEFF' then none
    else (scanOnce (2 * text.length + 2 + extra) (skipSpace text)).bind fun (v, s) =>
      if skipSpace s = [] then some v else none := by
  have e : scanOnce (2 * text.length + 2) (skipSpace text) =
      scanOnce (2 * text.length + 2 + extra) (skipSpace text) := by
    have hskip := length_skipSpace_le text
    induction extra with
    | zero => rfl
    | succ extra ih =>
      exact ih.trans ((scan_fuel (2 * text.length + 2 + extra)).1 (skipSpace text) (by omega))
  rw [loads, e]
  rfl

end Fuel

/-! ## 4. Strings -/

section Strings

variable {s rest : List Char} {n : ℕ}

theorem hex4_eq (h : n < 0x20) : ∃ a b c d, hex4 n = [a, b, c, d] ∧ hex4Value a b c d = some n := by
  refine ⟨_, _, _, _, rfl, ?_⟩
  interval_cases n <;> rfl

/-- No character is a surrogate. -/
theorem consCode_toNat (c : Char) (p : List ℕ × List Char) :
    consCode c.toNat p = (c.toNat :: p.1, p.2) := by
  have hhigh : isHighSurrogate c.toNat = false := by
    have hvalid : c.toNat < 0xD800 ∨ 0xDFFF < c.toNat ∧ c.toNat < 0x110000 := c.valid
    rw [isHighSurrogate, decide_eq_false_iff_not]
    omega
  unfold consCode
  split
  · rename_i h
    rw [h]
  · rename_i h
    rw [hhigh, if_neg (fun e => Bool.false_ne_true e.1), h]

/-- **A written character is read back.** -/
theorem scanString_escapeChar (c : Char) (s : List Char) :
    scanString (escapeChar c ++ s) = (scanString s).map (consCode c.toNat) := by
  unfold escapeChar
  split_ifs with h1 h2 h3 h4 h5 h6 h7 h8
  · rw [h1]
    rfl
  · rw [h2]
    rfl
  · rw [h3]
    rfl
  · rw [h4]
    rfl
  · rw [h5]
    rfl
  · rw [h6]
    rfl
  · rw [h7]
    rfl
  · obtain ⟨a, b, d, e, hhex, hval⟩ := hex4_eq h8
    rw [hhex]
    show (hex4Value a b d e).bind _ = _
    rw [hval]
    rfl
  · rw [List.singleton_append, scanString.eq_def]
    dsimp only
    rw [if_neg h1, if_neg h2, if_neg h8]

theorem escapeStr_cons (c : Char) (s : List Char) :
    escapeStr (c :: s) = escapeChar c ++ escapeStr s := List.flatMap_cons

/-- **A written string is read back.** -/
theorem scanString_escapeStr (rest : List Char) : ∀ s : List Char,
    scanString (escapeStr s ++ '"' :: rest) = some (codePoints s, rest)
  | [] => by
      rw [scanString.eq_def]
      exact if_pos rfl
  | c :: s => by
      rw [escapeStr_cons, List.append_assoc, scanString_escapeChar, scanString_escapeStr rest s,
        Option.map_some, consCode_toNat]
      rfl

/-- **A string without its closing quote is refused.** -/
theorem scanString_torn : ∀ s : List Char, scanString (escapeStr s) = none
  | [] => rfl
  | c :: s => by
      rw [escapeStr_cons, scanString_escapeChar, scanString_torn s, Option.map_none]

theorem encodeString_append (s rest : List Char) :
    encodeString s ++ rest = '"' :: (escapeStr s ++ '"' :: rest) := by
  simp [encodeString]

end Strings

/-! ## 5. Dicts -/

section Dicts

variable {key v rest : List Char} {members : List (List Char × List Char)} {fuel : ℕ}

/-- A member as it is read. -/
def readMember (m : List Char × List Char) : List ℕ × Json :=
  (codePoints m.1, .str (codePoints m.2))

/-- The dict of strings as it is read. -/
def readDict (members : List (List Char × List Char)) : Json := .obj (members.map readMember)

theorem skipSpace_cons {c : Char} (h : isJsonSpace c = false) (s : List Char) :
    skipSpace (c :: s) = c :: s := by
  rw [skipSpace, List.dropWhile_cons_of_neg (by simp [h])]

theorem scanOnce_string (fuel : ℕ) (v rest : List Char) :
    scanOnce (fuel + 1) ('"' :: (escapeStr v ++ '"' :: rest)) = some (.str (codePoints v), rest) := by
  rw [scanOnce, if_pos rfl, scanString_escapeStr]
  rfl

theorem scanOnce_torn (v : List Char) : ∀ fuel : ℕ, scanOnce fuel ('"' :: escapeStr v) = none
  | 0 => by rw [scanOnce]
  | fuel + 1 => by rw [scanOnce, if_pos rfl, scanString_torn, Option.map_none]

/-- A key, up to its value. -/
theorem scanMembers_key (fuel : ℕ) (key s : List Char) :
    scanMembers (fuel + 1) (encodeString key ++ ':' :: '"' :: s) =
      (scanOnce fuel ('"' :: s)).bind fun (v, s) =>
        match skipSpace s with
        | '}' :: s => some ([(codePoints key, v)], s)
        | ',' :: s => (scanMembers fuel (skipSpace s)).bind fun (members, s) =>
            some ((codePoints key, v) :: members, s)
        | _ => none := by
  rw [encodeString_append, scanMembers]
  simp only [Option.bind_eq_bind]
  rw [scanString_escapeStr, Option.bind_some, skipSpace_cons (by decide)]
  show (scanOnce fuel (skipSpace _)).bind _ = _
  rw [skipSpace_cons (by decide)]

/-- A member, up to what follows it. -/
theorem scanMembers_member (fuel : ℕ) (m : List Char × List Char) (rest : List Char) :
    scanMembers (fuel + 2) (encodeString m.1 ++ ':' :: (encodeString m.2 ++ rest)) =
      match skipSpace rest with
      | '}' :: s => some ([readMember m], s)
      | ',' :: s => (scanMembers (fuel + 1) (skipSpace s)).bind fun (members, s) =>
          some (readMember m :: members, s)
      | _ => none := by
  rw [encodeString_append m.2, scanMembers_key, scanOnce_string, Option.bind_some]
  rfl

theorem dumpMembers_cons {m : List Char × List Char} (h : members ≠ []) :
    dumpMembers (m :: members) =
      encodeString m.1 ++ ':' :: (encodeString m.2 ++ ',' :: dumpMembers members) := by
  obtain ⟨m', members, rfl⟩ := List.exists_cons_of_ne_nil h
  rfl

/-- The members begin with a quote. -/
theorem skipSpace_dumpMembers (h : members ≠ []) (rest : List Char) :
    skipSpace (dumpMembers members ++ rest) = dumpMembers members ++ rest := by
  obtain ⟨m, members, rfl⟩ := List.exists_cons_of_ne_nil h
  cases members with
  | nil => exact skipSpace_cons (by decide) _
  | cons => exact skipSpace_cons (by decide) _

theorem scanMembers_dumpMembers (rest : List Char) : ∀ {members : List (List Char × List Char)}
    {fuel : ℕ}, members ≠ [] → members.length < fuel →
      scanMembers fuel (dumpMembers members ++ '}' :: rest) = some (members.map readMember, rest)
  | [], _, hne, _ => absurd rfl hne
  | [m], fuel, _, hlt => by
      obtain ⟨f, rfl⟩ : ∃ f, fuel = f + 2 := ⟨fuel - 2, by
        rw [List.length_singleton] at hlt
        omega⟩
      rw [dumpMembers, List.append_assoc, List.cons_append, scanMembers_member,
        skipSpace_cons (by decide)]
      rfl
  | m :: m' :: members, fuel, _, hlt => by
      rw [List.length_cons] at hlt
      obtain ⟨f, rfl⟩ : ∃ f, fuel = f + 2 := ⟨fuel - 2, by
        rw [List.length_cons] at hlt
        omega⟩
      rw [dumpMembers_cons (List.cons_ne_nil m' members), List.append_assoc, List.cons_append,
        List.append_assoc, List.cons_append, scanMembers_member, skipSpace_cons (by decide)]
      show (scanMembers (f + 1) (skipSpace _)).bind _ = _
      rw [skipSpace_dumpMembers (List.cons_ne_nil m' members),
        scanMembers_dumpMembers rest (List.cons_ne_nil m' members) (by omega), Option.bind_some]
      rfl

theorem scanOnce_brace {s t : List Char} (h : skipSpace s = '"' :: t) :
    scanOnce (fuel + 1) ('{' :: s) =
      (scanMembers fuel ('"' :: t)).map fun (members, s) => (.obj members, s) := by
  rw [scanOnce, if_neg (by decide), if_pos rfl, h]
  rfl

theorem length_le_dumpMembers : ∀ members : List (List Char × List Char),
    members.length ≤ (dumpMembers members).length
  | [] => Nat.le_refl 0
  | [m] => by
      rw [dumpMembers, List.length_append]
      simp only [List.length_cons, List.length_nil]
      omega
  | m :: m' :: members => by
      have ih := length_le_dumpMembers (m' :: members)
      rw [dumpMembers_cons (List.cons_ne_nil m' members)]
      simp only [List.length_append, List.length_cons] at ih ⊢
      omega

theorem loads_brace (s : List Char) :
    loads ('{' :: s) = (scanOnce (2 * (s.length + 1) + 2) ('{' :: s)).bind fun (v, s) =>
      if skipSpace s = [] then some v else none := by
  rw [loads, if_neg (by simp), skipSpace_cons (by decide)]
  rfl

/-- **What is written is read back.** -/
theorem loads_dumps (h : members ≠ []) : loads (dumps members) = some (readDict members) := by
  have hlen := length_le_dumpMembers members
  have hskip := skipSpace_dumpMembers h ['}']
  obtain ⟨t, ht⟩ : ∃ t, dumpMembers members ++ ['}'] = '"' :: t := by
    obtain ⟨m, members, rfl⟩ := List.exists_cons_of_ne_nil h
    cases members with
    | nil => exact ⟨_, rfl⟩
    | cons => exact ⟨_, rfl⟩
  rw [dumps, loads_brace, List.length_append, List.length_singleton, scanOnce_brace (hskip.trans ht),
    ← ht, scanMembers_dumpMembers [] h (by omega)]
  rfl

/-- Members with a comma behind each. -/
def dumpFront (members : List (List Char × List Char)) : List Char :=
  members.flatMap fun m => encodeString m.1 ++ ':' :: (encodeString m.2 ++ [','])

theorem dumpMembers_append : ∀ (front : List (List Char × List Char)), members ≠ [] →
    dumpMembers (front ++ members) = dumpFront front ++ dumpMembers members
  | [], _ => rfl
  | m :: front, h => by
      rw [List.cons_append, dumpMembers_cons (List.append_ne_nil_of_right_ne_nil front h),
        dumpMembers_append front h]
      simp [dumpFront]

/-- The members up to a place inside the value of one. -/
def tornMembers (front : List (List Char × List Char)) (key v : List Char) : List Char :=
  dumpFront front ++ (encodeString key ++ ':' :: '"' :: escapeStr v)

theorem tornMembers_quote (front : List (List Char × List Char)) (key v : List Char) :
    ∃ t, tornMembers front key v = '"' :: t := by
  cases front with
  | nil => exact ⟨_, rfl⟩
  | cons => exact ⟨_, rfl⟩

theorem scanMembers_torn (key v : List Char) : ∀ (front : List (List Char × List Char)) (fuel : ℕ),
    scanMembers fuel (tornMembers front key v) = none
  | _, 0 => by rw [scanMembers]
  | [], fuel + 1 => by
      show scanMembers (fuel + 1) (encodeString key ++ ':' :: '"' :: escapeStr v) = none
      rw [scanMembers_key, scanOnce_torn, Option.bind_none]
  | m :: front, fuel + 1 => by
      have e : tornMembers (m :: front) key v = encodeString m.1 ++ ':' :: (encodeString m.2 ++
          ',' :: tornMembers front key v) := by simp [tornMembers, dumpFront]
      rw [e]
      cases fuel with
      | zero =>
        rw [encodeString_append m.2, scanMembers_key, scanOnce]
        rfl
      | succ fuel =>
        rw [scanMembers_member, skipSpace_cons (by decide)]
        show (scanMembers (fuel + 1) (skipSpace _)).bind _ = none
        obtain ⟨t, ht⟩ := tornMembers_quote front key v
        have hskip : skipSpace (tornMembers front key v) = tornMembers front key v := by
          rw [ht]
          exact skipSpace_cons (by decide) t
        rw [hskip, scanMembers_torn key v front (fuel + 1), Option.bind_none]

/-- **A text that ends inside a value of the dict is refused.** -/
theorem loads_torn (front : List (List Char × List Char)) (key v : List Char) :
    loads ('{' :: tornMembers front key v) = none := by
  obtain ⟨t, ht⟩ := tornMembers_quote front key v
  have hskip : skipSpace (tornMembers front key v) = '"' :: t := by
    rw [ht]
    exact skipSpace_cons (by decide) t
  rw [loads_brace, scanOnce_brace hskip, ← ht, scanMembers_torn]
  rfl

end Dicts

end GroverTax.Python
