/-
  File:      GroverTax/Python/Text.lean
  Subject:   The operations on `str` the Python readers of a .kmx text use.

  * `isSpace`, `strip`, `split` -- whitespace, U+001C to U+001F included;
  * `splitlines` -- the line breaks of the language, ten characters and the pair `\r\n`;
  * `WordClass`, `qubitMatches` -- the search for `\bq([0-9]+)\b`;
  * `int` -- decimal numerals, refused beyond 4300 digits;
  * `codes`, `codeLines` -- the lines of code of a text;
  * `universalNewlines` -- what reading a file does to its line ends;
  * `splitlines_flatMap`, `qubitMatches_eq` -- line by line, and word by word.
-/
import GroverTax.Kickmix.Parse

namespace GroverTax.Python

open GroverTax.Lib
open GroverTax.Kickmix (isAsciiDigit digitsValue)

/-! ## 1. Whitespace and lines -/

/-- Membership in a list of words is decided by comparing words. -/
instance lawfulBEqWord : LawfulBEq (List Char) := inferInstance

/-- `str.isspace` of a character. -/
def isSpace (c : Char) : Bool :=
  let n := c.toNat
  (0x09 ≤ n && n ≤ 0x0D) || (0x1C ≤ n && n ≤ 0x20) || n == 0x85 || n == 0xA0 || n == 0x1680 ||
    (0x2000 ≤ n && n ≤ 0x200A) || n == 0x2028 || n == 0x2029 || n == 0x202F || n == 0x205F ||
    n == 0x3000

/-- `str.strip()`. -/
def strip (s : List Char) : List Char := trim isSpace s

/-- `str.split()`. -/
def split (s : List Char) : List (List Char) := tokens isSpace s

/-- The characters that end a line for `str.splitlines`. -/
def isLineBreak (c : Char) : Bool :=
  let n := c.toNat
  (0x0A ≤ n && n ≤ 0x0D) || (0x1C ≤ n && n ≤ 0x1E) || n == 0x85 || n == 0x2028 || n == 0x2029

/-- The lines of a text, `line` being the part of the current one that is read. -/
def splitlinesFrom (line : List Char) : List Char → List (List Char)
  | [] => if line = [] then [] else [line]
  | '\r' :: '\n' :: s => line :: splitlinesFrom [] s
  | c :: s =>
      if isLineBreak c then line :: splitlinesFrom [] s else splitlinesFrom (line ++ [c]) s

/-- `str.splitlines()`. -/
def splitlines (text : List Char) : List (List Char) := splitlinesFrom [] text

/-- `raw.split("#", 1)[0].strip()`. -/
def codeOf (raw : List Char) : List Char := strip (raw.takeWhile (· ≠ '#'))

theorem isSpace_of_isLineBreak {c : Char} (h : isLineBreak c = true) : isSpace c = true := by
  simp only [isLineBreak, isSpace, Bool.or_eq_true, Bool.and_eq_true, decide_eq_true_eq,
    beq_iff_eq] at h ⊢
  omega

theorem modifyHead_nil_append (l : List (List Char)) : l.modifyHead ([] ++ ·) = l := by
  cases l <;> rfl

theorem splitlinesFrom_flatMap {β : Type*} {g : List Char → List β} (hnil : g [] = [])
    (line s : List Char) : (splitlinesFrom line s).flatMap g =
      ((s.splitOnP isLineBreak).modifyHead (line ++ ·)).flatMap g := by
  fun_induction splitlinesFrom line s with
  | case1 => simp [hnil]
  | case2 line h => simp
  | case3 line s ih =>
    rw [List.flatMap_cons, ih, modifyHead_nil_append, List.splitOnP_cons_eq_if_modifyHead,
      if_pos (by decide), List.splitOnP_cons_eq_if_modifyHead, if_pos (by decide)]
    simp [hnil]
  | case4 line c s _ hc ih =>
    rw [List.flatMap_cons, ih, modifyHead_nil_append, List.splitOnP_cons_eq_if_modifyHead,
      if_pos hc]
    simp
  | case5 line c s _ hc ih =>
    rw [ih, List.splitOnP_cons_eq_if_modifyHead, if_neg hc, List.modifyHead_modifyHead]
    congr 2
    funext w
    simp

/-- **What does nothing on an empty line may read the pieces between line breaks instead.** -/
theorem splitlines_flatMap {β : Type*} {g : List Char → List β} (hnil : g [] = [])
    (text : List Char) : (splitlines text).flatMap g = (text.splitOnP isLineBreak).flatMap g := by
  rw [splitlines, splitlinesFrom_flatMap hnil, modifyHead_nil_append]

/-- The code of a line, none if it is blank. -/
def codes (raw : List Char) : List (List Char) :=
  if (codeOf raw).isEmpty then [] else [codeOf raw]

/-- The lines of code of a text. -/
def codeLines (text : List Char) : List (List Char) := (splitlines text).flatMap codes

theorem split_codeOf (raw : List Char) :
    split (codeOf raw) = tokens isSpace (raw.takeWhile (· ≠ '#')) := tokens_trim _

theorem codeOf_isEmpty {raw : List Char} :
    (codeOf raw).isEmpty = true ↔ split (codeOf raw) = [] := by
  rw [split_codeOf, List.isEmpty_iff, codeOf, strip, trim_eq_nil, tokens_eq_nil]

theorem codes_eq_nil {raw : List Char} : codes raw = [] ↔ split (codeOf raw) = [] := by
  unfold codes
  split_ifs with h
  · exact ⟨fun _ => codeOf_isEmpty.mp h, fun _ => rfl⟩
  · exact ⟨fun e => (nomatch e), fun e => absurd (codeOf_isEmpty.mpr e) h⟩

/-- The lines of code are those of the pieces between line breaks. -/
theorem codeLines_eq (text : List Char) :
    codeLines text = (text.splitOnP isLineBreak).flatMap codes := splitlines_flatMap rfl text

/-! ## 2. Reading a file -/

/-- What a text file opened without `newline` does to the ends of its lines. -/
def universalNewlines : List Char → List Char
  | [] => []
  | '\r' :: '\n' :: s => '\n' :: universalNewlines s
  | c :: s => (if c = '\r' then '\n' else c) :: universalNewlines s

/-- **The lines of a file are those of its text.** -/
theorem splitlinesFrom_universalNewlines (line s : List Char) :
    splitlinesFrom line (universalNewlines s) = splitlinesFrom line s := by
  fun_induction universalNewlines s generalizing line with
  | case1 => rfl
  | case2 s ih =>
    rw [splitlinesFrom.eq_2, splitlinesFrom.eq_3 line '\n' _ (fun _ e _ => by simp at e),
      if_pos (by decide), ih]
  | case3 c s hc ih =>
    rw [splitlinesFrom.eq_3 line c s hc]
    by_cases h : c = '\r'
    · rw [if_pos h, splitlinesFrom.eq_3 line '\n' _ (fun _ e _ => by simp at e),
        if_pos (by decide), h, if_pos (by decide), ih]
    · rw [if_neg h, splitlinesFrom.eq_3 line c _ (fun _ e _ => h e), ih, ih]

theorem codeLines_universalNewlines (text : List Char) :
    codeLines (universalNewlines text) = codeLines text := by
  rw [codeLines, splitlines, splitlinesFrom_universalNewlines]
  rfl

/-! ## 3. The regular expression for qubits -/

/-- `\w` in a pattern over `str`: the letters, digits and numbers of Unicode and the underscore.
    Its values outside ASCII are the language's tables; no whitespace is among them. -/
structure WordClass where
  isWord : Char → Bool
  ascii : ∀ c : Char, c.toNat < 128 → isWord c = (c.isAlphanum || c == '_')
  space : ∀ c, isSpace c = true → isWord c = false

/-- Whitespace is none of the letters and digits of ASCII. -/
theorem notWord_of_isSpace {c : Char} (hc : isSpace c = true) : (c.isAlphanum || c == '_') = false := by
  have hval : c.toNat = c.val.toNat := rfl
  simp only [isSpace, Bool.or_eq_true, Bool.and_eq_true, decide_eq_true_eq, beq_iff_eq] at hc
  have halnum : c.isAlphanum = (decide (c.val ≥ 'A'.val ∧ c.val ≤ 'Z'.val) ||
      (decide (c.val ≥ 'a'.val) && decide (c.val ≤ 'z'.val)) ||
        (decide (c.val ≥ '0'.val) && decide (c.val ≤ '9'.val))) := rfl
  simp only [halnum, Bool.or_eq_false_iff, Bool.and_eq_false_iff, decide_eq_false_iff_not,
    beq_eq_false_iff_ne, UInt32.le_iff_toNat_le, ge_iff_le, ne_eq]
  refine ⟨⟨⟨?_, ?_⟩, ?_⟩, ?_⟩
  · simp
    omega
  · simp
    omega
  · simp
    omega
  · rintro rfl
    simp at hc

/-- The position before `s` is not inside a word. -/
def WordClass.ends (word : WordClass) : List Char → Bool
  | [] => true
  | c :: _ => !word.isWord c

/-- The numerals `re.finditer` finds for `\bq([0-9]+)\b`, after a character that is of a word or not.
    The digits of a match start no other one. -/
def qubitMatches (word : WordClass) (inWord : Bool) : List Char → List (List Char)
  | [] => []
  | c :: s =>
      (if c = 'q' ∧ inWord = false ∧ s.takeWhile isAsciiDigit ≠ [] ∧
          word.ends (s.dropWhile isAsciiDigit) = true
        then [s.takeWhile isAsciiDigit] else []) ++ qubitMatches word (word.isWord c) s

/-- `int` of a string of digits; `none` is the `ValueError` of a string of more than 4300. -/
def int (digits : List Char) : Option ℕ :=
  if digits.length ≤ 4300 then some (digitsValue digits) else none

section Matches

variable {word : WordClass}

theorem WordClass.digit {c : Char} (h : isAsciiDigit c = true) : word.isWord c = true := by
  simp only [isAsciiDigit, Bool.and_eq_true, decide_eq_true_eq] at h
  have h1 : 48 ≤ c.toNat := h.1
  have h2 : c.toNat ≤ 57 := h.2
  rw [word.ascii c (by omega)]
  have : c.isDigit = true := by
    simp only [Char.isDigit, Bool.and_eq_true, decide_eq_true_eq]
    exact h
  simp [Char.isAlphanum, this]

theorem WordClass.q : word.isWord 'q' = true := by
  rw [word.ascii 'q' (by decide)]
  decide

/-- **The matches of a string are those of its parts around a character of no word.** -/
theorem qubitMatches_append {w : Char} (hw : word.isWord w = false) (inWord : Bool)
    (s t : List Char) : qubitMatches word inWord (s ++ w :: t) =
      qubitMatches word inWord s ++ qubitMatches word false t := by
  have hd : isAsciiDigit w ≠ true := fun h => by simp [WordClass.digit h] at hw
  have hq : w ≠ 'q' := by
    rintro rfl
    simp [WordClass.q] at hw
  induction s generalizing inWord with
  | nil => simp [qubitMatches, hq, hw]
  | cons c s ih =>
    have htake : (s ++ w :: t).takeWhile isAsciiDigit = s.takeWhile isAsciiDigit := by
      rw [List.takeWhile_append]
      split_ifs with h
      · rw [List.takeWhile_cons_of_neg hd, List.append_nil, (List.takeWhile_prefix _).eq_of_length h]
      · rfl
    have hends : word.ends ((s ++ w :: t).dropWhile isAsciiDigit) =
        word.ends (s.dropWhile isAsciiDigit) := by
      rw [List.dropWhile_append]
      split_ifs with h
      · rw [List.isEmpty_iff.mp h, List.dropWhile_cons_of_neg hd]
        simp [WordClass.ends, hw]
      · obtain ⟨d, r, e⟩ := List.exists_cons_of_ne_nil (l := s.dropWhile isAsciiDigit)
          (by simpa using h)
        rw [e]
        rfl
    rw [List.cons_append, qubitMatches, qubitMatches, htake, hends, ih, List.append_assoc]

/-- **The matches are found word by word.** -/
theorem qubitMatches_eq {sep : Char → Bool} (hsep : ∀ c, sep c = true → word.isWord c = false)
    (s : List Char) : qubitMatches word false s = (tokens sep s).flatMap (qubitMatches word false) :=
  eq_flatMap_tokens rfl (fun w _ t _ hc => qubitMatches_append (hsep _ hc) false w t) s

/-- Without a `q` there is no match. -/
theorem qubitMatches_of_notMem {s : List Char} (h : 'q' ∉ s) (inWord : Bool) :
    qubitMatches word inWord s = [] := by
  induction s generalizing inWord with
  | nil => rfl
  | cons c s ih =>
    rw [List.mem_cons, not_or] at h
    rw [qubitMatches, if_neg (fun e => h.1 e.1.symm), ih h.2, List.nil_append]

/-- `q` and digits are one match. -/
theorem qubitMatches_digits {ds : List Char} (hne : ds ≠ [])
    (hd : ∀ c ∈ ds, isAsciiDigit c = true) : qubitMatches word false ('q' :: ds) = [ds] := by
  have hq : 'q' ∉ ds := fun h => absurd (hd 'q' h) (by decide)
  rw [qubitMatches, List.takeWhile_eq_self_iff.mpr hd, List.dropWhile_eq_nil_iff.mpr hd,
    if_pos ⟨rfl, rfl, hne, rfl⟩, qubitMatches_of_notMem hq, List.append_nil]

/-- `q` without a digit after it is no match. -/
theorem qubitMatches_sign {d : Char} {s : List Char} (hd : isAsciiDigit d = false) (hd' : d ≠ 'q')
    (hs : 'q' ∉ s) (inWord : Bool) : qubitMatches word inWord ('q' :: d :: s) = [] := by
  rw [qubitMatches, List.takeWhile_cons_of_neg (by simp [hd]), if_neg (fun e => e.2.2.1 rfl),
    List.nil_append, qubitMatches_of_notMem]
  rw [List.mem_cons, not_or]
  exact ⟨hd'.symm, hs⟩

end Matches

end GroverTax.Python
