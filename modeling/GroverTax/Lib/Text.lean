/-
  File:      GroverTax/Lib/Text.lean
  Subject:   Tokens of a character string, for any notion of separator.

  * `tokens sep` -- the maximal nonempty pieces without a separator (`split_whitespace` in Rust,
    `str.split()` in Python, each with its own `sep`);
  * `trim sep` -- the string without the separators at its two ends;
  * `tokens_trim`, `tokens_cons_sep` -- how tokens are found, left to right;
  * `tokens_congr` -- two notions of separator that agree on a string have the same tokens there;
  * `eq_flatMap_splitOnP`, `eq_flatMap_tokens` -- a function of strings that is additive over the
    separators is the function of the pieces, concatenated;
  * `tokens_intercalate`, `splitOnP_unlines` -- words and lines that are laid out are found again.
-/
import Mathlib.Data.List.DropRight
import Mathlib.Tactic.Common

namespace GroverTax.Lib

variable {α : Type*}

/-- The maximal nonempty pieces of a string without a separator. -/
def tokens (sep : α → Bool) (s : List α) : List (List α) :=
  (s.splitOnP sep).filter fun t => !t.isEmpty

/-- A string without the separators at its ends. -/
def trim (sep : α → Bool) (s : List α) : List α := (s.dropWhile sep).rdropWhile sep

section Tokens

variable {sep : α → Bool}

@[simp] theorem tokens_nil : tokens sep ([] : List α) = [] := rfl

theorem tokens_cons_sep {c : α} (h : sep c = true) (s : List α) :
    tokens sep (c :: s) = tokens sep s := by
  unfold tokens
  rw [List.splitOnP_cons_eq_if_modifyHead, if_pos h]
  rfl

theorem tokens_append_sep (s : List α) {c : α} (h : sep c = true) (t : List α) :
    tokens sep (s ++ c :: t) = tokens sep s ++ tokens sep t := by
  unfold tokens
  rw [List.splitOnP_append_cons _ _ h, List.filter_append]

theorem tokens_all_sep {s : List α} (h : ∀ c ∈ s, sep c = true) : tokens sep s = [] := by
  induction s with
  | nil => rfl
  | cons c s ih =>
    rw [tokens_cons_sep (h c List.mem_cons_self)]
    exact ih fun d hd => h d (List.mem_cons_of_mem _ hd)

theorem tokens_dropWhile (s : List α) : tokens sep (s.dropWhile sep) = tokens sep s := by
  induction s with
  | nil => rfl
  | cons c s ih =>
    by_cases h : sep c
    · rw [List.dropWhile_cons_of_pos h, ih, tokens_cons_sep h]
    · rw [List.dropWhile_cons_of_neg h]

theorem tokens_rdropWhile (s : List α) : tokens sep (s.rdropWhile sep) = tokens sep s := by
  induction s using List.reverseRecOn with
  | nil => rfl
  | append_singleton s c ih =>
    by_cases h : sep c
    · rw [List.rdropWhile_concat_pos _ _ _ h, ih, tokens_append_sep _ h]
      simp
    · rw [List.rdropWhile_concat_neg _ _ _ h]

/-- Trimming changes no token. -/
@[simp] theorem tokens_trim (s : List α) : tokens sep (trim sep s) = tokens sep s := by
  rw [trim, tokens_rdropWhile, tokens_dropWhile]

theorem trim_eq_nil {s : List α} : trim sep s = [] ↔ ∀ c ∈ s, sep c = true := by
  rw [trim, List.rdropWhile_eq_nil_iff]
  constructor
  · intro h c hc
    rw [← List.takeWhile_append_dropWhile (p := sep) (l := s)] at hc
    rcases List.mem_append.mp hc with hc | hc
    · exact List.mem_takeWhile_imp hc
    · exact h c hc
  · exact fun h c hc => h c ((List.dropWhile_suffix sep).subset hc)

/-- A part has no separator, and nothing that is not in the whole. -/
theorem mem_part_splitOnP {s t : List α} (ht : t ∈ s.splitOnP sep) :
    ∀ c ∈ t, sep c = false ∧ c ∈ s := by
  induction s generalizing t with
  | nil =>
    rw [List.splitOnP_nil, List.mem_singleton] at ht
    rw [ht]
    simp
  | cons c s ih =>
    have hlater : ∀ {t}, t ∈ s.splitOnP sep → ∀ d ∈ t, sep d = false ∧ d ∈ c :: s :=
      fun ht d hd => ⟨(ih ht d hd).1, List.mem_cons_of_mem _ (ih ht d hd).2⟩
    rw [List.splitOnP_cons_eq_if_modifyHead] at ht
    split at ht
    · rcases List.mem_cons.mp ht with rfl | ht
      · simp
      · exact hlater ht
    · rename_i hc
      obtain ⟨w, ws, e⟩ := List.exists_cons_of_ne_nil (List.splitOnP_ne_nil sep s)
      rw [e, List.modifyHead_cons] at ht
      rw [e] at hlater
      rcases List.mem_cons.mp ht with rfl | ht
      · intro d hd
        rcases List.mem_cons.mp hd with rfl | hd
        · exact ⟨by simpa using hc, List.mem_cons_self⟩
        · exact hlater List.mem_cons_self d hd
      · exact hlater (List.mem_cons_of_mem _ ht)

theorem sep_of_mem_splitOnP {s t : List α} (ht : t ∈ s.splitOnP sep) : ∀ c ∈ t, sep c = false :=
  fun c hc => (mem_part_splitOnP ht c hc).1

theorem mem_of_mem_splitOnP {s t : List α} (ht : t ∈ s.splitOnP sep) : ∀ c ∈ t, c ∈ s :=
  fun c hc => (mem_part_splitOnP ht c hc).2

theorem exists_mem_splitOnP {s : List α} {c : α} (hc : c ∈ s) (h : sep c = false) :
    ∃ t ∈ s.splitOnP sep, c ∈ t := by
  induction s with
  | nil => cases hc
  | cons d s ih =>
    rw [List.splitOnP_cons_eq_if_modifyHead]
    obtain ⟨w, ws, e⟩ := List.exists_cons_of_ne_nil (List.splitOnP_ne_nil sep s)
    rw [e] at ih ⊢
    rcases List.mem_cons.mp hc with rfl | hc
    · rw [if_neg (by simp [h])]
      exact ⟨c :: w, List.mem_cons_self, List.mem_cons_self⟩
    · obtain ⟨t, ht, hct⟩ := ih hc
      split
      · exact ⟨t, List.mem_cons_of_mem _ ht, hct⟩
      · rcases List.mem_cons.mp ht with rfl | ht
        · exact ⟨d :: t, List.mem_cons_self, List.mem_cons_of_mem _ hct⟩
        · exact ⟨t, List.mem_cons_of_mem _ ht, hct⟩

/-- Every character that is no separator is in a token. -/
theorem exists_mem_tokens {s : List α} {c : α} (hc : c ∈ s) (h : sep c = false) :
    ∃ t ∈ tokens sep s, c ∈ t := by
  obtain ⟨t, ht, hct⟩ := exists_mem_splitOnP hc h
  exact ⟨t, List.mem_filter.mpr ⟨ht, by
    cases t with
    | nil => cases hct
    | cons => rfl⟩, hct⟩

theorem tokens_eq_nil {s : List α} : tokens sep s = [] ↔ ∀ c ∈ s, sep c = true := by
  refine ⟨fun h c hc => ?_, tokens_all_sep⟩
  by_contra hn
  obtain ⟨t, ht, _⟩ := exists_mem_tokens hc (by simpa using hn)
  rw [h] at ht
  cases ht

theorem splitOnP_congr {sep' : α → Bool} {s : List α} (h : ∀ c ∈ s, sep c = sep' c) :
    s.splitOnP sep = s.splitOnP sep' := by
  induction s with
  | nil => rfl
  | cons c s ih =>
    rw [List.splitOnP_cons_eq_if_modifyHead, List.splitOnP_cons_eq_if_modifyHead,
      h c List.mem_cons_self, ih fun d hd => h d (List.mem_cons_of_mem _ hd)]

/-- **Two notions of separator that agree on a string have the same tokens there.** -/
theorem tokens_congr {sep' : α → Bool} {s : List α} (h : ∀ c ∈ s, sep c = sep' c) :
    tokens sep s = tokens sep' s := by
  rw [tokens, splitOnP_congr h, tokens]

/-- A string has no separator, or has a first one. -/
theorem exists_first_sep (sep : α → Bool) (s : List α) :
    (∀ c ∈ s, sep c = false) ∨
      ∃ w c t, s = w ++ c :: t ∧ (∀ d ∈ w, sep d = false) ∧ sep c = true := by
  induction s with
  | nil => exact Or.inl (by simp)
  | cons c s ih =>
    by_cases h : sep c
    · exact Or.inr ⟨[], c, s, rfl, by simp, h⟩
    · have hc : sep c = false := by simpa using h
      rcases ih with hall | ⟨w, d, t, rfl, hw, hd⟩
      · exact Or.inl (by simpa [hc] using hall)
      · exact Or.inr ⟨c :: w, d, t, rfl, by simpa [hc] using hw, hd⟩

/-- **Additive over the separators, hence the function of the pieces.** -/
theorem eq_flatMap_splitOnP {β : Type*} {f : List α → List β}
    (hadd : ∀ w c s, (∀ d ∈ w, sep d = false) → sep c = true → f (w ++ c :: s) = f w ++ f s)
    (s : List α) : f s = (s.splitOnP sep).flatMap f := by
  induction h : s.length using Nat.strong_induction_on generalizing s with
  | _ n ih =>
    rcases exists_first_sep sep s with hall | ⟨w, c, t, rfl, hw, hc⟩
    · rw [List.splitOnP_eq_singleton hall, List.flatMap_singleton]
    · have hlt : t.length < n := by
        simp only [List.length_append, List.length_cons] at h
        omega
      rw [hadd w c t hw hc, List.splitOnP_append_cons _ _ hc, List.splitOnP_eq_singleton hw,
        List.singleton_append, List.flatMap_cons, ih _ hlt t rfl]

theorem length_splitOnP_le (sep : α → Bool) (s : List α) :
    (s.splitOnP sep).length ≤ s.length + 1 := by
  induction s with
  | nil => exact le_rfl
  | cons c s ih =>
    rw [List.splitOnP_cons_eq_if_modifyHead]
    split_ifs
    · exact Nat.succ_le_succ ih
    · rw [List.length_modifyHead]
      exact ih.trans (Nat.le_succ _)

/-- Splitting in two steps, at some separators first. -/
theorem flatMap_splitOnP {first : α → Bool} (h : ∀ c, first c = true → sep c = true) (s : List α) :
    (s.splitOnP first).flatMap (fun w => w.splitOnP sep) = s.splitOnP sep :=
  (@eq_flatMap_splitOnP α first _ (fun w => w.splitOnP sep)
    (fun w c t _ hc => List.splitOnP_append_cons w t (h c hc)) s).symm

theorem flatMap_filter_ne_nil {β : Type*} {f : List α → List β} (hnil : f [] = [])
    (l : List (List α)) : (l.filter fun t => !t.isEmpty).flatMap f = l.flatMap f := by
  induction l with
  | nil => rfl
  | cons t l ih =>
    cases t with
    | nil => rw [List.filter_cons_of_neg (by simp), ih, List.flatMap_cons, hnil, List.nil_append]
    | cons c t => rw [List.filter_cons_of_pos (by simp), List.flatMap_cons, List.flatMap_cons, ih]

theorem eq_flatMap_tokens {β : Type*} {f : List α → List β} (hnil : f [] = [])
    (hadd : ∀ w c s, (∀ d ∈ w, sep d = false) → sep c = true → f (w ++ c :: s) = f w ++ f s)
    (s : List α) : f s = (tokens sep s).flatMap f := by
  rw [tokens, flatMap_filter_ne_nil hnil, ← eq_flatMap_splitOnP hadd]

theorem tokens_word {w : List α} (hne : w ≠ []) (h : ∀ c ∈ w, sep c = false) :
    tokens sep w = [w] := by
  rw [tokens, List.splitOnP_eq_singleton h, List.filter_cons_of_pos (by simpa using hne),
    List.filter_nil]

/-- **Words laid out with a separator between them are its tokens.** -/
theorem tokens_intercalate {c : α} (hc : sep c = true) : ∀ {ws : List (List α)},
    (∀ w ∈ ws, w ≠ [] ∧ ∀ d ∈ w, sep d = false) → tokens sep ([c].intercalate ws) = ws
  | [], _ => rfl
  | [w], h => by
      rw [List.intercalate_singleton]
      exact tokens_word (h w List.mem_cons_self).1 (h w List.mem_cons_self).2
  | w :: w' :: ws, h => by
      rw [List.forall_mem_cons] at h
      rw [List.intercalate_cons_cons, List.append_assoc, List.singleton_append,
        tokens_append_sep _ hc, tokens_word h.1.1 h.1.2, tokens_intercalate hc h.2]
      rfl

theorem mem_intercalate {c d : α} : ∀ {ws : List (List α)}, d ∈ [c].intercalate ws →
    d = c ∨ ∃ w ∈ ws, d ∈ w
  | [], h => absurd h List.not_mem_nil
  | [w], h => by
      rw [List.intercalate_singleton] at h
      exact Or.inr ⟨w, List.mem_cons_self, h⟩
  | w :: w' :: ws, h => by
      rw [List.intercalate_cons_cons, List.append_assoc, List.singleton_append] at h
      rcases List.mem_append.mp h with h | h
      · exact Or.inr ⟨w, List.mem_cons_self, h⟩
      rcases List.mem_cons.mp h with rfl | h
      · exact Or.inl rfl
      · exact (mem_intercalate h).imp_right fun ⟨v, hv, hd⟩ => ⟨v, List.mem_cons_of_mem _ hv, hd⟩

/-- Lines, each with the character `c` at its end. -/
def unlines (c : α) (ls : List (List α)) : List α := ls.flatMap (· ++ [c])

theorem splitOnP_unlines {c : α} (hc : sep c = true) : ∀ {ls : List (List α)},
    (∀ l ∈ ls, ∀ d ∈ l, sep d = false) → (unlines c ls).splitOnP sep = ls ++ [[]]
  | [], _ => rfl
  | l :: ls, h => by
      rw [List.forall_mem_cons] at h
      have e : unlines c (l :: ls) = l ++ c :: unlines c ls := by
        rw [unlines, List.flatMap_cons, List.append_assoc]
        rfl
      rw [e, List.splitOnP_append_cons _ _ hc, List.splitOnP_eq_singleton h.1,
        splitOnP_unlines hc h.2]
      rfl

theorem unlines_append (c : α) (ls ls' : List (List α)) :
    unlines c (ls ++ ls') = unlines c ls ++ unlines c ls' := List.flatMap_append

end Tokens

end GroverTax.Lib
