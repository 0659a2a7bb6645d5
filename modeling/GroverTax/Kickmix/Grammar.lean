/-
  File:      GroverTax/Kickmix/Grammar.lean
  Subject:   Which texts `Circuit::parse` accepts, and the instructions they denote.

  * `targetOf` -- the target a token names;
  * `DenotesBy`, `Denotes` -- the instruction a line's tokens denote;
  * `ProgramBy`, `Program` -- the instructions of a list of lines;
  * `readTokens_eq_pure`, `readLines_eq_pure` -- **reading is denotation**;
  * `parse_eq_build` -- the lines of a text may be taken as its pieces between newlines.
-/
import GroverTax.Kickmix.ParseSpec
import GroverTax.Lib.Run

namespace GroverTax.Kickmix

open GroverTax.Lib

/-! ## 1. Targets -/

/-- A numeral: one digit or more. -/
def Digits (ds : List Char) : Prop := ds ≠ [] ∧ ∀ c ∈ ds, isAsciiDigit c = true

theorem Digits.ne_plus {ds : List Char} (h : Digits ds) : ∀ rest, ds ≠ '+' :: rest := by
  rintro rest rfl
  exact absurd (h.2 '+' List.mem_cons_self) (by decide)

theorem q_notMem_digits {ds : List Char} (h : Digits ds) : 'q' ∉ ds := fun hm =>
  absurd (h.2 'q' hm) (by decide)

theorem q_notMem_name {name : List Char} (h : isValidName name = true) : 'q' ∉ name := by
  intro hm
  cases name with
  | nil => cases hm
  | cons c cs =>
    rw [isValidName, Bool.and_eq_true, List.all_eq_true] at h
    rcases List.mem_cons.mp hm with rfl | hm
    · exact absurd h.1 (by decide)
    · exact absurd (h.2 'q' hm) (by decide)

/-- **The numerals of Rust**: digits, after a `+` or not, with a value that the type has. -/
theorem parseUnsigned_eq_some {size : ℕ} {s : List Char} {n : ℕ} : parseUnsigned size s = some n ↔
    ∃ ds, (s = ds ∨ s = '+' :: ds) ∧ Digits ds ∧ digitsValue ds < size ∧ n = digitsValue ds := by
  have key : ∀ ds : List Char, (if ds ≠ [] ∧ ds.all isAsciiDigit ∧ digitsValue ds < size then
      some (digitsValue ds) else none) = some n ↔
        Digits ds ∧ digitsValue ds < size ∧ n = digitsValue ds := by
    intro ds
    rw [Option.ite_none_right_eq_some, List.all_eq_true, Option.some_inj, Digits]
    exact ⟨fun ⟨⟨h1, h2, h3⟩, h4⟩ => ⟨⟨h1, h2⟩, h3, h4.symm⟩,
      fun ⟨⟨h1, h2⟩, h3, h4⟩ => ⟨⟨h1, h2, h3⟩, h4.symm⟩⟩
  unfold parseUnsigned
  dsimp only
  rw [key]
  split
  · rename_i rest
    refine ⟨fun h => ⟨rest, Or.inr rfl, h⟩, ?_⟩
    intro h'
    obtain ⟨ds, rfl | e, h⟩ := h'
    · exact absurd rfl (h.1.ne_plus rest)
    · rwa [(List.cons.inj e).2]
  · rename_i hne
    refine ⟨fun h => ⟨s, Or.inl rfl, h⟩, ?_⟩
    intro h'
    obtain ⟨ds, rfl | rfl, h⟩ := h'
    · exact h
    · exact absurd rfl (hne ds)

theorem parseUsize_eq_some {s : List Char} {n : ℕ} : parseUsize s = some n ↔
    ∃ ds, (s = ds ∨ s = '+' :: ds) ∧ Digits ds ∧ digitsValue ds < usizeSize ∧ n = digitsValue ds :=
  parseUnsigned_eq_some

/-- The id of a target. -/
def Target.index : Target → ℕ
  | .qubit q => q
  | .bit b => b
  | .register r => r

/-- The target a token names. -/
def targetOf : List Char → Option Target
  | [] => none
  | kind :: rest =>
      match parseUsize rest with
      | none => none
      | some id =>
          if kind = 'q' then some (.qubit id)
          else if kind = 'b' then some (.bit id)
          else if kind = 'r' then some (.register id)
          else none

theorem targetOf_eq_some {token : List Char} {t : Target} : targetOf token = some t ↔
    ∃ rest id, parseUsize rest = some id ∧
      ((token = 'q' :: rest ∧ t = .qubit id) ∨ (token = 'b' :: rest ∧ t = .bit id) ∨
        (token = 'r' :: rest ∧ t = .register id)) := by
  constructor
  · intro h
    cases token with
    | nil => cases h
    | cons kind rest =>
      cases hid : parseUsize rest with
      | none => simp [targetOf, hid] at h
      | some id =>
        refine ⟨rest, id, hid, ?_⟩
        simp only [targetOf, hid] at h
        split_ifs at h with hq hb hr
        · exact Or.inl ⟨by rw [hq], (Option.some.inj h).symm⟩
        · exact Or.inr (Or.inl ⟨by rw [hb], (Option.some.inj h).symm⟩)
        · exact Or.inr (Or.inr ⟨by rw [hr], (Option.some.inj h).symm⟩)
  · intro h'
    obtain ⟨rest, id, hid, ⟨rfl, rfl⟩ | ⟨rfl, rfl⟩ | ⟨rfl, rfl⟩⟩ := h'
    all_goals simp [targetOf, hid]

theorem index_lt_of_targetOf {tok : List Char} {t : Target} (h : targetOf tok = some t) :
    t.index < usizeSize := by
  obtain ⟨rest, id, hid, hk⟩ := targetOf_eq_some.mp h
  obtain ⟨ds, -, -, hlt, rfl⟩ := parseUsize_eq_some.mp hid
  rcases hk with ⟨-, rfl⟩ | ⟨-, rfl⟩ | ⟨-, rfl⟩ <;> exact hlt

/-- **A target is parsed exactly when the token names it.** -/
theorem parseTarget_eq_pure {token : List Char} {n : ℕ} {t : Target} :
    parseTarget token n = pure t ↔ targetOf token = some t := by
  cases token with
  | nil => exact ⟨fun h => absurd h.symm (Outcome.pure_ne_panics t), fun h => by cases h⟩
  | cons kind rest =>
    unfold parseTarget targetOf
    by_cases hu : kind.utf8Size ≠ 1
    · have hq : kind ≠ 'q' := fun e => hu (by rw [e]; decide)
      have hb : kind ≠ 'b' := fun e => hu (by rw [e]; decide)
      have hr : kind ≠ 'r' := fun e => hu (by rw [e]; decide)
      simp only [if_pos hu, if_neg hq, if_neg hb, if_neg hr]
      refine ⟨fun h => absurd h.symm (Outcome.pure_ne_panics t), fun h => ?_⟩
      split at h <;> cases h
    · dsimp only
      rw [if_neg hu]
      cases parseUsize rest with
      | none => exact ⟨fun h => absurd h (Outcome.throw_ne_pure _ t), fun h => by cases h⟩
      | some id =>
        dsimp only
        split_ifs
        · exact Outcome.pure_inj.trans Option.some_inj.symm
        · exact Outcome.pure_inj.trans Option.some_inj.symm
        · exact Outcome.pure_inj.trans Option.some_inj.symm
        · exact ⟨fun h => absurd h (Outcome.throw_ne_pure _ t), fun h => by cases h⟩

/-- **The panic of a target**: the byte after the first is inside a character, or there is none. -/
theorem parseTarget_eq_panics {token : List Char} {n : ℕ} :
    parseTarget token n = .panics ↔ ∀ c, token.head? = some c → c.utf8Size ≠ 1 := by
  cases token with
  | nil => exact ⟨fun _ _ hc => (nomatch hc), fun _ => rfl⟩
  | cons kind rest =>
    unfold parseTarget
    rw [List.head?_cons]
    dsimp only
    by_cases hu : kind.utf8Size ≠ 1
    · rw [if_pos hu]
      exact ⟨fun _ c hc => by rwa [← Option.some.inj hc], fun _ => rfl⟩
    · rw [if_neg hu]
      refine ⟨fun h => ?_, fun h => absurd (h kind rfl) hu⟩
      cases hid : parseUsize rest with
      | none =>
        rw [hid] at h
        exact absurd h (Outcome.throw_ne_panics _)
      | some id =>
        simp only [hid] at h
        split_ifs at h
        · exact absurd h (Outcome.pure_ne_panics _)
        · exact absurd h (Outcome.pure_ne_panics _)
        · exact absurd h (Outcome.pure_ne_panics _)
        · exact absurd h (Outcome.throw_ne_panics _)

theorem targetOf_ifToken : targetOf ifToken = none := by decide

/-- The targets of a list of tokens. -/
theorem mapM_parseTarget_eq_pure {n : ℕ} : ∀ {tokens : List (List Char)} {ts : List Target},
    tokens.mapM (fun tok => parseTarget tok n) = pure ts ↔ tokens.mapM targetOf = some ts
  | [], ts => by
      rw [List.mapM_nil, List.mapM_nil, Outcome.pure_inj]
      exact Option.some_inj.symm
  | tok :: tokens, ts => by
      simp only [List.mapM_cons, Outcome.bind_eq_pure, Option.bind_eq_bind,
        Option.bind_eq_some_iff, Outcome.pure_inj, parseTarget_eq_pure,
        mapM_parseTarget_eq_pure, Option.pure_def, Option.some_inj]

/-! ## 2. Lines -/

/-- The operands `REGISTER` and `APPEND_TO_REGISTER` take. -/
def MetadataOk (name : String) (targets : List Target) : Prop :=
  (name = "REGISTER" → ∃ r, targets = [.register r]) ∧
    (name = "APPEND_TO_REGISTER" →
      ∃ member r, targets = [member, .register r] ∧ ∀ k, member ≠ .register k)

theorem checkMetadata_eq_pure {name : String} {targets : List Target} {n : ℕ} {u : Unit} :
    checkMetadata name targets n = pure u ↔ MetadataOk name targets := by
  unfold checkMetadata MetadataOk
  split_ifs with h1 h2
  · subst h1
    split
    · exact ⟨fun _ => ⟨fun _ => ⟨_, rfl⟩, fun e => absurd e (by decide)⟩, fun _ => rfl⟩
    · rename_i hne
      refine ⟨fun h => absurd h (Outcome.throw_ne_pure _ u), fun h => ?_⟩
      obtain ⟨r, hr⟩ := h.1 rfl
      exact absurd hr (hne r)
  · subst h2
    split
    · exact ⟨fun _ => ⟨fun e => absurd e h1, fun _ => ⟨_, _, rfl, by simp⟩⟩, fun _ => rfl⟩
    · exact ⟨fun _ => ⟨fun e => absurd e h1, fun _ => ⟨_, _, rfl, by simp⟩⟩, fun _ => rfl⟩
    · rename_i hq hb
      refine ⟨fun h => absurd h (Outcome.throw_ne_pure _ u), fun h => ?_⟩
      obtain ⟨member, r, hr, hm⟩ := h.2 rfl
      cases member with
      | qubit q => exact absurd hr (hq q r)
      | bit b => exact absurd hr (hb b r)
      | register k => exact absurd rfl (hm k)
  · exact ⟨fun _ => ⟨fun e => absurd e h1, fun e => absurd e h2⟩, fun _ => rfl⟩

/-- The condition of a line: the tokens before it, and the bit. -/
inductive Conditioned (target : List Char → Option Target) :
    List (List Char) → List (List Char) → Option ℕ → Prop
  | never {rest} : ifToken ∉ rest → Conditioned target rest rest none
  | ifBit {toks token b} : ifToken ∉ toks → target token = some (.bit b) →
      Conditioned target (toks ++ [ifToken, token]) toks (some b)

theorem takeWhile_dropWhile_if {toks : List (List Char)} (h : ifToken ∉ toks)
    (rest : List (List Char)) :
    (toks ++ ifToken :: rest).takeWhile (· ≠ ifToken) = toks ∧
      (toks ++ ifToken :: rest).dropWhile (· ≠ ifToken) = ifToken :: rest := by
  have hall : ∀ t ∈ toks, decide (t ≠ ifToken) = true := fun t ht =>
    decide_eq_true fun e => h (e ▸ ht)
  constructor
  · rw [List.takeWhile_append_of_pos hall, List.takeWhile_cons_of_neg (by simp), List.append_nil]
  · rw [List.dropWhile_append_of_pos hall, List.dropWhile_cons_of_neg (by simp)]

theorem splitCondition_eq_pure {rest toks : List (List Char)} {n : ℕ} {cond : Option ℕ} :
    splitCondition rest n = pure (toks, cond) ↔ Conditioned targetOf rest toks cond := by
  constructor
  · intro h
    unfold splitCondition at h
    split at h
    · rename_i hd
      rw [Outcome.pure_inj, Prod.mk.injEq] at h
      obtain ⟨rfl, rfl⟩ := h
      refine .never fun hm => ?_
      have := List.dropWhile_eq_nil_iff.mp hd ifToken hm
      simp at this
    · rename_i w token hd
      obtain ⟨t, ht, hb⟩ := Outcome.bind_eq_pure.mp h
      cases t with
      | bit b =>
        rw [Outcome.pure_inj, Prod.mk.injEq] at hb
        obtain ⟨rfl, rfl⟩ := hb
        have hsplit := List.takeWhile_append_dropWhile (p := (· ≠ ifToken)) (l := rest)
        have hw : w = ifToken := by
          have := List.head?_dropWhile_not (· ≠ ifToken) rest
          rw [hd] at this
          simpa using this
        rw [hd, hw] at hsplit
        rw [← hsplit]
        rw [(takeWhile_dropWhile_if (fun hm => by simpa using List.mem_takeWhile_imp hm) _).1]
        exact .ifBit (fun hm => by simpa using List.mem_takeWhile_imp hm)
          (parseTarget_eq_pure.mp ht)
      | qubit q => exact absurd hb (Outcome.throw_ne_pure _ _)
      | register r => exact absurd hb (Outcome.throw_ne_pure _ _)
    · exact absurd h (Outcome.throw_ne_pure _ _)
  · intro h
    cases h with
    | never hn =>
      have hd : rest.dropWhile (· ≠ ifToken) = [] :=
        List.dropWhile_eq_nil_iff.mpr fun t ht => decide_eq_true fun e => hn (e ▸ ht)
      unfold splitCondition
      rw [hd]
    | @ifBit toks token b hn ht =>
      obtain ⟨h1, h2⟩ := takeWhile_dropWhile_if hn [token]
      unfold splitCondition
      rw [h1, h2]
      exact Outcome.bind_eq_pure.mpr ⟨.bit b, parseTarget_eq_pure.mpr ht, rfl⟩

/-- The instruction the tokens of a line denote, given the target a token names. -/
inductive DenotesBy (target : List Char → Option Target) : List (List Char) → Instruction → Prop
  | intro {name rest toks ts cond} : isValidName name = true → Conditioned target rest toks cond →
      toks.mapM target = some ts → MetadataOk (String.ofList name) ts →
      DenotesBy target (name :: rest) ⟨String.ofList name, ts, cond⟩

abbrev Denotes := DenotesBy targetOf

/-! ## 3. Tokens -/

/-- A token that names a qubit, with a sign or not. -/
theorem targetOf_qubit_iff {tok : List Char} {q : ℕ} : targetOf tok = some (.qubit q) ↔
    ∃ ds, (tok = 'q' :: ds ∨ tok = 'q' :: '+' :: ds) ∧ Digits ds ∧ digitsValue ds < usizeSize ∧
      q = digitsValue ds := by
  rw [targetOf_eq_some]
  constructor
  · intro h'
    obtain ⟨rest, id, hid, ⟨rfl, e⟩ | ⟨-, e⟩ | ⟨-, e⟩⟩ := h'
    · obtain ⟨ds, hds, h⟩ := parseUsize_eq_some.mp hid
      refine ⟨ds, ?_, h.1, h.2.1, ?_⟩
      · exact hds.imp (congrArg _) (congrArg _)
      · rw [Target.qubit.inj e, h.2.2]
    · cases e
    · cases e
  · intro h'
    obtain ⟨ds, rfl | rfl, hd, hlt, rfl⟩ := h'
    · exact ⟨ds, _, parseUsize_eq_some.mpr ⟨ds, Or.inl rfl, hd, hlt, rfl⟩, Or.inl ⟨rfl, rfl⟩⟩
    · exact ⟨'+' :: ds, _, parseUsize_eq_some.mpr ⟨ds, Or.inr rfl, hd, hlt, rfl⟩,
        Or.inl ⟨rfl, rfl⟩⟩

/-- The characters of a token are above the space and within ASCII. -/
def Plain (s : List Char) : Prop := ∀ c ∈ s, 0x20 < c.toNat ∧ c.toNat < 0x80

theorem isWhitespace_eq_false {c : Char} (h : 0x20 < c.toNat ∧ c.toNat < 0x80) :
    isWhitespace c = false := by
  simp only [isWhitespace, Bool.or_eq_false_iff, Bool.and_eq_false_iff, decide_eq_false_iff_not,
    beq_eq_false_iff_ne]
  omega

theorem plain_cons {c : Char} {s : List Char} (hc : 0x20 < c.toNat ∧ c.toNat < 0x80)
    (h : Plain s) : Plain (c :: s) := List.forall_mem_cons.mpr ⟨hc, h⟩

theorem isAsciiUppercase_iff {c : Char} :
    isAsciiUppercase c = true ↔ 65 ≤ c.toNat ∧ c.toNat ≤ 90 := by
  rw [isAsciiUppercase, Bool.and_eq_true, decide_eq_true_eq, decide_eq_true_eq]
  exact Iff.rfl

theorem isAsciiDigit_iff {c : Char} : isAsciiDigit c = true ↔ 48 ≤ c.toNat ∧ c.toNat ≤ 57 := by
  rw [isAsciiDigit, Bool.and_eq_true, decide_eq_true_eq, decide_eq_true_eq]
  exact Iff.rfl

theorem Digits.plain {ds : List Char} (h : Digits ds) : Plain ds := by
  intro c hc
  have := isAsciiDigit_iff.mp (h.2 c hc)
  omega

theorem plain_name {name : List Char} (h : isValidName name = true) : Plain name := by
  cases name with
  | nil => cases h
  | cons c cs =>
    rw [isValidName, Bool.and_eq_true, List.all_eq_true] at h
    refine plain_cons ?_ fun d hd => ?_
    · have := isAsciiUppercase_iff.mp h.1
      omega
    · have := h.2 d hd
      simp only [Bool.or_eq_true, isAsciiUppercase_iff, isAsciiDigit_iff, beq_iff_eq] at this
      rcases this with (h | h) | rfl
      · omega
      · omega
      · decide

theorem plain_target {token : List Char} {t : Target} (h : targetOf token = some t) :
    Plain token := by
  obtain ⟨rest, id, hid, hk⟩ := targetOf_eq_some.mp h
  obtain ⟨ds, hds, hd, -⟩ := parseUsize_eq_some.mp hid
  have hrest : Plain rest := by
    rcases hds with rfl | rfl
    · exact hd.plain
    · exact plain_cons (by decide) (hd.plain)
  obtain ⟨rfl, -⟩ | ⟨rfl, -⟩ | ⟨rfl, -⟩ := hk
  all_goals exact plain_cons (by decide) hrest

/-- A name is no target. -/
theorem targetOf_name {name : List Char} (h : isValidName name = true) : targetOf name = none := by
  cases hn : targetOf name with
  | none => rfl
  | some t =>
    obtain ⟨rest, id, -, ⟨rfl, -⟩ | ⟨rfl, -⟩ | ⟨rfl, -⟩⟩ := targetOf_eq_some.mp hn
    all_goals exact absurd h (by simp [isValidName, isAsciiUppercase])

section Tokens

variable {target : List Char → Option Target} {tokens : List (List Char)} {inst : Instruction}
  {tok : List Char}

/-- The tokens of a line that denotes an instruction. -/
theorem DenotesBy.token_cases (h : DenotesBy target tokens inst) (ht : tok ∈ tokens) :
    isValidName tok = true ∨ tok = ifToken ∨ ∃ t, target tok = some t := by
  obtain ⟨hv, hc, hts, -⟩ := h
  rcases List.mem_cons.mp ht with rfl | ht
  · exact Or.inl hv
  · cases hc with
    | never =>
      obtain ⟨t, -, e⟩ := exists_image_of_mapM hts tok ht
      exact Or.inr (Or.inr ⟨t, e⟩)
    | ifBit _ hb =>
      rcases List.mem_append.mp ht with ht | ht
      · obtain ⟨t, -, e⟩ := exists_image_of_mapM hts tok ht
        exact Or.inr (Or.inr ⟨t, e⟩)
      · simp only [List.mem_cons, List.not_mem_nil, or_false] at ht
        rcases ht with rfl | rfl
        · exact Or.inr (Or.inl rfl)
        · exact Or.inr (Or.inr ⟨_, hb⟩)

/-- The only name on a line is the first token. -/
theorem DenotesBy.tail_not_name {name : List Char} {rest : List (List Char)}
    (h : Denotes (name :: rest) inst) (ht : tok ∈ rest) : isValidName tok = false := by
  have target : ∀ {t}, targetOf tok = some t → isValidName tok = false := by
    intro t e
    by_contra hv
    rw [targetOf_name (by simpa using hv)] at e
    cases e
  obtain ⟨-, hc, hts, -⟩ := h
  cases hc with
  | never =>
    obtain ⟨t, -, e⟩ := exists_image_of_mapM hts tok ht
    exact target e
  | ifBit _ hb =>
    rcases List.mem_append.mp ht with ht | ht
    · obtain ⟨t, -, e⟩ := exists_image_of_mapM hts tok ht
      exact target e
    · simp only [List.mem_cons, List.not_mem_nil, or_false] at ht
      rcases ht with rfl | rfl
      · decide
      · exact target hb

/-- The tokens of a line that name a target: those of the targets, and that of the condition. -/
theorem DenotesBy.target_iff (h : Denotes tokens inst) {t : Target} :
    (∃ tok ∈ tokens, targetOf tok = some t) ↔
      t ∈ inst.targets ∨ ∃ b, t = .bit b ∧ inst.condition = some b := by
  obtain ⟨hv, hc, hts, -⟩ := h
  have name : ∀ {n}, isValidName n = true → targetOf n ≠ some t := fun hn e => by
    rw [targetOf_name hn] at e
    cases e
  cases hc with
  | never =>
    constructor
    · intro h'
      obtain ⟨tok, ht, e⟩ := h'
      rcases List.mem_cons.mp ht with rfl | ht
      · exact absurd e (name hv)
      · obtain ⟨t', hm, e'⟩ := exists_image_of_mapM hts tok ht
        rw [e, Option.some_inj] at e'
        exact Or.inl (e' ▸ hm)
    · rintro (hq | ⟨b, -, hb⟩)
      · obtain ⟨tok, ht, e⟩ := exists_of_mem_mapM hts _ hq
        exact ⟨tok, List.mem_cons_of_mem _ ht, e⟩
      · cases hb
  | ifBit _ hb =>
    constructor
    · intro h'
      obtain ⟨tok, ht, e⟩ := h'
      rcases List.mem_cons.mp ht with rfl | ht
      · exact absurd e (name hv)
      rcases List.mem_append.mp ht with ht | ht
      · obtain ⟨t', hm, e'⟩ := exists_image_of_mapM hts tok ht
        rw [e, Option.some_inj] at e'
        exact Or.inl (e' ▸ hm)
      · simp only [List.mem_cons, List.not_mem_nil, or_false] at ht
        rcases ht with rfl | rfl
        · rw [targetOf_ifToken] at e
          cases e
        · exact Or.inr ⟨_, Option.some.inj (e.symm.trans hb), rfl⟩
    · rintro (hq | ⟨b, rfl, e⟩)
      · obtain ⟨tok, ht, e⟩ := exists_of_mem_mapM hts _ hq
        exact ⟨tok, List.mem_cons_of_mem _ (List.mem_append_left _ ht), e⟩
      · obtain rfl := Option.some.inj e
        exact ⟨_, List.mem_cons_of_mem _ (List.mem_append_right _ (by simp)), hb⟩

/-- The qubits of an instruction are those its tokens name. -/
theorem DenotesBy.qubit_iff (h : Denotes tokens inst) {q : ℕ} :
    .qubit q ∈ inst.targets ↔ ∃ tok ∈ tokens, targetOf tok = some (.qubit q) := by
  rw [h.target_iff]
  simp

theorem DenotesBy.bit_iff (h : Denotes tokens inst) {b : ℕ} :
    (.bit b ∈ inst.targets ∨ inst.condition = some b) ↔
      ∃ tok ∈ tokens, targetOf tok = some (.bit b) := by
  rw [h.target_iff]
  simp

/-- **More targets, the same instruction.** -/
theorem DenotesBy.mono {target' : List Char → Option Target} (h : DenotesBy target tokens inst)
    (hall : ∀ tok ∈ tokens, ∀ t, target tok = some t → target' tok = some t) :
    DenotesBy target' tokens inst := by
  obtain ⟨hv, hc, hts, hm⟩ := h
  cases hc with
  | never hn =>
    refine .intro hv (.never hn) ?_ hm
    rw [← hts]
    exact mapM_congr_of_some hts fun tok ht t _ e => hall tok (List.mem_cons_of_mem _ ht) t e
  | ifBit hn hb =>
    refine .intro hv (.ifBit hn (hall _ (List.mem_cons_of_mem _ (List.mem_append_right _
      (by simp))) _ hb)) ?_ hm
    rw [← hts]
    exact mapM_congr_of_some hts fun tok ht t _ e =>
      hall tok (List.mem_cons_of_mem _ (List.mem_append_left _ ht)) t e

theorem plain_token (h : Denotes tokens inst) (ht : tok ∈ tokens) : Plain tok := by
  rcases h.token_cases ht with hv | rfl | ⟨t, e⟩
  · exact plain_name hv
  · exact plain_cons (by decide) (plain_cons (by decide) (by simp [Plain]))
  · exact plain_target e

end Tokens

/-- **A line is read exactly when it is blank or its tokens denote an instruction.** -/
theorem readTokens_eq_pure {tokens : List (List Char)} {n : ℕ} {inst : Option Instruction} :
    readTokens n tokens = pure inst ↔
      (tokens = [] ∧ inst = none) ∨ ∃ i, inst = some i ∧ Denotes tokens i := by
  cases tokens with
  | nil =>
    refine ⟨fun h => Or.inl ⟨rfl, (Outcome.pure_inj.mp h).symm⟩, ?_⟩
    rintro (⟨-, rfl⟩ | ⟨i, -, hd⟩)
    · rfl
    · cases hd
  | cons name rest =>
    unfold readTokens
    by_cases hv : isValidName name = true
    · simp only [hv, Bool.not_true, Bool.false_eq_true, if_false,
        Outcome.bind_eq_pure, mapM_parseTarget_eq_pure, checkMetadata_eq_pure, Outcome.pure_inj,
        Prod.exists, splitCondition_eq_pure, reduceCtorEq, false_and, false_or]
      constructor
      · intro h'
        obtain ⟨toks, cond, hc, ts, hts, -, hm, rfl⟩ := h'
        exact ⟨_, rfl, .intro hv hc hts hm⟩
      · intro h'
        obtain ⟨i, rfl, hd⟩ := h'
        cases hd with
        | intro _ hc hts hm => exact ⟨_, _, hc, _, hts, (), hm, rfl⟩
    · have hf : isValidName name = false := by simpa using hv
      simp only [hf, Bool.not_false, if_true]
      refine ⟨fun h => absurd h (Outcome.throw_ne_pure _ _), ?_⟩
      rintro (⟨h, -⟩ | ⟨i, -, hd⟩)
      · cases h
      · cases hd with
        | intro hv' => exact absurd hv' hv

/-! ## 4. Texts -/

/-- The instructions of a list of lines, given the tokens of a line and the targets of tokens. -/
inductive ProgramBy (lineToks : List Char → List (List Char)) (target : List Char → Option Target) :
    List (List Char) → List Instruction → Prop
  | nil : ProgramBy lineToks target [] []
  | blank {raw rest insts} : lineToks raw = [] → ProgramBy lineToks target rest insts →
      ProgramBy lineToks target (raw :: rest) insts
  | line {raw rest inst insts} : DenotesBy target (lineToks raw) inst →
      ProgramBy lineToks target rest insts →
      ProgramBy lineToks target (raw :: rest) (inst :: insts)

abbrev Program := ProgramBy lineTokens targetOf

/-- **Reading the lines is denotation.** -/
theorem readLines_eq_pure {raws : List (List Char)} {n : ℕ} {insts : List Instruction} :
    readLines n raws = pure insts ↔ Program raws insts := by
  induction raws generalizing n insts with
  | nil =>
    refine ⟨fun h => ?_, fun h => ?_⟩
    · obtain rfl := Outcome.pure_inj.mp h
      exact .nil
    · cases h
      rfl
  | cons raw rest ih =>
    unfold readLines
    simp only [Outcome.bind_eq_pure, readTokens_eq_pure, ih, Outcome.pure_inj]
    constructor
    · intro h'
      obtain ⟨inst, ⟨ht, rfl⟩ | ⟨i, rfl, hd⟩, insts', hp, rfl⟩ := h'
      · exact .blank ht hp
      · exact .line hd hp
    · intro h
      cases h with
      | blank ht hp => exact ⟨none, Or.inl ⟨ht, rfl⟩, _, hp, rfl⟩
      | line hd hp => exact ⟨_, Or.inr ⟨_, rfl, hd⟩, _, hp, rfl⟩

/-- A carriage return at the end of a line is no part of a token. -/
theorem lineTokens_concat_cr (l : List Char) : lineTokens (l ++ ['\r']) = lineTokens l := by
  unfold lineTokens splitWhitespace
  by_cases h : ∀ c ∈ l, decide (c ≠ '#') = true
  · rw [List.takeWhile_append_of_pos h, List.takeWhile_cons_of_pos (by decide), List.takeWhile_nil,
      tokens_append_sep _ (by decide), tokens_nil, List.append_nil,
      List.takeWhile_eq_self_iff.mpr h]
  · rw [List.takeWhile_append, if_neg]
    exact fun e => h (List.takeWhile_eq_self_iff.mp ((List.takeWhile_prefix _).eq_of_length e))

theorem lineTokens_dropLast_cr {l : List Char} (h : l.getLast? = some '\r') :
    lineTokens l.dropLast = lineTokens l := by
  conv_rhs => rw [← List.dropLast_append_getLast? '\r' h, lineTokens_concat_cr]

/-- The pieces between newlines read as the lines. -/
theorem readLines_linesOf (n : ℕ) (ls : List (List Char)) :
    readLines n (linesOf ls) = readLines n ls := by
  induction ls using linesOf.induct generalizing n with
  | case1 => rfl
  | case2 => rfl
  | case3 last h => rw [linesOf, if_neg h]
  | case4 l ls hne ih =>
    have e : lineTokens (if l.getLast? = some '\r' then l.dropLast else l) = lineTokens l := by
      split_ifs with hcr
      · exact lineTokens_dropLast_cr hcr
      · rfl
    rw [linesOf.eq_3 l ls hne, readLines, readLines, e]
    simp only [ih]

/-- A program has at most one instruction a line. -/
theorem ProgramBy.length_le {raws : List (List Char)} {insts : List Instruction}
    (h : Program raws insts) : insts.length ≤ raws.length := by
  induction h with
  | nil => exact le_rfl
  | blank _ _ ih => exact ih.trans (Nat.le_succ _)
  | line _ _ ih => exact Nat.succ_le_succ ih

/-- The tokens of a list of lines. -/
theorem ProgramBy.token_cases {raws : List (List Char)} {insts : List Instruction}
    (h : Program raws insts) {tok : List Char} (ht : tok ∈ raws.flatMap lineTokens) :
    isValidName tok = true ∨ tok = ifToken ∨ ∃ t, targetOf tok = some t := by
  induction h with
  | nil => cases ht
  | blank hb _ ih =>
    rw [List.flatMap_cons, hb, List.nil_append] at ht
    exact ih ht
  | line hd _ ih =>
    rw [List.flatMap_cons] at ht
    rcases List.mem_append.mp ht with ht | ht
    · exact hd.token_cases ht
    · exact ih ht

/-- **The bits of a text are those its tokens name.** -/
theorem ProgramBy.bit_iff {raws : List (List Char)} {insts : List Instruction}
    (h : Program raws insts) {b : ℕ} :
    (∃ inst ∈ insts, .bit b ∈ inst.targets ∨ inst.condition = some b) ↔
      ∃ tok ∈ raws.flatMap lineTokens, targetOf tok = some (.bit b) := by
  induction h with
  | nil => simp
  | blank hb _ ih => rw [ih, List.flatMap_cons, hb, List.nil_append]
  | line hd _ ih =>
    simp only [List.flatMap_cons, List.mem_append, or_and_right, exists_or, ← ih,
      ← hd.bit_iff, List.mem_cons, exists_eq_left]

/-- **The qubits of a text are those its tokens name.** -/
theorem ProgramBy.qubit_iff {raws : List (List Char)} {insts : List Instruction}
    (h : Program raws insts) {q : ℕ} : (∃ inst ∈ insts, .qubit q ∈ inst.targets) ↔
      ∃ tok ∈ raws.flatMap lineTokens, targetOf tok = some (.qubit q) := by
  induction h with
  | nil => simp
  | blank hb _ ih => rw [ih, List.flatMap_cons, hb, List.nil_append]
  | line hd _ ih =>
    simp only [List.flatMap_cons, List.mem_append, or_and_right, exists_or, ← ih,
      ← hd.qubit_iff, List.mem_cons, exists_eq_left]

theorem ProgramBy.line_of_mem {lineToks : List Char → List (List Char)}
    {target : List Char → Option Target} {raws : List (List Char)} {insts : List Instruction}
    (h : ProgramBy lineToks target raws insts) {raw : List Char} (hm : raw ∈ raws) :
    lineToks raw = [] ∨ ∃ inst, DenotesBy target (lineToks raw) inst := by
  induction h with
  | nil => cases hm
  | blank hb _ ih =>
    rcases List.mem_cons.mp hm with rfl | hm
    · exact Or.inl hb
    · exact ih hm
  | line hd _ ih =>
    rcases List.mem_cons.mp hm with rfl | hm
    · exact Or.inr ⟨_, hd⟩
    · exact ih hm

/-- **Another reading of every line, the same program.** -/
theorem ProgramBy.mono {lineToks lineToks' : List Char → List (List Char)}
    {target target' : List Char → Option Target} {raws : List (List Char)}
    {insts : List Instruction} (h : ProgramBy lineToks target raws insts)
    (htoks : ∀ l ∈ raws, lineToks' l = lineToks l)
    (htarget : ∀ l ∈ raws, ∀ tok ∈ lineToks l, ∀ t, target tok = some t → target' tok = some t) :
    ProgramBy lineToks' target' raws insts := by
  induction h with
  | nil => exact .nil
  | blank hb _ ih =>
    rw [List.forall_mem_cons] at htoks htarget
    exact .blank (htoks.1.trans hb) (ih htoks.2 htarget.2)
  | line hd _ ih =>
    rw [List.forall_mem_cons] at htoks htarget
    exact .line (htoks.1 ▸ hd.mono htarget.1) (ih htoks.2 htarget.2)

/-- The instructions of the lines are determined. -/
theorem ProgramBy.unique {raws : List (List Char)} {insts insts' : List Instruction}
    (h : Program raws insts) (h' : Program raws insts') : insts = insts' :=
  Outcome.pure_inj.mp ((readLines_eq_pure (n := 1)).mpr h |>.symm.trans (readLines_eq_pure.mpr h'))

/-- **The parser may read the pieces between newlines.** -/
theorem parse_eq_build (text : List Char) :
    parse text = (do build (← readLines 1 (text.splitOn '\n'))) := by
  rw [parse_eq, lines, readLines_linesOf]

/-- The tokens of a text. -/
def tokensOf (text : List Char) : List (List Char) := (text.splitOn '\n').flatMap lineTokens

/-- **A text parses to a circuit exactly when it denotes its instructions and the counts fit.** -/
theorem parse_eq_pure_iff {text : List Char} {c : Circuit} : parse text = pure c ↔
    ∃ insts, Program (text.splitOn '\n') insts ∧ maxQubitOf insts + 1 < 2 ^ 63 ∧
      maxBitOf insts + 1 < 2 ^ 63 ∧ Built insts c := by
  simp only [parse_eq_build, Outcome.bind_eq_pure, readLines_eq_pure, build_eq_pure]

/-! ## 5. The greatest indices -/

theorem foldl_bumpQubit_le_iff {m b : ℤ} {ts : List Target} :
    ts.foldl bumpQubit m ≤ b ↔ m ≤ b ∧ ∀ q, .qubit q ∈ ts → asIsize q ≤ b := by
  induction ts generalizing m with
  | nil => simp
  | cons t ts ih =>
    rw [List.foldl_cons, ih]
    cases t with
    | qubit q =>
      simp only [bumpQubit, max_le_iff, List.mem_cons, Target.qubit.injEq, forall_eq_or_imp,
        and_assoc]
    | bit b => simp [bumpQubit]
    | register r => simp [bumpQubit]

theorem foldl_bumpBit_le_iff {m b : ℤ} {ts : List Target} :
    ts.foldl bumpBit m ≤ b ↔ m ≤ b ∧ ∀ k, .bit k ∈ ts → asIsize k ≤ b := by
  induction ts generalizing m with
  | nil => simp
  | cons t ts ih =>
    rw [List.foldl_cons, ih]
    cases t with
    | bit k =>
      simp only [bumpBit, max_le_iff, List.mem_cons, Target.bit.injEq, forall_eq_or_imp, and_assoc]
    | qubit q => simp [bumpBit]
    | register r => simp [bumpBit]

theorem foldl_bit_le_iff {m b : ℤ} {insts : List Instruction} :
    insts.foldl (fun m inst => bumpCondition (inst.targets.foldl bumpBit m) inst.condition) m ≤ b ↔
      m ≤ b ∧ ∀ k, (∃ inst ∈ insts, .bit k ∈ inst.targets ∨ inst.condition = some k) →
        asIsize k ≤ b := by
  have hcond : ∀ (m : ℤ) (o : Option ℕ), bumpCondition m o ≤ b ↔
      m ≤ b ∧ ∀ k, o = some k → asIsize k ≤ b := by
    intro m o
    cases o <;> simp [bumpCondition]
  induction insts generalizing m with
  | nil => simp
  | cons inst insts ih =>
    rw [List.foldl_cons]
    refine ih.trans ?_
    rw [hcond, foldl_bumpBit_le_iff]
    constructor
    · intro h
      obtain ⟨⟨⟨h1, h2⟩, h3⟩, h4⟩ := h
      refine ⟨h1, fun k hk => ?_⟩
      obtain ⟨i, hi, hk⟩ := hk
      rcases List.mem_cons.mp hi with rfl | hi
      · exact hk.elim (h2 k) (h3 k)
      · exact h4 k ⟨i, hi, hk⟩
    · intro h
      obtain ⟨h1, h2⟩ := h
      exact ⟨⟨⟨h1, fun k hk => h2 k ⟨inst, List.mem_cons_self, Or.inl hk⟩⟩,
        fun k hk => h2 k ⟨inst, List.mem_cons_self, Or.inr hk⟩⟩,
        fun k ⟨i, hi, hk⟩ => h2 k ⟨i, List.mem_cons_of_mem _ hi, hk⟩⟩

theorem maxBitOf_le_iff {b : ℤ} {insts : List Instruction} : maxBitOf insts ≤ b ↔ -1 ≤ b ∧
    ∀ k, (∃ inst ∈ insts, .bit k ∈ inst.targets ∨ inst.condition = some k) → asIsize k ≤ b :=
  foldl_bit_le_iff

theorem maxQubitOf_le_iff {b : ℤ} {insts : List Instruction} : maxQubitOf insts ≤ b ↔
    -1 ≤ b ∧ ∀ q, (∃ inst ∈ insts, .qubit q ∈ inst.targets) → asIsize q ≤ b := by
  rw [maxQubitOf, foldl_bumpQubit_le_iff]
  simp only [List.mem_flatMap]

end GroverTax.Kickmix
