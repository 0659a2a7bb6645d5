/-
  File:      GroverTax/Kickmix/ParseSpec.lean
  Subject:   What `parse` computes: it reads the instruction of every line, then adds them up.

  * `Outcome.bind_eq_pure`, `Outcome.bind_eq_panics` -- the two inversions of a sequence;
  * `readTokens` -- a line's instruction from its tokens, with every failure of the line;
  * `parse_eq` -- **the parser is reading followed by accumulation**;
  * `Built.inBounds` -- every qubit and bit a parsed circuit names is below its counts, as
    long as the ids are below `2 ^ 63`.
-/
import GroverTax.Kickmix.Parse

namespace GroverTax.Kickmix

open GroverTax.Lib

/-! ## 1. Outcomes -/

namespace Outcome

variable {α β : Type}

theorem pure_ne_panics (a : α) : (pure a : Outcome α) ≠ panics := by
  intro h
  cases h

theorem throw_ne_pure (e : ParseError) (a : α) : (throw e : Outcome α) ≠ pure a := by
  intro h
  cases h

theorem throw_ne_panics (e : ParseError) : (throw e : Outcome α) ≠ panics := by
  intro h
  cases h

theorem pure_inj {a b : α} : (pure a : Outcome α) = pure b ↔ a = b := by
  constructor
  · intro h
    cases h
    rfl
  · rintro rfl
    rfl

/-- A computation returns, fails or panics. -/
theorem cases (x : Outcome α) : (∃ a, x = pure a) ∨ (∃ e, x = throw e) ∨ x = panics := by
  match x with
  | some (.ok a) => exact Or.inl ⟨a, rfl⟩
  | some (.error e) => exact Or.inr (Or.inl ⟨e, rfl⟩)
  | none => exact Or.inr (Or.inr rfl)

@[simp] theorem throw_bind (e : ParseError) (f : α → Outcome β) : (throw e >>= f) = throw e := rfl

@[simp] theorem panics_bind (f : α → Outcome β) : (panics >>= f) = panics := rfl

theorem bind_eq_pure {x : Outcome α} {f : α → Outcome β} {b : β} :
    (x >>= f) = pure b ↔ ∃ a, x = pure a ∧ f a = pure b := by
  constructor
  · intro h
    rcases cases x with ⟨a, rfl⟩ | ⟨e, rfl⟩ | rfl
    · exact ⟨a, rfl, h⟩
    · exact absurd h (throw_ne_pure e b)
    · exact absurd h.symm (pure_ne_panics b)
  · intro h'
    obtain ⟨a, rfl, h⟩ := h'
    exact h

theorem bind_eq_panics {x : Outcome α} {f : α → Outcome β} :
    (x >>= f) = panics ↔ x = panics ∨ ∃ a, x = pure a ∧ f a = panics := by
  constructor
  · intro h
    rcases cases x with ⟨a, rfl⟩ | ⟨e, rfl⟩ | rfl
    · exact Or.inr ⟨a, rfl, h⟩
    · exact absurd h (throw_ne_panics e)
    · exact Or.inl rfl
  · rintro (rfl | ⟨a, rfl, h⟩)
    · rfl
    · exact h

end Outcome

/-! ## 2. Reading one line -/

/-- The test `update_registers` makes of an instruction. -/
def checkMetadata (name : String) (targets : List Target) (lineno : ℕ) : Outcome Unit :=
  if name = "REGISTER" then
    match targets with
    | [.register _] => return ()
    | _ => fail lineno .registerOperand
  else if name = "APPEND_TO_REGISTER" then
    match targets with
    | [.qubit _, .register _] => return ()
    | [.bit _, .register _] => return ()
    | _ => fail lineno .appendOperand
  else return ()

/-- The instruction of a line, from its tokens; a line without tokens has none. -/
def readTokens (lineno : ℕ) : List (List Char) → Outcome (Option Instruction)
  | [] => return none
  | name :: rest => do
      if !isValidName name then fail lineno (.malformedName (String.ofList name))
      let (targetToks, condition) ← splitCondition rest lineno
      let targets ← targetToks.mapM fun tok => parseTarget tok lineno
      checkMetadata (String.ofList name) targets lineno
      return some ⟨String.ofList name, targets, condition⟩

/-- The tokens of a line, its comment removed. -/
def lineTokens (raw : List Char) : List (List Char) := splitWhitespace (raw.takeWhile (· ≠ '#'))

/-- The instructions of the lines from number `lineno` on. -/
def readLines (lineno : ℕ) : List (List Char) → Outcome (List Instruction)
  | [] => return []
  | raw :: rest => do
      let inst ← readTokens lineno (lineTokens raw)
      return inst.toList ++ (← readLines (lineno + 1) rest)

/-! ## 3. Accumulation -/

/-- What an instruction does to the registers. -/
def declare (registers : Std.ExtTreeMap ℕ (List ℕ)) (inst : Instruction) :
    Std.ExtTreeMap ℕ (List ℕ) :=
  if inst.name = "REGISTER" then
    match inst.targets with
    | [.register r] => entryOrDefault registers r
    | _ => registers
  else if inst.name = "APPEND_TO_REGISTER" then
    match inst.targets with
    | [.qubit q, .register r] => entryPush registers r q
    | [.bit _, .register r] => entryOrDefault registers r
    | _ => registers
  else registers

/-- The maximum with an optional condition bit. -/
def bumpCondition (maxBit : ℤ) : Option ℕ → ℤ
  | none => maxBit
  | some b => max maxBit (asIsize b)

def ParseState.add (st : ParseState) (inst : Instruction) : ParseState where
  instructions := st.instructions ++ [inst]
  registers := declare st.registers inst
  maxQubit := inst.targets.foldl bumpQubit st.maxQubit
  maxBit := bumpCondition (inst.targets.foldl bumpBit st.maxBit) inst.condition

/-- The qubit an APPEND_TO_REGISTER names is a target already. -/
theorem updateRegisters_eq (name : String) (targets : List Target) (condition : Option ℕ)
    (registers : Std.ExtTreeMap ℕ (List ℕ)) (m : ℤ) (lineno : ℕ) :
    updateRegisters name targets registers (targets.foldl bumpQubit m) lineno = (do
      checkMetadata name targets lineno
      return (declare registers ⟨name, targets, condition⟩, targets.foldl bumpQubit m)) := by
  unfold updateRegisters checkMetadata declare
  dsimp only
  split_ifs with h1 h2
  · rcases targets with _ | ⟨_ | _ | r, _ | ⟨_, _⟩⟩
    all_goals rfl
  · rcases targets with _ | ⟨q | _ | _, _ | ⟨_ | _ | r, _ | ⟨_, _⟩⟩⟩
    case cons.qubit.cons.register.nil =>
      have e : max (max m (asIsize q)) (asIsize q) = max m (asIsize q) := by
        rw [max_assoc, max_self]
      simp only [List.foldl_cons, List.foldl_nil, bumpQubit, e]
      rfl
    all_goals rfl
  · rfl

/-- A line with a token is not blank. -/
theorem stripComment_isEmpty (raw : List Char) :
    (stripComment raw).isEmpty = true ↔ lineTokens raw = [] := by
  rw [List.isEmpty_iff, stripComment, trim_eq_nil, lineTokens, splitWhitespace, tokens_eq_nil]

theorem splitWhitespace_stripComment (raw : List Char) :
    splitWhitespace (stripComment raw) = lineTokens raw := tokens_trim _

theorem parseLine_eq (st : ParseState) (raw : List Char) (lineno : ℕ) :
    parseLine st raw lineno = (do
      match ← readTokens lineno (lineTokens raw) with
      | none => return st
      | some inst => return st.add inst) := by
  unfold parseLine
  dsimp only
  rw [splitWhitespace_stripComment]
  by_cases h : (stripComment raw).isEmpty = true
  · rw [if_pos h, (stripComment_isEmpty raw).mp h]
    rfl
  · have hne : lineTokens raw ≠ [] := fun e => h ((stripComment_isEmpty raw).mpr e)
    rw [if_neg h]
    cases hr : lineTokens raw with
    | nil => exact absurd hr hne
    | cons name rest =>
      unfold readTokens
      by_cases hv : isValidName name = true
      · simp only [hv, Bool.not_true, Bool.false_eq_true, if_false, pure_bind, bind_assoc]
        refine bind_congr fun ⟨toks, condition⟩ => bind_congr fun targets => ?_
        rw [updateRegisters_eq _ _ condition]
        simp only [bind_assoc, pure_bind]
        rfl
      · have hv' : isValidName name = false := by simpa using hv
        simp only [hv', Bool.not_false, if_true]
        rfl

theorem parseLines_eq (st : ParseState) (lineno : ℕ) (raws : List (List Char)) :
    parseLines st lineno raws = (do
      let insts ← readLines lineno raws
      return insts.foldl ParseState.add st) := by
  induction raws generalizing st lineno with
  | nil => rfl
  | cons raw rest ih =>
    unfold parseLines readLines
    rw [parseLine_eq]
    simp only [bind_assoc, pure_bind, ih]
    refine bind_congr fun inst => ?_
    cases inst with
    | none => simp
    | some inst => simp

/-- The circuit of a list of instructions. -/
def build (insts : List Instruction) : Outcome Circuit :=
  let st := insts.foldl ParseState.add {}
  return { instructions := st.instructions, registers := st.registers
           numQubits := ← countOf st.maxQubit, numBits := ← countOf st.maxBit }

/-- **The parser reads the instructions of the lines, then adds them up.** -/
theorem parse_eq (text : List Char) :
    parse text = (do build (← readLines 1 (lines text))) := by
  unfold parse
  rw [parseLines_eq]
  simp only [bind_assoc, pure_bind]
  rfl

/-- A parsed circuit. -/
theorem parse_eq_pure {text : List Char} {c : Circuit} : parse text = pure c ↔
    ∃ insts, readLines 1 (lines text) = pure insts ∧ build insts = pure c := by
  rw [parse_eq, Outcome.bind_eq_pure]

/-! ## 4. The circuit of a list of instructions -/

section Build

variable {insts : List Instruction} {c : Circuit}

theorem foldl_add_instructions (insts : List Instruction) (st : ParseState) :
    (insts.foldl ParseState.add st).instructions = st.instructions ++ insts := by
  induction insts generalizing st with
  | nil => simp
  | cons inst insts ih =>
    rw [List.foldl_cons, ih]
    simp [ParseState.add]

theorem foldl_add_registers (insts : List Instruction) (st : ParseState) :
    (insts.foldl ParseState.add st).registers = insts.foldl declare st.registers := by
  induction insts generalizing st with
  | nil => rfl
  | cons inst insts ih =>
    rw [List.foldl_cons, ih]
    rfl

/-- The greatest qubit index of a list of instructions, as the parser tracks it. -/
def maxQubitOf (insts : List Instruction) : ℤ :=
  (insts.flatMap fun inst => inst.targets).foldl bumpQubit (-1)

/-- The greatest bit index of a list of instructions. -/
def maxBitOf (insts : List Instruction) : ℤ :=
  insts.foldl (fun m inst => bumpCondition (inst.targets.foldl bumpBit m) inst.condition) (-1)

theorem foldl_add_maxQubit (insts : List Instruction) (st : ParseState) :
    (insts.foldl ParseState.add st).maxQubit =
      (insts.flatMap fun inst => inst.targets).foldl bumpQubit st.maxQubit := by
  induction insts generalizing st with
  | nil => rfl
  | cons inst insts ih =>
    rw [List.foldl_cons, ih, List.flatMap_cons, List.foldl_append]
    rfl

theorem foldl_add_maxBit (insts : List Instruction) (st : ParseState) :
    (insts.foldl ParseState.add st).maxBit =
      insts.foldl (fun m inst => bumpCondition (inst.targets.foldl bumpBit m) inst.condition)
        st.maxBit := by
  induction insts generalizing st with
  | nil => rfl
  | cons inst insts ih =>
    rw [List.foldl_cons, ih]
    rfl

/-- The fields of a built circuit. -/
structure Built (insts : List Instruction) (c : Circuit) : Prop where
  instructions : c.instructions = insts
  registers : c.registers = insts.foldl declare ∅
  numQubits : c.numQubits = (maxQubitOf insts + 1).toNat
  numBits : c.numBits = (maxBitOf insts + 1).toNat

theorem countOf_eq_pure {m : ℤ} {n : ℕ} :
    countOf m = pure n ↔ m + 1 < 2 ^ 63 ∧ n = (m + 1).toNat := by
  unfold countOf
  split_ifs with h
  · rw [Outcome.pure_inj]
    exact ⟨fun e => ⟨h, e.symm⟩, fun e => e.2.symm⟩
  · exact ⟨fun e => absurd e.symm (Outcome.pure_ne_panics n), fun e => absurd e.1 h⟩

/-- **A build returns exactly when neither count overflows.** -/
theorem build_eq_pure : build insts = pure c ↔
    maxQubitOf insts + 1 < 2 ^ 63 ∧ maxBitOf insts + 1 < 2 ^ 63 ∧ Built insts c := by
  unfold build
  simp only [Outcome.bind_eq_pure, countOf_eq_pure, Outcome.pure_inj, foldl_add_instructions,
    foldl_add_registers, foldl_add_maxQubit, foldl_add_maxBit, List.nil_append]
  constructor
  · intro h
    obtain ⟨nq, ⟨hq, rfl⟩, nb, ⟨hb, rfl⟩, rfl⟩ := h
    exact ⟨hq, hb, rfl, rfl, rfl, rfl⟩
  · intro h
    obtain ⟨hq, hb, h1, h2, h3, h4⟩ := h
    refine ⟨_, ⟨hq, rfl⟩, _, ⟨hb, rfl⟩, ?_⟩
    obtain ⟨is, rs, nq, nb⟩ := c
    dsimp only at h1 h2 h3 h4
    subst h1 h2 h3 h4
    rfl

theorem Built.of_parse {text : List Char} (h : parse text = pure c) : Built c.instructions c := by
  obtain ⟨insts, _, hb⟩ := parse_eq_pure.mp h
  have := (build_eq_pure.mp hb).2.2
  rw [this.instructions]
  exact this

/-! ## 5. Index bounds -/

/-- The qubits and bits an instruction names are below the given counts. -/
structure InBounds (numQubits numBits : ℕ) (inst : Instruction) : Prop where
  qubit : ∀ q, .qubit q ∈ inst.targets → q < numQubits
  bit : ∀ b, .bit b ∈ inst.targets → b < numBits
  condition : ∀ b, inst.condition = some b → b < numBits

theorem le_bumpQubit (m : ℤ) (t : Target) : m ≤ bumpQubit m t := by
  cases t with
  | qubit q => exact le_max_left _ _
  | bit b => exact le_rfl
  | register r => exact le_rfl

theorem le_foldl_bumpQubit (ts : List Target) (m : ℤ) : m ≤ ts.foldl bumpQubit m := by
  induction ts generalizing m with
  | nil => exact le_rfl
  | cons t ts ih => exact (le_bumpQubit m t).trans (ih _)

theorem mem_foldl_bumpQubit {q : ℕ} : ∀ (ts : List Target) (m : ℤ), .qubit q ∈ ts →
    asIsize q ≤ ts.foldl bumpQubit m
  | t :: ts, m, h => by
      rcases List.mem_cons.mp h with rfl | h
      · exact (le_max_right _ _).trans (le_foldl_bumpQubit ts _)
      · exact mem_foldl_bumpQubit ts _ h

theorem le_bumpBit (m : ℤ) (t : Target) : m ≤ bumpBit m t := by
  cases t with
  | bit b => exact le_max_left _ _
  | qubit q => exact le_rfl
  | register r => exact le_rfl

theorem le_foldl_bumpBit (ts : List Target) (m : ℤ) : m ≤ ts.foldl bumpBit m := by
  induction ts generalizing m with
  | nil => exact le_rfl
  | cons t ts ih => exact (le_bumpBit m t).trans (ih _)

theorem mem_foldl_bumpBit {b : ℕ} : ∀ (ts : List Target) (m : ℤ), .bit b ∈ ts →
    asIsize b ≤ ts.foldl bumpBit m
  | t :: ts, m, h => by
      rcases List.mem_cons.mp h with rfl | h
      · exact (le_max_right _ _).trans (le_foldl_bumpBit ts _)
      · exact mem_foldl_bumpBit ts _ h

theorem le_bumpCondition (m : ℤ) (o : Option ℕ) : m ≤ bumpCondition m o := by
  cases o with
  | none => exact le_rfl
  | some b => exact le_max_left _ _

theorem le_foldl_bit (insts : List Instruction) (m : ℤ) :
    m ≤ insts.foldl (fun m inst => bumpCondition (inst.targets.foldl bumpBit m) inst.condition) m := by
  induction insts generalizing m with
  | nil => exact le_rfl
  | cons inst insts ih =>
    exact ((le_foldl_bumpBit inst.targets m).trans (le_bumpCondition _ _)).trans (ih _)

/-- The running maximum has seen every bit of every instruction. -/
theorem mem_foldl_bit {inst : Instruction} {b : ℕ}
    (hb : .bit b ∈ inst.targets ∨ inst.condition = some b) :
    ∀ (insts : List Instruction) (m : ℤ), inst ∈ insts → asIsize b ≤
      insts.foldl (fun m inst => bumpCondition (inst.targets.foldl bumpBit m) inst.condition) m
  | x :: insts, m, h => by
      rcases List.mem_cons.mp h with rfl | h
      · refine le_trans ?_ (le_foldl_bit insts _)
        rcases hb with hb | hb
        · exact (mem_foldl_bumpBit _ m hb).trans (le_bumpCondition _ _)
        · dsimp only
          rw [hb]
          exact le_max_right _ _
      · exact mem_foldl_bit hb insts _ h

theorem asIsize_of_lt {n : ℕ} (h : n < 2 ^ 63) : asIsize n = n := by
  unfold asIsize
  rw [if_pos h]

/-- The ids of an instruction that survive the cast to `isize`. -/
abbrev SmallIds (inst : Instruction) : Prop := InBounds (2 ^ 63) (2 ^ 63) inst

/-- **Every index of a built circuit is below its counts.** -/
theorem Built.inBounds (h : Built insts c) {inst : Instruction} (hi : inst ∈ insts)
    (hs : SmallIds inst) : InBounds c.numQubits c.numBits inst := by
  have qubit : ∀ q, .qubit q ∈ inst.targets → q < c.numQubits := by
    intro q hq
    have hle : asIsize q ≤ maxQubitOf insts :=
      mem_foldl_bumpQubit _ _ (List.mem_flatMap.mpr ⟨inst, hi, hq⟩)
    rw [asIsize_of_lt (hs.qubit q hq)] at hle
    rw [h.numQubits]
    omega
  have bit : ∀ b, b < 2 ^ 63 → .bit b ∈ inst.targets ∨ inst.condition = some b → b < c.numBits := by
    intro b hlt hb
    have hle : asIsize b ≤ maxBitOf insts := mem_foldl_bit hb _ _ hi
    rw [asIsize_of_lt hlt] at hle
    rw [h.numBits]
    omega
  exact ⟨qubit, fun b hb => bit b (hs.bit b hb) (Or.inl hb),
    fun b hb => bit b (hs.condition b hb) (Or.inr hb)⟩

/-- A member of a register after an instruction: an old one, or a qubit of the instruction. -/
theorem mem_declare {registers : Std.ExtTreeMap ℕ (List ℕ)} {inst : Instruction} {r q : ℕ}
    {members : List ℕ} (h : (declare registers inst)[r]? = some members) (hq : q ∈ members) :
    (∃ old, registers[r]? = some old ∧ q ∈ old) ∨ .qubit q ∈ inst.targets := by
  unfold declare at h
  split_ifs at h
  · split at h
    · exact Or.inl (mem_of_entryOrDefault h hq)
    · exact Or.inl ⟨_, h, hq⟩
  · split at h
    · rename_i q' k ht
      rcases mem_of_entryPush h hq with hold | rfl
      · exact Or.inl hold
      · rw [ht]
        exact Or.inr List.mem_cons_self
    · exact Or.inl (mem_of_entryOrDefault h hq)
    · exact Or.inl ⟨_, h, hq⟩
  · exact Or.inl ⟨_, h, hq⟩

theorem mem_foldl_declare {r q : ℕ} {members : List ℕ} : ∀ {insts : List Instruction}
    {registers : Std.ExtTreeMap ℕ (List ℕ)},
    (insts.foldl declare registers)[r]? = some members → q ∈ members →
      (∃ old, registers[r]? = some old ∧ q ∈ old) ∨ ∃ inst ∈ insts, .qubit q ∈ inst.targets
  | [], _, h, hq => Or.inl ⟨_, h, hq⟩
  | inst :: insts, registers, h, hq => by
      rcases @mem_foldl_declare r q members insts _ h hq with ⟨old, ho, hqo⟩ | ⟨i, hi, hqi⟩
      · rcases mem_declare ho hqo with h' | h'
        · exact Or.inl h'
        · exact Or.inr ⟨inst, List.mem_cons_self, h'⟩
      · exact Or.inr ⟨i, List.mem_cons_of_mem _ hi, hqi⟩

/-- A member of a register is named by an instruction. -/
theorem Built.exists_of_member (h : Built insts c) {r q : ℕ} {members : List ℕ}
    (hr : c.registers[r]? = some members) (hq : q ∈ members) :
    ∃ inst ∈ insts, .qubit q ∈ inst.targets := by
  rw [h.registers] at hr
  rcases mem_foldl_declare hr hq with ⟨old, ho, _⟩ | ⟨inst, hi, hqi⟩
  · rw [Std.ExtTreeMap.getElem?_empty] at ho
    cases ho
  · exact ⟨inst, hi, hqi⟩

/-- **Every register member of a built circuit is below the qubit count.** -/
theorem Built.member_lt (h : Built insts c) (hs : ∀ inst ∈ insts, SmallIds inst) {r q : ℕ}
    {members : List ℕ} (hr : c.registers[r]? = some members) (hq : q ∈ members) :
    q < c.numQubits := by
  obtain ⟨inst, hi, hqi⟩ := h.exists_of_member hr hq
  exact (h.inBounds hi (hs inst hi)).qubit q hqi

end Build

end GroverTax.Kickmix
