/-
  File:      GroverTax/Python/Kmx.lean
  Subject:   The classical .kmx parser of src/python/grover_tax/kmx.py, `parse_kmx`.

  A pair of a kind and an index is a `Target`. The registers are a `dict` in the source; only the
  order of the members of a register is observed, so the library's ordered map stands for it.

  * `tokenise`, `applyMetadata`, `toGate`, `parseKmx` -- the functions of the source;
  * `Item` -- what a line of the classical subset says: a gate, a register, or a member;
  * `Reads` -- the item the tokens of a line denote;
  * `parseKmx_eq_ok` -- **parsing succeeds exactly when every line of code reads as an item.**
-/
import GroverTax.Gtv1.Gate
import GroverTax.Kickmix.Grammar
import GroverTax.Python.Text

namespace GroverTax.Python

open GroverTax.Lib GroverTax.Gtv1
open GroverTax.Kickmix (Target isAsciiDigit digitsValue isValidName ifToken entryOrDefault entryPush
  Digits)

/-! ## 1. The parser -/

def WIRE_MAX : ℕ := 0xFFFF

/-- `REGISTER` and `APPEND_TO_REGISTER`. -/
def registerName : List Char := ['R', 'E', 'G', 'I', 'S', 'T', 'E', 'R']
def appendName : List Char :=
  ['A', 'P', 'P', 'E', 'N', 'D', '_', 'T', 'O', '_', 'R', 'E', 'G', 'I', 'S', 'T', 'E', 'R']

/-- The exceptions, with the line and the data their texts print. -/
inductive KmxError where
  /-- `if` conditions are Tier-2 (KB-8); {raw.strip()!r} -/
  | conditionUnsupported (line : ℕ) (raw : String)
  /-- instruction {name!r} is outside the classical reversible subset -/
  | instructionUnsupported (line : ℕ) (name : String)
  /-- classical-subset registers hold qubits only; bit member b{member_id} -/
  | memberUnsupported (line member : ℕ)
  /-- malformed instruction name {name!r} -/
  | malformedName (line : ℕ) (name : String)
  /-- malformed `if` condition {' '.join(cond)!r} -/
  | malformedCondition (line : ℕ) (cond : List String)
  /-- malformed target {token!r} (want q<N>/b<N>/r<N>) -/
  | malformedTarget (line : ℕ) (token : String)
  /-- REGISTER takes exactly one register operand -/
  | registerOperand (line : ℕ)
  /-- APPEND_TO_REGISTER takes <qubit> <register> -/
  | appendOperand (line : ℕ)
  /-- {name} expects {arity} qubit target(s), got {len(targets)} -/
  | arity (line : ℕ) (name : String) (arity got : ℕ)
  /-- {name} operands must be qubits, got {kind}{idx} -/
  | operandKind (line : ℕ) (name : String) (got : Target)
  /-- qubit id {idx} exceeds the GTV1 u16 wire limit -/
  | wireLimit (line idx : ℕ)
  /-- the `ValueError` of `int`, of an unpacking, or the `IndexError` of `tokens[0]` -/
  | builtin
  deriving DecidableEq, Repr

/-- The result, less the bytes of the source. -/
structure KmxCircuit where
  gates : List Gate := []
  registers : Std.ExtTreeMap ℕ (List ℕ) := ∅
  numQubits : ℕ := 0

/-- `_TARGET_RE.match(token)`: the kind and the numeral. -/
def matchTarget : List Char → Option (Char × List Char)
  | [] => none
  | kind :: ds =>
      if (kind = 'q' ∨ kind = 'b' ∨ kind = 'r') ∧ ds ≠ [] ∧ ds.all isAsciiDigit then some (kind, ds)
      else none

def parseTarget (lineno : ℕ) (token : List Char) : Except KmxError Target :=
  match matchTarget token with
  | none => .error (.malformedTarget lineno (String.ofList token))
  | some (kind, ds) =>
      match int ds with
      | none => .error .builtin
      | some id =>
          .ok (if kind = 'q' then .qubit id else if kind = 'b' then .bit id else .register id)

/-- The part of `_tokenise` about `if`: the tokens of the targets, and whether there is one. -/
def splitIf (rest : List (List Char)) (lineno : ℕ) : Except KmxError (List (List Char) × Bool) :=
  match rest.dropWhile (· ≠ ifToken) with
  | [] => .ok (rest, false)
  | _ :: cond =>
      if cond.length ≠ 1 ∨ (cond.head?.bind matchTarget).isNone then
        .error (.malformedCondition lineno (cond.map String.ofList))
      else .ok (rest.takeWhile (· ≠ ifToken), true)

/-- `_tokenise`: `none` is a blank line. A name matches `_NAME_RE` when it is a valid name. -/
def tokenise (raw : List Char) (lineno : ℕ) :
    Except KmxError (Option (List Char) × List Target × Bool) :=
  let code := codeOf raw
  if code.isEmpty then .ok (none, [], false)
  else match split code with
    | [] => .error .builtin
    | name :: rest =>
        if isValidName name = false then .error (.malformedName lineno (String.ofList name))
        else do
          let (rest, hasCondition) ← splitIf rest lineno
          let targets ← rest.mapM (parseTarget lineno)
          return (some name, targets, hasCondition)

def checkWireId (idx lineno : ℕ) : Except KmxError Unit :=
  if idx > WIRE_MAX then .error (.wireLimit lineno idx) else .ok ()

/-- `_apply_metadata`, for a name that is one of the two. -/
def applyMetadata (name : List Char) (targets : List Target)
    (registers : Std.ExtTreeMap ℕ (List ℕ)) (lineno : ℕ) :
    Except KmxError (Std.ExtTreeMap ℕ (List ℕ)) :=
  if name = registerName then
    match targets with
    | [.register r] => .ok (entryOrDefault registers r)
    | _ => .error (.registerOperand lineno)
  else match targets with
    | [.qubit q, .register r] => do
        checkWireId q lineno
        return entryPush registers r q
    | [.bit b, .register _] => .error (.memberUnsupported lineno b)
    -- the source reads the index of a register member into the same message
    | [.register b, .register _] => .error (.memberUnsupported lineno b)
    | _ => .error (.appendOperand lineno)

/-- The loop of `_to_gate` over the targets. -/
def qubitOperand (name : List Char) (lineno : ℕ) : Target → Except KmxError ℕ
  | .qubit idx => do
      checkWireId idx lineno
      return idx
  | other => .error (.operandKind lineno (String.ofList name) other)

/-- `_to_gate`, for a name that is one of the three. -/
def toGate (name : List Char) (targets : List Target) (lineno : ℕ) :
    Except KmxError (Gate × ℕ) :=
  let arity := if name = ['X'] then 1 else if name = ['C', 'X'] then 2 else 3
  if targets.length ≠ arity then
    .error (.arity lineno (String.ofList name) arity targets.length)
  else do
    let qubits ← targets.mapM (qubitOperand name lineno)
    if name = ['X'] then
      match qubits with
      | [t] => return (⟨OP_NOT, t, NO_CTRL, NO_CTRL⟩, t)
      | _ => .error .builtin
    else if name = ['C', 'X'] then
      match qubits with
      | [c, t] => return (⟨OP_CNOT, t, c, NO_CTRL⟩, max c t)
      | _ => .error .builtin
    else
      match qubits with
      | [c1, c2, t] => return (⟨OP_TOFFOLI, t, c1, c2⟩, max (max c1 c2) t)
      | _ => .error .builtin

/-- The variables of the loop of `parse_kmx`. -/
structure KmxState where
  gates : List Gate := []
  registers : Std.ExtTreeMap ℕ (List ℕ) := ∅
  maxQubit : ℤ := -1

/-- `max_qubit = max(max_qubit, idx)` for a target of kind `q`. -/
def maxTarget (m : ℤ) : Target → ℤ
  | .qubit idx => max m idx
  | _ => m

/-- The turn of the loop for a line with a name. -/
def applyLine (st : KmxState) (raw name : List Char) (targets : List Target)
    (hasCondition : Bool) (lineno : ℕ) : Except KmxError KmxState :=
  if hasCondition then .error (.conditionUnsupported lineno (String.ofList (strip raw)))
  else if name = registerName ∨ name = appendName then do
    let registers ← applyMetadata name targets st.registers lineno
    return { st with registers := registers, maxQubit := targets.foldl maxTarget st.maxQubit }
  else if name = ['X'] ∨ name = ['C', 'X'] ∨ name = ['C', 'C', 'X'] then do
    let (gate, gateMaxQubit) ← toGate name targets lineno
    return { st with gates := st.gates ++ [gate], maxQubit := max st.maxQubit gateMaxQubit }
  else .error (.instructionUnsupported lineno (String.ofList name))

/-- One turn of the loop. -/
def kmxLine (st : KmxState) (raw : List Char) (lineno : ℕ) : Except KmxError KmxState := do
  let (name?, targets, hasCondition) ← tokenise raw lineno
  match name? with
  | none => return st
  | some name => applyLine st raw name targets hasCondition lineno

/-- The loop, `lineno` being the number of the next line. -/
def kmxLines (st : KmxState) (lineno : ℕ) : List (List Char) → Except KmxError KmxState
  | [] => return st
  | raw :: rest => do kmxLines (← kmxLine st raw lineno) (lineno + 1) rest

def parseKmx (text : List Char) : Except KmxError KmxCircuit := do
  let st ← kmxLines {} 1 (splitlines text)
  return { gates := st.gates, registers := st.registers, numQubits := (st.maxQubit + 1).toNat }

/-! ## 2. Targets -/

section Targets

variable {n : ℕ} {token : List Char} {t : Target}

/-- The target a token names for Python: no sign, and at most 4300 digits. -/
def target (token : List Char) : Option Target :=
  (matchTarget token).bind fun p => (int p.2).map fun id =>
    if p.1 = 'q' then .qubit id else if p.1 = 'b' then .bit id else .register id

theorem parseTarget_eq_ok : parseTarget n token = .ok t ↔ target token = some t := by
  unfold parseTarget target
  cases matchTarget token with
  | none => exact ⟨fun h => (nomatch h), fun h => (nomatch h)⟩
  | some p =>
    obtain ⟨kind, ds⟩ := p
    dsimp only [Option.bind_some]
    cases int ds with
    | none => exact ⟨fun h => (nomatch h), fun h => (nomatch h)⟩
    | some id => exact ⟨fun h => congrArg some (Except.ok.inj h),
        fun h => congrArg Except.ok (Option.some.inj h)⟩

theorem matchTarget_eq_some {kind : Char} {ds : List Char} :
    matchTarget token = some (kind, ds) ↔
      token = kind :: ds ∧ (kind = 'q' ∨ kind = 'b' ∨ kind = 'r') ∧ Digits ds := by
  cases token with
  | nil => exact ⟨fun h => (nomatch h), fun h => (nomatch h.1)⟩
  | cons c s =>
    rw [matchTarget, Option.ite_none_right_eq_some, List.all_eq_true, Option.some_inj,
      Prod.mk.injEq, List.cons.injEq, Digits]
    constructor
    · intro h'
      obtain ⟨⟨h1, h2, h3⟩, rfl, rfl⟩ := h'
      exact ⟨⟨rfl, rfl⟩, h1, h2, h3⟩
    · intro h'
      obtain ⟨⟨rfl, rfl⟩, h1, h2, h3⟩ := h'
      exact ⟨⟨h1, h2, h3⟩, rfl, rfl⟩

theorem target_eq_some : target token = some t ↔ ∃ ds, Digits ds ∧ ds.length ≤ 4300 ∧
    ((token = 'q' :: ds ∧ t = .qubit (digitsValue ds)) ∨
      (token = 'b' :: ds ∧ t = .bit (digitsValue ds)) ∨
      (token = 'r' :: ds ∧ t = .register (digitsValue ds))) := by
  unfold target int
  simp only [Option.bind_eq_some_iff, Prod.exists, matchTarget_eq_some, Option.map_eq_some_iff,
    Option.ite_none_right_eq_some, Option.some_inj]
  constructor
  · intro h
    obtain ⟨kind, ds, ⟨rfl, hk, hd⟩, _, ⟨hlen, rfl⟩, rfl⟩ := h
    refine ⟨ds, hd, hlen, ?_⟩
    rcases hk with rfl | rfl | rfl
    · exact Or.inl ⟨rfl, rfl⟩
    · exact Or.inr (Or.inl ⟨rfl, rfl⟩)
    · exact Or.inr (Or.inr ⟨rfl, rfl⟩)
  · intro h
    obtain ⟨ds, hd, hlen, ⟨rfl, rfl⟩ | ⟨rfl, rfl⟩ | ⟨rfl, rfl⟩⟩ := h
    · exact ⟨_, ds, ⟨rfl, by decide, hd⟩, _, ⟨hlen, rfl⟩, rfl⟩
    · exact ⟨_, ds, ⟨rfl, by decide, hd⟩, _, ⟨hlen, rfl⟩, rfl⟩
    · exact ⟨_, ds, ⟨rfl, by decide, hd⟩, _, ⟨hlen, rfl⟩, rfl⟩

theorem target_ifToken : target ifToken = none := by decide

theorem mapM_parseTarget_eq_ok : ∀ {tokens : List (List Char)} {ts : List Target},
    tokens.mapM (parseTarget n) = .ok ts ↔ tokens.mapM target = some ts
  | [], ts => by
      rw [List.mapM_nil, List.mapM_nil]
      exact ⟨fun h => congrArg some (Except.ok.inj h), fun h => congrArg Except.ok (Option.some.inj h)⟩
  | token :: tokens, ts => by
      simp only [List.mapM_cons, bind_eq_ok, parseTarget_eq_ok, mapM_parseTarget_eq_ok,
        Option.bind_eq_bind, Option.bind_eq_some_iff, Option.pure_def, Option.some_inj,
        pure_eq_ok]

theorem ifToken_notMem {tokens : List (List Char)} {ts : List Target}
    (h : tokens.mapM target = some ts) : ifToken ∉ tokens := by
  intro hm
  obtain ⟨t, -, e⟩ := exists_image_of_mapM h _ hm
  rw [target_ifToken] at e
  cases e

/-- Without a condition the tokens of the targets are all. -/
theorem splitIf_eq_ok_false {rest rest' : List (List Char)} :
    splitIf rest n = .ok (rest', false) ↔ ifToken ∉ rest ∧ rest' = rest := by
  unfold splitIf
  cases hd : rest.dropWhile (· ≠ ifToken) with
  | nil =>
    rw [Except.ok.injEq, Prod.mk.injEq]
    refine ⟨fun h => ⟨fun hm => ?_, h.1.symm⟩, fun h => ⟨h.2.symm, rfl⟩⟩
    have := List.dropWhile_eq_nil_iff.mp hd ifToken hm
    simp at this
  | cons w cond =>
    refine ⟨fun h => ?_, fun h => ?_⟩
    · dsimp only at h
      split_ifs at h
      cases h
    · have hall : ∀ t ∈ rest, decide (t ≠ ifToken) = true :=
        fun t ht => decide_eq_true fun e => h.1 (e ▸ ht)
      rw [List.dropWhile_eq_nil_iff.mpr hall] at hd
      cases hd

end Targets

/-! ## 3. Items -/

/-- What a line of the classical subset says. -/
inductive Item where
  | x (t : ℕ)
  | cx (c t : ℕ)
  | ccx (c1 c2 t : ℕ)
  | register (r : ℕ)
  | append (q r : ℕ)
  deriving DecidableEq, Repr

namespace Item

def name : Item → List Char
  | .x _ => ['X']
  | .cx _ _ => ['C', 'X']
  | .ccx _ _ _ => ['C', 'C', 'X']
  | .register _ => registerName
  | .append _ _ => appendName

def targets : Item → List Target
  | .x t => [.qubit t]
  | .cx c t => [.qubit c, .qubit t]
  | .ccx c1 c2 t => [.qubit c1, .qubit c2, .qubit t]
  | .register r => [.register r]
  | .append q r => [.qubit q, .register r]

/-- The gate of an item, if it is one. -/
def gate : Item → Option Gate
  | .x t => some ⟨OP_NOT, t, NO_CTRL, NO_CTRL⟩
  | .cx c t => some ⟨OP_CNOT, t, c, NO_CTRL⟩
  | .ccx c1 c2 t => some ⟨OP_TOFFOLI, t, c1, c2⟩
  | _ => none

def declare (registers : Std.ExtTreeMap ℕ (List ℕ)) : Item → Std.ExtTreeMap ℕ (List ℕ)
  | .register r => entryOrDefault registers r
  | .append q r => entryPush registers r q
  | _ => registers

/-- The qubits are wires of GTV1. -/
def Fits (item : Item) : Prop := ∀ q, .qubit q ∈ item.targets → q ≤ WIRE_MAX

end Item

def KmxState.add (st : KmxState) (item : Item) : KmxState where
  gates := st.gates ++ item.gate.toList
  registers := item.declare st.registers
  maxQubit := item.targets.foldl maxTarget st.maxQubit

/-- The item the tokens of a line denote. -/
structure Reads (tokens : List (List Char)) (item : Item) : Prop where
  shape : ∃ rest, tokens = item.name :: rest ∧ rest.mapM target = some item.targets
  fits : item.Fits

section Items

variable {st st' : KmxState} {raw name : List Char} {ts : List Target} {n : ℕ}

theorem checkWireId_eq_ok {q : ℕ} {u : Unit} : checkWireId q n = .ok u ↔ q ≤ WIRE_MAX := by
  unfold checkWireId
  split_ifs with h
  · exact ⟨fun e => (nomatch e), fun e => absurd h (by omega)⟩
  · exact ⟨fun _ => by omega, fun _ => rfl⟩

theorem qubitOperand_eq_ok {t : Target} {q : ℕ} :
    qubitOperand name n t = .ok q ↔ t = .qubit q ∧ q ≤ WIRE_MAX := by
  cases t with
  | qubit idx =>
    simp only [qubitOperand, bind_eq_ok, checkWireId_eq_ok, pure_eq_ok, Target.qubit.injEq]
    exact ⟨fun ⟨_, h, e⟩ => ⟨e, e ▸ h⟩, fun ⟨e, h⟩ => ⟨(), e ▸ h, e⟩⟩
  | bit b => exact ⟨fun e => (nomatch e), fun e => (nomatch e.1)⟩
  | register r => exact ⟨fun e => (nomatch e), fun e => (nomatch e.1)⟩

theorem mapM_qubitOperand_eq_ok : ∀ {ts : List Target} {qs : List ℕ},
    ts.mapM (qubitOperand name n) = .ok qs ↔ ts = qs.map .qubit ∧ ∀ q ∈ qs, q ≤ WIRE_MAX
  | [], qs => by
      rw [List.mapM_nil, pure_eq_ok, eq_comm (a := []), eq_comm (a := []), List.map_eq_nil_iff]
      exact ⟨fun h => ⟨h, by simp [h]⟩, And.left⟩
  | t :: ts, qs => by
      simp only [List.mapM_cons, bind_eq_ok, qubitOperand_eq_ok, mapM_qubitOperand_eq_ok,
        pure_eq_ok]
      constructor
      · intro h'
        obtain ⟨q, ⟨rfl, hq⟩, qs', ⟨rfl, hqs⟩, rfl⟩ := h'
        exact ⟨rfl, List.forall_mem_cons.mpr ⟨hq, hqs⟩⟩
      · intro h'
        obtain ⟨e, hall⟩ := h'
        obtain ⟨q, qs', rfl, h1, h2⟩ := List.map_eq_cons_iff.mp e.symm
        rw [List.forall_mem_cons] at hall
        exact ⟨q, ⟨h1.symm, hall.1⟩, qs', ⟨h2.symm, hall.2⟩, rfl⟩

/-- **The metadata lines**: a register, or a member of one. -/
theorem applyMetadata_eq_ok {registers registers' : Std.ExtTreeMap ℕ (List ℕ)}
    (hname : name = registerName ∨ name = appendName) :
    applyMetadata name ts registers n = .ok registers' ↔
      ∃ item : Item, name = item.name ∧ ts = item.targets ∧ item.Fits ∧
        registers' = item.declare registers := by
  constructor
  · intro h
    unfold applyMetadata at h
    split at h
    · rename_i hn
      split at h
      · rename_i r
        refine ⟨.register r, hn, rfl, ?_, (Except.ok.inj h).symm⟩
        simp [Item.Fits, Item.targets]
      · cases h
    · rename_i hn
      split at h
      · rename_i q r
        obtain ⟨_, hq, e⟩ := bind_eq_ok.mp h
        refine ⟨.append q r, hname.resolve_left hn, rfl, ?_, (pure_eq_ok.mp e).symm⟩
        simpa [Item.Fits, Item.targets] using checkWireId_eq_ok.mp hq
      · cases h
      · cases h
      · cases h
  · intro h'
    obtain ⟨item, rfl, rfl, hfits, rfl⟩ := h'
    cases item with
    | register r => rfl
    | append q r =>
      have hq : q ≤ WIRE_MAX := hfits q (by simp [Item.targets])
      exact bind_eq_ok.mpr ⟨(), checkWireId_eq_ok.mpr hq, rfl⟩
    | x t => simp [Item.name, registerName, appendName] at hname
    | cx c t => simp [Item.name, registerName, appendName] at hname
    | ccx c1 c2 t => simp [Item.name, registerName, appendName] at hname

/-- **The gate lines.** -/
theorem toGate_eq_ok {g : Gate} {m : ℕ}
    (hname : name = ['X'] ∨ name = ['C', 'X'] ∨ name = ['C', 'C', 'X']) :
    toGate name ts n = .ok (g, m) ↔
      ∃ item : Item, name = item.name ∧ ts = item.targets ∧ item.Fits ∧ item.gate = some g ∧
        ∀ m₀ : ℤ, max m₀ m = item.targets.foldl maxTarget m₀ := by
  constructor
  · intro h
    unfold toGate at h
    dsimp only at h
    generalize (if name = ['X'] then 1 else if name = ['C', 'X'] then 2 else 3) = arity at h
    by_cases hlen : ts.length ≠ arity
    · rw [if_pos hlen] at h
      cases h
    rw [if_neg hlen] at h
    obtain ⟨qs, hqs, hg⟩ := bind_eq_ok.mp h
    obtain ⟨rfl, hfit⟩ := mapM_qubitOperand_eq_ok.mp hqs
    have fits : ∀ q, Target.qubit q ∈ qs.map Target.qubit → q ≤ WIRE_MAX := by
      intro q hq
      obtain ⟨q', hq', e⟩ := List.mem_map.mp hq
      exact Target.qubit.inj e ▸ hfit q' hq'
    split_ifs at hg with h1 h2
    · split at hg
      · rename_i t
        obtain ⟨rfl, rfl⟩ := Prod.mk.inj (pure_eq_ok.mp hg)
        exact ⟨.x t, h1, rfl, fits, rfl, fun m₀ => rfl⟩
      · cases hg
    · split at hg
      · rename_i c t
        obtain ⟨rfl, rfl⟩ := Prod.mk.inj (pure_eq_ok.mp hg)
        refine ⟨.cx c t, h2, rfl, fits, rfl, fun m₀ => ?_⟩
        simp [Item.targets, maxTarget, max_assoc]
      · cases hg
    · split at hg
      · rename_i c1 c2 t
        obtain ⟨rfl, rfl⟩ := Prod.mk.inj (pure_eq_ok.mp hg)
        refine ⟨.ccx c1 c2 t, (hname.resolve_left h1).resolve_left h2, rfl, fits, rfl,
          fun m₀ => ?_⟩
        simp [Item.targets, maxTarget, max_assoc]
      · cases hg
  · intro h'
    obtain ⟨item, rfl, rfl, hfits, hg, hm⟩ := h'
    have key : ∀ qs : List ℕ, item.targets = qs.map .qubit →
        item.targets.mapM (qubitOperand item.name n) = .ok qs := fun qs e =>
      mapM_qubitOperand_eq_ok.mpr ⟨e, fun q hq => hfits q (e ▸ List.mem_map_of_mem hq)⟩
    have hm' : ∀ k : ℕ, (∀ m₀ : ℤ, max m₀ k = item.targets.foldl maxTarget m₀) → k = m := by
      intro k hk
      have e := (hk (-1)).trans (hm (-1)).symm
      omega
    cases item with
    | x t =>
      obtain rfl := Option.some.inj hg
      refine bind_eq_ok.mpr ⟨[t], key [t] rfl, ?_⟩
      rw [← hm' t fun m₀ => rfl]
      rfl
    | cx c t =>
      obtain rfl := Option.some.inj hg
      refine bind_eq_ok.mpr ⟨[c, t], key [c, t] rfl, ?_⟩
      rw [← hm' (max c t) fun m₀ => by simp [Item.targets, maxTarget, max_assoc]]
      rfl
    | ccx c1 c2 t =>
      obtain rfl := Option.some.inj hg
      refine bind_eq_ok.mpr ⟨[c1, c2, t], key [c1, c2, t] rfl, ?_⟩
      rw [← hm' (max (max c1 c2) t) fun m₀ => by simp [Item.targets, maxTarget, max_assoc]]
      rfl
    | register r => cases hg
    | append q r => cases hg

/-- **A line with a name** succeeds exactly on an item, and adds it. -/
theorem applyLine_eq_ok {cond : Bool} : applyLine st raw name ts cond n = .ok st' ↔
    cond = false ∧ ∃ item : Item, name = item.name ∧ ts = item.targets ∧ item.Fits ∧
      st' = st.add item := by
  unfold applyLine
  cases cond with
  | true => exact ⟨fun e => (nomatch e), fun e => (nomatch e.1)⟩
  | false =>
    simp only [Bool.false_eq_true, if_false, true_and]
    split_ifs with h1 h2
    · simp only [bind_eq_ok, applyMetadata_eq_ok h1, pure_eq_ok]
      constructor
      · intro h
        obtain ⟨registers, ⟨item, hn, rfl, hf, rfl⟩, rfl⟩ := h
        refine ⟨item, hn, rfl, hf, ?_⟩
        cases item <;> simp_all [KmxState.add, Item.name, Item.gate, registerName, appendName]
      · intro h
        obtain ⟨item, hn, rfl, hf, rfl⟩ := h
        refine ⟨_, ⟨item, hn, rfl, hf, rfl⟩, ?_⟩
        cases item <;> simp_all [KmxState.add, Item.name, Item.gate, registerName, appendName]
    · simp only [bind_eq_ok, Prod.exists, toGate_eq_ok h2, pure_eq_ok]
      constructor
      · intro h
        obtain ⟨g, m, ⟨item, hn, rfl, hf, hg, hm⟩, rfl⟩ := h
        refine ⟨item, hn, rfl, hf, ?_⟩
        cases item <;> simp_all [KmxState.add, Item.declare, Item.gate]
      · intro h
        obtain ⟨item, hn, rfl, hf, rfl⟩ := h
        cases item with
        | x t => exact ⟨_, t, ⟨.x t, hn, rfl, hf, rfl, fun m₀ => rfl⟩, rfl⟩
        | cx c t =>
          refine ⟨_, max c t, ⟨.cx c t, hn, rfl, hf, rfl, fun m₀ => ?_⟩, ?_⟩
          · simp [Item.targets, maxTarget, max_assoc]
          · simp [KmxState.add, Item.gate, Item.declare, Item.targets, maxTarget, max_assoc]
        | ccx c1 c2 t =>
          refine ⟨_, max (max c1 c2) t, ⟨.ccx c1 c2 t, hn, rfl, hf, rfl, fun m₀ => ?_⟩, ?_⟩
          · simp [Item.targets, maxTarget, max_assoc]
          · simp [KmxState.add, Item.gate, Item.declare, Item.targets, maxTarget, max_assoc]
        | register r => exact absurd (Or.inl hn) h1
        | append q r => exact absurd (Or.inr hn) h1
    · refine ⟨fun e => (nomatch e), ?_⟩
      intro h
      obtain ⟨item, rfl, -⟩ := h
      cases item <;> simp [Item.name, registerName, appendName] at h1 h2

/-- A line is blank, or has a name and targets. -/
theorem tokenise_eq_ok {name? : Option (List Char)} : tokenise raw n = .ok (name?, ts, false) ↔
    (codes raw = [] ∧ name? = none ∧ ts = []) ∨
      ∃ code name rest, codes raw = [code] ∧ split code = name :: rest ∧ isValidName name = true ∧
        rest.mapM target = some ts ∧ name? = some name := by
  unfold tokenise codes
  dsimp only
  by_cases hb : (codeOf raw).isEmpty = true
  · rw [if_pos hb, if_pos hb, Except.ok.injEq, Prod.mk.injEq, Prod.mk.injEq]
    constructor
    · intro h'
      obtain ⟨rfl, rfl, -⟩ := h'
      exact Or.inl ⟨rfl, rfl, rfl⟩
    · rintro (⟨-, rfl, rfl⟩ | ⟨code, name, rest, h, -⟩)
      · exact ⟨rfl, rfl, rfl⟩
      · cases h
  · rw [if_neg hb, if_neg hb]
    cases hs : split (codeOf raw) with
    | nil => exact absurd (codeOf_isEmpty.mpr hs) hb
    | cons name rest =>
      dsimp only
      by_cases hv : isValidName name = false
      · rw [if_pos hv]
        refine ⟨fun e => (nomatch e), ?_⟩
        rintro (⟨e, -⟩ | ⟨code, name', rest', hcode, hs', hv', -⟩)
        · cases e
        · rw [← (List.cons.inj hcode).1, hs] at hs'
          rw [← (List.cons.inj hs').1, hv] at hv'
          cases hv'
      · rw [if_neg hv]
        simp only [bind_eq_ok, Prod.exists, mapM_parseTarget_eq_ok, pure_eq_ok, Prod.mk.injEq]
        constructor
        · intro h'
          obtain ⟨rest', b, hif, ts', hts, rfl, rfl, rfl⟩ := h'
          obtain ⟨-, rfl⟩ := splitIf_eq_ok_false.mp hif
          exact Or.inr ⟨_, name, rest', rfl, hs, by simpa using hv, hts, rfl⟩
        · rintro (⟨e, -⟩ | ⟨code, name', rest', hcode, hs', -, hts, rfl⟩)
          · cases e
          · rw [← (List.cons.inj hcode).1, hs] at hs'
            obtain ⟨rfl, rfl⟩ := List.cons.inj hs'
            exact ⟨rest, false, splitIf_eq_ok_false.mpr ⟨ifToken_notMem hts, rfl⟩, ts, hts, rfl,
              rfl, rfl⟩

/-- A blank line has no condition. -/
theorem tokenise_none {cond : Bool} (h : tokenise raw n = .ok (none, ts, cond)) : cond = false := by
  unfold tokenise at h
  dsimp only at h
  split at h
  · rw [Except.ok.injEq, Prod.mk.injEq, Prod.mk.injEq] at h
    exact h.2.2.symm
  · split at h
    · cases h
    · split at h
      · cases h
      · simp only [bind_eq_ok, pure_eq_ok, Prod.mk.injEq, reduceCtorEq, false_and, and_false,
          exists_false] at h

theorem Item.isValidName_name (item : Item) : isValidName item.name = true := by
  cases item <;> rfl

/-- **One turn of the loop** succeeds exactly on a blank line or an item. -/
theorem kmxLine_eq_ok : kmxLine st raw n = .ok st' ↔ (codes raw = [] ∧ st' = st) ∨
    ∃ code item, codes raw = [code] ∧ Reads (split code) item ∧ st' = st.add item := by
  unfold kmxLine
  rw [bind_eq_ok]
  constructor
  · intro h'
    obtain ⟨⟨name?, ts, cond⟩, ht, h⟩ := h'
    cases name? with
    | none =>
      obtain rfl := tokenise_none ht
      rcases tokenise_eq_ok.mp ht with ⟨hcode, -, -⟩ | ⟨_, _, _, _, _, _, _, e⟩
      · exact Or.inl ⟨hcode, (pure_eq_ok.mp h).symm⟩
      · cases e
    | some name =>
      obtain ⟨rfl, item, rfl, rfl, hf, rfl⟩ := applyLine_eq_ok.mp h
      rcases tokenise_eq_ok.mp ht with ⟨-, e, -⟩ | ⟨code, _, rest, hcode, hs, _, hts, e⟩
      · cases e
      · obtain rfl := Option.some.inj e
        exact Or.inr ⟨code, item, hcode, ⟨⟨rest, hs, hts⟩, hf⟩, rfl⟩
  · rintro (⟨hcode, rfl⟩ | ⟨code, item, hcode, ⟨⟨rest, hs, hts⟩, hf⟩, rfl⟩)
    · exact ⟨(none, [], false), tokenise_eq_ok.mpr (Or.inl ⟨hcode, rfl, rfl⟩), rfl⟩
    · exact ⟨(some item.name, item.targets, false), tokenise_eq_ok.mpr (Or.inr ⟨code, _, rest,
        hcode, hs, item.isValidName_name, hts, rfl⟩), applyLine_eq_ok.mpr
        ⟨rfl, item, rfl, rfl, hf, rfl⟩⟩

/-- **The loop reads the lines of code one after the other.** -/
theorem kmxLines_eq_ok {raws : List (List Char)} : kmxLines st n raws = .ok st' ↔
    ∃ items, List.Forall₂ (fun code item => Reads (split code) item) (raws.flatMap codes) items ∧
      st' = items.foldl KmxState.add st := by
  induction raws generalizing st n with
  | nil =>
    rw [kmxLines, pure_eq_ok]
    constructor
    · rintro rfl
      exact ⟨[], .nil, rfl⟩
    · intro h
      obtain ⟨items, hi, rfl⟩ := h
      cases hi
      rfl
  | cons raw rest ih =>
    simp only [kmxLines, bind_eq_ok, kmxLine_eq_ok, ih, List.flatMap_cons]
    constructor
    · intro h
      obtain ⟨_, ⟨hcode, rfl⟩ | ⟨code, item, hcode, hr, rfl⟩, items, hi, rfl⟩ := h
      · exact ⟨items, by rwa [hcode], rfl⟩
      · exact ⟨item :: items, by rw [hcode]; exact .cons hr hi, rfl⟩
    · intro h
      obtain ⟨items, hi, rfl⟩ := h
      by_cases hcode : codes raw = []
      · rw [hcode] at hi
        exact ⟨st, Or.inl ⟨hcode, rfl⟩, items, hi, rfl⟩
      · have hone : codes raw = [codeOf raw] := by
          unfold codes at hcode ⊢
          split_ifs at hcode ⊢
          · exact absurd rfl hcode
          · rfl
        rw [hone] at hi
        obtain ⟨item, items', hr, hi', rfl⟩ := List.forall₂_cons_left_iff.mp hi
        exact ⟨_, Or.inr ⟨_, item, hone, hr, rfl⟩, items', hi', rfl⟩

end Items

/-- The circuit of a list of items. -/
def circuitOf (items : List Item) : KmxCircuit where
  gates := (items.foldl KmxState.add {}).gates
  registers := (items.foldl KmxState.add {}).registers
  numQubits := ((items.foldl KmxState.add {}).maxQubit + 1).toNat

/-- What Python builds: gates, registers and the greatest qubit. -/
theorem foldl_add_eq (items : List Item) (st : KmxState) : items.foldl KmxState.add st =
    ⟨st.gates ++ items.filterMap Item.gate, items.foldl Item.declare st.registers,
      (items.flatMap Item.targets).foldl maxTarget st.maxQubit⟩ := by
  induction items generalizing st with
  | nil => simp
  | cons item items ih =>
    rw [List.foldl_cons, ih, List.filterMap_cons, List.flatMap_cons, List.foldl_append]
    simp only [KmxState.add, List.foldl_cons, List.append_assoc]
    cases item.gate <;> rfl

theorem circuitOf_eq (items : List Item) : circuitOf items =
    ⟨items.filterMap Item.gate, items.foldl Item.declare ∅,
      ((items.flatMap Item.targets).foldl maxTarget (-1) + 1).toNat⟩ := by
  rw [circuitOf, foldl_add_eq]
  rfl

theorem foldl_maxTarget_le_iff {m b : ℤ} {ts : List Target} :
    ts.foldl maxTarget m ≤ b ↔ m ≤ b ∧ ∀ q : ℕ, .qubit q ∈ ts → (q : ℤ) ≤ b := by
  induction ts generalizing m with
  | nil => simp
  | cons t ts ih =>
    rw [List.foldl_cons, ih]
    cases t with
    | qubit q =>
      simp only [maxTarget, max_le_iff, List.mem_cons, Target.qubit.injEq, forall_eq_or_imp,
        and_assoc]
    | bit b => simp [maxTarget]
    | register r => simp [maxTarget]

/-- **Parsing succeeds exactly when every line of code reads as an item.** -/
theorem parseKmx_eq_ok {text : List Char} {c : KmxCircuit} : parseKmx text = .ok c ↔
    ∃ items, List.Forall₂ (fun code item => Reads (split code) item) (codeLines text) items ∧
      c = circuitOf items := by
  unfold parseKmx
  simp only [bind_eq_ok, kmxLines_eq_ok, pure_eq_ok]
  constructor
  · intro h
    obtain ⟨_, ⟨items, hi, rfl⟩, rfl⟩ := h
    exact ⟨items, hi, rfl⟩
  · intro h
    obtain ⟨items, hi, rfl⟩ := h
    exact ⟨_, ⟨items, hi, rfl⟩, rfl⟩

end GroverTax.Python
