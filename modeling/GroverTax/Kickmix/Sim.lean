/-
  File:      GroverTax/Kickmix/Sim.lean
  Subject:   The simulator of src/kickmix/src/lib.rs: `State`, `active`, `step`, `run`, and the
             SplitMix64 measurement source.

  An index out of range, an operand of the wrong kind, a missing condition of PUSH_CONDITION and
  an unknown name are panics, so `step` is partial. `exec` is the second match of the source's
  `step`, the one behind the test of `active`.

  `Exec` and `Step` list the effects of an instruction; `exec_sound` and `step_sound` say that there
  are no others, so nothing after them unfolds `exec` or `step` to see what a run did.
-/
import GroverTax.Kickmix.Syntax
import GroverTax.Lib.Run

namespace GroverTax.Kickmix

/-! ## 1. Measurement sources -/

/-- The trait `MeasureSource`. -/
class MeasureSource (M : Type) where
  nextBit : M → Bool × M

export MeasureSource (nextBit)

structure SplitMix64 where
  state : UInt64
  deriving DecidableEq, Repr

def SplitMix64.new (seed : UInt64) : SplitMix64 := ⟨seed⟩

def SplitMix64.nextU64 (s : SplitMix64) : UInt64 × SplitMix64 :=
  let state := s.state + 0x9E3779B97F4A7C15
  let z := state
  let z := (z ^^^ (z >>> 30)) * 0xBF58476D1CE4E5B9
  let z := (z ^^^ (z >>> 27)) * 0x94D049BB133111EB
  (z ^^^ (z >>> 31), ⟨state⟩)

instance : MeasureSource SplitMix64 where
  nextBit s := let (v, s) := s.nextU64; (v &&& 1 == 1, s)

theorem nextBit_splitMix64 (s : SplitMix64) :
    nextBit s = (s.nextU64.1 &&& 1 == 1, s.nextU64.2) := rfl

/-! ## 2. States -/

/-- `phase` is the sign: `true` for `-1`. -/
structure State where
  qubits : List Bool
  bits : List Bool
  phase : Bool
  condStack : List Bool
  deriving DecidableEq, Repr

def State.new (numQubits numBits : ℕ) : State where
  qubits := List.replicate numQubits false
  bits := List.replicate numBits false
  phase := false
  condStack := []

namespace State

/-- `self.bits.get(b).copied().unwrap_or(false)`. -/
def getBit (s : State) (b : ℕ) : Bool := s.bits.getD b false

/-- Every pushed condition is true and the optional `if` bit is true. -/
def active (s : State) (condition : Option ℕ) : Bool :=
  s.condStack.all id && match condition with
    | none => true
    | some b => s.getBit b

/-- `state.qubits[i]`, read. -/
def readQubit (s : State) (i : ℕ) : Option Bool := s.qubits[i]?

/-- `state.qubits[i] = v`. -/
def writeQubit (s : State) (i : ℕ) (v : Bool) : Option State :=
  if i < s.qubits.length then some { s with qubits := s.qubits.set i v } else none

/-- `state.qubits[i] ^= v`. -/
def xorQubit (s : State) (i : ℕ) (v : Bool) : Option State := do
  s.writeQubit i ((← s.readQubit i) ^^ v)

/-- `state.bits[b] = v`. -/
def writeBit (s : State) (b : ℕ) (v : Bool) : Option State :=
  if b < s.bits.length then some { s with bits := s.bits.set b v } else none

/-- `state.phase ^= v`. -/
def xorPhase (s : State) (v : Bool) : State := { s with phase := s.phase ^^ v }

/-- The conjunction of some qubits, from left to right: a `false` one ends the reading. -/
def allOn (s : State) : List ℕ → Option Bool
  | [] => some true
  | i :: is => do if ← s.readQubit i then s.allOn is else some false

end State

/-! ## 3. Steps -/

section Step

variable {M : Type} [MeasureSource M]

/-- The helper `q`: target `i`, which must be a qubit. -/
def q (targets : List Target) (i : ℕ) : Option ℕ :=
  match targets[i]? with
  | some (.qubit x) => some x
  | _ => none

/-- The output operand of HMR, which must be a bit. -/
def outputBit (targets : List Target) (i : ℕ) : Option ℕ :=
  match targets[i]? with
  | some (.bit b) => some b
  | _ => none

/-- `if let Target::Bit(b) = t[0] { … }`: a target of another kind does nothing. -/
def withBit (targets : List Target) (s : State) (f : ℕ → Option State) : Option State :=
  match targets.head? with
  | none => none
  | some (.bit b) => f b
  | some _ => some s

/-- The second match of the source's `step`. The names the first match returns on do not reach it;
    they stand with the unknown ones. -/
def exec (op : Op) (t : List Target) (s : State) (m : M) : Option (State × M) :=
  match op with
  | .x => do
      let a ← q t 0
      return (← s.xorQubit a true, m)
  | .cx => do
      let c ← q t 0
      let tg ← q t 1
      return (← s.xorQubit tg (← s.readQubit c), m)
  | .ccx => do
      let c1 ← q t 0
      let c2 ← q t 1
      let tg ← q t 2
      return (← s.xorQubit tg (← s.allOn [c1, c2]), m)
  | .z => do
      let a ← q t 0
      return (s.xorPhase (← s.allOn [a]), m)
  | .cz => do
      let a ← q t 0
      let b ← q t 1
      return (s.xorPhase (← s.allOn [a, b]), m)
  | .ccz => do
      let a ← q t 0
      let b ← q t 1
      let c ← q t 2
      return (s.xorPhase (← s.allOn [a, b, c]), m)
  | .neg => some (s.xorPhase true, m)
  | .swap => do
      let a ← q t 0
      let b ← q t 1
      let va ← s.readQubit a
      let vb ← s.readQubit b
      return (← (← s.writeQubit a vb).writeQubit b va, m)
  | .r => do
      let a ← q t 0
      -- a trajectory bit is drawn only when the qubit is on
      let (v, m) := if ← s.readQubit a then nextBit m else (false, m)
      return (← (s.xorPhase v).writeQubit a false, m)
  | .hmr => do
      let qb ← q t 0
      let bit ← outputBit t 1
      let (v, m) := nextBit m
      let on ← s.readQubit qb
      return (← (← (s.xorPhase (on && v)).writeBit bit v).writeQubit qb false, m)
  | .bitInvert => (withBit t s fun b => do s.writeBit b (!(← s.bits[b]?))).map fun s => (s, m)
  | .bitStore0 => (withBit t s fun b => s.writeBit b false).map fun s => (s, m)
  | .bitStore1 => (withBit t s fun b => s.writeBit b true).map fun s => (s, m)
  | _ => none

/-- One instruction. Control flow and metadata ignore the condition stack. -/
def step (inst : Instruction) (s : State) (m : M) : Option (State × M) :=
  match Op.ofName inst.name with
  | some .pushCondition => do
      let bit ← inst.condition
      return ({ s with condStack := s.condStack ++ [s.getBit bit] }, m)
  | some .popCondition => some ({ s with condStack := s.condStack.dropLast }, m)
  | some .register | some .appendToRegister | some .debugPrint => some (s, m)
  | op => if s.active inst.condition then op.bind fun op => exec op inst.targets s m else some (s, m)

/-- `run` on the instructions of a circuit. -/
def runInstructions (insts : List Instruction) (s : State) (m : M) : Option (State × M) :=
  Lib.run (fun (sm : State × M) inst => step inst sm.1 sm.2) (s, m) insts

def run (circuit : Circuit) (s : State) (m : M) : Option (State × M) :=
  runInstructions circuit.instructions s m

/-! ## 4. What an instruction does -/

/-- The effects of `exec`, one constructor for each arm. -/
inductive Exec (t : List Target) (s : State) (m : M) : Op → State → M → Prop where
  | x {a s'} (h0 : q t 0 = some a) (hs : s.xorQubit a true = some s') : Exec t s m .x s' m
  | cx {c tg v s'} (h0 : q t 0 = some c) (h1 : q t 1 = some tg) (hv : s.readQubit c = some v)
      (hs : s.xorQubit tg v = some s') : Exec t s m .cx s' m
  | ccx {c1 c2 tg v s'} (h0 : q t 0 = some c1) (h1 : q t 1 = some c2) (h2 : q t 2 = some tg)
      (hv : s.allOn [c1, c2] = some v) (hs : s.xorQubit tg v = some s') : Exec t s m .ccx s' m
  | z {a v} (h0 : q t 0 = some a) (hv : s.allOn [a] = some v) : Exec t s m .z (s.xorPhase v) m
  | cz {a b v} (h0 : q t 0 = some a) (h1 : q t 1 = some b) (hv : s.allOn [a, b] = some v) :
      Exec t s m .cz (s.xorPhase v) m
  | ccz {a b c v} (h0 : q t 0 = some a) (h1 : q t 1 = some b) (h2 : q t 2 = some c)
      (hv : s.allOn [a, b, c] = some v) : Exec t s m .ccz (s.xorPhase v) m
  | neg : Exec t s m .neg (s.xorPhase true) m
  | swap {a b va vb s1 s'} (h0 : q t 0 = some a) (h1 : q t 1 = some b)
      (ha : s.readQubit a = some va) (hb : s.readQubit b = some vb)
      (hs : s.writeQubit a vb = some s1) (hs' : s1.writeQubit b va = some s') :
      Exec t s m .swap s' m
  | rOff {a s'} (h0 : q t 0 = some a) (hv : s.readQubit a = some false)
      (hs : (s.xorPhase false).writeQubit a false = some s') : Exec t s m .r s' m
  | rOn {a s'} (h0 : q t 0 = some a) (hv : s.readQubit a = some true)
      (hs : (s.xorPhase (nextBit m).1).writeQubit a false = some s') :
      Exec t s m .r s' (nextBit m).2
  | hmr {a b on s1 s'} (h0 : q t 0 = some a) (h1 : outputBit t 1 = some b)
      (hon : s.readQubit a = some on)
      (hs : (s.xorPhase (on && (nextBit m).1)).writeBit b (nextBit m).1 = some s1)
      (hs' : s1.writeQubit a false = some s') : Exec t s m .hmr s' (nextBit m).2
  | bitInvert {b v s'} (h0 : t.head? = some (.bit b)) (hv : s.bits[b]? = some v)
      (hs : s.writeBit b (!v) = some s') : Exec t s m .bitInvert s' m
  | bitStore0 {b s'} (h0 : t.head? = some (.bit b)) (hs : s.writeBit b false = some s') :
      Exec t s m .bitStore0 s' m
  | bitStore1 {b s'} (h0 : t.head? = some (.bit b)) (hs : s.writeBit b true = some s') :
      Exec t s m .bitStore1 s' m
  | skip {op x} (hop : op = .bitInvert ∨ op = .bitStore0 ∨ op = .bitStore1)
      (h0 : t.head? = some x) (hx : ∀ b, x ≠ .bit b) : Exec t s m op s m

theorem withBit_eq_some {t : List Target} {s s' : State} {f : ℕ → Option State}
    (h : withBit t s f = some s') :
    (∃ b, t.head? = some (.bit b) ∧ f b = some s') ∨
      (∃ x, t.head? = some x ∧ ∀ b, x ≠ .bit b) ∧ s' = s := by
  unfold withBit at h
  split at h
  · cases h
  · rename_i b hb
    exact Or.inl ⟨b, hb, h⟩
  · rename_i x hn hx
    cases h
    exact Or.inr ⟨⟨x, hx, hn⟩, rfl⟩

/-- **`exec` does nothing but the effects of `Exec`.** -/
theorem exec_sound {op : Op} {t : List Target} {s s' : State} {m m' : M}
    (h : exec op t s m = some (s', m')) : Exec t s m op s' m' := by
  cases op with
  | x =>
    simp only [exec, Option.bind_eq_bind, Option.bind_eq_some_iff, Option.pure_def,
      Option.some.injEq, Prod.mk.injEq] at h
    obtain ⟨a, h0, s1, hs, rfl, rfl⟩ := h
    exact .x h0 hs
  | cx =>
    simp only [exec, Option.bind_eq_bind, Option.bind_eq_some_iff, Option.pure_def,
      Option.some.injEq, Prod.mk.injEq] at h
    obtain ⟨c, h0, tg, h1, v, hv, s1, hs, rfl, rfl⟩ := h
    exact .cx h0 h1 hv hs
  | ccx =>
    simp only [exec, Option.bind_eq_bind, Option.bind_eq_some_iff, Option.pure_def,
      Option.some.injEq, Prod.mk.injEq] at h
    obtain ⟨c1, h0, c2, h1, tg, h2, v, hv, s1, hs, rfl, rfl⟩ := h
    exact .ccx h0 h1 h2 hv hs
  | z =>
    simp only [exec, Option.bind_eq_bind, Option.bind_eq_some_iff, Option.pure_def,
      Option.some.injEq, Prod.mk.injEq] at h
    obtain ⟨a, h0, v, hv, rfl, rfl⟩ := h
    exact .z h0 hv
  | cz =>
    simp only [exec, Option.bind_eq_bind, Option.bind_eq_some_iff, Option.pure_def,
      Option.some.injEq, Prod.mk.injEq] at h
    obtain ⟨a, h0, b, h1, v, hv, rfl, rfl⟩ := h
    exact .cz h0 h1 hv
  | ccz =>
    simp only [exec, Option.bind_eq_bind, Option.bind_eq_some_iff, Option.pure_def,
      Option.some.injEq, Prod.mk.injEq] at h
    obtain ⟨a, h0, b, h1, c, h2, v, hv, rfl, rfl⟩ := h
    exact .ccz h0 h1 h2 hv
  | neg =>
    cases h
    exact .neg
  | swap =>
    simp only [exec, Option.bind_eq_bind, Option.bind_eq_some_iff, Option.pure_def,
      Option.some.injEq, Prod.mk.injEq] at h
    obtain ⟨a, h0, b, h1, va, ha, vb, hb, s1, hs, s2, hs', rfl, rfl⟩ := h
    exact .swap h0 h1 ha hb hs hs'
  | r =>
    simp only [exec, Option.bind_eq_bind, Option.bind_eq_some_iff, Option.pure_def,
      Option.some.injEq, Prod.mk.injEq] at h
    obtain ⟨a, h0, v, hv, s1, hs, rfl, rfl⟩ := h
    cases v with
    | false => exact .rOff h0 hv hs
    | true => exact .rOn h0 hv hs
  | hmr =>
    simp only [exec, Option.bind_eq_bind, Option.bind_eq_some_iff, Option.pure_def,
      Option.some.injEq, Prod.mk.injEq] at h
    obtain ⟨a, h0, b, h1, on, hon, s1, hs, s2, hs', rfl, rfl⟩ := h
    exact .hmr h0 h1 hon hs hs'
  | bitInvert =>
    simp only [exec, Option.map_eq_some_iff, Prod.mk.injEq] at h
    obtain ⟨s1, h, rfl, rfl⟩ := h
    rcases withBit_eq_some h with ⟨b, hb, h⟩ | ⟨⟨x, hx, hn⟩, rfl⟩
    · obtain ⟨v, hv, hs⟩ := Option.bind_eq_some_iff.mp h
      exact .bitInvert hb hv hs
    · exact .skip (Or.inl rfl) hx hn
  | bitStore0 =>
    simp only [exec, Option.map_eq_some_iff, Prod.mk.injEq] at h
    obtain ⟨s1, h, rfl, rfl⟩ := h
    rcases withBit_eq_some h with ⟨b, hb, hs⟩ | ⟨⟨x, hx, hn⟩, rfl⟩
    · exact .bitStore0 hb hs
    · exact .skip (Or.inr (Or.inl rfl)) hx hn
  | bitStore1 =>
    simp only [exec, Option.map_eq_some_iff, Prod.mk.injEq] at h
    obtain ⟨s1, h, rfl, rfl⟩ := h
    rcases withBit_eq_some h with ⟨b, hb, hs⟩ | ⟨⟨x, hx, hn⟩, rfl⟩
    · exact .bitStore1 hb hs
    · exact .skip (Or.inr (Or.inr rfl)) hx hn
  | pushCondition => cases h
  | popCondition => cases h
  | register => cases h
  | appendToRegister => cases h
  | debugPrint => cases h

/-- The effects of `step`, one constructor for each kind of name. -/
inductive Step (inst : Instruction) (s : State) (m : M) : State → M → Prop where
  | push {bit} (hop : Op.ofName inst.name = some .pushCondition) (hc : inst.condition = some bit) :
      Step inst s m { s with condStack := s.condStack ++ [s.getBit bit] } m
  | pop (hop : Op.ofName inst.name = some .popCondition) :
      Step inst s m { s with condStack := s.condStack.dropLast } m
  | metadata {op} (hop : Op.ofName inst.name = some op)
      (hm : op = .register ∨ op = .appendToRegister ∨ op = .debugPrint) : Step inst s m s m
  | inactive (ha : s.active inst.condition = false)
      (hop : ∀ op, Op.ofName inst.name = some op → op ≠ .pushCondition ∧ op ≠ .popCondition) :
      Step inst s m s m
  | active {op s' m'} (ha : s.active inst.condition = true) (hop : Op.ofName inst.name = some op)
      (hne : op ≠ .pushCondition ∧ op ≠ .popCondition)
      (he : Exec inst.targets s m op s' m') : Step inst s m s' m'

/-- **`step` does nothing but the effects of `Step`.** -/
theorem step_sound {inst : Instruction} {s s' : State} {m m' : M}
    (h : step inst s m = some (s', m')) : Step inst s m s' m' := by
  unfold step at h
  split at h
  · rename_i hop
    simp only [Option.bind_eq_bind, Option.bind_eq_some_iff, Option.pure_def,
      Option.some.injEq, Prod.mk.injEq] at h
    obtain ⟨bit, hc, rfl, rfl⟩ := h
    exact .push hop hc
  · rename_i hop
    cases h
    exact .pop hop
  · rename_i hop
    cases h
    exact .metadata hop (Or.inl rfl)
  · rename_i hop
    cases h
    exact .metadata hop (Or.inr (Or.inl rfl))
  · rename_i hop
    cases h
    exact .metadata hop (Or.inr (Or.inr rfl))
  · rename_i h1 h2 _ _ _
    have hne : ∀ op, Op.ofName inst.name = some op → op ≠ .pushCondition ∧ op ≠ .popCondition := by
      refine fun op hop => ⟨?_, ?_⟩
      · rintro rfl
        exact h1 hop
      · rintro rfl
        exact h2 hop
    split_ifs at h with ha
    · obtain ⟨op, hop, he⟩ := Option.bind_eq_some_iff.mp h
      exact .active ha hop (hne op hop) (exec_sound he)
    · cases h
      exact .inactive (by simpa using ha) hne

end Step

end GroverTax.Kickmix
