/-
  File:      GroverTax/Kickmix/Registers.lean
  Subject:   The value of a register, and what loading and reading it do.

  `regValue` is the number whose bits are the register's qubits, least significant first. Everything
  is said bit by bit: `loadMembers_spec` for the members of a register without a repetition,
  `readMembers_eq` for any.
-/
import GroverTax.Kickmix.Fuzz
import GroverTax.Kickmix.Safety
import Mathlib.Data.Nat.Bitwise
import Mathlib.Tactic.Ring

namespace GroverTax.Kickmix

/-- Qubit `q` of a state; a qubit beyond the last one is off. -/
def State.on (s : State) (q : ℕ) : Bool := s.qubits.getD q false

/-- **The value of a register.** -/
def regValue (s : State) (members : List ℕ) : ℕ :=
  Nat.ofBits fun j : Fin members.length => s.on (members.get j)

section Registers

variable {s s' : State} {members : List ℕ}

theorem regValue_lt (s : State) (members : List ℕ) : regValue s members < 2 ^ members.length :=
  Nat.ofBits_lt_two_pow _

theorem testBit_regValue (s : State) {j : ℕ} (h : j < members.length) :
    (regValue s members).testBit j = s.on members[j] := Nat.testBit_ofBits_lt _ j h

@[simp] theorem regValue_nil (s : State) : regValue s [] = 0 := rfl

/-- The first member is the lowest bit. -/
theorem regValue_cons (s : State) (q : ℕ) (members : List ℕ) :
    regValue s (q :: members) = 2 * regValue s members + (s.on q).toNat := Nat.ofBits_succ _

/-- A register holds a number when each member holds its bit. -/
theorem regValue_eq_iff {v : ℕ} (hv : v < 2 ^ members.length) : regValue s members = v ↔
    ∀ j (h : j < members.length), s.on members[j] = v.testBit j := by
  constructor
  · rintro rfl j h
    exact (testBit_regValue s h).symm
  · intro h
    refine Nat.eq_of_testBit_eq fun j => ?_
    by_cases hj : j < members.length
    · rw [testBit_regValue s hj, h j hj]
    · have hle : 2 ^ members.length ≤ 2 ^ j := Nat.pow_le_pow_right (by decide) (by omega)
      rw [Nat.testBit_lt_two_pow ((regValue_lt s members).trans_le hle),
        Nat.testBit_lt_two_pow (hv.trans_le hle)]

theorem State.on_writeQubit {i : ℕ} {v : Bool} (h : s.writeQubit i v = some s') (q : ℕ) :
    s'.on q = if q = i then v else s.on q := by
  obtain ⟨hi, rfl⟩ := State.writeQubit_eq_some.mp h
  unfold State.on
  simp only [List.getD_eq_getElem?_getD, List.getElem?_set, eq_comm (a := i)]
  split_ifs <;> rfl

theorem State.readQubit_eq {i : ℕ} {v : Bool} (h : s.readQubit i = some v) : s.on i = v := by
  unfold State.on
  rw [List.getD_eq_getElem?_getD]
  exact congrArg (Option.getD · false) h

/-! ## 1. Loading -/

/-- What a load leaves alone. -/
structure LoadFrame (s s' : State) : Prop where
  qubits : s'.qubits.length = s.qubits.length
  bits : s'.bits = s.bits
  phase : s'.phase = s.phase
  condStack : s'.condStack = s.condStack

theorem loadMembers_frame {value : ℕ} : ∀ {members : List ℕ} {j : ℕ} {s s' : State},
    loadMembers value j members s = some s' → LoadFrame s s'
  | [], _, _, _, h => by
      cases h
      exact ⟨rfl, rfl, rfl, rfl⟩
  | q :: members, j, s, s', h => by
      unfold loadMembers at h
      split_ifs at h with hj
      obtain ⟨s1, h1, h⟩ := Option.bind_eq_some_iff.mp h
      have hrest := loadMembers_frame h
      obtain ⟨_, rfl⟩ := State.writeQubit_eq_some.mp h1
      exact ⟨hrest.qubits.trans (List.length_set ..), hrest.bits, hrest.phase, hrest.condStack⟩

/-- A load changes only the members. -/
theorem loadMembers_other {value q : ℕ} : ∀ {members : List ℕ} {j : ℕ} {s s' : State},
    loadMembers value j members s = some s' → q ∉ members → s'.on q = s.on q
  | [], _, _, _, h, _ => by
      cases h
      rfl
  | p :: members, j, s, s', h, hq => by
      unfold loadMembers at h
      split_ifs at h with hj
      obtain ⟨s1, h1, h⟩ := Option.bind_eq_some_iff.mp h
      rw [List.mem_cons, not_or] at hq
      rw [loadMembers_other h hq.2, State.on_writeQubit h1, if_neg hq.1]

/-- **A load writes the bits of the value**, lowest first, into distinct members. -/
theorem loadMembers_spec {value : ℕ} : ∀ {members : List ℕ} {j : ℕ} {s s' : State},
    loadMembers value j members s = some s' → members.Nodup →
      ∀ i (h : i < members.length), s'.on members[i] = value.testBit (j + i)
  | [], _, _, _, _, _, i, h => absurd h (Nat.not_lt_zero i)
  | q :: members, j, s, s', h, hnd, i, hi => by
      unfold loadMembers at h
      split_ifs at h with hj
      obtain ⟨s1, h1, h⟩ := Option.bind_eq_some_iff.mp h
      obtain ⟨hq, hnd⟩ := List.nodup_cons.mp hnd
      cases i with
      | zero =>
        rw [List.getElem_cons_zero, loadMembers_other h hq, State.on_writeQubit h1, if_pos rfl,
          Nat.add_zero]
      | succ i =>
        rw [List.getElem_cons_succ, loadMembers_spec h hnd i (Nat.lt_of_succ_lt_succ hi),
          Nat.add_assoc, Nat.add_comm 1 i]

/-- The loaded register holds the value. -/
theorem regValue_loadMembers {value : ℕ} (h : loadMembers value 0 members s = some s')
    (hnd : members.Nodup) (hv : value < 2 ^ members.length) : regValue s' members = value := by
  rw [regValue_eq_iff hv]
  intro j hj
  rw [loadMembers_spec h hnd j hj, Nat.zero_add]

/-! ## 2. Reading -/

theorem readMembers_eq : ∀ {members : List ℕ} {j acc v : ℕ},
    readMembers s j members acc = some v → acc < 2 ^ j → v = acc + 2 ^ j * regValue s members
  | [], j, acc, v, h, _ => by
      cases h
      simp
  | q :: members, j, acc, v, h, hacc => by
      obtain ⟨b, hb, h⟩ := Option.bind_eq_some_iff.mp h
      rw [regValue_cons, State.readQubit_eq hb]
      cases b with
      | true =>
        rw [if_pos rfl] at h
        split_ifs at h with hj
        rw [Nat.one_shiftLeft, Nat.or_two_pow_eq_add_of_lt hacc] at h
        rw [readMembers_eq h (by rw [pow_succ]; omega), pow_succ, Bool.toNat_true]
        ring
      | false =>
        rw [if_neg Bool.false_ne_true] at h
        rw [readMembers_eq h (by rw [pow_succ]; omega), pow_succ, Bool.toNat_false]
        ring

/-- **A read returns the register's value.** -/
theorem readMembers_zero {v : ℕ} (h : readMembers s 0 members 0 = some v) :
    v = regValue s members := by
  rw [readMembers_eq h (by decide), Nat.zero_add, pow_zero, Nat.one_mul]

end Registers

end GroverTax.Kickmix
