/-
  File:      GroverTax/Cairo/Registers.lean
  Subject:   `load_register` and `read_register` of src/stwo-side/cairo/src/kickmix.cairo.

  A `u256` is a natural number below `2 ^ 256` whose arithmetic is checked.

  * `run_loadRound` -- the load is total and leaves the members the value modulo `2 ^ length`;
  * `run_readRound`, `run_readRound_eq_none` -- the read returns what the members hold, but its
    power of two is doubled behind the last member too, so it panics from 256 members on;
  * `roundTrips_iff` -- **the two are inverse exactly on at most 255 members.**
-/
import GroverTax.Cairo.Kickmix

namespace GroverTax.Cairo.Kickmix

open GroverTax.Lib

/-! ## 1. The source -/

/-- One round of the loop of `load_register`; the number is what is left of the value. -/
def loadRound (sv : State × ℕ) (q : ℕ) : Option (State × ℕ) := do
  let bit ← tryInto 8 (sv.2 % 2)
  return (sv.1.insertQ q bit, sv.2 / 2)

def loadRegister (s : State) (members : List ℕ) (value : ℕ) : Option State :=
  (Lib.run loadRound (s, value) members).map Prod.fst

/-- One round of the loop of `read_register`: the sum so far, and the power of two of the member. -/
def readRound (s : State) (ap : ℕ × ℕ) (q : ℕ) : Option (ℕ × ℕ) := do
  let acc ← if s.getQ q = 1 then checkedAdd 256 ap.1 ap.2 else some ap.1
  let pow ← checkedMul 256 ap.2 2
  return (acc, pow)

def readRegister (s : State) (members : List ℕ) : Option ℕ :=
  (Lib.run (readRound s) (0, 1) members).map Prod.fst

/-- The number the members hold, member `0` the least significant. -/
def heldValue (s : State) : List ℕ → ℕ
  | [] => 0
  | q :: members => (if s.getQ q = 1 then 1 else 0) + 2 * heldValue s members

/-- A read returns what was loaded, as far as it fits, and no other qubit changed. -/
def RoundTrips (s : State) (members : List ℕ) (value : ℕ) : Prop :=
  ∃ s', loadRegister s members value = some s' ∧
    readRegister s' members = some (value % 2 ^ members.length) ∧
    ∀ q, q ∉ members → s'.getQ q = s.getQ q

/-! ## 2. Loading -/

section Load

variable {s s' : State}

theorem loadRound_eq (s : State) (v q : ℕ) :
    loadRound (s, v) q = some (s.insertQ q (v % 2), v / 2) := by
  unfold loadRound
  rw [tryInto_of_lt (show v % 2 < 2 ^ 8 by omega)]
  rfl

theorem getQ_insertQ (s : State) (q v p : ℕ) :
    (s.insertQ q v).getQ p = if p = q then v else s.getQ p :=
  Function.update_apply s.qubits q v p

/-- **A load never panics and changes only the members.** -/
theorem run_loadRound : ∀ (members : List ℕ) (s : State) (v : ℕ),
    ∃ s' rest, Lib.run loadRound (s, v) members = some (s', rest) ∧
      (∀ q, q ∉ members → s'.getQ q = s.getQ q) ∧
      (members.Nodup → heldValue s' members = v % 2 ^ members.length)
  | [], s, v => ⟨s, v, rfl, fun _ _ => rfl, fun _ => (Nat.mod_one v).symm⟩
  | q :: members, s, v => by
      obtain ⟨s', rest, hrun, hother, hheld⟩ :=
        run_loadRound members (s.insertQ q (v % 2)) (v / 2)
      refine ⟨s', rest, run_cons_some.mpr ⟨_, loadRound_eq s v q, hrun⟩, ?_, ?_⟩
      · intro p hp
        rw [List.mem_cons, not_or] at hp
        rw [hother p hp.2, getQ_insertQ, if_neg hp.1]
      · intro hnd
        obtain ⟨hq, hnd⟩ := List.nodup_cons.mp hnd
        have hbit : (if s'.getQ q = 1 then 1 else 0) = v % 2 := by
          rw [hother q hq, getQ_insertQ, if_pos rfl]
          split_ifs <;> omega
        rw [heldValue, hheld hnd, hbit, List.length_cons, pow_succ', Nat.mod_mul]

end Load

/-! ## 3. Reading -/

section Read

variable {s : State}

theorem readRound_of_lt {j acc q : ℕ} (hj : j < 255) (hacc : acc < 2 ^ j) :
    readRound s (acc, 2 ^ j) q =
      some (acc + 2 ^ j * (if s.getQ q = 1 then 1 else 0), 2 ^ (j + 1)) := by
  have hlt : 2 ^ (j + 1) < 2 ^ 256 := Nat.pow_lt_pow_right (by decide) (by omega)
  have hmul : checkedMul 256 (2 ^ j) 2 = some (2 ^ (j + 1)) := checkedMul_of_lt hlt
  unfold readRound
  rw [hmul]
  split_ifs with hq
  · rw [checkedAdd_of_lt (by rw [pow_succ] at hlt; omega), Nat.mul_one]
    rfl
  · rfl

/-- At member 255 the power of two leaves the range, whatever the member holds. -/
theorem readRound_last (acc q : ℕ) : readRound s (acc, 2 ^ 255) q = none := by
  have hmul : checkedMul 256 (2 ^ 255) 2 = none := if_neg (by rw [← pow_succ]; exact lt_irrefl _)
  unfold readRound
  rw [hmul]
  split_ifs
  · cases checkedAdd 256 acc (2 ^ 255) <;> rfl
  · rfl

/-- **A read of at most 255 members returns what they hold.** -/
theorem run_readRound : ∀ {members : List ℕ} {j acc : ℕ}, j + members.length ≤ 255 → acc < 2 ^ j →
    Lib.run (readRound s) (acc, 2 ^ j) members =
      some (acc + 2 ^ j * heldValue s members, 2 ^ (j + members.length))
  | [], _, _, _, _ => rfl
  | q :: members, j, acc, hlen, hacc => by
      rw [List.length_cons] at hlen
      have hacc' : acc + 2 ^ j * (if s.getQ q = 1 then 1 else 0) < 2 ^ (j + 1) := by
        rw [pow_succ]
        split_ifs <;> omega
      rw [run_cons, readRound_of_lt (by omega) hacc, Option.bind_some,
        run_readRound (by omega) hacc', heldValue, List.length_cons, Nat.mul_add, pow_succ,
        Nat.mul_assoc, Nat.add_assoc acc, Nat.add_assoc j, Nat.add_comm 1]

/-- **A read of 256 members or more panics.** -/
theorem run_readRound_eq_none : ∀ {members : List ℕ} {j acc : ℕ}, j ≤ 255 →
    256 ≤ j + members.length → acc < 2 ^ j → Lib.run (readRound s) (acc, 2 ^ j) members = none
  | [], j, _, hj, hlen, _ => by
      rw [List.length_nil] at hlen
      omega
  | q :: members, j, acc, hj, hlen, hacc => by
      rw [List.length_cons] at hlen
      rw [run_cons]
      obtain rfl | hlt := hj.eq_or_lt
      · rw [readRound_last, Option.bind_none]
      · have hacc' : acc + 2 ^ j * (if s.getQ q = 1 then 1 else 0) < 2 ^ (j + 1) := by
          rw [pow_succ]
          split_ifs <;> omega
        rw [readRound_of_lt hlt hacc, Option.bind_some,
          run_readRound_eq_none (by omega) (by omega) hacc']

theorem readRegister_of_le {members : List ℕ} (h : members.length ≤ 255) :
    readRegister s members = some (heldValue s members) := by
  have hrun := @run_readRound s members 0 0 (by omega) Nat.one_pos
  rw [pow_zero, Nat.one_mul, Nat.zero_add] at hrun
  rw [readRegister, hrun]
  rfl

theorem readRegister_eq_none {members : List ℕ} (h : 256 ≤ members.length) :
    readRegister s members = none := by
  have hrun := @run_readRound_eq_none s members 0 0 (by decide)
    (by omega) Nat.one_pos
  rw [pow_zero] at hrun
  rw [readRegister, hrun]
  rfl

end Read

/-! ## 4. The round trip -/

section RoundTrip

variable {s : State} {members : List ℕ} {value : ℕ}

theorem not_roundTrips (h : 256 ≤ members.length) : ¬ RoundTrips s members value := by
  intro h'
  obtain ⟨s', -, hread, -⟩ := h'
  rw [readRegister_eq_none h] at hread
  cases hread

/-- **On at most 256 distinct members a read returns the loaded value exactly when there are not
    256 of them.** -/
theorem roundTrips_iff (hnd : members.Nodup) (hlen : members.length ≤ 256) :
    RoundTrips s members value ↔ members.length ≠ 256 := by
  constructor
  · intro h e
    exact not_roundTrips e.ge h
  · intro hne
    obtain ⟨s', rest, hrun, hother, hheld⟩ := run_loadRound members s value
    refine ⟨s', ?_, ?_, hother⟩
    · rw [loadRegister, hrun]
      rfl
    · rw [readRegister_of_le (by omega), hheld hnd]

theorem roundTrips_iff_pair : RoundTrips newState [4, 2] 7 ↔ [4, 2].length ≠ 256 :=
  roundTrips_iff (by decide) (by decide)

/-- 256 distinct qubits: the read panics on every value, `0` included. -/
theorem wide_register_panics : (List.range 256).Nodup ∧ (List.range 256).length = 256 ∧
    ¬ RoundTrips newState (List.range 256) 0 :=
  ⟨List.nodup_range, List.length_range, not_roundTrips List.length_range.ge⟩

end RoundTrip

end GroverTax.Cairo.Kickmix
