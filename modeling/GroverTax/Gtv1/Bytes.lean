/-
  File:      GroverTax/Gtv1/Bytes.lean
  Subject:   A state of `8 * n` wires kept in `n` bytes: wire `i` is bit `i % 8` of byte `i / 8`.

  * `wires` -- a byte string read as a state; `bytes_ext` says that nothing is lost;
  * `wires_writeWire` -- writing one bit of one byte writes one wire;
  * `Gate.applyBytes` -- a gate on bytes; a machine whose step it is refines `simulate`.
-/
import GroverTax.Gtv1.Gate
import GroverTax.Lib.Run

namespace GroverTax.Gtv1

open GroverTax.Lib

/-- **A byte string as a state.** -/
def wires (bytes : List UInt8) (i : ℕ) : Bool := (bytes.getD (i / 8) 0).toNat.testBit (i % 8)

/-- One bit of one byte written. -/
def writeWire (bytes : List UInt8) (i : ℕ) (v : Bool) : List UInt8 :=
  bytes.set (i / 8) (writeByteBit (bytes.getD (i / 8) 0) (i % 8) v)

section Bytes

variable {bytes bytes' : List UInt8} {i : ℕ}

theorem wires_of_lt (h : i < 8 * bytes.length) :
    wires bytes i = (bytes.get ⟨i / 8, by omega⟩).toNat.testBit (i % 8) := by
  rw [wires, List.getD_eq_getElem _ _ (by omega)]
  rfl

theorem wires_mem_states (bytes : List UInt8) : wires bytes ∈ states (8 * bytes.length) := by
  intro i hi
  by_contra hn
  have hn : ¬ i < 8 * bytes.length := hn
  rw [wires, List.getD_eq_default _ _ (by omega)] at hi
  simp at hi

/-- **Equal states of equal length are equal bytes.** -/
theorem bytes_ext (hlen : bytes.length = bytes'.length) (h : wires bytes = wires bytes') :
    bytes = bytes' := by
  refine List.ext_getElem hlen fun j h1 h2 => UInt8.eq_of_testBit fun k hk => ?_
  have e := congrFun h (8 * j + k)
  rw [wires, wires, show (8 * j + k) / 8 = j by omega, show (8 * j + k) % 8 = k by omega,
    List.getD_eq_getElem _ _ h1, List.getD_eq_getElem _ _ h2] at e
  exact e

/-- **Writing one bit writes one wire.** -/
theorem wires_writeWire (h : i < 8 * bytes.length) (v : Bool) :
    wires (writeWire bytes i v) = Function.update (wires bytes) i v := by
  have hlt : i / 8 < bytes.length := by omega
  funext j
  rw [wires, writeWire, List.getD_eq_getElem?_getD, List.getElem?_set]
  by_cases hij : i / 8 = j / 8
  · rw [if_pos hij, if_pos hlt, Option.getD_some, testBit_writeByteBit _ (Nat.mod_lt _ (by decide))]
    by_cases he : j = i
    · rw [he, if_pos rfl, Function.update_self]
    · rw [if_neg (by omega), Function.update_of_ne he, wires, hij]
  · rw [if_neg hij, ← List.getD_eq_getElem?_getD, Function.update_of_ne (by rintro rfl; exact hij rfl)]
    rfl

/-! ## Gates on bytes -/

/-- A gate reads its wires and writes its target. -/
def Gate.applyBytes (g : Gate) (bytes : List UInt8) : List UInt8 :=
  if g.opcode = OP_NOP then bytes
  else writeWire bytes g.target (wires bytes g.target ^^ g.controls.all (wires bytes))

theorem Gate.applyBytes_of_ne {g : Gate} (h : g.opcode ≠ OP_NOP) (bytes : List UInt8) :
    g.applyBytes bytes =
      writeWire bytes g.target (wires bytes g.target ^^ g.controls.all (wires bytes)) := if_neg h

/-- The result of a step on bytes, spelt out for a gate that has a target. -/
theorem Gate.ite_inRange {g : Gate} (hne : g.opcode ≠ OP_NOP) (hle : g.opcode ≤ OP_TOFFOLI)
    (bytes : List UInt8) :
    (if g.InRange (8 * bytes.length) then some (g.applyBytes bytes) else none) =
      if g.target < 8 * bytes.length ∧ ∀ c ∈ g.controls, c < 8 * bytes.length then
        some (writeWire bytes g.target (wires bytes g.target ^^ g.controls.all (wires bytes)))
      else none :=
  if_congr (Gate.inRange_of_ne hne hle) (congrArg some (g.applyBytes_of_ne hne bytes)) rfl

@[simp] theorem Gate.length_applyBytes (g : Gate) (bytes : List UInt8) :
    (g.applyBytes bytes).length = bytes.length := by
  unfold Gate.applyBytes
  split_ifs
  · rfl
  · exact List.length_set

theorem Gate.wires_applyBytes {g : Gate} (h : g.InRange (8 * bytes.length)) :
    wires (g.applyBytes bytes) = g.apply (wires bytes) := by
  by_cases hnop : g.opcode = OP_NOP
  · rw [Gate.apply_nop hnop, Gate.applyBytes, if_pos hnop]
  · have ht := h.wires g.target (Gate.used_of_ne hnop ▸ List.mem_cons_self)
    rw [Gate.apply_of_ne hnop, Gate.applyBytes_of_ne hnop, wires_writeWire ht]

/-- **A machine whose step is a gate on bytes** refines the meaning of gate lists. -/
theorem refines_applyBytes {step : List UInt8 → Gate → Option (List UInt8)}
    (h : ∀ s g, step s g = if g.InRange (8 * s.length) then some (g.applyBytes s) else none)
    (n : ℕ) : Refines step (fun s => s.length = n) (fun g => g.InRange (8 * n)) wires
      (fun s g => g.apply s) where
  defined := by
    intro s g hs hg
    rw [← hs] at hg
    exact ⟨_, (h s g).trans (if_pos hg), (g.length_applyBytes s).trans hs,
      Gate.wires_applyBytes hg⟩
  valid := by
    intro s g s' hs hstep
    rw [h, hs] at hstep
    by_contra hn
    rw [if_neg hn] at hstep
    cases hstep

/-- **A run of such a machine.** -/
theorem run_applyBytes {step : List UInt8 → Gate → Option (List UInt8)}
    (h : ∀ s g, step s g = if g.InRange (8 * s.length) then some (g.applyBytes s) else none)
    {gates : List Gate} : run step bytes gates = some bytes' ↔
      (∀ g ∈ gates, g.InRange (8 * bytes.length)) ∧ bytes'.length = bytes.length ∧
        wires bytes' = simulate gates (wires bytes) :=
  (refines_applyBytes h bytes.length).run_eq_some rfl
    fun hs ht e => bytes_ext (hs.trans ht.symm) e

/-- Gates in range have an output of the same length. -/
theorem exists_simulate {gates : List Gate} (bytes : List UInt8)
    (h : ∀ g ∈ gates, g.InRange (8 * bytes.length)) :
    ∃ out : List UInt8, out.length = bytes.length ∧ wires out = simulate gates (wires bytes) := by
  have hstep : ∀ (s : List UInt8) (g : Gate),
      (fun s g => if g.InRange (8 * s.length) then some (g.applyBytes s) else none : _ → _ → _) s g =
        if g.InRange (8 * s.length) then some (g.applyBytes s) else none := fun _ _ => rfl
  obtain ⟨out, -, hlen, hw⟩ := (refines_applyBytes hstep bytes.length).run_defined rfl h
  exact ⟨out, hlen, hw⟩

end Bytes

end GroverTax.Gtv1
