/-
  File:      GroverTax/Cairo/Canonical.lean
  Subject:   The Cairo codec against the Python one, on the strings the prover accepts.

  Both decoders read the same gates; only the Python one compares the length with the header. So
  a string the prover accepts is the encoding of its gates exactly when nothing follows the last
  record: `canonical_iff`.
-/
import GroverTax.Cairo.Gates
import GroverTax.Cairo.Serialise
import GroverTax.Python.Serialise

namespace GroverTax.Cairo

open GroverTax.Lib GroverTax.Gtv1

/-- **An accepted string is canonical exactly when it has the declared length.** -/
theorem canonical_iff (bytes : List UInt8) (gates : List Gate) (h : deserialise bytes = some gates)
    (hr : ∀ g ∈ gates, rangeCheckGate g = some ()) :
    (canonicalSerialise gates = some bytes ∧ Python.deserialise bytes = .ok gates) ↔
      bytes.length = declaredLength bytes := by
  obtain ⟨⟨hf, -⟩, hp, rfl⟩ := deserialise_eq_some.mp h
  rw [canonicalSerialise_eq, Python.deserialise_eq_ok]
  constructor
  · intro h'
    obtain ⟨-, ⟨-, hlen⟩, -⟩ := h'
    exact hlen
  · intro hlen
    have hop : ∀ g ∈ gatesOf bytes, g.opcode ≤ OP_TOFFOLI :=
      fun g hg => ((checkGate_eq_some (by decide)).mp (hr g hg)).1.opcode
    exact ⟨congrArg some (encode_gatesOf hf hlen hp), ⟨hf, hlen⟩, hp, hop, rfl⟩

/-- The encoding of one `NOT`. -/
def notBytes : List UInt8 := [71, 84, 86, 49, 1, 0, 0, 0, 1, 0, 0, 0, 255, 255, 255, 255]

def notGate : Gate := ⟨OP_NOT, 0, NO_CTRL, NO_CTRL⟩

theorem canonical_notBytes :
    canonicalSerialise [notGate] = some notBytes ∧ Python.deserialise notBytes = .ok [notGate] :=
  (canonical_iff notBytes [notGate] (by decide) (by decide)).mpr (by decide)

/-- **One byte more**, and the prover still reads the same gates. -/
theorem trailing_byte_accepted :
    deserialise (notBytes ++ [0]) = some [notGate] ∧ rangeCheckGate notGate = some () ∧
      canonicalSerialise [notGate] ≠ some (notBytes ++ [0]) ∧
      Python.deserialise (notBytes ++ [0]) = .error (.lengthMismatch 1 16 17) := by
  refine ⟨by decide, by decide, by decide, by decide⟩

end GroverTax.Cairo
