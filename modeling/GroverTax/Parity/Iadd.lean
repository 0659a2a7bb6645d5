/-
  File:      GroverTax/Parity/Iadd.lean
  Subject:   The Cairo iadd executable and the Python oracle on one fixture.

  The executable always has 512 wires and insists on the sentinel in every ignored slot; the oracle
  has the `8 * n_sb` wires of the fixture and does not look at ignored slots. `iadd_agree` adds to
  each side what only the other one checks.
-/
import GroverTax.Cairo.Canonical
import GroverTax.Cairo.Program
import GroverTax.Python.Fixture

namespace GroverTax.Parity

open GroverTax.Lib GroverTax.Gtv1 GroverTax.Cairo

/-- The fixture says `bytes`, `k` and `cases`, in hexadecimal. -/
structure Denotes (f : Python.IaddFixture) (bytes : List UInt8) (k : ℕ)
    (cases : List (List UInt8 × List UInt8)) : Prop where
  circuit : Python.fromHex f.circuitByteSerialisationHex = some bytes
  repetitions : f.repetitions = some (k : ℤ)
  cases : List.Forall₂ (fun (c : Python.IaddCase) p => c.Reads p.1 p.2) f.testCases cases

section Agreement

variable {f : Python.IaddFixture} {bytes : List UInt8} {k : ℕ}
  {cases : List (List UInt8 × List UInt8)}

/-- The cases of a fixture, read once. -/
theorem forall_reads {P : List UInt8 → List UInt8 → Prop} {cs : List Python.IaddCase}
    (h : List.Forall₂ (fun (c : Python.IaddCase) p => c.Reads p.1 p.2) cs cases) :
    (∀ c ∈ cs, ∃ x y, c.Reads x y ∧ P x y) ↔ ∀ p ∈ cases, P p.1 p.2 := by
  induction h with
  | nil => exact iff_of_true (List.forall_mem_nil _) (List.forall_mem_nil _)
  | @cons c p cs cases hc _ ih =>
    rw [List.forall_mem_cons, List.forall_mem_cons, ih]
    refine and_congr_left fun _ => ⟨?_, fun hP => ⟨p.1, p.2, hc, hP⟩⟩
    intro h'
    obtain ⟨x, y, ⟨hx, hy⟩, hP⟩ := h'
    obtain rfl : x = p.1 := Option.some.inj (hx.symm.trans hc.1)
    obtain rfl : y = p.2 := Option.some.inj (hy.symm.trans hc.2)
    exact hP

/-- The oracle on a fixture that denotes a circuit, a count and cases. -/
theorem verify_iff (h : Denotes f bytes k cases) : Python.verifyIaddFixture f = .ok () ↔
    ∃ circuit, Python.deserialise bytes = .ok circuit ∧
      ∀ p ∈ cases, Python.runReps circuit k p.1 = .ok p.2 := by
  rw [Python.verifyIaddFixture_eq_ok, h.repetitions, Option.getD_some, Int.toNat_natCast]
  constructor
  · intro h'
    obtain ⟨b, circuit, hb, hc, hall⟩ := h'
    cases hb.symm.trans h.circuit
    exact ⟨circuit, hc, (forall_reads (P := fun x y => Python.runReps circuit k x = .ok y)
      h.cases).mp hall⟩
  · intro h'
    obtain ⟨circuit, hc, hall⟩ := h'
    exact ⟨bytes, circuit, h.circuit, hc, (forall_reads
      (P := fun x y => Python.runReps circuit k x = .ok y) h.cases).mpr hall⟩

/-- What both sides check: the frame, the length and the padding, the wires and the outputs. -/
structure IaddAccepted (bytes : List UInt8) (k nSb : ℕ) (cases : List (List UInt8 × List UInt8)) :
    Prop where
  framed : Framed bytes
  exact : bytes.length = declaredLength bytes
  padding : PadsZero bytes
  inRange : ∀ g ∈ gatesOf bytes, g.InRange (8 * nSb)
  outputs : ∀ p ∈ cases, wires p.2 = (simulate (gatesOf bytes))^[k] (wires p.1)

theorem verify_iff_accepted {nSb : ℕ} (h : Denotes f bytes k cases) (hk : 1 ≤ k) (hne : cases ≠ [])
    (hs : ∀ p ∈ cases, p.1.length = nSb ∧ p.2.length = nSb) :
    Python.verifyIaddFixture f = .ok () ↔ IaddAccepted bytes k nSb cases := by
  obtain ⟨q, hq⟩ := List.exists_mem_of_ne_nil cases hne
  have hk0 : k ≠ 0 := by omega
  have hrun : ∀ p ∈ cases, Python.runReps (gatesOf bytes) k p.1 = .ok p.2 ↔
      (∀ g ∈ gatesOf bytes, g.InRange (8 * nSb)) ∧
        wires p.2 = (simulate (gatesOf bytes))^[k] (wires p.1) := by
    intro p hp
    obtain ⟨hx, hy⟩ := hs p hp
    rw [Python.runReps_eq_ok, hx, hy]
    exact and_congr ⟨fun h => h hk0, fun h _ => h⟩ (and_iff_right rfl)
  rw [verify_iff h]
  constructor
  · intro h'
    obtain ⟨_, hc, hall⟩ := h'
    obtain ⟨⟨hf, hlen⟩, hpad, -, rfl⟩ := Python.deserialise_eq_ok.mp hc
    exact ⟨hf, hlen, hpad, ((hrun q hq).mp (hall q hq)).1,
      fun p hp => ((hrun p hp).mp (hall p hp)).2⟩
  · intro h'
    obtain ⟨hf, hlen, hpad, hr, ho⟩ := h'
    exact ⟨gatesOf bytes, Python.deserialise_eq_ok.mpr ⟨⟨hf, hlen⟩, hpad,
      fun g hg => (hr g hg).opcode, rfl⟩, fun p hp => (hrun p hp).mpr ⟨hr, ho p hp⟩⟩

/-- **The executable and the oracle agree** up to what only one of them checks. -/
theorem iadd_agree (f : Python.IaddFixture) (bytes : List UInt8) (k nSb : ℕ)
    (cases : List (List UInt8 × List UInt8)) (hf : Denotes f bytes k cases)
    (hk : 1 ≤ k ∧ k < 2 ^ 32) (hsb : 1 ≤ nSb ∧ nSb ≤ 64) (hne : cases ≠ [])
    (hs : ∀ p ∈ cases, p.1.length = nSb ∧ p.2.length = nSb) :
    ((∃ r, iaddExecutable (encodeInput bytes (commitmentOf bytes) [k, nSb] cases) = some r) ∧
      bytes.length = declaredLength bytes ∧ ∀ g ∈ gatesOf bytes, ∀ w ∈ g.used, w < 8 * nSb) ↔
    (Python.verifyIaddFixture f = .ok () ∧ (∀ g ∈ gatesOf bytes, g.Canonical) ∧
      bytes.length < 2 ^ 32 ∧ cases.length < 2 ^ 32) := by
  rw [iadd_isSome hs, verify_iff_accepted hf hk.1 hne hs]
  constructor
  · intro h
    obtain ⟨⟨⟨hlen, hfr, hpad⟩, ⟨-, -, hn⟩, hg, ho⟩, hexact, hw⟩ := h
    exact ⟨⟨hfr, hexact, hpad, fun g hm => ⟨(hg g hm).1.opcode, hw g hm⟩, ho⟩,
      fun g hm => (hg g hm).2, hlen, hn⟩
  · intro h
    obtain ⟨⟨hfr, hexact, hpad, hr, ho⟩, hc, hlen, hn⟩ := h
    have h512 : 8 * nSb ≤ BITS_PER_VALUE_512 := by
      unfold BITS_PER_VALUE_512
      omega
    exact ⟨⟨⟨hlen, hfr, hpad⟩, ⟨hk, hsb.2, hn⟩, fun g hm => ⟨(hr g hm).mono h512, hc g hm⟩, ho⟩,
      hexact, fun g hm => (hr g hm).wires⟩

end Agreement

/-! ## One byte of state -/

/-- `CNOT` of wire `0`, controlled by wire `8`, which a state of one byte does not have. -/
def farControl : Gate := ⟨OP_CNOT, 0, 8, NO_CTRL⟩

def farBytes : List UInt8 := [71, 84, 86, 49, 1, 0, 0, 0, 2, 0, 0, 0, 8, 0, 255, 255]

/-- The fixture of a circuit on one byte, once, with one case. -/
def oneByteFixture (circuitHex xHex yHex : String) : Python.IaddFixture :=
  ⟨circuitHex.toList, some 1, [⟨xHex.toList, yHex.toList⟩]⟩

/-- **The executable completes, the oracle raises an IndexError.** -/
theorem far_control_splits :
    (∃ r, iaddExecutable (encodeInput farBytes (commitmentOf farBytes) [1, 1] [([0], [0])]) =
      some r) ∧
    Python.verifyIaddFixture (oneByteFixture "4754563101000000020000000800ffff" "00" "00") =
      .error (.sim (.getIndex 8 8)) := by
  refine ⟨(iadd_isSome (by decide)).mpr ⟨⟨by decide, ⟨by decide, by decide⟩, ?_⟩, by decide,
    by decide, ?_⟩, by decide⟩
  · unfold PadsZero
    decide
  · rw [List.forall_mem_singleton]
    have hg : gatesOf farBytes = [farControl] := by decide
    have hc : farControl.controls.all (wires [0]) = false := by decide
    rw [hg, Function.iterate_one]
    show wires [0] = farControl.apply (wires [0])
    rw [Gate.apply_of_ne (by decide), hc, Bool.xor_false, Function.update_eq_self]

theorem denotes_oneNot : Denotes
    (oneByteFixture "475456310100000001000000ffffffff" "00" "01") notBytes 1 [([0], [1])] :=
  ⟨by decide, rfl, .cons ⟨by decide, by decide⟩ .nil⟩

/-- One `NOT`, once, on one byte: the oracle accepts, and so the executable completes. -/
theorem iadd_agree_oneNot :
    ∃ r, iaddExecutable (encodeInput notBytes (commitmentOf notBytes) [1, 1] [([0], [1])]) =
      some r :=
  ((iadd_agree _ notBytes 1 1 [([0], [1])] denotes_oneNot (by decide) (by decide) (by decide)
    (by decide)).mpr ⟨by decide, by decide, by decide, by decide⟩).1

end GroverTax.Parity
