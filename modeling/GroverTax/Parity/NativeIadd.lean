/-
  File:      GroverTax/Parity/NativeIadd.lean
  Subject:   The native iadd256 program and the Python oracle on one fixture.

  The native program adds integers and reads the first 32 bytes of the expected state, the oracle
  replays the stored circuit on the whole state. On a circuit that adds, `native_agree` adds to each
  side what only the other one reads.
-/
import GroverTax.Gtv1.Adder
import GroverTax.NativeAir.Fixture

namespace GroverTax.Parity

open GroverTax.Lib GroverTax.Gtv1

/-! ## 1. The fixture -/

/-- The circuit adds the upper register to the lower one, on every state. -/
def Adds (circuit : List Gate) : Prop :=
  ∀ x : List UInt8, x.length = 64 → Python.run circuit x =
    .ok (registers ((leNat (x.take 32) + leNat (x.drop 32)) % 2 ^ 256) (leNat (x.drop 32)))

/-- One case, as the oracle and as the native program load it. -/
structure SameCase (p : Python.IaddCase) (n : NativeAir.TestCase) : Prop where
  yHex : p.yHex = n.yHex.toList
  xHex : Python.fromHex p.xHex = some (registers n.r0In n.r1In)
  r0In : n.r0In < 2 ^ 256
  r1In : n.r1In < 2 ^ 256

/-- A fixture of an adder, as the two programs load it. -/
structure SameFixture (f : Python.IaddFixture) (k : ℕ) (cases : List NativeAir.TestCase) :
    Prop where
  circuit : ∃ bytes circuit, Python.fromHex f.circuitByteSerialisationHex = some bytes ∧
    Python.deserialise bytes = .ok circuit ∧ Adds circuit
  repetitions : f.repetitions.getD 1 = (k : ℤ)
  cases : List.Forall₂ SameCase f.testCases cases

/-- The expected state is 64 plain bytes, and its upper half is the addend. -/
def UpperHolds (n : NativeAir.TestCase) : Prop :=
  ∃ data : List UInt8, NativeAir.hexDecode n.yHex.toList = some (data.map UInt8.toNat) ∧
    data.length = 64 ∧ leNat (data.drop 32) = n.r1In

/-! ## 2. Repeated addition -/

section Repeated

variable {circuit : List Gate} {a b : ℕ}

theorem pow_bytes : (256 : ℕ) ^ 32 = 2 ^ 256 := by norm_num

theorem take_registers (a b : ℕ) : (registers a b).take 32 = bytesLe 32 a :=
  List.take_left' (length_bytesLe 32 a)

theorem drop_registers (a b : ℕ) : (registers a b).drop 32 = bytesLe 32 b :=
  List.drop_left' (length_bytesLe 32 a)

/-- A 64-byte string is its two registers. -/
theorem registers_leNat {data : List UInt8} (h : data.length = 64) :
    registers (leNat (data.take 32)) (leNat (data.drop 32)) = data := by
  have h1 : (data.take 32).length = 32 := by rw [List.length_take, h]; rfl
  have h2 : (data.drop 32).length = 32 := by rw [List.length_drop, h]
  have e1 := bytesLe_leNat (data.take 32)
  have e2 := bytesLe_leNat (data.drop 32)
  rw [h1] at e1
  rw [h2] at e2
  rw [registers, e1, e2, List.take_append_drop]

theorem run_registers (h : Adds circuit) (ha : a < 2 ^ 256) (hb : b < 2 ^ 256) :
    Python.run circuit (registers a b) = .ok (registers ((a + b) % 2 ^ 256) b) := by
  rw [← pow_bytes] at ha hb
  rw [h _ (length_registers a b), take_registers, drop_registers, leNat_bytesLe_of_lt ha,
    leNat_bytesLe_of_lt hb]

/-- **`k` repetitions add `k` times.** -/
theorem runReps_registers (h : Adds circuit) (hb : b < 2 ^ 256) (k : ℕ) (ha : a < 2 ^ 256) :
    Python.runReps circuit k (registers a b) = .ok (registers ((a + k * b) % 2 ^ 256) b) :=
  @Python.runReps_add circuit (fun a => registers a b) _ b (Nat.two_pow_pos 256)
    (fun _ ha => run_registers h ha hb) k a ha

end Repeated

/-! ## 3. The two checks -/

section Agreement

variable {f : Python.IaddFixture} {k : ℕ} {cases : List NativeAir.TestCase}
  {p : Python.IaddCase} {n : NativeAir.TestCase} {circuit : List Gate}

/-- One case: what the native program reads, and the rest of the state. -/
theorem honest_iff (h : SameCase p n) (hadd : Adds circuit) :
    (NativeAir.Honest k n ∧ UpperHolds n) ↔
      (∃ x y, p.Reads x y ∧ Python.runReps circuit k x = .ok y) ∧
        (NativeAir.hexDecode n.yHex.toList).isSome = true := by
  have hrun := runReps_registers hadd h.r1In k h.r0In
  have hlt : (n.r0In + k * n.r1In) % 2 ^ 256 < 2 ^ 256 := Nat.mod_lt _ (Nat.two_pow_pos 256)
  constructor
  · intro h'
    obtain ⟨hon, data, hdata, hlen, hup⟩ := h'
    obtain ⟨data', hpy, hmap⟩ := NativeAir.fromHex_of_hexDecode hdata
    obtain rfl : data = data' :=
      List.map_injective_iff.mpr (fun _ _ => UInt8.toNat_inj.mp) hmap
    have hlow := NativeAir.lowRegisterFromStateHex_eq hdata (hlen ▸ by decide)
    rw [NativeAir.Honest, hlow, Option.some.injEq] at hon
    refine ⟨⟨_, data, ⟨h.xHex, h.yHex ▸ hpy⟩, ?_⟩, by rw [hdata]; rfl⟩
    rw [hrun, ← hon, ← hup, registers_leNat hlen]
  · intro h'
    obtain ⟨⟨x, y, ⟨hx, hy⟩, hr⟩, hsome⟩ := h'
    cases hx.symm.trans h.xHex
    cases hr.symm.trans hrun
    obtain ⟨bytes, hbytes⟩ := Option.isSome_iff_exists.mp hsome
    obtain ⟨data, hpy, rfl⟩ := NativeAir.fromHex_of_hexDecode hbytes
    rw [h.yHex] at hy
    obtain rfl := Option.some.inj (hy.symm.trans hpy)
    have hlen := length_registers ((n.r0In + k * n.r1In) % 2 ^ 256) n.r1In
    refine ⟨?_, _, hbytes, hlen, ?_⟩
    · rw [NativeAir.Honest, NativeAir.lowRegisterFromStateHex_eq hbytes (hlen ▸ by decide),
        take_registers, leNat_bytesLe_of_lt (pow_bytes ▸ hlt)]
    · rw [drop_registers, leNat_bytesLe_of_lt (pow_bytes ▸ h.r1In)]

/-- The cases of both programs, one by one. -/
theorem forall_same {P : Python.IaddCase → Prop} {Q : NativeAir.TestCase → Prop}
    (hPQ : ∀ p n, SameCase p n → (P p ↔ Q n)) {ps : List Python.IaddCase}
    {ns : List NativeAir.TestCase} (h : List.Forall₂ SameCase ps ns) :
    (∀ p ∈ ps, P p) ↔ ∀ n ∈ ns, Q n := by
  induction h with
  | nil => exact iff_of_true (List.forall_mem_nil _) (List.forall_mem_nil _)
  | cons hpn _ ih => rw [List.forall_mem_cons, List.forall_mem_cons, hPQ _ _ hpn, ih]

/-- **The native program and the oracle agree** up to what only one of them reads: the native one
    does not look at the upper half of the expected state, the oracle also takes text with spaces
    in it. -/
theorem native_agree (f : Python.IaddFixture) (k : ℕ) (cases : List NativeAir.TestCase)
    (h : SameFixture f k cases) :
    (NativeAir.checkFixtureOutputs cases k = .ok () ∧ ∀ n ∈ cases, UpperHolds n) ↔
      (Python.verifyIaddFixture f = .ok () ∧
        ∀ n ∈ cases, (NativeAir.hexDecode n.yHex.toList).isSome = true) := by
  obtain ⟨bytes, circuit, hbytes, hcirc, hadd⟩ := h.circuit
  have hverify : Python.verifyIaddFixture f = .ok () ↔
      ∀ p ∈ f.testCases, ∃ x y, p.Reads x y ∧ Python.runReps circuit k x = .ok y := by
    rw [Python.verifyIaddFixture_eq_ok, h.repetitions, Int.toNat_natCast]
    constructor
    · intro h'
      obtain ⟨b, c, hb, hc, hall⟩ := h'
      cases hb.symm.trans hbytes
      cases hc.symm.trans hcirc
      exact hall
    · exact fun hall => ⟨bytes, circuit, hbytes, hcirc, hall⟩
  have hyHex : (∀ p ∈ f.testCases, (NativeAir.hexDecode p.yHex).isSome = true) ↔
      ∀ n ∈ cases, (NativeAir.hexDecode n.yHex.toList).isSome = true :=
    forall_same (fun p n hpn => by rw [hpn.yHex]) h.cases
  rw [NativeAir.checkFixtureOutputs_eq_ok, hverify, ← hyHex, ← forall₂_and,
    ← forall₂_and]
  exact (forall_same (fun p n hpn => by rw [honest_iff hpn hadd, hpn.yHex]) h.cases).symm

end Agreement

/-! ## 4. A fixture of an adder -/

/-- The adder's own circuit, one repetition, the registers 1 and 2, and any expected state. -/
def adderFixture (y : List UInt8) : Python.IaddFixture where
  circuitByteSerialisationHex := Python.hex (encode (adder 256))
  repetitions := some 1
  testCases := [⟨Python.hex (registers 1 2), Python.hex y⟩]

def adderCases (y : List UInt8) : List NativeAir.TestCase := [⟨1, 2, String.ofList (Python.hex y)⟩]

theorem adds_adder : Adds (adder 256) := by
  intro x hx
  have hlt : ∀ l : List UInt8, l.length = 32 → leNat l < 2 ^ 256 := by
    intro l hl
    have := leNat_lt l
    rwa [hl, pow_bytes] at this
  obtain ⟨a, ha⟩ : ∃ a : BitVec 256, a.toNat = leNat (x.take 32) :=
    ⟨_, BitVec.toNat_ofNatLT _ (hlt (x.take 32) (by rw [List.length_take, hx]; rfl))⟩
  obtain ⟨b, hb⟩ : ∃ b : BitVec 256, b.toNat = leNat (x.drop 32) :=
    ⟨_, BitVec.toNat_ofNatLT _ (hlt (x.drop 32) (by rw [List.length_drop, hx]))⟩
  have hin : wires x = join 256 a.getLsbD b.getLsbD := by
    rw [← wires_registers, ha, hb, registers_leNat hx]
  refine Python.run_ok_iff.mpr ⟨fun g hg => ?_, ?_, ?_⟩
  · rw [hx]
    exact (plain_adder (Nat.le_of_ble_eq_true rfl) hg).inRange
  · rw [hx, length_registers]
  · rw [hin, simulate_adder a b (Nat.le_of_ble_eq_true rfl), ← ha, ← hb, ← BitVec.toNat_add,
      wires_registers]

theorem deserialise_adder {n : ℕ} (hn : 2 ≤ n) (hfit : 2 * n ≤ 2 ^ 16) :
    Python.deserialise (encode (adder n)) = .ok (adder n) := by
  have hlen := length_adder n
  exact Python.deserialise_encode (by omega) fun g hg => (plain_adder hn hg).fits hfit

theorem sameFixture_adder (y : List UInt8) : SameFixture (adderFixture y) 1 (adderCases y) where
  circuit := ⟨_, _, Python.fromHex_hex _, deserialise_adder (by decide) (by decide), adds_adder⟩
  repetitions := rfl
  cases := List.Forall₂.cons ⟨String.toList_ofList.symm, Python.fromHex_hex _,
    show 1 < 2 ^ 256 by norm_num, show 2 < 2 ^ 256 by norm_num⟩ List.Forall₂.nil

theorem native_agree_adder : NativeAir.checkFixtureOutputs (adderCases (registers 3 2)) 1 = .ok () ∧
    (∀ n ∈ adderCases (registers 3 2), UpperHolds n) ↔
      Python.verifyIaddFixture (adderFixture (registers 3 2)) = .ok () ∧
        ∀ n ∈ adderCases (registers 3 2), (NativeAir.hexDecode n.yHex.toList).isSome = true :=
  native_agree _ _ _ (sameFixture_adder _)

/-- **Half a state** passes the native check only. -/
theorem half_state_splits :
    SameFixture (adderFixture (bytesLe 32 3)) 1 (adderCases (bytesLe 32 3)) ∧
      NativeAir.checkFixtureOutputs (adderCases (bytesLe 32 3)) 1 = .ok () ∧
      Python.verifyIaddFixture (adderFixture (bytesLe 32 3)) ≠ .ok () := by
  refine ⟨sameFixture_adder _, by decide, fun h => ?_⟩
  obtain ⟨-, circuit, -, -, hall⟩ := Python.verifyIaddFixture_eq_ok.mp h
  obtain ⟨x, y, ⟨hx, hy⟩, hrun⟩ := hall _ List.mem_cons_self
  obtain rfl := Option.some.inj (hx.symm.trans (Python.fromHex_hex _))
  obtain rfl := Option.some.inj (hy.symm.trans (Python.fromHex_hex _))
  obtain ⟨-, hlen, -⟩ := Python.runReps_eq_ok.mp hrun
  rw [length_registers, length_bytesLe] at hlen
  cases hlen

end GroverTax.Parity
