/-
  File:      GroverTax/Sp1/Host.lean
  Subject:   The two programs around the SP1 guest: src/third_party/sp1/prover/prove.rs, which writes
             its stdin, and src/third_party/sp1/verifier/verifier.rs, which reads what it commits.

  * `proveStdin` -- the stdin, from a fixture;
  * `verify` -- the checks of the verifier on the public values of a proof;
  * **`verified_iff`** -- **what a verified proof says of a fixture**: the circuit, its hash and the
    number of the cases; of the cases themselves it says nothing.

  The proof system is a parameter: a proof that `client.verify` accepts is the public values of a
  run of the guest, one that it rejects is `none`.
-/
import GroverTax.Lib.LittleEndian
import GroverTax.NativeAir.Limbs
import GroverTax.Sp1.Program

namespace GroverTax.Sp1

open GroverTax.Lib GroverTax.Gtv1

/-! ## 1. The prover -/

/-- `hex::decode`. -/
def hexDecode (text : List Char) : Option (List UInt8) :=
  (NativeAir.hexDecode text).map (List.map UInt8.ofNat)

structure TestCase where
  xHex : List Char
  yHex : List Char
  deriving DecidableEq, Repr

/-- The fields the prover reads. -/
structure Fixture where
  circuitByteSerialisationHex : List Char
  testCases : List TestCase
  deriving DecidableEq, Repr

inductive ProveError where
  /-- PROVER.WITNESS_REJECTED: invalid circuit hex: {e} -/
  | circuitHex
  /-- PROVER.WITNESS_REJECTED: invalid x_hex: {e} -/
  | xHex
  /-- PROVER.WITNESS_REJECTED: invalid y_hex: {e} -/
  | yHex
  /-- PROVER.WITNESS_REJECTED: x or y too short -/
  | tooShort
  deriving DecidableEq, Repr

/-- One turn of the loop over the cases. -/
def proveCase (tc : TestCase) : Except ProveError (List UInt8 × List UInt8) :=
  match hexDecode tc.xHex with
  | none => .error .xHex
  | some x =>
      match hexDecode tc.yHex with
      | none => .error .yHex
      | some y =>
          if x.length < 32 ∨ y.length < 32 then .error .tooShort
          else .ok (x.take 32, y.take 32)

/-- The circuit and the cases the guest reads from its stdin. -/
def proveStdin (fixture : Fixture) :
    Except ProveError (List UInt8 × List (List UInt8 × List UInt8)) :=
  match hexDecode fixture.circuitByteSerialisationHex with
  | none => .error .circuitHex
  | some circuitBytes => do
      let cases ← fixture.testCases.mapM proveCase
      return (circuitBytes, cases)

/-! ## 2. The verifier -/

/-- The fields the verifier reads. -/
structure VerifierFixture where
  circuitByteSerialisationHex : List Char
  circuitCommitmentSha256Hex : List Char
  nSamples : ℕ
  deriving DecidableEq, Repr

inductive VerifierError where
  /-- PROVER.VERIFIER_REJECTED: invalid circuit hex: {e} -/
  | circuitHex
  /-- PROVER.VERIFIER_REJECTED: verify failed: {e} -/
  | proof
  /-- PROVER.VERIFIER_REJECTED: fixture commitment_sha256_hex is malformed -/
  | commitmentHex
  /-- PROVER.VERIFIER_REJECTED: committed hash does not match SHA-256(circuit_bytes) -/
  | circuitHash
  /-- PROVER.VERIFIER_REJECTED: committed hash does not match fixture commitment -/
  | fixtureHash
  /-- PROVER.VERIFIER_REJECTED: committed n_cases ({committed_n}) != fixture n_samples ({}) -/
  | nCases (committed nSamples : ℕ)
  deriving DecidableEq, Repr

/-- The checks of `main`, `proof` being the public values of a proof that `client.verify` accepts. -/
def verify (sha256 : List UInt8 → List UInt8) (fixture : VerifierFixture)
    (proof : Option PublicValues) : Except VerifierError Unit :=
  match hexDecode fixture.circuitByteSerialisationHex with
  | none => .error .circuitHex
  | some circuitBytes =>
      let expectedCommitment := sha256 circuitBytes
      match proof with
      | none => .error .proof
      | some values =>
          match hexDecode fixture.circuitCommitmentSha256Hex with
          | none => .error .commitmentHex
          | some fixtureCommitment =>
              if fixtureCommitment.length ≠ 32 then .error .commitmentHex
              else if values.commitment ≠ expectedCommitment then .error .circuitHash
              else if values.commitment ≠ fixtureCommitment then .error .fixtureHash
              else if values.nCases ≠ fixture.nSamples then
                .error (.nCases values.nCases fixture.nSamples)
              else .ok ()

section Verifier

variable {sha256 : List UInt8 → List UInt8} {fixture : VerifierFixture} {values : PublicValues}

/-- **When the verifier accepts.** -/
theorem verify_eq_ok (hsha : ∀ data, (sha256 data).length = 32) :
    verify sha256 fixture (some values) = .ok () ↔
      ∃ circuitBytes, hexDecode fixture.circuitByteSerialisationHex = some circuitBytes ∧
        hexDecode fixture.circuitCommitmentSha256Hex = some (sha256 circuitBytes) ∧
        values = ⟨sha256 circuitBytes, fixture.nSamples⟩ := by
  unfold verify
  cases hc : hexDecode fixture.circuitByteSerialisationHex with
  | none => exact iff_of_false (fun h => by cases h) (fun ⟨_, h, _⟩ => by cases h)
  | some circuitBytes =>
    cases hf : hexDecode fixture.circuitCommitmentSha256Hex with
    | none => exact iff_of_false (fun h => by cases h) (fun ⟨_, _, h, _⟩ => by cases h)
    | some fixtureCommitment =>
      dsimp only
      constructor
      · intro h
        split_ifs at h with hlen hhash hfix hn
        refine ⟨circuitBytes, rfl, ?_, ?_⟩
        · rw [← not_not.mp hfix, not_not.mp hhash]
        · rw [← not_not.mp hhash, ← not_not.mp hn]
      · intro h
        obtain ⟨circuitBytes', h1, h2, rfl⟩ := h
        obtain rfl := Option.some.inj h1
        obtain rfl := Option.some.inj h2
        rw [if_neg (not_not.mpr (hsha _)), if_neg (not_not.mpr rfl), if_neg (not_not.mpr rfl),
          if_neg (not_not.mpr rfl)]

/-- What a completed run commits. -/
theorem main_eq_some {circuitBytes : List UInt8} {cases : List (List UInt8 × List UInt8)} :
    main sha256 circuitBytes cases = some values ↔
      (circuitBytes.take 4 = MAGIC ∧ circuitBytes.length = declaredLength circuitBytes) ∧
        (∀ p ∈ cases, simulate (gatesOf circuitBytes) p.1 = some p.2) ∧
        values = ⟨sha256 circuitBytes, cases.length⟩ := by
  have hvalues : ∀ {v}, main sha256 circuitBytes cases = some v →
      v = ⟨sha256 circuitBytes, cases.length⟩ := by
    intro v h
    obtain ⟨parsed, -, h⟩ := Option.bind_eq_some_iff.mp h
    cases parsed with
    | none => cases h
    | some gates =>
      obtain ⟨-, -, h⟩ := Option.bind_eq_some_iff.mp h
      exact (Option.some.inj h).symm
  constructor
  · intro h
    obtain ⟨hframe, hcases⟩ := main_isSome.mp ⟨values, h⟩
    exact ⟨hframe, hcases, hvalues h⟩
  · intro h
    obtain ⟨hframe, hcases, rfl⟩ := h
    obtain ⟨v, hv⟩ := (@main_isSome sha256 circuitBytes cases).mpr ⟨hframe, hcases⟩
    rw [hv, hvalues hv]

/-- Inputs in range have outputs that the guest accepts. -/
theorem exists_cases {gates : List Gate} : ∀ {xs : List (List UInt8)},
    (∀ x ∈ xs, x.length = 32) → (xs = [] ∨ ∀ g ∈ gates, g.InRange 256) →
      ∃ cases : List (List UInt8 × List UInt8), cases.map Prod.fst = xs ∧
        (∀ p ∈ cases, p.2.length = 32) ∧ ∀ p ∈ cases, simulate gates p.1 = some p.2
  | [], _, _ => ⟨[], rfl, List.forall_mem_nil _, List.forall_mem_nil _⟩
  | x :: xs, hxs, hgates => by
      obtain ⟨hx, hrest⟩ := List.forall_mem_cons.mp hxs
      have hrange := hgates.resolve_left (List.cons_ne_nil x xs)
      have hr : ∀ g ∈ gates, g.InRange (8 * x.length) := by rwa [hx]
      obtain ⟨y, hlen, hw⟩ := exists_simulate x hr
      obtain ⟨cases, hmap, hlens, hall⟩ := exists_cases hrest (.inr hrange)
      refine ⟨(x, y) :: cases, congrArg (x :: ·) hmap, List.forall_mem_cons.mpr ⟨hlen.trans hx, hlens⟩,
        List.forall_mem_cons.mpr ⟨simulate_eq_some.mpr ⟨hr, hlen, hw⟩, hall⟩⟩

/-- **What a verified proof says of a fixture**: whichever inputs the prover feeds to the guest,
    there are expected outputs for which the proof passes, exactly when the two hexadecimal fields
    are a circuit and its hash, some circuit of that hash has the frame of a circuit, and its gates
    are in range if there is any case. The cases of the fixture do not matter. -/
theorem verified_iff (sha256 : List UInt8 → List UInt8) (hsha : ∀ data, (sha256 data).length = 32)
    (fixture : VerifierFixture) (xs : List (List UInt8)) (hcount : xs.length = fixture.nSamples)
    (hxs : ∀ x ∈ xs, x.length = 32) :
    (∃ bytes cases values, cases.map Prod.fst = xs ∧ (∀ p ∈ cases, p.2.length = 32) ∧
      main sha256 bytes cases = some values ∧ verify sha256 fixture (some values) = .ok ()) ↔
    ∃ circuitBytes bytes, hexDecode fixture.circuitByteSerialisationHex = some circuitBytes ∧
      hexDecode fixture.circuitCommitmentSha256Hex = some (sha256 circuitBytes) ∧
      sha256 bytes = sha256 circuitBytes ∧
      (bytes.take 4 = MAGIC ∧ bytes.length = declaredLength bytes) ∧
      (fixture.nSamples = 0 ∨ ∀ g ∈ gatesOf bytes, g.InRange 256) := by
  constructor
  · intro h
    obtain ⟨bytes, cases, values, rfl, -, hmain, hverify⟩ := h
    obtain ⟨circuitBytes, hcircuit, hcommitment, rfl⟩ := (verify_eq_ok hsha).mp hverify
    obtain ⟨hframe, hcases, hvalues⟩ := main_eq_some.mp hmain
    obtain ⟨hhash, hn⟩ := PublicValues.mk.inj hvalues
    refine ⟨circuitBytes, bytes, hcircuit, hcommitment, hhash.symm, hframe, ?_⟩
    cases cases with
    | nil => exact .inl hn
    | cons p cases =>
      have hp := simulate_eq_some.mp (hcases p List.mem_cons_self)
      rw [hxs p.1 (List.mem_map_of_mem List.mem_cons_self)] at hp
      exact .inr hp.1
  · intro h
    obtain ⟨circuitBytes, bytes, hcircuit, hcommitment, hhash, hframe, hgates⟩ := h
    have hnone : xs = [] ∨ ∀ g ∈ gatesOf bytes, g.InRange 256 :=
      hgates.imp_left fun h0 => List.eq_nil_of_length_eq_zero (hcount.trans h0)
    obtain ⟨cases, rfl, hlens, hall⟩ := exists_cases hxs hnone
    rw [List.length_map] at hcount
    exact ⟨bytes, cases, _, rfl, hlens, main_eq_some.mpr ⟨hframe, hall, rfl⟩, (verify_eq_ok hsha).mpr
      ⟨circuitBytes, hcircuit, hcommitment, by rw [hhash, hcount]⟩⟩

end Verifier

/-- One `NOT`, its SHA-256, and two cases. -/
def notFixture : VerifierFixture where
  circuitByteSerialisationHex := "475456310100000001000000ffffffff".toList
  circuitCommitmentSha256Hex :=
    "1a87597274b1250da6b5ea834ea0f1d85f6f7b734d7c797a3853a901be4eb822".toList
  nSamples := 2

/-- SHA-256 of the circuit of one `NOT` and of the one without a gate. -/
def digestTable : List (List UInt8 × List UInt8) :=
  [(encode [⟨OP_NOT, 0, NO_CTRL, NO_CTRL⟩], (bytesLe 32
      0x1a87597274b1250da6b5ea834ea0f1d85f6f7b734d7c797a3853a901be4eb822).reverse),
    (encode [], (bytesLe 32
      0x045cb4f500a0daedc21eef326127633b361ec53ed770498b29e56eb3dca3c232).reverse)]

/-- The digest in the table, which has no other strings. -/
def tableDigest (data : List UInt8) : List UInt8 :=
  ((digestTable.find? fun d => d.1 = data).map Prod.snd).getD (List.replicate 32 0)

theorem length_tableDigest (data : List UInt8) : (tableDigest data).length = 32 := by
  unfold tableDigest
  cases h : digestTable.find? fun d => d.1 = data with
  | none => rfl
  | some d =>
    have hall : ∀ d ∈ digestTable, d.2.length = 32 := by decide
    exact hall d (List.mem_of_find?_eq_some h)

theorem verified_iff_not :
    (∃ bytes cases values, cases.map Prod.fst = [List.replicate 32 0, List.replicate 32 1] ∧
      (∀ p ∈ cases, p.2.length = 32) ∧ main tableDigest bytes cases = some values ∧
      verify tableDigest notFixture (some values) = .ok ()) ↔
    ∃ circuitBytes bytes, hexDecode notFixture.circuitByteSerialisationHex = some circuitBytes ∧
      hexDecode notFixture.circuitCommitmentSha256Hex = some (tableDigest circuitBytes) ∧
      tableDigest bytes = tableDigest circuitBytes ∧
      (bytes.take 4 = MAGIC ∧ bytes.length = declaredLength bytes) ∧
      (2 = 0 ∨ ∀ g ∈ gatesOf bytes, g.InRange 256) :=
  verified_iff tableDigest length_tableDigest notFixture
    [List.replicate 32 0, List.replicate 32 1] rfl (by decide)

/-- The two hexadecimal fields are those of the table. -/
example : (hexDecode notFixture.circuitByteSerialisationHex).map tableDigest =
    hexDecode notFixture.circuitCommitmentSha256Hex := by decide +kernel

end GroverTax.Sp1
