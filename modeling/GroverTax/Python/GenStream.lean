/-
  File:      GroverTax/Python/GenStream.lean
  Subject:   The v0.2 fixture as a reading of the stream of its seed: the scalars, the cases and the
             document of `_build_fixture`, src/python/grover_tax/gen_fixtures.py.

  * `sampleScalar_spec` -- the rejection loop is a search in the blocks of 32 bytes;
  * `genCases_spec` -- the cases: two scalars each, in the order of the blocks;
  * `buildFixture_spec` -- one circuit, then the searches, and no exception;
  * **`fixture_is_stream`** -- **the fixture is determined by the stream**, and the generator returns
    exactly when eight scalars follow the circuit.
-/
import GroverTax.Lib.Blake2s
import GroverTax.Lib.Raises
import GroverTax.Lib.Rejection
import GroverTax.Python.Curve
import GroverTax.Python.Demanded
import GroverTax.Python.GenFixtures

namespace GroverTax.Python.GenFixtures

open GroverTax.Lib GroverTax.Gtv1

/-! ## 1. The scalars -/

/-- The candidate scalar `k`, of the blocks of 32 bytes from `o` on. -/
def candidate (digest : List UInt8 → ℕ → List UInt8) (seed : List UInt8) (o k : ℕ) : ℕ :=
  fromBytesBig (part digest seed (o + 32 * k) (o + 32 * (k + 1)))

/-- A scalar of the group, and not zero. -/
def IsScalar (n : ℕ) : Prop := 1 ≤ n ∧ n < SECP256K1_ORDER

instance (n : ℕ) : Decidable (IsScalar n) := inferInstanceAs (Decidable (_ ∧ _))

/-- The candidate `k` is taken. -/
def Accepted (digest : List UInt8 → ℕ → List UInt8) (seed : List UInt8) (o k : ℕ) : Prop :=
  IsScalar (candidate digest seed o k)

instance (digest : List UInt8 → ℕ → List UInt8) (seed : List UInt8) (o : ℕ) :
    DecidablePred (Accepted digest seed o) :=
  fun k => inferInstanceAs (Decidable (IsScalar (candidate digest seed o k)))

section Scalars

variable {digest : List UInt8 → ℕ → List UInt8} {seed : List UInt8} {o : ℕ}

/-- **The rejection loop** is a search for a scalar among the candidates. -/
theorem sampleScalar_spec (hx : IsXof digest) : ∀ (fuel : ℕ) {i : ℕ} {xof : XOF},
    At digest seed (o + 32 * i) xof →
      (seek (Accepted digest seed o) fuel i = none ∧
        sampleScalar digest fuel xof = .error .running) ∨
      ∃ j xof', seek (Accepted digest seed o) fuel i = some j ∧
        sampleScalar digest fuel xof = .ok (candidate digest seed o j, xof') ∧
        At digest seed (o + 32 * (j + 1)) xof'
  | 0, _, _, _ => .inl ⟨rfl, rfl⟩
  | fuel + 1, i, xof, h => by
      obtain ⟨xof1, hread, hat⟩ := h.read hx 32
      rw [show o + 32 * i + 32 = o + 32 * (i + 1) by ring] at hread hat
      have hturn : sampleScalar digest (fuel + 1) xof =
          if Accepted digest seed o i then .ok (candidate digest seed o i, xof1)
          else sampleScalar digest fuel xof1 :=
        bind_of_ok (mapError_eq_ok.mpr hread) _
      rw [hturn, seek]
      by_cases hs : Accepted digest seed o i
      · rw [if_pos hs, if_pos hs]
        exact .inr ⟨i, xof1, rfl, rfl, hat⟩
      · rw [if_neg hs, if_neg hs]
        exact sampleScalar_spec hx fuel hat

end Scalars

/-! ## 2. The cases -/

/-- What `coincurve` documents of a public key: a point of the curve, with its coordinates below the
    modulus. -/
def OnCurve (publicKey : ℕ → Point) : Prop :=
  ∀ n, IsScalar n → (publicKey n).x < SECP256K1_P ∧ (publicKey n).y < SECP256K1_P ∧
    isOnCurve (publicKey n) = true

/-- The 32 bytes of a coordinate. -/
def coordinate (n : ℕ) : List UInt8 := (bytesLe 32 n).reverse

theorem length_coordinate (n : ℕ) : (coordinate n).length = 32 := by
  rw [coordinate, List.length_reverse, length_bytesLe]

/-- The case of two points: their coordinates, and what the circuit makes of the first. -/
def Records (circuit : List Gate) (p q : Point) (c : IaddCase) : Prop :=
  c.xHex = hex (coordinate p.x ++ coordinate q.x) ∧
    ∃ y, c.yHex = hex y ∧ run circuit (coordinate p.x) = .ok y

section Points

variable {p q : Point}

theorem evenY_x (p : Point) : (evenY p).x = p.x := by
  unfold evenY negated
  split_ifs <;> rfl

/-- **The point has an even `y`**, and is on the curve still. -/
theorem evenY_spec (hy : p.y < SECP256K1_P) (hcurve : isOnCurve p = true) :
    (evenY p).y < SECP256K1_P ∧ isOnCurve (evenY p) = true ∧ (evenY p).y % 2 = 0 := by
  have hroot := (isOnCurve_iff p).mp hcurve
  unfold evenY negated
  rw [Nat.and_one_is_mod]
  split_ifs with hodd
  · refine ⟨Nat.mod_lt _ SECP256K1_P_pos, ?_, ?_⟩
    · rw [isOnCurve_iff, neg_mul_neg_mod hy.le]
      exact hroot
    · rw [neg_mod_odd SECP256K1_P_mod_four (pos_of_root hroot) hy, hodd]
  · exact ⟨hy, hcurve, by omega⟩

theorem serializeX_eq (hp : p.x < SECP256K1_P) (hq : q.x < SECP256K1_P) :
    serializeX p q = .ok (coordinate p.x ++ coordinate q.x) := by
  have hone : ∀ {r : Point}, r.x < SECP256K1_P → toBytes32Big r.x = .ok (coordinate r.x) :=
    fun h => if_pos (h.trans SECP256K1_P_lt)
  unfold serializeX
  rw [hone hp, hone hq]
  rfl

end Points

section Cases

variable {digest : List UInt8 → ℕ → List UInt8} {seed : List UInt8} {o : ℕ}
  {publicKey : ℕ → Point} {circuit : List Gate}

/-- The point of the candidate `k`. -/
def pointAt (digest : List UInt8 → ℕ → List UInt8) (seed : List UInt8) (o : ℕ)
    (publicKey : ℕ → Point) (k : ℕ) : Point := evenY (publicKey (candidate digest seed o k))

theorem sampleEvenYPoint_spec (hx : IsXof digest) (fuel : ℕ) {i : ℕ} {xof : XOF}
    (h : At digest seed (o + 32 * i) xof) :
    (seek (Accepted digest seed o) fuel i = none ∧
      sampleEvenYPoint digest publicKey fuel xof = .error .running) ∨
    ∃ j xof', seek (Accepted digest seed o) fuel i = some j ∧
      sampleEvenYPoint digest publicKey fuel xof = .ok (pointAt digest seed o publicKey j, xof') ∧
      At digest seed (o + 32 * (j + 1)) xof' := by
  rcases sampleScalar_spec hx fuel h with ⟨hnone, hrun⟩ | ⟨j, xof', hsome, hrun, hat⟩
  · refine .inl ⟨hnone, ?_⟩
    unfold sampleEvenYPoint
    rw [hrun]
    rfl
  · exact .inr ⟨j, xof', hsome, bind_eq_ok.mpr ⟨_, hrun, rfl⟩, hat⟩

/-- The circuit runs on every coordinate. -/
theorem exists_run (hc : ∀ g ∈ circuit, g.InRange 256) (n : ℕ) :
    ∃ y, run circuit (coordinate n) = .ok y := by
  have hr : ∀ g ∈ circuit, g.InRange (8 * (coordinate n).length) := by
    rw [length_coordinate]
    exact hc
  obtain ⟨y, hlen, hw⟩ := exists_simulate (coordinate n) hr
  exact ⟨y, run_ok_iff.mpr ⟨hr, hlen, hw⟩⟩

/-- **One case**: two searches, one behind the other, and no exception. -/
theorem genCase_spec (hx : IsXof digest) (hkey : OnCurve publicKey)
    (hc : ∀ g ∈ circuit, g.InRange 256) (fuel : ℕ) {i : ℕ} {xof : XOF}
    (h : At digest seed (o + 32 * i) xof) :
    ((∀ n, seekMany (Accepted digest seed o) fuel (n + 2) i = none) ∧
      genCase digest publicKey circuit fuel xof = .error .running) ∨
    ∃ j1 j2 c xof', (∀ n, seekMany (Accepted digest seed o) fuel (n + 2) i =
        (seekMany (Accepted digest seed o) fuel n (j2 + 1)).map ([j1, j2] ++ ·)) ∧
      genCase digest publicKey circuit fuel xof = .ok (c, xof') ∧
      At digest seed (o + 32 * (j2 + 1)) xof' ∧
      Records circuit (pointAt digest seed o publicKey j1) (pointAt digest seed o publicKey j2) c := by
  unfold genCase
  rcases @sampleEvenYPoint_spec digest seed o publicKey hx fuel i xof h with
    ⟨hnone, hrun⟩ | ⟨j1, xof1, h1, hrun1, hat1⟩
  · exact .inl ⟨fun n => seekMany_none hnone, bind_of_error hrun _⟩
  rcases @sampleEvenYPoint_spec digest seed o publicKey hx fuel _ xof1 hat1 with
    ⟨hnone, hrun⟩ | ⟨j2, xof2, h2, hrun2, hat2⟩
  · refine .inl ⟨fun n => ?_, (bind_of_ok hrun1 _).trans (bind_of_error hrun _)⟩
    rw [seekMany_some h1, seekMany_none hnone, Option.map_none]
  · have hbelow : ∀ {i j : ℕ}, seek (Accepted digest seed o) fuel i = some j →
        (pointAt digest seed o publicKey j).x < SECP256K1_P := fun hj => by
      rw [pointAt, evenY_x]
      exact (hkey _ (seek_eq_some.mp hj).2.2.1).1
    obtain ⟨y, hy⟩ := exists_run hc (pointAt digest seed o publicKey j1).x
    refine .inr ⟨j1, j2, ⟨hex (coordinate (pointAt digest seed o publicKey j1).x ++
      coordinate (pointAt digest seed o publicKey j2).x), hex y⟩, xof2, fun n => ?_, ?_, hat2, rfl, y,
      rfl, hy⟩
    · rw [seekMany_some h1, seekMany_some h2, Option.map_map]
      rfl
    · refine bind_eq_ok.mpr ⟨_, hrun1, bind_eq_ok.mpr ⟨_, hrun2, bind_eq_ok.mpr
        ⟨_, serializeX_eq (hbelow h1) (hbelow h2), bind_eq_ok.mpr ⟨y, ?_, rfl⟩⟩⟩⟩
      rw [List.take_left' (length_coordinate _)]
      exact mapError_eq_ok.mpr hy

/-- **The cases**: two scalars each, in the order of the candidates. -/
theorem genCases_spec (hx : IsXof digest) (hkey : OnCurve publicKey)
    (hc : ∀ g ∈ circuit, g.InRange 256) (fuel : ℕ) : ∀ (n : ℕ) {i : ℕ} {xof : XOF},
    At digest seed (o + 32 * i) xof →
      (seekMany (Accepted digest seed o) fuel (2 * n) i = none ∧
        genCases digest publicKey circuit fuel n xof = .error .running) ∨
      ∃ js cases xof', seekMany (Accepted digest seed o) fuel (2 * n) i = some js ∧
        genCases digest publicKey circuit fuel n xof = .ok (cases, xof') ∧ cases.length = n ∧
        ∀ k c, cases[k]? = some c → ∃ j1 j2, js[2 * k]? = some j1 ∧ js[2 * k + 1]? = some j2 ∧
          Records circuit (pointAt digest seed o publicKey j1) (pointAt digest seed o publicKey j2) c
  | 0, _, xof, _ => .inr ⟨[], [], xof, rfl, rfl, rfl, fun k c h => by cases h⟩
  | n + 1, i, xof, h => by
      rw [show 2 * (n + 1) = 2 * n + 2 by ring]
      rcases genCase_spec hx hkey hc fuel h with
        ⟨hnone, hrun⟩ | ⟨j1, j2, c, xof1, hseek, hrun1, hat1, hrec⟩
      · exact .inl ⟨hnone _, bind_of_error hrun _⟩
      rcases genCases_spec hx hkey hc fuel n hat1 with
        ⟨hnone, hrun⟩ | ⟨js, cases, xof2, hjs, hrun2, hlen, hall⟩
      · refine .inl ⟨?_, (bind_of_ok hrun1 _).trans (bind_of_error hrun _)⟩
        rw [hseek, hnone, Option.map_none]
      · refine .inr ⟨j1 :: j2 :: js, c :: cases, xof2, ?_,
          bind_eq_ok.mpr ⟨_, hrun1, bind_eq_ok.mpr ⟨_, hrun2, rfl⟩⟩, congrArg (· + 1) hlen, ?_⟩
        · rw [hseek, hjs]
          rfl
        · intro k c' hk
          cases k with
          | zero =>
            obtain rfl := Option.some.inj hk
            exact ⟨j1, j2, rfl, rfl, hrec⟩
          | succ k => exact hall k c' hk

end Cases

/-! ## 3. The document -/

section Document

variable {lib : Hashlib} {publicKey : ℕ → Point}

/-- A gate on 256 wires with the sentinel in every other slot fits its record. -/
theorem fits_of_inRange {g : Gate} (h : g.InRange 256) (hc : g.Canonical) : g.Fits := by
  have hwire : ∀ w, w ∈ g.used ∨ w ∈ g.unused → w < 2 ^ 16 := by
    rintro w (hw | hw)
    · exact (h.wires w hw).trans (by decide)
    · rw [hc w hw]
      decide
  obtain ⟨op, t, a, b⟩ := g
  have hop := h.opcode
  refine ⟨hop, hwire t ?_, hwire a ?_, hwire b ?_⟩ <;>
  · unfold OP_TOFFOLI at hop
    dsimp only at hop
    interval_cases op <;>
      simp [Gate.used, Gate.unused, Gate.controls, OP_NOP, OP_NOT, OP_CNOT, OP_TOFFOLI]

/-- **The generator draws one circuit, and then searches**: with a number of turns that is too small
    it is still running, else it returns; there is no exception. -/
theorem buildFixture_spec (hx : IsXof lib.shake256) (hkey : OnCurve publicKey)
    (git : Option (List Char)) (upstreamCommit : List Char) : ∃ circuit o,
    circuit.length = V02_GATE_COUNT ∧
    DrawnFrom circuit (part lib.shake256 (lib.sha256 SEED) 0 o) ∧ ∀ fuel,
      (seekMany (Accepted lib.shake256 (lib.sha256 SEED) o) fuel (2 * V02_N_SAMPLES) 0 = none ∧
        buildFixture lib publicKey git upstreamCommit fuel = .error .running) ∨
      ∃ js cases, seekMany (Accepted lib.shake256 (lib.sha256 SEED) o) fuel (2 * V02_N_SAMPLES) 0 =
          some js ∧
        buildFixture lib publicKey git upstreamCommit fuel =
          .ok (document lib git upstreamCommit (encode circuit) cases) ∧
        cases.length = V02_N_SAMPLES ∧ ∀ k c, cases[k]? = some c → ∃ j1 j2, js[2 * k]? = some j1 ∧
          js[2 * k + 1]? = some j2 ∧
          Records circuit (pointAt lib.shake256 (lib.sha256 SEED) o publicKey j1)
            (pointAt lib.shake256 (lib.sha256 SEED) o publicKey j2) c := by
  obtain ⟨circuit, o, xof, hbuild, hlen, hat, hdrawn⟩ :=
    buildCircuit_spec hx V02_GATE_COUNT (at_start hx (lib.sha256 SEED))
  rw [Nat.zero_add] at hat hdrawn
  have hgates := hdrawn.forall
  have hbytes : serialise circuit = .ok (encode circuit) := by
    refine serialise_eq_ok.mpr ⟨⟨?_, fun g hg => fits_of_inRange (hgates g hg).1 (hgates g hg).2⟩, rfl⟩
    rw [hlen]
    decide
  refine ⟨circuit, o, hlen, hdrawn, fun fuel => ?_⟩
  unfold buildFixture
  rcases genCases_spec hx hkey (fun g hg => (hgates g hg).1) fuel V02_N_SAMPLES
    (show At lib.shake256 (lib.sha256 SEED) (o + 32 * 0) xof from hat) with
    ⟨hnone, hrun⟩ | ⟨js, cases, xof', hjs, hrun, hcount, hall⟩
  · exact .inl ⟨hnone, (bind_of_ok hbuild _).trans (bind_of_error hrun _)⟩
  · exact .inr ⟨js, cases, hjs, bind_eq_ok.mpr ⟨_, hbuild, bind_eq_ok.mpr ⟨_, hrun,
      bind_eq_ok.mpr ⟨_, mapError_eq_ok.mpr hbytes, rfl⟩⟩⟩, hcount, hall⟩

/-- **The v0.2 fixture is read off the stream of its seed**: the circuit is the beginning of the
    stream; the generator returns exactly when eight scalars follow among the blocks of 32 bytes, and
    raises no exception; the points of a case are those of the next two scalars. -/
theorem fixture_is_stream (lib : Hashlib) (hx : IsXof lib.shake256) (publicKey : ℕ → Point)
    (hkey : OnCurve publicKey) (git : Option (List Char)) (upstreamCommit : List Char) :
    ∃ circuit o, circuit.length = V02_GATE_COUNT ∧
      DrawnFrom circuit (part lib.shake256 (lib.sha256 SEED) 0 o) ∧
      ((∃ fuel d, buildFixture lib publicKey git upstreamCommit fuel = .ok d) ↔
        ∃ m, 2 * V02_N_SAMPLES ≤ Nat.count (Accepted lib.shake256 (lib.sha256 SEED) o) m) ∧
      ∀ fuel, buildFixture lib publicKey git upstreamCommit fuel = .error .running ∨
        ∃ cases, buildFixture lib publicKey git upstreamCommit fuel =
            .ok (document lib git upstreamCommit (encode circuit) cases) ∧
          cases.length = V02_N_SAMPLES ∧ ∀ k c, cases[k]? = some c → Records circuit
            (pointAt lib.shake256 (lib.sha256 SEED) o publicKey
              (Nat.nth (Accepted lib.shake256 (lib.sha256 SEED) o) (2 * k)))
            (pointAt lib.shake256 (lib.sha256 SEED) o publicKey
              (Nat.nth (Accepted lib.shake256 (lib.sha256 SEED) o) (2 * k + 1))) c := by
  obtain ⟨circuit, o, hlen, hdrawn, hfuel⟩ := buildFixture_spec hx hkey git upstreamCommit
  refine ⟨circuit, o, hlen, hdrawn, ?_, fun fuel => ?_⟩
  · rw [← exists_seekMany]
    refine exists_congr fun fuel => ?_
    rcases hfuel fuel with ⟨hnone, hrun⟩ | ⟨js, cases, hjs, hrun, -⟩
    · rw [hnone, hrun]
      exact iff_of_false (fun ⟨_, h⟩ => by cases h) (fun ⟨_, h⟩ => by cases h)
    · exact iff_of_true ⟨_, hrun⟩ ⟨js, hjs⟩
  · rcases hfuel fuel with ⟨-, hrun⟩ | ⟨js, cases, hjs, hrun, hcount, hall⟩
    · exact .inl hrun
    · refine .inr ⟨cases, hrun, hcount, fun k c hk => ?_⟩
      obtain ⟨j1, j2, h1, h2, hrec⟩ := hall k c hk
      have hnth : ∀ {i j : ℕ}, js[i]? = some j →
          j = Nat.nth (Accepted lib.shake256 (lib.sha256 SEED) o) i := by
        intro i j hij
        rw [seekMany_eq hjs, List.getElem?_map, Option.map_eq_some_iff] at hij
        obtain ⟨i', hi', rfl⟩ := hij
        obtain ⟨hlt, hi'⟩ := List.getElem?_eq_some_iff.mp hi'
        rw [List.getElem_range] at hi'
        rw [Nat.count_zero, Nat.zero_add, hi']
      rwa [hnth h1, hnth h2] at hrec

end Document

/-- The digests of v0.2.json: of its seed and of its circuit. -/
def genLib : Hashlib where
  sha256 := fun data =>
    if data = SEED then digestOf 0x92e3102f9b04fb164693ba15acd9b0461df298c280053acdc1cb5da65d882a66
    else digestOf 0x838714674644af280fb0a05db3b2256e62657df1d84dc0ccf17324091b39a0f6
  blake2s := Blake2s.digest
  shake256 := Kickmix.shake256

theorem onCurve_multiple : OnCurve multiple := fun n _ => multiple_spec n

/-- The theorem at SHAKE-256 and at the group of the curve. -/
theorem fixture_is_stream_v02 : ∃ circuit o, circuit.length = V02_GATE_COUNT ∧
    DrawnFrom circuit (part genLib.shake256 (genLib.sha256 SEED) 0 o) ∧
    ((∃ fuel d, buildFixture genLib multiple none (List.replicate 40 '0') fuel = .ok d) ↔
      ∃ m, 2 * V02_N_SAMPLES ≤ Nat.count (Accepted genLib.shake256 (genLib.sha256 SEED) o) m) ∧
    ∀ fuel, buildFixture genLib multiple none (List.replicate 40 '0') fuel = .error .running ∨
      ∃ cases, buildFixture genLib multiple none (List.replicate 40 '0') fuel =
          .ok (document genLib none (List.replicate 40 '0') (encode circuit) cases) ∧
        cases.length = V02_N_SAMPLES ∧ ∀ k c, cases[k]? = some c → Records circuit
          (pointAt genLib.shake256 (genLib.sha256 SEED) o multiple
            (Nat.nth (Accepted genLib.shake256 (genLib.sha256 SEED) o) (2 * k)))
          (pointAt genLib.shake256 (genLib.sha256 SEED) o multiple
            (Nat.nth (Accepted genLib.shake256 (genLib.sha256 SEED) o) (2 * k + 1))) c :=
  fixture_is_stream genLib isXof_shake256 multiple onCurve_multiple none _

end GroverTax.Python.GenFixtures
