/-
  File:      GroverTax/Python/Secp256k1.lean
  Subject:   Compressed points, src/python/grover_tax/secp256k1.py: `Point.to_compressed_bytes` and
             `decode_compressed`.

  A raised exception is an error value. The modulus is proved prime from a certificate, and no point
  of the curve has `y = 0`.

  * `rootOf_mul_rootOf` -- the exponent finds a root wherever there is one;
  * `decodeCompressed_spec` -- what holds of every decoding;
  * `decodeCompressed_toCompressedBytes` -- every point is decoded from its own encoding;
  * `decodeExact_iff` -- **a decoding is exact if and only if the encoded coordinate is below the
    modulus.**
-/
import GroverTax.Lib.LittleEndian
import GroverTax.Lib.Pratt
import GroverTax.Lib.Roots

namespace GroverTax.Python

open GroverTax.Lib

/-! ## 1. The source -/

def SECP256K1_P : ℕ := 0xFFFFFFFFFFFFFFFFFFFFFFFFFFFFFFFFFFFFFFFFFFFFFFFFFFFFFFFEFFFFFC2F

def CURVE_B : ℕ := 7

def COMPRESSED_LEN : ℕ := 33

def COMPRESSED_EVEN_Y_TAG : UInt8 := 0x02

def COMPRESSED_ODD_Y_TAG : UInt8 := 0x03

structure Point where
  x : ℕ
  y : ℕ
  deriving DecidableEq, Repr

inductive PointError where
  /-- decode_compressed: not a 33-byte SEC1 compressed point: {data!r} -/
  | notCompressed (data : List UInt8)
  /-- decode_compressed: x={x:x} is not on secp256k1 -/
  | notOnCurve (x : ℕ)
  /-- OverflowError of `int.to_bytes` -/
  | overflow (n : ℕ)
  deriving DecidableEq, Repr

/-- `int.from_bytes(data, "big")`. -/
def fromBytesBig (data : List UInt8) : ℕ := leNat data.reverse

/-- `n.to_bytes(32, "big")`. -/
def toBytes32Big (n : ℕ) : Except PointError (List UInt8) :=
  if n < 256 ^ 32 then .ok (bytesLe 32 n).reverse else .error (.overflow n)

def Point.toCompressedBytes (p : Point) : Except PointError (List UInt8) := do
  let tag := if p.y &&& 1 = 0 then COMPRESSED_EVEN_Y_TAG else COMPRESSED_ODD_Y_TAG
  return tag :: (← toBytes32Big p.x)

/-- Membership check `y² ≡ x³ + 7 (mod p)`. -/
def isOnCurve (p : Point) : Bool :=
  decide (((p.y * p.y : ℤ) - (p.x * p.x * p.x + CURVE_B)) % SECP256K1_P = 0)

/-- `pow` with three arguments is square and multiply. -/
def decodeCompressed (data : List UInt8) : Except PointError Point :=
  if data.length ≠ COMPRESSED_LEN ∨
      data.head? ≠ some COMPRESSED_EVEN_Y_TAG ∧ data.head? ≠ some COMPRESSED_ODD_Y_TAG then
    .error (.notCompressed data)
  else
    let x := fromBytesBig (data.drop 1)
    let rhs := (powMod x 3 SECP256K1_P + CURVE_B) % SECP256K1_P
    let y := powMod rhs ((SECP256K1_P + 1) / 4) SECP256K1_P
    if y * y % SECP256K1_P ≠ rhs then .error (.notOnCurve x)
    else
      let desiredParity := if data.head? = some COMPRESSED_EVEN_Y_TAG then 0 else 1
      let y := if y &&& 1 ≠ desiredParity then (SECP256K1_P - y) % SECP256K1_P else y
      .ok ⟨x, y⟩

/-! ## 2. The modulus -/

/-- Each prime with a primitive root and the factors of its predecessor. -/
def modulusCertificate : List Lucas :=
  [⟨20113, 10, [2, 2, 2, 2, 3, 419]⟩,
   ⟨24809, 6, [2, 2, 2, 7, 443]⟩,
   ⟨41201, 3, [2, 2, 2, 2, 5, 5, 103]⟩,
   ⟨96557, 2, [2, 2, 101, 239]⟩,
   ⟨1206781, 10, [2, 2, 3, 5, 20113]⟩,
   ⟨7240687, 3, [2, 3, 1206781]⟩,
   ⟨13331831, 13, [2, 5, 971, 1373]⟩,
   ⟨107590001, 3, [2, 2, 2, 2, 5, 5, 5, 5, 7, 29, 53]⟩,
   ⟨173378833005251801, 6, [2, 2, 2, 5, 5, 2621, 24809, 13331831]⟩,
   ⟨22149492674086928081353, 5, [2, 2, 2, 3, 5323, 173378833005251801]⟩,
   ⟨132896956044521568488119, 6, [2, 3, 22149492674086928081353]⟩,
   ⟨255515944373312847190720520512484175977, 3,
    [2, 2, 2, 7, 7, 11, 1627, 2657, 4423, 41201, 96557, 7240687, 107590001]⟩,
   ⟨205115282021455665897114700593932402728804164701536103180137503955397371, 10,
    [2, 3, 5, 29, 29, 31, 7723, 132896956044521568488119,
     255515944373312847190720520512484175977]⟩,
   ⟨SECP256K1_P, 3, [2, 3, 7, 13441,
    205115282021455665897114700593932402728804164701536103180137503955397371]⟩]

/-- **The modulus is prime.** -/
theorem prime_SECP256K1_P : SECP256K1_P.Prime := by
  have h : certified [] modulusCertificate = true := by decide +kernel
  refine prime_of_certified h ⟨SECP256K1_P, 3, [2, 3, 7, 13441,
    205115282021455665897114700593932402728804164701536103180137503955397371]⟩ ?_
  unfold modulusCertificate
  simp only [List.mem_cons, true_or, or_true]

theorem SECP256K1_P_mod_four : SECP256K1_P % 4 = 3 := by decide

theorem SECP256K1_P_pos : 0 < SECP256K1_P := by decide

theorem SECP256K1_P_lt : SECP256K1_P < 256 ^ 32 := by decide

/-- `-7` is no cube. -/
theorem cube_add_ne_zero (x : ℕ) : (x ^ 3 + CURVE_B) % SECP256K1_P ≠ 0 := by
  have hthree : 3 ∣ SECP256K1_P - 1 := by decide
  have hminus : (SECP256K1_P - CURVE_B) % SECP256K1_P ≠ 0 := by decide
  have htest : powMod (SECP256K1_P - CURVE_B) ((SECP256K1_P - 1) / 3) SECP256K1_P ≠ 1 := by
    decide +kernel
  have hcube := pow_mod_ne_of_powMod prime_SECP256K1_P hthree hminus htest x
  intro h
  apply hcube
  have hle : CURVE_B ≤ SECP256K1_P := by decide
  have hsum : (x ^ 3 + CURVE_B) % SECP256K1_P
      = (SECP256K1_P - CURVE_B + CURVE_B) % SECP256K1_P := by
    rw [h, Nat.sub_add_cancel hle, Nat.mod_self]
  exact Nat.ModEq.add_right_cancel' CURVE_B hsum

/-! ## 3. The curve -/

/-- The right-hand side of the equation, as the decoder computes it. -/
theorem rhs_eq (x : ℕ) :
    (powMod x 3 SECP256K1_P + CURVE_B) % SECP256K1_P = (x ^ 3 + CURVE_B) % SECP256K1_P := by
  rw [powMod_eq, Nat.mod_add_mod]

theorem isOnCurve_iff (p : Point) :
    isOnCurve p = true ↔ p.y * p.y % SECP256K1_P = (p.x ^ 3 + CURVE_B) % SECP256K1_P := by
  have hcast : ((p.x : ℤ) * p.x * p.x + CURVE_B) = ((p.x ^ 3 + CURVE_B : ℕ) : ℤ) := by
    push_cast
    ring
  rw [isOnCurve, decide_eq_true_eq, hcast, ← Int.emod_eq_emod_iff_emod_sub_eq_zero,
    ← Nat.cast_mul]
  exact Int.natCast_inj

/-- The root of the right-hand side that the decoder takes. -/
def rootOf (x : ℕ) : ℕ :=
  powMod ((powMod x 3 SECP256K1_P + CURVE_B) % SECP256K1_P) ((SECP256K1_P + 1) / 4) SECP256K1_P

theorem rootOf_lt (x : ℕ) : rootOf x < SECP256K1_P := by
  rw [rootOf, powMod_eq]
  exact Nat.mod_lt _ SECP256K1_P_pos

/-- A root is not zero, no point having `y = 0`. -/
theorem pos_of_root {x y : ℕ} (h : y * y % SECP256K1_P = (x ^ 3 + CURVE_B) % SECP256K1_P) :
    0 < y := by
  refine Nat.pos_of_ne_zero fun hy => cube_add_ne_zero x ?_
  rw [← h, hy, Nat.mul_zero, Nat.zero_mod]

/-- **The exponent finds a root** wherever there is one. -/
theorem rootOf_mul_rootOf {x y : ℕ} (h : y * y % SECP256K1_P = (x ^ 3 + CURVE_B) % SECP256K1_P) :
    rootOf x * rootOf x % SECP256K1_P = (x ^ 3 + CURVE_B) % SECP256K1_P := by
  have hroot : y * y % SECP256K1_P = (x ^ 3 + CURVE_B) % SECP256K1_P % SECP256K1_P := by
    rw [h, Nat.mod_mod]
  have hfound := pow_mul_pow_mod prime_SECP256K1_P SECP256K1_P_mod_four hroot
  rw [Nat.mod_mod] at hfound
  rw [rootOf, powMod_eq, rhs_eq]
  exact hfound

/-- The sign byte of a number. -/
def tagOf (y : ℕ) : UInt8 := if y &&& 1 = 0 then COMPRESSED_EVEN_Y_TAG else COMPRESSED_ODD_Y_TAG

/-- The parity that a sign byte asks for. -/
def parityOf (tag : UInt8) : ℕ := if tag = COMPRESSED_EVEN_Y_TAG then 0 else 1

/-- The root with the parity asked for. -/
def chosen (tag : UInt8) (y : ℕ) : ℕ :=
  if y &&& 1 ≠ parityOf tag then (SECP256K1_P - y) % SECP256K1_P else y

section Choice

variable {x y : ℕ} {tag : UInt8}

theorem parityOf_lt (tag : UInt8) : parityOf tag < 2 := by
  unfold parityOf
  split_ifs <;> decide

theorem chosen_lt (hy : y < SECP256K1_P) : chosen tag y < SECP256K1_P := by
  unfold chosen
  split_ifs
  · exact Nat.mod_lt _ SECP256K1_P_pos
  · exact hy

theorem chosen_pos (h0 : 0 < y) (hy : y < SECP256K1_P) : 0 < chosen tag y := by
  unfold chosen
  split_ifs
  · rw [Nat.mod_eq_of_lt (Nat.sub_lt SECP256K1_P_pos h0)]
    exact Nat.sub_pos_of_lt hy
  · exact h0

theorem chosen_mul_chosen (hy : y < SECP256K1_P) :
    chosen tag y * chosen tag y % SECP256K1_P = y * y % SECP256K1_P := by
  unfold chosen
  split_ifs
  · exact neg_mul_neg_mod hy.le
  · rfl

/-- The choice has the parity of the tag. -/
theorem chosen_mod_two (h0 : 0 < y) (hy : y < SECP256K1_P) : chosen tag y % 2 = parityOf tag := by
  have hp := parityOf_lt tag
  unfold chosen
  rw [Nat.and_one_is_mod]
  split_ifs with hne
  · rw [neg_mod_odd SECP256K1_P_mod_four h0 hy]
    omega
  · exact not_ne_iff.mp hne

theorem parityOf_tagOf (y : ℕ) : parityOf (tagOf y) = y % 2 := by
  unfold parityOf tagOf
  rw [Nat.and_one_is_mod]
  rcases Nat.mod_two_eq_zero_or_one y with h | h
  · rw [h]
    decide
  · rw [h]
    decide

/-- Of the two roots only one has the parity. -/
theorem chosen_eq (hy : y < SECP256K1_P) {z : ℕ} (hz : z < SECP256K1_P) (h0 : 0 < z)
    (h : z * z % SECP256K1_P = y * y % SECP256K1_P) : chosen (tagOf y) z = y := by
  have hlt : chosen (tagOf y) z < SECP256K1_P := chosen_lt hz
  have hsq : chosen (tagOf y) z * chosen (tagOf y) z % SECP256K1_P = y * y % SECP256K1_P := by
    rw [chosen_mul_chosen hz, h]
  have hpos : 0 < chosen (tagOf y) z := chosen_pos h0 hz
  have hpar : chosen (tagOf y) z % 2 = y % 2 := by
    rw [chosen_mod_two h0 hz, parityOf_tagOf]
  rcases eq_or_eq_of_mul_self_mod prime_SECP256K1_P hlt hy hsq with heq | hneg
  · exact heq.symm
  · -- the other root has the other parity
    have hodd := neg_mod_odd SECP256K1_P_mod_four hpos hlt
    rw [← hneg] at hodd
    omega

theorem tagOf_eq (htag : tag = COMPRESSED_EVEN_Y_TAG ∨ tag = COMPRESSED_ODD_Y_TAG)
    (h : y % 2 = parityOf tag) : tagOf y = tag := by
  unfold tagOf
  rw [Nat.and_one_is_mod, h]
  rcases htag with rfl | rfl <;> rfl

end Choice

/-! ## 4. Encoding and decoding -/

/-- The first bytes that a compressed point may have. -/
def IsTag (tag : UInt8) : Prop := tag = COMPRESSED_EVEN_Y_TAG ∨ tag = COMPRESSED_ODD_Y_TAG

theorem isTag_tagOf (y : ℕ) : IsTag (tagOf y) := by
  unfold IsTag tagOf
  split_ifs
  · exact Or.inl rfl
  · exact Or.inr rfl

theorem toCompressedBytes_eq {P : Point} (hx : P.x < 256 ^ 32) :
    P.toCompressedBytes = .ok (tagOf P.y :: (bytesLe 32 P.x).reverse) := by
  rw [Point.toCompressedBytes, toBytes32Big, if_pos hx]
  rfl

theorem fromBytesBig_reverse {x : ℕ} (hx : x < 256 ^ 32) :
    fromBytesBig (bytesLe 32 x).reverse = x := by
  rw [fromBytesBig, List.reverse_reverse, leNat_bytesLe_of_lt hx]

theorem fromBytesBig_lt {bytes : List UInt8} (h : bytes.length = 32) :
    fromBytesBig bytes < 256 ^ 32 := by
  have hlt := leNat_lt bytes.reverse
  rwa [List.length_reverse, h] at hlt

theorem bytesLe_fromBytesBig {bytes : List UInt8} (h : bytes.length = 32) :
    (bytesLe 32 (fromBytesBig bytes)).reverse = bytes := by
  have hback := bytesLe_leNat bytes.reverse
  rw [List.length_reverse, h] at hback
  rw [fromBytesBig, hback, List.reverse_reverse]

/-- **The decoder on 33 bytes that begin with a tag**: one root of the right-hand side, if it is
    one. -/
theorem decodeCompressed_cons {tag : UInt8} {bytes : List UInt8} (htag : IsTag tag)
    (hlen : bytes.length = 32) :
    decodeCompressed (tag :: bytes) =
      if rootOf (fromBytesBig bytes) * rootOf (fromBytesBig bytes) % SECP256K1_P
          = (fromBytesBig bytes ^ 3 + CURVE_B) % SECP256K1_P then
        .ok ⟨fromBytesBig bytes, chosen tag (rootOf (fromBytesBig bytes))⟩
      else .error (.notOnCurve (fromBytesBig bytes)) := by
  have hguard : ¬ ((tag :: bytes).length ≠ COMPRESSED_LEN ∨
      (tag :: bytes).head? ≠ some COMPRESSED_EVEN_Y_TAG ∧
        (tag :: bytes).head? ≠ some COMPRESSED_ODD_Y_TAG) := by
    intro hbad
    rcases hbad with hbad | ⟨heven, hodd⟩
    · exact hbad (by rw [List.length_cons, hlen]; rfl)
    · rcases htag with e | e
      · exact heven (by rw [List.head?_cons, e])
      · exact hodd (by rw [List.head?_cons, e])
  have hparity : (if (tag :: bytes).head? = some COMPRESSED_EVEN_Y_TAG then 0 else 1)
      = parityOf tag := by
    simp only [List.head?_cons, Option.some.injEq, parityOf]
  rw [decodeCompressed, if_neg hguard]
  simp only [hparity, List.drop_succ_cons, List.drop_zero, ← rhs_eq]
  rw [ite_not]
  rfl

/-- What the decoder accepts. -/
theorem cons_of_decodeCompressed {data : List UInt8} {P : Point}
    (h : decodeCompressed data = .ok P) :
    ∃ tag bytes, data = tag :: bytes ∧ IsTag tag ∧ bytes.length = 32 := by
  unfold decodeCompressed at h
  split at h
  · cases h
  rename_i hguard
  obtain ⟨hlen, htag⟩ := not_or.mp hguard
  cases data with
  | nil => exact absurd (by decide) hlen
  | cons tag bytes =>
    refine ⟨tag, bytes, rfl, ?_, ?_⟩
    · by_cases heven : tag = COMPRESSED_EVEN_Y_TAG
      · exact Or.inl heven
      · refine Or.inr (by_contra fun hodd => htag ⟨?_, ?_⟩)
        · exact fun e => heven (Option.some.inj e)
        · exact fun e => hodd (Option.some.inj e)
    · exact Nat.succ.inj (not_ne_iff.mp hlen)

/-- What the decoding of a point promises. -/
structure Exact (data : List UInt8) (P : Point) : Prop where
  x_lt : P.x < SECP256K1_P
  y_lt : P.y < SECP256K1_P
  curve : isOnCurve P = true
  parity : data.head? = some (if P.y % 2 = 0 then COMPRESSED_EVEN_Y_TAG else COMPRESSED_ODD_Y_TAG)
  encoded : P.toCompressedBytes = .ok data

/-- **What holds of every decoding**: all but the bound on `x`. -/
theorem decodeCompressed_spec {data : List UInt8} {P : Point} (h : decodeCompressed data = .ok P) :
    P.x = fromBytesBig (data.drop 1) ∧ P.y < SECP256K1_P ∧ isOnCurve P = true ∧
      data.head? = some (tagOf P.y) ∧ P.toCompressedBytes = .ok data := by
  obtain ⟨tag, bytes, rfl, htag, hlen⟩ := cons_of_decodeCompressed h
  rw [decodeCompressed_cons htag hlen] at h
  split_ifs at h with hroot
  obtain rfl := Except.ok.inj h
  have hlt := rootOf_lt (fromBytesBig bytes)
  have hpos := pos_of_root hroot
  have htagged : tagOf (chosen tag (rootOf (fromBytesBig bytes))) = tag :=
    tagOf_eq htag (chosen_mod_two hpos hlt)
  refine ⟨rfl, chosen_lt hlt, ?_, ?_, ?_⟩
  · rw [isOnCurve_iff, chosen_mul_chosen hlt, hroot]
  · rw [htagged, List.head?_cons]
  · rw [toCompressedBytes_eq (fromBytesBig_lt hlen), htagged, bytesLe_fromBytesBig hlen]

/-- **A point is decoded from its own encoding.** -/
theorem decodeCompressed_toCompressedBytes {P : Point} (hx : P.x < SECP256K1_P)
    (hy : P.y < SECP256K1_P) (hcurve : isOnCurve P = true) :
    ∃ data, P.toCompressedBytes = .ok data ∧ decodeCompressed data = .ok P := by
  have hx32 : P.x < 256 ^ 32 := hx.trans SECP256K1_P_lt
  have hlen : ((bytesLe 32 P.x).reverse).length = 32 := by
    rw [List.length_reverse, length_bytesLe]
  have hroot := rootOf_mul_rootOf ((isOnCurve_iff P).mp hcurve)
  have hy' : chosen (tagOf P.y) (rootOf P.x) = P.y := by
    refine chosen_eq hy (rootOf_lt P.x) (pos_of_root hroot) ?_
    rw [hroot, (isOnCurve_iff P).mp hcurve]
  refine ⟨_, toCompressedBytes_eq hx32, ?_⟩
  rw [decodeCompressed_cons (isTag_tagOf P.y) hlen, fromBytesBig_reverse hx32, if_pos hroot, hy']

/-- **Decoding is exact where the encoded coordinate is below the modulus**, and nowhere else; the
    points of the curve come back from their encodings. -/
theorem decodeExact_iff (data : List UInt8) (P : Point) :
    (decodeCompressed data = .ok P →
      (Exact data P ↔ fromBytesBig (data.drop 1) < SECP256K1_P)) ∧
    (P.x < SECP256K1_P → P.y < SECP256K1_P → isOnCurve P = true →
      ∃ data, P.toCompressedBytes = .ok data ∧ decodeCompressed data = .ok P) := by
  refine ⟨fun h => ?_, decodeCompressed_toCompressedBytes⟩
  obtain ⟨hx, hy, hcurve, hparity, hencoded⟩ := decodeCompressed_spec h
  refine ⟨fun hexact => hx ▸ hexact.x_lt, fun hlt => ⟨hx ▸ hlt, hy, hcurve, ?_, hencoded⟩⟩
  rw [hparity, tagOf, Nat.and_one_is_mod]

/-- Generator of the curve. -/
def GENERATOR : Point where
  x := 0x79BE667EF9DCBBAC55A06295CE870B07029BFCDB2DCE28D959F2815B16F81798
  y := 0x483ADA7726A3C4655DA4FBFC0E1108A8FD17B448A68554199C47D08FFB10D4B8

theorem decodeExact_iff_generator :
    ∃ data, decodeCompressed data = .ok GENERATOR ∧ Exact data GENERATOR := by
  have hcurve : isOnCurve GENERATOR = true := by decide +kernel
  have hx : GENERATOR.x < SECP256K1_P := by decide
  obtain ⟨data, -, hdecoded⟩ := (decodeExact_iff [] GENERATOR).2 hx (by decide) hcurve
  refine ⟨data, hdecoded, ((decodeExact_iff data GENERATOR).1 hdecoded).mpr ?_⟩
  rw [← (decodeCompressed_spec hdecoded).1]
  exact hx

/-- The coordinate of a point, encoded with the modulus added to it. -/
def aboveModulus : List UInt8 := COMPRESSED_EVEN_Y_TAG :: (bytesLe 32 (SECP256K1_P + 1)).reverse

/-- It is accepted, and the point returned has the coordinate above the modulus. -/
theorem decodeCompressed_aboveModulus :
    decodeCompressed aboveModulus =
      .ok ⟨SECP256K1_P + 1, 0x4218F20AE6C646B363DB68605822FB14264CA8D2587FDD6FBC750D587E76A7EE⟩ ∧
    ¬ Exact aboveModulus
      ⟨SECP256K1_P + 1, 0x4218F20AE6C646B363DB68605822FB14264CA8D2587FDD6FBC750D587E76A7EE⟩ := by
  refine ⟨by decide +kernel, fun h => ?_⟩
  exact absurd h.x_lt (Nat.not_lt.mpr (Nat.le_succ _))

end GroverTax.Python
