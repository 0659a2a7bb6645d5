/-
  File:      GroverTax/Cairo/Commit.lean
  Subject:   The circuit commitment: `commit_blake2s` of src/stwo-side/cairo/src/commit.cairo and
             `digest_to_u256_be` of src/stwo-side/cairo/src/lib.cairo, over any implementation of
             the corelib's compression and with a bound on the turns of the loop.

  `IsRfc` is what the corelib documents: the compression function F of BLAKE2s with the byte counter
  that is given, its final flag off for `blake2s_compress` and on for `blake2s_finalize`.

  * `commitBlake2sWith_eq` -- under it, and below `2 ^ 32` bytes, the words are those of BLAKE2s;
    `commitBlake2s` is the function with F itself put in;
  * `digestToU256Be_eq` -- the `u256` is the digest read big endian;
  * `commit_is_blake2s` -- **the commitment is the digest**, as words and as a number.
-/
import GroverTax.Cairo.Serialise
import GroverTax.Lib.Blake2s
import GroverTax.Lib.Loop

namespace GroverTax.Cairo

open GroverTax.Lib GroverTax.Lib.Blake2s GroverTax.Gtv1

/-! ## 1. The source -/

/-- `core::blake`. -/
structure CoreBlake where
  blake2sCompress : List UInt32 → ℕ → List UInt32 → List UInt32
  blake2sFinalize : List UInt32 → ℕ → List UInt32 → List UInt32

/-- The two functions are F, on eight words of state, sixteen of message and a `u32` counter. -/
structure CoreBlake.IsRfc (core : CoreBlake) : Prop where
  compress_eq : ∀ h t m, h.length = 8 → t < 2 ^ 32 → m.length = 16 →
    core.blake2sCompress h t m = compress h m t false
  finalize_eq : ∀ h t m, h.length = 8 → t < 2 ^ 32 → m.length = 16 →
    core.blake2sFinalize h t m = compress h m t true

def initialState : List UInt32 :=
  [0x6B08E647, 0xBB67AE85, 0x3C6EF372, 0xA54FF53A, 0x510E527F, 0x9B05688C, 0x1F83D9AB, 0x5BE0CD19]

def byteOrZero (bytes : List UInt8) (n i : ℕ) : Option ℕ := if i < n then at32 bytes i else some 0

/-- One round of the loop of `pack_block`. -/
def packWord (bytes : List UInt8) (offset i : ℕ) : Option UInt32 := do
  let n := bytes.length
  let base ← checkedAdd 32 offset (← checkedMul 32 i 4)
  let b0 ← byteOrZero bytes n (← checkedAdd 32 base 0)
  let b1 ← byteOrZero bytes n (← checkedAdd 32 base 1)
  let b2 ← byteOrZero bytes n (← checkedAdd 32 base 2)
  let b3 ← byteOrZero bytes n (← checkedAdd 32 base 3)
  return UInt32.ofNat (← joinBytes b0 b1 b2 b3)

def packBlock (bytes : List UInt8) (offset : ℕ) : Option (List UInt32) :=
  (List.range 16).mapM (packWord bytes offset)

/-- Where the last block starts. -/
def lastBlockStart (n : ℕ) : Option ℕ := do checkedMul 32 ((← checkedSub n 1) / 64) 64

def finalOffset (n : ℕ) : Option ℕ := if n = 0 then some 0 else lastBlockStart n

section Code

variable (core : CoreBlake)

/-- One turn of the loop: `state` and `offset`. -/
def compressTurn (bytes : List UInt8) (st : List UInt32 × ℕ) : Option (List UInt32 × ℕ) := do
  let block ← packBlock bytes st.2
  let bytesSoFar ← checkedAdd 32 st.2 64
  return (core.blake2sCompress st.1 bytesSoFar block, ← checkedAdd 32 st.2 64)

/-- All blocks but the last. -/
def compressBlocks (fuel : ℕ) (bytes : List UInt8) : Option (List UInt32) :=
  if bytes.length > 64 then do
    let last ← lastBlockStart bytes.length
    let st ← loopUntil (fun st => st.2 == last) (compressTurn core bytes) fuel (initialState, 0)
    return st.1
  else some initialState

def commitBlake2sWith (fuel : ℕ) (bytes : List UInt8) : Option (List UInt32) := do
  let n := bytes.length
  let state ← compressBlocks core fuel bytes
  let finalBlock ← packBlock bytes (← finalOffset n)
  return core.blake2sFinalize state n finalBlock

end Code

/-- The compression function of the specification. -/
def rfcCore : CoreBlake where
  blake2sCompress := fun state byteCount msg => compress state msg byteCount false
  blake2sFinalize := fun state byteCount msg => compress state msg byteCount true

theorem rfcCore_isRfc : rfcCore.IsRfc := ⟨fun _ _ _ _ _ _ => rfl, fun _ _ _ _ _ _ => rfl⟩

/-- `commit_blake2s` with it, and as many turns as there are blocks. -/
def commitBlake2s (bytes : List UInt8) : Option (List UInt32) :=
  commitBlake2sWith rfcCore (bytes.length / 64 + 1) bytes

def swapU32Endian (w : ℕ) : Option ℕ := do
  let b0 := w / 0x1000000
  let b1 := w / 0x10000 &&& 0xFF
  let b2 := w / 0x100 &&& 0xFF
  let b3 := w &&& 0xFF
  let high ← checkedAdd 32 (← checkedMul 32 b3 0x1000000) (← checkedMul 32 b2 0x10000)
  checkedAdd 32 (← checkedAdd 32 high (← checkedMul 32 b1 0x100)) b0

/-- Four words as a `u128`, the first one on top. -/
def packU128 (w0 w1 w2 w3 : ℕ) : Option ℕ := do
  let s0 ← checkedMul 128 w0 0x1000000000000000000000000
  let s1 ← checkedAdd 128 s0 (← checkedMul 128 w1 0x10000000000000000)
  let s2 ← checkedAdd 128 s1 (← checkedMul 128 w2 0x100000000)
  checkedAdd 128 s2 w3

structure U256 where
  low : ℕ
  high : ℕ
  deriving DecidableEq, Repr

def U256.value (u : U256) : ℕ := u.low + 2 ^ 128 * u.high

def digestToU256Be (d : List UInt32) : Option U256 := do
  match d with
  | [d0, d1, d2, d3, d4, d5, d6, d7] =>
      let w0 ← swapU32Endian d0.toNat
      let w1 ← swapU32Endian d1.toNat
      let w2 ← swapU32Endian d2.toNat
      let w3 ← swapU32Endian d3.toNat
      let w4 ← swapU32Endian d4.toNat
      let w5 ← swapU32Endian d5.toNat
      let w6 ← swapU32Endian d6.toNat
      let w7 ← swapU32Endian d7.toNat
      let high ← packU128 w0 w1 w2 w3
      let low ← packU128 w4 w5 w6 w7
      return ⟨low, high⟩
  | _ => none

/-! ## 2. The words -/

section Words

variable {core : CoreBlake} {bytes : List UInt8} {offset i n fuel k : ℕ}

theorem byteOrZero_eq : byteOrZero bytes bytes.length i = some (byteAt bytes i) := by
  unfold byteOrZero
  split_ifs with h
  · exact at32_eq_some.mpr ⟨h, rfl⟩
  · rw [byteAt, List.getD_eq_default _ _ (Nat.not_lt.mp h)]
    rfl

theorem packWord_eq (h : offset + 64 ≤ 2 ^ 32) (hi : i < 16) :
    packWord bytes offset i = some (UInt32.ofNat (wordAt bytes (offset + i * 4))) := by
  simp only [packWord, Option.bind_eq_bind, Option.bind_eq_some_iff, checkedAdd_eq_some,
    checkedMul_eq_some, byteOrZero_eq, Option.pure_def]
  exact ⟨_, ⟨by omega, rfl⟩, _, ⟨by omega, rfl⟩, _, ⟨by omega, rfl⟩, _, rfl, _, ⟨by omega, rfl⟩, _,
    rfl, _, ⟨by omega, rfl⟩, _, rfl, _, ⟨by omega, rfl⟩, _, rfl, _, joinBytes_byteAt _ _ _ _ _, rfl⟩

theorem packBlock_eq {k : ℕ} (h : 64 * k + 64 ≤ 2 ^ 32) :
    packBlock bytes (64 * k) = some (block bytes k) :=
  mapM_eq_map fun _ hi => packWord_eq h (List.mem_range.mp hi)

theorem lastBlockStart_eq (h0 : n ≠ 0) (h : n < 2 ^ 32) :
    lastBlockStart n = some (64 * (blockCount n - 1)) := by
  rw [lastBlockStart, checkedSub_of_le (by omega), blockCount_sub_one]
  simp only [Option.bind_eq_bind, Option.bind_some]
  rw [checkedMul_of_lt (by omega), Nat.mul_comm]

theorem finalOffset_eq (h : n < 2 ^ 32) : finalOffset n = some (64 * (blockCount n - 1)) := by
  unfold finalOffset
  split_ifs with h0
  · rw [h0]
    rfl
  · exact lastBlockStart_eq h0 h

theorem length_compress (h m : List UInt32) (t : ℕ) (last : Bool) :
    (compress h m t last).length = 8 := rfl

theorem length_chain : ∀ k, (chain bytes k).length = 8
  | 0 => rfl
  | k + 1 => by rw [chain_succ, length_compress]

theorem length_block (bytes : List UInt8) (k : ℕ) : (block bytes k).length = 16 := rfl

/-- A turn goes from one chaining value to the next. -/
theorem compressTurn_eq (h : core.IsRfc) (hk : 64 * (k + 1) < 2 ^ 32) :
    compressTurn core bytes (chain bytes k, 64 * k) =
      some (chain bytes (k + 1), 64 * (k + 1)) := by
  have hlt : 64 * k + 64 < 2 ^ 32 := by omega
  simp only [compressTurn, packBlock_eq hlt.le, checkedAdd_of_lt hlt, Option.bind_eq_bind,
    Option.bind_some, Option.pure_def]
  rw [h.compress_eq _ _ _ (length_chain k) hlt (length_block bytes k), chain_succ, Nat.mul_succ]

/-- **The loop stops at the last block**, with its chaining value. -/
theorem loopUntil_compressTurn (h : core.IsRfc) (hk : 64 * k < 2 ^ 32) (hf : k < fuel) :
    loopUntil (fun st => st.2 == 64 * k) (compressTurn core bytes) fuel (initialState, 0) =
      some (chain bytes k, 64 * k) := by
  have hstep : ∀ st : List UInt32 × ℕ, (∃ j ≤ k, st = (chain bytes j, 64 * j)) →
      (st.2 == 64 * k) = false → ∃ st', compressTurn core bytes st = some st' ∧
        (∃ j ≤ k, st' = (chain bytes j, 64 * j)) ∧ k - st'.2 / 64 < k - st.2 / 64 := by
    intro st hI hd
    obtain ⟨j, hj, rfl⟩ := hI
    have hne : 64 * j ≠ 64 * k := beq_eq_false_iff_ne.mp hd
    have hlt : j < k := by omega
    refine ⟨_, compressTurn_eq h (by omega), ⟨j + 1, hlt, rfl⟩, ?_⟩
    show k - 64 * (j + 1) / 64 < k - 64 * j / 64
    omega
  obtain ⟨st, hrun, ⟨j, -, rfl⟩, hdone⟩ := loopUntil_of_variant _ _ _ _ hstep
    (show ∃ j ≤ k, (initialState, 0) = (chain bytes j, 64 * j) from ⟨0, Nat.zero_le k, rfl⟩)
    (show k - 0 / 64 < fuel by omega)
  have hjk : 64 * j = 64 * k := beq_iff_eq.mp hdone
  obtain rfl : j = k := by omega
  exact hrun

theorem compressBlocks_eq (h : core.IsRfc) (hlen : bytes.length < 2 ^ 32)
    (hf : bytes.length / 64 < fuel) :
    compressBlocks core fuel bytes = some (chain bytes (blockCount bytes.length - 1)) := by
  have hcount := blockCount_sub_one bytes.length
  unfold compressBlocks
  split_ifs with h64
  · rw [lastBlockStart_eq (by omega) hlen, Option.bind_eq_bind, Option.bind_some,
      loopUntil_compressTurn h (by omega) (by omega)]
    rfl
  · rw [hcount, show (bytes.length - 1) / 64 = 0 by omega]
    rfl

/-- **The words of BLAKE2s**, with a turn for every block. -/
theorem commitBlake2sWith_eq (h : core.IsRfc) (hlen : bytes.length < 2 ^ 32)
    (hf : bytes.length / 64 < fuel) :
    commitBlake2sWith core fuel bytes = some (hashWords bytes) := by
  have hlast : 64 * (blockCount bytes.length - 1) + 64 ≤ 2 ^ 32 := by
    rw [blockCount_sub_one]
    omega
  rw [commitBlake2sWith, compressBlocks_eq h hlen hf, finalOffset_eq hlen]
  simp only [Option.bind_eq_bind, Option.bind_some, packBlock_eq hlast, Option.pure_def]
  rw [h.finalize_eq _ _ _ (length_chain _) hlen (length_block bytes _)]
  rfl

theorem commitBlake2s_eq (h : bytes.length < 2 ^ 32) :
    commitBlake2s bytes = some (hashWords bytes) :=
  commitBlake2sWith_eq rfcCore_isRfc h (Nat.lt_succ_self _)

end Words

/-! ## 3. The digest as a number -/

/-- Bytes as a number, the first one on top. -/
def beNat (bytes : List UInt8) : ℕ := bytes.foldl (fun acc b => acc * 256 + b.toNat) 0

/-- The true commitment of a string. -/
def commitmentOf (bytes : List UInt8) : U256 :=
  ⟨beNat (digest bytes) % 2 ^ 128, beNat (digest bytes) / 2 ^ 128⟩

section Digest

variable {w0 w1 w2 w3 : ℕ}

theorem beNat_append (a b : List UInt8) : beNat (a ++ b) = beNat a * 256 ^ b.length + beNat b := by
  induction b using List.reverseRecOn with
  | nil => simp [beNat]
  | append_singleton b x ih =>
    have hsnoc : ∀ l : List UInt8, beNat (l ++ [x]) = beNat l * 256 + x.toNat :=
      fun l => List.foldl_append
    rw [← List.append_assoc, hsnoc, hsnoc, ih, List.length_append, List.length_singleton, pow_succ]
    ring

theorem beNat_leBytes (d : UInt32) : beNat (leBytes d) = d.toNat % 256 * 0x1000000 +
    d.toNat / 0x100 % 256 * 0x10000 + d.toNat / 0x10000 % 256 * 0x100 + d.toNat / 0x1000000 := by
  have hd := d.toNat_lt
  have e : beNat (leBytes d) = ((((UInt8.ofNat (d.toNat / 1)).toNat) * 256 +
      (UInt8.ofNat (d.toNat / 0x100)).toNat) * 256 + (UInt8.ofNat (d.toNat / 0x10000)).toNat) * 256 +
      (UInt8.ofNat (d.toNat / 0x1000000)).toNat := by
    simp [beNat, leBytes, List.range_succ]
  rw [e, toNat_ofNat_mod, toNat_ofNat_mod, toNat_ofNat_mod, toNat_ofNat_mod]
  omega

theorem beNat_leBytes_lt (d : UInt32) : beNat (leBytes d) < 2 ^ 32 := by
  have hd := d.toNat_lt
  rw [beNat_leBytes]
  omega

theorem swapU32Endian_eq (d : UInt32) : swapU32Endian d.toNat = some (beNat (leBytes d)) := by
  have hd := d.toNat_lt
  have hand : ∀ w : ℕ, w &&& 0xFF = w % 256 := fun w => Nat.and_two_pow_sub_one_eq_mod w 8
  rw [beNat_leBytes]
  simp only [swapU32Endian, hand, Option.bind_eq_bind, Option.bind_eq_some_iff, checkedAdd_eq_some,
    checkedMul_eq_some]
  exact ⟨_, ⟨by omega, rfl⟩, _, ⟨by omega, rfl⟩, _, ⟨by omega, rfl⟩, _, ⟨by omega, rfl⟩, _,
    ⟨by omega, rfl⟩, by omega, rfl⟩

/-- Four words in a row. -/
theorem packU128_eq (h0 : w0 < 2 ^ 32) (h1 : w1 < 2 ^ 32) (h2 : w2 < 2 ^ 32) (h3 : w3 < 2 ^ 32) :
    packU128 w0 w1 w2 w3 = some (((w0 * 2 ^ 32 + w1) * 2 ^ 32 + w2) * 2 ^ 32 + w3) := by
  simp only [packU128, Option.bind_eq_bind, Option.bind_eq_some_iff, checkedAdd_eq_some,
    checkedMul_eq_some]
  exact ⟨_, ⟨by omega, rfl⟩, _, ⟨by omega, rfl⟩, _, ⟨by omega, rfl⟩, _, ⟨by omega, rfl⟩, _,
    ⟨by omega, rfl⟩, by omega, by omega⟩

theorem beNat_words (d0 d1 d2 d3 : UInt32) : beNat ([d0, d1, d2, d3].flatMap leBytes) =
    ((beNat (leBytes d0) * 2 ^ 32 + beNat (leBytes d1)) * 2 ^ 32 + beNat (leBytes d2)) * 2 ^ 32 +
      beNat (leBytes d3) := by
  have hlen : ∀ d : UInt32, 256 ^ (leBytes d).length = 2 ^ 32 := by
    intro d
    rw [show (leBytes d).length = 4 from rfl]
    norm_num
  rw [show [d0, d1, d2, d3].flatMap leBytes =
      ((leBytes d0 ++ leBytes d1) ++ leBytes d2) ++ leBytes d3 from rfl,
    beNat_append, beNat_append, beNat_append, hlen, hlen, hlen]

theorem beNat_words_lt (d0 d1 d2 d3 : UInt32) :
    beNat ([d0, d1, d2, d3].flatMap leBytes) < 2 ^ 128 := by
  have h0 := beNat_leBytes_lt d0
  have h1 := beNat_leBytes_lt d1
  have h2 := beNat_leBytes_lt d2
  have h3 := beNat_leBytes_lt d3
  rw [beNat_words]
  omega

theorem packU128_words (a b c d : UInt32) :
    packU128 (beNat (leBytes a)) (beNat (leBytes b)) (beNat (leBytes c)) (beNat (leBytes d)) =
      some (beNat ([a, b, c, d].flatMap leBytes)) := by
  rw [beNat_words]
  exact packU128_eq (beNat_leBytes_lt a) (beNat_leBytes_lt b) (beNat_leBytes_lt c)
    (beNat_leBytes_lt d)

theorem digestToU256Be_words (d0 d1 d2 d3 d4 d5 d6 d7 : UInt32) :
    digestToU256Be [d0, d1, d2, d3, d4, d5, d6, d7] =
      some ⟨beNat ([d4, d5, d6, d7].flatMap leBytes), beNat ([d0, d1, d2, d3].flatMap leBytes)⟩ := by
  simp only [digestToU256Be, swapU32Endian_eq, Option.bind_eq_bind, Option.bind_eq_some_iff]
  exact ⟨_, rfl, _, rfl, _, rfl, _, rfl, _, rfl, _, rfl, _, rfl, _, rfl, _,
    packU128_words _ _ _ _, _, packU128_words _ _ _ _, rfl⟩

theorem beNat_eight (d0 d1 d2 d3 d4 d5 d6 d7 : UInt32) :
    beNat ([d0, d1, d2, d3, d4, d5, d6, d7].flatMap leBytes) =
      beNat ([d4, d5, d6, d7].flatMap leBytes) +
        2 ^ 128 * beNat ([d0, d1, d2, d3].flatMap leBytes) := by
  have hlen : ([d4, d5, d6, d7].flatMap leBytes).length = 16 := rfl
  have hpow : 256 ^ 16 = 2 ^ 128 := by norm_num
  rw [show [d0, d1, d2, d3, d4, d5, d6, d7] = [d0, d1, d2, d3] ++ [d4, d5, d6, d7] from rfl,
    List.flatMap_append, beNat_append, hlen, hpow, Nat.mul_comm _ (2 ^ 128)]
  exact Nat.add_comm _ _

/-- **The commitment the prover computes is the true one.** -/
theorem digestToU256Be_eq (bytes : List UInt8) :
    digestToU256Be (hashWords bytes) = some (commitmentOf bytes) := by
  have hlen := length_hashWords bytes
  unfold commitmentOf digest
  generalize hashWords bytes = words at hlen
  match words, hlen with
  | [d0, d1, d2, d3, d4, d5, d6, d7], _ =>
    have hlt := beNat_words_lt d4 d5 d6 d7
    rw [digestToU256Be_words, beNat_eight, Nat.add_mul_mod_self_left, Nat.mod_eq_of_lt hlt,
      Nat.add_mul_div_left _ _ (Nat.two_pow_pos 128), Nat.div_eq_of_lt hlt, Nat.zero_add]

end Digest

/-! ## 4. The commitment -/

/-- **Any eight words are a number**, without an overflow. -/
theorem digestToU256Be_value {d : List UInt32} (h : d.length = 8) :
    ∃ u, digestToU256Be d = some u ∧ u.low < 2 ^ 128 ∧ u.high < 2 ^ 128 ∧
      u.value = beNat (d.flatMap leBytes) := by
  match d, h with
  | [d0, d1, d2, d3, d4, d5, d6, d7], _ =>
    exact ⟨_, digestToU256Be_words _ _ _ _ _ _ _ _, beNat_words_lt _ _ _ _,
      beNat_words_lt _ _ _ _, (beNat_eight _ _ _ _ _ _ _ _).symm⟩

/-- **The commitment is BLAKE2s-256 of the bytes**, as eight little-endian words; of any words, the
    number is that of their bytes. -/
theorem commit_is_blake2s (core : CoreBlake) (h : core.IsRfc) :
    (∀ bytes : List UInt8, bytes.length < 2 ^ 32 → ∀ fuel > bytes.length / 64,
      ∃ words, commitBlake2sWith core fuel bytes = some words ∧ words.length = 8 ∧
        words.flatMap leBytes = digest bytes) ∧
    ∀ d : List UInt32, d.length = 8 → ∃ u, digestToU256Be d = some u ∧ u.low < 2 ^ 128 ∧
      u.high < 2 ^ 128 ∧ u.value = beNat (d.flatMap leBytes) :=
  ⟨fun bytes hlen _ hf => ⟨hashWords bytes, commitBlake2sWith_eq h hlen hf,
    length_hashWords bytes, rfl⟩, fun _ hd => digestToU256Be_value hd⟩

/-- The theorem at the three bytes of "abc", where the loop has no turn, and at their digest. -/
theorem commit_is_blake2s_abc :
    (∃ words, commitBlake2sWith rfcCore 1 [97, 98, 99] = some words ∧ words.length = 8 ∧
      words.flatMap leBytes = digest [97, 98, 99]) ∧
    ∃ u, digestToU256Be (hashWords [97, 98, 99]) = some u ∧ u.low < 2 ^ 128 ∧ u.high < 2 ^ 128 ∧
      u.value = beNat (digest [97, 98, 99]) :=
  ⟨(commit_is_blake2s rfcCore rfcCore_isRfc).1 [97, 98, 99] (by decide) 1 (by decide),
    (commit_is_blake2s rfcCore rfcCore_isRfc).2 (hashWords [97, 98, 99]) rfl⟩

end GroverTax.Cairo
