/-
  File:      GroverTax/Kickmix/FiatShamir.lean
  Subject:   The case derivation of src/kickmix/src/fiat_shamir.rs: SHAKE-256 over the circuit
             hash, cut into pairs of little-endian operands.

  The Keccak state is a list of 25 lanes, read with a default that no index reaches. A slice out of
  range, a `width` or `num_samples` that an assertion refuses, an overflow of `usize` and a vector
  of more than `isize::MAX` bytes are panics.
-/
import GroverTax.Kickmix.Syntax
import GroverTax.Lib.Chunks
import GroverTax.Lib.LittleEndian
import GroverTax.Lib.Run

namespace GroverTax.Kickmix

open GroverTax.Lib

/-! ## 1. Keccak -/

/-- The rate in bytes. -/
def RATE : ℕ := 136

def KECCAK_RC : List UInt64 :=
  [0x0000000000000001, 0x0000000000008082, 0x800000000000808a, 0x8000000080008000,
    0x000000000000808b, 0x0000000080000001, 0x8000000080008081, 0x8000000000008009,
    0x000000000000008a, 0x0000000000000088, 0x0000000080008009, 0x000000008000000a,
    0x000000008000808b, 0x800000000000008b, 0x8000000000008089, 0x8000000000008003,
    0x8000000000008002, 0x8000000000000080, 0x000000000000800a, 0x800000008000000a,
    0x8000000080008081, 0x8000000000008080, 0x0000000080000001, 0x8000000080008008]

def KECCAK_ROTC : List ℕ :=
  [1, 3, 6, 10, 15, 21, 28, 36, 45, 55, 2, 14, 27, 41, 56, 8, 25, 43, 62, 18, 39, 61, 20, 44]

def KECCAK_PILN : List ℕ :=
  [10, 7, 11, 17, 18, 3, 5, 16, 8, 21, 24, 4, 15, 23, 19, 13, 12, 2, 20, 14, 22, 9, 6, 1]

abbrev Lanes := List UInt64

def lane (st : Lanes) (i : ℕ) : UInt64 := st.getD i 0

/-- `u64::rotate_left`, by less than 64 places. -/
def rotateLeft (x : UInt64) (n : ℕ) : UInt64 :=
  (x <<< UInt64.ofNat n) ||| (x >>> UInt64.ofNat (64 - n))

def theta (st : Lanes) : Lanes :=
  let bc := (List.range 5).map fun i =>
    lane st i ^^^ lane st (i + 5) ^^^ lane st (i + 10) ^^^ lane st (i + 15) ^^^ lane st (i + 20)
  (List.range 5).foldl (fun st i =>
    let t := lane bc ((i + 4) % 5) ^^^ rotateLeft (lane bc ((i + 1) % 5)) 1
    [0, 5, 10, 15, 20].foldl (fun st j => st.set (j + i) (lane st (j + i) ^^^ t)) st) st

/-- Rho and pi: the lane under way is the second component. -/
def rhoPi (st : Lanes) : Lanes :=
  ((List.range 24).foldl (fun (st, t) i =>
    let j := KECCAK_PILN.getD i 0
    (st.set j (rotateLeft t (KECCAK_ROTC.getD i 0)), lane st j)) (st, lane st 1)).1

def chi (st : Lanes) : Lanes :=
  [0, 5, 10, 15, 20].foldl (fun st k =>
    let bc := (st.drop k).take 5
    (List.range 5).foldl (fun st i =>
      st.set (k + i) (lane st (k + i) ^^^ (~~~(lane bc ((i + 1) % 5)) &&& lane bc ((i + 2) % 5))))
      st) st

def iota (rc : UInt64) (st : Lanes) : Lanes := st.set 0 (lane st 0 ^^^ rc)

def keccakF1600 (st : Lanes) : Lanes :=
  KECCAK_RC.foldl (fun st rc => iota rc (chi (rhoPi (theta st)))) st

/-! ## 2. SHAKE-256 -/

/-- The message with its padding: the domain byte, zeros, and the high bit of the last byte. -/
def padMessage (input : List UInt8) : List UInt8 :=
  let pad := RATE - input.length % RATE
  let msg := input ++ [0x1f] ++ List.replicate (pad - 1) 0
  let last := msg.length - 1
  msg.set last (msg.getD last 0 ||| 0x80)

/-- Lane `i` of the block that starts at byte `p`. -/
def messageLane (msg : List UInt8) (p i : ℕ) : UInt64 :=
  (List.range 8).foldl (fun lane b =>
    lane ||| ((msg.getD (p + i * 8 + b) 0).toUInt64 <<< UInt64.ofNat (8 * b))) 0

def absorbBlock (msg : List UInt8) (st : Lanes) (p : ℕ) : Lanes :=
  keccakF1600 ((List.range (RATE / 8)).foldl
    (fun st i => st.set i (lane st i ^^^ messageLane msg p i)) st)

/-- The blocks start at every multiple of the rate below the padded length. -/
def absorb (msg : List UInt8) (st : Lanes) : Lanes :=
  (List.range ((msg.length + RATE - 1) / RATE)).foldl (fun st k => absorbBlock msg st (k * RATE)) st

/-- Byte `i` of the state. -/
def stateByte (st : Lanes) (i : ℕ) : UInt8 :=
  ((lane st (i / 8) >>> UInt64.ofNat (8 * (i % 8))) &&& 0xff).toUInt8

/-- At most `blocks` blocks of output, `outLen` bytes in all. The source skips the permutation
    after the last block, which nothing reads. -/
def squeeze : ℕ → Lanes → ℕ → List UInt8
  | 0, _, _ => []
  | blocks + 1, st, outLen =>
      let take := min RATE outLen
      (List.range take).map (stateByte st) ++ squeeze blocks (keccakF1600 st) (outLen - take)

def shake256 (input : List UInt8) (outLen : ℕ) : List UInt8 :=
  squeeze ((outLen + RATE - 1) / RATE) (absorb (padMessage input) (List.replicate 25 0)) outLen

/-- **Byte `i` of the output** is byte `i % RATE` of the state after `i / RATE` permutations. -/
theorem squeeze_eq : ∀ (blocks : ℕ) (st : Lanes) (outLen : ℕ), outLen ≤ blocks * RATE →
    squeeze blocks st outLen =
      (List.range outLen).map fun i => stateByte (keccakF1600^[i / RATE] st) (i % RATE)
  | 0, st, outLen, h => by
      rw [Nat.zero_mul, Nat.le_zero] at h
      rw [h]
      rfl
  | blocks + 1, st, outLen, h => by
      have hle : outLen - min RATE outLen ≤ blocks * RATE := by
        rw [Nat.succ_mul] at h
        omega
      have hsplit : List.range outLen = List.range (min RATE outLen) ++
          (List.range (outLen - min RATE outLen)).map (min RATE outLen + ·) := by
        rw [← List.range_add, Nat.add_sub_cancel' (Nat.min_le_right _ _)]
      rw [squeeze, squeeze_eq blocks _ _ hle, hsplit, List.map_append, List.map_map]
      congr 1
      · refine List.map_congr_left fun i hi => ?_
        have hi : i < RATE := (List.mem_range.mp hi).trans_le (Nat.min_le_left _ _)
        rw [Nat.div_eq_of_lt hi, Nat.mod_eq_of_lt hi]
        rfl
      · refine List.map_congr_left fun i hi => ?_
        have hi := List.mem_range.mp hi
        have hmin : min RATE outLen = RATE := by omega
        rw [hmin, Function.comp_apply, Nat.add_div_left _ (by decide), Nat.add_mod_left,
          Function.iterate_succ_apply]

theorem shake256_eq (input : List UInt8) (outLen : ℕ) : shake256 input outLen =
    (List.range outLen).map fun i =>
      stateByte (keccakF1600^[i / RATE] (absorb (padMessage input) (List.replicate 25 0)))
        (i % RATE) := by
  refine squeeze_eq _ _ _ ?_
  have hr : 0 < RATE := by decide
  have := Nat.div_add_mod (outLen + RATE - 1) RATE
  have := Nat.mod_lt (outLen + RATE - 1) hr
  rw [Nat.mul_comm]
  omega

/-- The output has the requested length. -/
theorem length_shake256 (input : List UInt8) (outLen : ℕ) :
    (shake256 input outLen).length = outLen := by
  rw [shake256_eq, List.length_map, List.length_range]

/-- **A shorter output is a prefix of a longer one.** -/
theorem take_shake256 (input : List UInt8) {m n : ℕ} (h : m ≤ n) :
    (shake256 input n).take m = shake256 input m := by
  rw [shake256_eq, shake256_eq, ← List.map_take, List.take_range, Nat.min_eq_left h]

/-! ## 3. Cases -/

def leU128 (bytes : List UInt8) : ℕ :=
  (bytes.zipIdx.foldl (fun v (b, i) => v ||| (b.toNat <<< (8 * i)) % 2 ^ 128) 0)

/-- `&buf[start..start + n]`. -/
def slice (buf : List UInt8) (start n : ℕ) : Option (List UInt8) :=
  if start + n ≤ buf.length then some ((buf.drop start).take n) else none

/-- `u128::MAX` at full width, else `width` ones. -/
def operandMask (width : ℕ) : ℕ := if width = 128 then 2 ^ 128 - 1 else 1 <<< width - 1

/-- `isize::MAX`: `Vec::with_capacity` panics when asked for more bytes. -/
def isizeMax : ℕ := 2 ^ 63 - 1

/-- The size of a `(u128, u128)` in bytes. -/
def caseBytes : ℕ := 32

/-- The buffer is allocated by `shake256`, at its whole length at once. -/
def deriveCases (circuitHash : List UInt8) (width numSamples : ℕ) : Option (List (ℕ × ℕ)) :=
  if ¬ (1 ≤ width ∧ width ≤ 128) then none
  else if numSamples = 0 then none
  else
    let nbytes := (width + 7) / 8
    if usizeSize ≤ numSamples * 2 * nbytes then none
    else if isizeMax < numSamples * 2 * nbytes then none
    else
      let buf := shake256 circuitHash (numSamples * 2 * nbytes)
      if isizeMax < numSamples * caseBytes then none
      else (List.range numSamples).mapM fun k => do
        let base := k * 2 * nbytes
        let x := leU128 (← slice buf base nbytes) &&& operandMask width
        let y := leU128 (← slice buf (base + nbytes) nbytes) &&& operandMask width
        return (x, y)

/-- The vector of the cases is the larger of the two: where it can be allocated, so can the buffer. -/
theorem buffer_le_isizeMax {width numSamples : ℕ} (h128 : width ≤ 128)
    (hcap : numSamples * caseBytes ≤ isizeMax) :
    numSamples * 2 * ((width + 7) / 8) ≤ isizeMax := by
  have hbytes : 2 * ((width + 7) / 8) ≤ caseBytes := by
    unfold caseBytes
    omega
  calc numSamples * 2 * ((width + 7) / 8) = numSamples * (2 * ((width + 7) / 8)) := Nat.mul_assoc ..
    _ ≤ numSamples * caseBytes := Nat.mul_le_mul_left _ hbytes
    _ ≤ isizeMax := hcap

theorem operandMask_eq (width : ℕ) : operandMask width = 2 ^ width - 1 := by
  unfold operandMask
  split_ifs with h1
  · rw [h1]
  · rw [Nat.one_shiftLeft]

/-- Every operand fits the register. -/
theorem deriveCases_lt {circuitHash : List UInt8} {width numSamples : ℕ} {cases : List (ℕ × ℕ)}
    (h : deriveCases circuitHash width numSamples = some cases) :
    ∀ p ∈ cases, p.1 < 2 ^ width ∧ p.2 < 2 ^ width := by
  unfold deriveCases at h
  dsimp only at h
  split_ifs at h
  have hlt : ∀ v, v &&& operandMask width < 2 ^ width := by
    intro v
    rw [operandMask_eq, Nat.and_two_pow_sub_one_eq_mod]
    exact Nat.mod_lt _ (Nat.two_pow_pos _)
  intro p hp
  obtain ⟨k, _, hk⟩ := exists_of_mem_mapM h p hp
  simp only [Option.bind_eq_bind, Option.bind_eq_some_iff, Option.pure_def,
    Option.some.injEq] at hk
  obtain ⟨_, _, _, _, rfl⟩ := hk
  exact ⟨hlt _, hlt _⟩

theorem leU128_append (bytes : List UInt8) (b : UInt8) : leU128 (bytes ++ [b]) =
    leU128 bytes ||| (b.toNat <<< (8 * bytes.length)) % 2 ^ 128 := by
  unfold leU128
  rw [List.zipIdx_append, List.foldl_append, Nat.zero_add]
  rfl

/-- The bytes of a `u128`, shifted into place, are its digits. -/
theorem leU128_eq {bytes : List UInt8} (h : bytes.length ≤ 16) : leU128 bytes = leNat bytes := by
  induction bytes using List.reverseRecOn with
  | nil => rfl
  | append_singleton bytes b ih =>
    rw [List.length_append, List.length_singleton] at h
    have hb := b.toNat_lt
    have hlt := leNat_lt bytes
    have e : (256 : ℕ) ^ bytes.length = 2 ^ (8 * bytes.length) := (pow_mul 2 8 _).symm
    have hle : 2 ^ (8 * bytes.length) * 2 ^ 8 ≤ 2 ^ 128 := by
      rw [← pow_add]
      exact Nat.pow_le_pow_right (by decide) (by omega)
    have hfit : b.toNat <<< (8 * bytes.length) < 2 ^ 128 := by
      rw [Nat.shiftLeft_eq, Nat.mul_comm]
      exact (Nat.mul_lt_mul_of_pos_left hb (Nat.two_pow_pos _)).trans_le hle
    rw [leU128_append, ih (by omega), Nat.mod_eq_of_lt hfit, leNat_append, Nat.lor_comm,
      ← Nat.shiftLeft_add_eq_or_of_lt (e ▸ hlt), Nat.shiftLeft_eq, e, Nat.add_comm, Nat.mul_comm,
      leNat, leNat, Nat.mul_zero, Nat.add_zero]

/-- Operand `j` of a circuit hash: its bytes of the stream, masked to the width. -/
def operand (circuitHash : List UInt8) (width j : ℕ) : ℕ :=
  leNat (chunk ((width + 7) / 8) (shake256 circuitHash ((width + 7) / 8 * j + (width + 7) / 8)) j) %
    2 ^ width

/-- A chunk of the stream does not depend on how much of it is asked for. -/
theorem chunk_shake256 (input : List UInt8) {k i n : ℕ} (h : k * i + k ≤ n) :
    chunk k (shake256 input n) i = chunk k (shake256 input (k * i + k)) i := by
  have hfull : (shake256 input (k * i + k)).drop (k * i) =
      ((shake256 input (k * i + k)).drop (k * i)).take k := by
    rw [List.take_of_length_le (by rw [List.length_drop, length_shake256]; omega)]
  rw [chunk, chunk, ← hfull, ← take_shake256 input h, List.drop_take, Nat.add_sub_cancel_left]

/-- **What the derivation returns**: the operands of the stream, two by two. -/
theorem deriveCases_eq (circuitHash : List UInt8) {width numSamples : ℕ} (h1 : 1 ≤ width)
    (h128 : width ≤ 128) (hn : 0 < numSamples)
    (hcap : numSamples * caseBytes ≤ isizeMax) :
    deriveCases circuitHash width numSamples = some ((List.range numSamples).map fun k =>
      (operand circuitHash width (2 * k), operand circuitHash width (2 * k + 1))) := by
  have hbuf := buffer_le_isizeMax h128 hcap
  have husize : isizeMax < usizeSize := by decide
  unfold deriveCases
  dsimp only
  rw [if_neg (not_not.mpr ⟨h1, h128⟩), if_neg (by omega), if_neg (by omega), if_neg (by omega),
    if_neg (by omega)]
  refine mapM_eq_map fun k hk => ?_
  generalize hb : (width + 7) / 8 = nbytes
  have h16 : nbytes ≤ 16 := by omega
  have hbound : (k + 1) * (2 * nbytes) ≤ numSamples * (2 * nbytes) :=
    Nat.mul_le_mul_right _ (List.mem_range.mp hk)
  have hslice : ∀ j, nbytes * j + nbytes ≤ numSamples * 2 * nbytes →
      slice (shake256 circuitHash (numSamples * 2 * nbytes)) (nbytes * j) nbytes =
        some (chunk nbytes (shake256 circuitHash (nbytes * j + nbytes)) j) := by
    intro j hj
    rw [slice, length_shake256, if_pos hj, ← chunk_shake256 circuitHash hj]
    rfl
  have hval : ∀ j, leU128 (chunk nbytes (shake256 circuitHash (nbytes * j + nbytes)) j) &&&
      operandMask width = operand circuitHash width j := by
    intro j
    have hl : (chunk nbytes (shake256 circuitHash (nbytes * j + nbytes)) j).length = nbytes :=
      length_chunk (length_shake256 _ _).ge
    rw [leU128_eq (hl.le.trans h16), operandMask_eq, Nat.and_two_pow_sub_one_eq_mod, operand, hb]
  have e0 : k * 2 * nbytes = nbytes * (2 * k) := by ring
  have e1 : k * 2 * nbytes + nbytes = nbytes * (2 * k + 1) := by ring
  have hle1 : nbytes * (2 * k + 1) + nbytes ≤ numSamples * 2 * nbytes := by
    calc nbytes * (2 * k + 1) + nbytes = (k + 1) * (2 * nbytes) := by ring
      _ ≤ numSamples * (2 * nbytes) := hbound
      _ = numSamples * 2 * nbytes := by ring
  have hle0 : nbytes * (2 * k) + nbytes ≤ numSamples * 2 * nbytes := by
    have : nbytes * (2 * k) + nbytes ≤ nbytes * (2 * k + 1) + nbytes := by
      rw [Nat.mul_succ]
      omega
    exact this.trans hle1
  rw [e1, e0, hslice _ hle0, hslice _ hle1, ← hval, ← hval]
  rfl

/-- A call that returns asked for no vector that is too large. -/
theorem capacity_of_deriveCases {circuitHash : List UInt8} {width numSamples : ℕ}
    {cases : List (ℕ × ℕ)} (h : deriveCases circuitHash width numSamples = some cases) :
    numSamples * caseBytes ≤ isizeMax := by
  unfold deriveCases at h
  dsimp only at h
  split_ifs at h with _ _ _ _ hcap
  exact Nat.le_of_not_lt hcap

/-- **A call the assertions let through returns exactly when the vector of the cases can be
    allocated.** -/
theorem exists_deriveCases_iff (circuitHash : List UInt8) {width numSamples : ℕ} (h1 : 1 ≤ width)
    (h128 : width ≤ 128) (hn : 0 < numSamples) :
    (∃ cases, deriveCases circuitHash width numSamples = some cases) ↔
      numSamples * caseBytes ≤ isizeMax :=
  ⟨fun ⟨_, h⟩ => capacity_of_deriveCases h, fun hcap =>
    ⟨_, deriveCases_eq circuitHash h1 h128 hn hcap⟩⟩

end GroverTax.Kickmix
