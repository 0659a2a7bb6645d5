/-
  File:      GroverTax/Kickmix/Shake.lean
  Subject:   The hand-written `shake256` is SHAKE-256.

  A state of lanes is a string of 1600 bits (`bitString`), a byte string a string of bits
  (`Keccak.bytesToBits`).
  * `bitString_absorbBlock` -- one block of 136 bytes is one block of 1088 bits;
  * `bytesToBits_padMessage` -- the padding in bytes is the suffix 1111 and pad10*1;
  * `shake256_is_fips202`.
-/
import GroverTax.Kickmix.Keccak

namespace GroverTax.Kickmix

open GroverTax.Lib

/-! ## 1. The state as a bit string -/

section State

variable {st : Lanes} {i : ℕ}

/-- **The bits of the lanes**, the lowest bit of a lane first. -/
def bitString (st : Lanes) : List Bool := Keccak.toBits (array st)

@[simp] theorem length_bitString (st : Lanes) : (bitString st).length = 1600 :=
  Keccak.length_toBits _

theorem getD_bitString (h : i < 1600) :
    (bitString st).getD i false = (lane st (i / 64)).toBitVec.getLsbD (i % 64) := by
  have e : 5 * (i / 320 % 5) + i / 64 % 5 = i / 64 := by omega
  rw [bitString, Keccak.getD_toBits h]
  show (lane st (5 * (i / 320 % 5) + i / 64 % 5)).toBitVec.getLsbD (i % 64) = _
  rw [e]

/-- **The permutation is Keccak-f[1600]**, on strings. -/
theorem keccakF_bitString (h : st.length = 25) :
    Keccak.keccakF (bitString st) = bitString (keccakF1600 st) := by
  rw [Keccak.keccakF, bitString, Keccak.toArray_toBits, ← (array_keccakF1600 h).2, bitString]

theorem iterate_keccakF : ∀ (n : ℕ) (st : Lanes), st.length = 25 →
    Keccak.keccakF^[n] (bitString st) = bitString (keccakF1600^[n] st)
  | 0, _, _ => rfl
  | n + 1, st, h => by
      rw [Function.iterate_succ_apply, Function.iterate_succ_apply, keccakF_bitString h,
        iterate_keccakF n _ (array_keccakF1600 h).1]

end State

/-! ## 2. Absorbing -/

section Absorb

variable {msg : List UInt8} {st : Lanes} {i k n p : ℕ}

theorem testBit_byte_of_le (b : UInt8) {k : ℕ} (hk : 8 ≤ k) : b.toNat.testBit k = false :=
  Nat.testBit_lt_two_pow (b.toNat_lt.trans_le (Nat.pow_le_pow_right (by decide) hk))

/-- The loop over the eight bytes of a lane, after `n` of them. -/
theorem testBit_messageLane_fold (msg : List UInt8) (q : ℕ) {z : ℕ} (hz : z < 64) : ∀ n ≤ 8,
    ((List.range n).foldl (fun lane b =>
      lane ||| ((msg.getD (q + b) 0).toUInt64 <<< UInt64.ofNat (8 * b))) 0).toNat.testBit z =
        (decide (z < 8 * n) && (msg.getD (q + z / 8) 0).toNat.testBit (z % 8))
  | 0, _ => by simp
  | n + 1, hn => by
      have hshift : (UInt64.ofNat (8 * n)).toNat % 64 = 8 * n := by
        rw [UInt64.toNat_ofNat']
        omega
      rw [List.range_succ, List.foldl_append, List.foldl_cons, List.foldl_nil, UInt64.toNat_or,
        Nat.testBit_or, testBit_messageLane_fold msg q hz n (by omega), UInt64.toNat_shiftLeft,
        hshift, UInt8.toNat_toUInt64, Nat.testBit_mod_two_pow, Nat.testBit_shiftLeft,
        decide_eq_true hz, Bool.true_and]
      by_cases hlow : z < 8 * n
      · rw [decide_eq_true hlow, decide_eq_true (show z < 8 * (n + 1) by omega),
          decide_eq_false (show ¬ z ≥ 8 * n by omega), Bool.false_and, Bool.or_false]
      · rw [decide_eq_false hlow, Bool.false_and, Bool.false_or,
          decide_eq_true (show z ≥ 8 * n by omega), Bool.true_and]
        by_cases hin : z < 8 * (n + 1)
        · rw [decide_eq_true hin, Bool.true_and, show z / 8 = n by omega,
            show z - 8 * n = z % 8 by omega]
        · rw [decide_eq_false hin, Bool.false_and, testBit_byte_of_le _ (by omega)]

theorem getLsbD_messageLane (msg : List UInt8) (p i : ℕ) {z : ℕ} (hz : z < 64) :
    (messageLane msg p i).toBitVec.getLsbD z =
      (msg.getD (p + i * 8 + z / 8) 0).toNat.testBit (z % 8) := by
  have := testBit_messageLane_fold msg (p + i * 8) hz 8 (le_refl 8)
  rwa [decide_eq_true (show z < 8 * 8 by omega), Bool.true_and] at this

/-- The lanes of a state with a block added. -/
def addBlock (msg : List UInt8) (st : Lanes) (p : ℕ) : Lanes :=
  (List.range (RATE / 8)).foldl (fun st i => st.set i (lane st i ^^^ messageLane msg p i)) st

theorem absorbBlock_eq (msg : List UInt8) (st : Lanes) (p : ℕ) :
    absorbBlock msg st p = keccakF1600 (addBlock msg st p) := rfl

theorem lane_addBlock (msg : List UInt8) (p : ℕ) (h : st.length = 25) : (addBlock msg st p).length = 25 ∧
    ∀ j, lane (addBlock msg st p) j =
      if j < 17 then lane st j ^^^ messageLane msg p j else lane st j := by
  obtain ⟨hlen, hlane⟩ := lane_foldl_set (fun i v => v ^^^ messageLane msg p i)
    (List.range (RATE / 8)) st List.nodup_range (by rw [h]; decide)
  refine ⟨hlen.trans h, fun j => (hlane j).trans (if_congr List.mem_range rfl rfl)⟩

/-- **A block of the message is a block of its bits.** -/
theorem bitString_addBlock (h : st.length = 25) (hk : 136 * k + 136 ≤ msg.length) :
    bitString (addBlock msg st (k * RATE)) =
      Keccak.addBlock 1600 1088 (Keccak.bytesToBits msg) (bitString st) k := by
  have hblock : 1088 * k + 1088 ≤ (Keccak.bytesToBits msg).length := by
    rw [Keccak.length_bytesToBits]
    omega
  have hlen := Keccak.length_addBlock (length_bitString st) (show 1088 ≤ 1600 by decide) hblock
  refine ext_getD false ((length_bitString _).trans hlen.symm) fun i hi => ?_
  rw [length_bitString] at hi
  rw [getD_bitString hi, (lane_addBlock msg _ h).2,
    Keccak.getD_addBlock (length_bitString st) (by decide) hblock hi, getD_bitString hi]
  by_cases hin : i < 1088
  · have e1 : k * RATE + i / 64 * 8 + i % 64 / 8 = (1088 * k + i) / 8 := by
      unfold RATE
      omega
    have e2 : i % 64 % 8 = (1088 * k + i) % 8 := by omega
    rw [if_pos (by omega), if_pos hin, UInt64.toBitVec_xor, BitVec.getLsbD_xor,
      getLsbD_messageLane _ _ _ (Nat.mod_lt _ (by decide)), Keccak.getD_bytesToBits (by omega),
      e1, e2]
  · rw [if_neg (by omega), if_neg hin, Bool.xor_false]

theorem bitString_zero : bitString (List.replicate 25 0) = List.replicate 1600 false := by
  refine ext_getD false ((length_bitString _).trans List.length_replicate.symm) fun i hi => ?_
  rw [length_bitString] at hi
  rw [getD_bitString hi, lane, getD_replicate_self, getD_replicate_self]
  exact BitVec.getLsbD_zero

theorem bitString_absorbBlock (h : st.length = 25) (hk : 136 * k + 136 ≤ msg.length) :
    (absorbBlock msg st (k * RATE)).length = 25 ∧ bitString (absorbBlock msg st (k * RATE)) =
      Keccak.keccakF (Keccak.addBlock 1600 1088 (Keccak.bytesToBits msg) (bitString st) k) := by
  have hadd := (lane_addBlock msg (k * RATE) h).1
  rw [absorbBlock_eq, ← bitString_addBlock h hk, keccakF_bitString hadd]
  exact ⟨(array_keccakF1600 hadd).1, rfl⟩

/-- The blocks of a list of places, one by one. -/
theorem bitString_absorb_fold (ks : List ℕ) (hks : ∀ k ∈ ks, 136 * k + 136 ≤ msg.length) :
    ∀ st : Lanes, st.length = 25 →
      (ks.foldl (fun st k => absorbBlock msg st (k * RATE)) st).length = 25 ∧
      bitString (ks.foldl (fun st k => absorbBlock msg st (k * RATE)) st) =
        ks.foldl (fun S k => Keccak.keccakF
          (Keccak.addBlock 1600 1088 (Keccak.bytesToBits msg) S k)) (bitString st) := by
  induction ks with
  | nil =>
    intro st h
    rw [List.foldl_nil, List.foldl_nil]
    exact ⟨h, rfl⟩
  | cons k ks ih =>
    intro st h
    obtain ⟨hk, hks⟩ := List.forall_mem_cons.mp hks
    obtain ⟨hlen, he⟩ := bitString_absorbBlock h hk
    rw [List.foldl_cons, List.foldl_cons, ← he]
    exact ih hks _ hlen

/-- **Absorbing a message of whole blocks.** -/
theorem bitString_absorb (h : msg.length = 136 * n) :
    (absorb msg (List.replicate 25 0)).length = 25 ∧
    bitString (absorb msg (List.replicate 25 0)) =
      Keccak.absorb Keccak.keccakF 1600 1088 (Keccak.bytesToBits msg) := by
  have hblocks : (msg.length + RATE - 1) / RATE = n := by
    rw [h]
    unfold RATE
    omega
  have hbits : (Keccak.bytesToBits msg).length / 1088 = n := by
    rw [Keccak.length_bytesToBits, h]
    omega
  obtain ⟨hlen, he⟩ := bitString_absorb_fold (List.range n) (fun k hk => by
    have := List.mem_range.mp hk
    show 136 * k + 136 ≤ msg.length
    omega) (List.replicate 25 0) List.length_replicate
  unfold absorb Keccak.absorb
  rw [hblocks, hbits, ← bitString_zero]
  exact ⟨hlen, he⟩

end Absorb

/-! ## 3. Padding -/

section Padding

variable (input : List UInt8)

/-- The padding byte count of the source. -/
def padLength : ℕ := RATE - input.length % RATE

/-- The last byte takes the high bit. -/
theorem padMessage_of_last {l : List UInt8} {a : UInt8}
    (h : input ++ [0x1f] ++ List.replicate (padLength input - 1) 0 = l ++ [a]) :
    padMessage input = l ++ [a ||| 0x80] := by
  have hlast : (l ++ [a]).length - 1 = l.length := by
    rw [List.length_append, List.length_singleton, Nat.add_sub_cancel]
  unfold padMessage
  dsimp only
  rw [← padLength, h, hlast, List.getD_append_right _ _ _ _ (Nat.le_refl _), Nat.sub_self,
    List.set_append_right _ _ (Nat.le_refl _), Nat.sub_self]
  rfl

/-- One byte holds both ends of the padding, or there is a last byte of its own. -/
theorem padMessage_eq : (padLength input = 1 ∧ padMessage input = input ++ [0x9f]) ∨
    ∃ n, padLength input = n + 2 ∧
      padMessage input = input ++ [0x1f] ++ List.replicate n 0 ++ [0x80] := by
  have hpos : 1 ≤ padLength input := by
    have := Nat.mod_lt input.length (show RATE > 0 by decide)
    unfold padLength
    omega
  rcases Nat.exists_eq_add_of_le hpos with ⟨_ | n, hn⟩
  · refine Or.inl ⟨hn, (padMessage_of_last input (l := input) (a := 0x1f) ?_).trans rfl⟩
    rw [hn]
    exact List.append_nil _
  · refine Or.inr ⟨n, by omega, (padMessage_of_last input
      (l := input ++ [0x1f] ++ List.replicate n 0) (a := 0) ?_).trans rfl⟩
    rw [hn, show 1 + (n + 1) - 1 = n + 1 by omega, List.replicate_succ', ← List.append_assoc]

theorem padLength_zeros (n : ℕ) (h : 8 * padLength input = n + 6) :
    ((-((8 * input.length + 4 : ℕ) : ℤ) - 2) % (1088 : ℕ)).toNat = n := by
  have hmod := Nat.div_add_mod input.length 136
  unfold padLength RATE at h
  omega

/-- **The padding in bytes is the suffix 1111 and pad10*1.** -/
theorem bytesToBits_padMessage : Keccak.bytesToBits (padMessage input) =
    Keccak.bytesToBits input ++ [true, true, true, true] ++
      Keccak.pad101 1088 (8 * input.length + 4) := by
  rcases padMessage_eq input with ⟨hpad, he⟩ | ⟨n, hpad, he⟩
  · rw [he, Keccak.bytesToBits_append, Keccak.pad101, padLength_zeros input 2 (by omega),
      List.append_assoc]
    rfl
  · rw [he, Keccak.bytesToBits_append, Keccak.bytesToBits_append, Keccak.bytesToBits_append,
      Keccak.bytesToBits_zeros, Keccak.pad101, padLength_zeros input (3 + 8 * n + 7) (by omega),
      ← List.replicate_append_replicate, ← List.replicate_append_replicate]
    simp only [List.append_assoc, List.cons_append]
    rfl

theorem length_padMessage : (padMessage input).length = 136 * (input.length / 136 + 1) := by
  have hmod := Nat.div_add_mod input.length 136
  rcases padMessage_eq input with ⟨hpad, he⟩ | ⟨n, hpad, he⟩
  · unfold padLength RATE at hpad
    rw [he, List.length_append, List.length_singleton]
    omega
  · unfold padLength RATE at hpad
    simp only [he, List.length_append, List.length_singleton, List.length_replicate]
    omega

end Padding

/-! ## 4. Squeezing -/

/-- A byte of the state is eight bits of its string. -/
theorem testBit_stateByte (st : Lanes) {i k : ℕ} (hk : k < 8) :
    (stateByte st i).toNat.testBit k = (lane st (i / 8)).toBitVec.getLsbD (8 * (i % 8) + k) := by
  have hshift : (UInt64.ofNat (8 * (i % 8))).toNat % 64 = 8 * (i % 8) := by
    rw [UInt64.toNat_ofNat']
    omega
  unfold stateByte
  rw [UInt64.toNat_toUInt8, UInt64.toNat_and, UInt64.toNat_shiftRight, hshift,
    Nat.testBit_mod_two_pow, decide_eq_true hk, Bool.true_and, Nat.testBit_and,
    Nat.testBit_shiftRight]
  have hmask : (0xff : UInt64).toNat.testBit k = true := by
    revert k
    decide
  rw [hmask, Bool.and_true]
  rfl

/-- **The hand-written `shake256` is SHAKE-256**, for every input and every output length. -/
theorem shake256_is_fips202 (input : List UInt8) (outLen : ℕ) :
    Keccak.bytesToBits (shake256 input outLen) =
      Keccak.shake256 (Keccak.bytesToBits input) (8 * outLen) := by
  obtain ⟨hlen, habsorb⟩ := bitString_absorb (length_padMessage input)
  have hpad : Keccak.bytesToBits (padMessage input) =
      Keccak.bytesToBits input ++ [true, true, true, true] ++ Keccak.pad101 (1600 - 512)
        (Keccak.bytesToBits input ++ [true, true, true, true]).length := by
    rw [bytesToBits_padMessage, List.length_append, Keccak.length_bytesToBits]
    rfl
  unfold Keccak.shake256 Keccak.sponge Keccak.squeeze
  rw [← hpad, show 1600 - 512 = 1088 by rfl, ← habsorb]
  refine ext_getD false ?_ fun t ht => ?_
  · rw [Keccak.length_bytesToBits, length_shake256, List.length_map, List.length_range]
  · rw [Keccak.length_bytesToBits, length_shake256] at ht
    have hbyte : t / 8 < outLen := by omega
    have hrate : t % 1088 < 1600 := by omega
    have e1 : t / 8 / RATE = t / 1088 := by rw [RATE, Nat.div_div_eq_div_mul]
    have e2 : t / 8 % RATE / 8 = t % 1088 / 64 := by unfold RATE; omega
    have e3 : 8 * (t / 8 % RATE % 8) + t % 8 = t % 1088 % 64 := by unfold RATE; omega
    rw [Keccak.getD_bytesToBits (by rwa [length_shake256]), shake256_eq,
      List.getD_eq_getElem _ _ (by simpa using hbyte), List.getElem_map, List.getElem_range,
      testBit_stateByte _ (Nat.mod_lt t (by decide)), e1, e2, e3,
      List.getD_eq_getElem _ _ (by simpa using ht), List.getElem_map, List.getElem_range,
      iterate_keccakF _ _ hlen, getD_bitString hrate]

end GroverTax.Kickmix
