/-
  File:      GroverTax/Python/RegisterCodec.lean
  Subject:   The register codec of src/python/grover_tax/registers.py on the layouts of parsed
             circuits.

  * `placed` -- the bits that an assignment puts on the qubits;
  * `exists_encodeRegisters`, `decodeRegisters_eq` -- the two directions, on the wires of a state;
  * `roundTrips_iff_agree` -- an assignment comes back when the bits on one qubit agree;
  * `registerCodec_iff` -- **every assignment comes back if and only if no qubit is a member twice;
    a state with nothing outside the registers always does.**
-/
import GroverTax.Lib.Writes
import GroverTax.Python.Registers
import Mathlib.Data.List.GetD

namespace GroverTax.Python

open GroverTax.Lib GroverTax.Gtv1
open GroverTax.Kickmix (mem_of_entryOrDefault mem_of_entryPush)

/-! ## 1. Layouts -/

/-- What holds of the registers of a circuit with `n` qubits. -/
structure LayoutFits (layout : List (List Char × List ℕ)) (n : ℕ) : Prop where
  nodup : (layout.map Prod.fst).Nodup
  lt : ∀ e ∈ layout, ∀ q ∈ e.2, q < n

/-- The members of all registers. -/
def membersOf (layout : List (List Char × List ℕ)) : List ℕ := layout.flatMap Prod.snd

section Layout

variable {c : KmxCircuit} {text : List Char}

/-- A member of a register is a qubit of an item. -/
theorem mem_foldl_declare {r q : ℕ} {members : List ℕ} : ∀ {items : List Item}
    {registers : Std.ExtTreeMap ℕ (List ℕ)},
    (items.foldl Item.declare registers)[r]? = some members → q ∈ members →
      (∃ old, registers[r]? = some old ∧ q ∈ old) ∨ .qubit q ∈ items.flatMap Item.targets
  | [], _, h, hq => Or.inl ⟨_, h, hq⟩
  | item :: items, registers, h, hq => by
      rw [List.flatMap_cons, List.mem_append]
      rcases @mem_foldl_declare r q members items _ h hq with ⟨old, ho, hqo⟩ | hlater
      · cases item with
        | register k => exact Or.inl (mem_of_entryOrDefault ho hqo)
        | append q' k =>
          rcases mem_of_entryPush ho hqo with hold | rfl
          · exact Or.inl hold
          · exact Or.inr (Or.inl List.mem_cons_self)
        | x t => exact Or.inl ⟨_, ho, hqo⟩
        | cx c t => exact Or.inl ⟨_, ho, hqo⟩
        | ccx c1 c2 t => exact Or.inl ⟨_, ho, hqo⟩
      · exact Or.inr (Or.inr hlater)

theorem registerName_injective : Function.Injective fun id : ℕ => 'r' :: Nat.toDigits 10 id := by
  intro a b h
  have hdigits : Nat.toDigits 10 a = Nat.toDigits 10 b := List.tail_eq_of_cons_eq h
  rw [← @Nat.ofDigitChars_ten_toDigits a, hdigits, Nat.ofDigitChars_ten_toDigits]

/-- **The layout of a parsed circuit**: names apart, members below the qubit count. -/
theorem layoutFits_of_parseKmx (h : parseKmx text = .ok c) :
    LayoutFits (registerLayout c) c.numQubits := by
  obtain ⟨items, -, rfl⟩ := parseKmx_eq_ok.mp h
  refine ⟨?_, fun e he q hq => ?_⟩
  · have hkeys : ((circuitOf items).registers.toList.map Prod.fst).Nodup := by
      rw [Std.ExtTreeMap.map_fst_toList_eq_keys]
      exact Std.ExtTreeMap.nodup_keys
    have hnames := hkeys.map registerName_injective
    rw [List.map_map] at hnames
    rwa [registerLayout, List.map_map]
  · obtain ⟨p, hp, rfl⟩ := List.mem_map.mp he
    have hp' := Std.ExtTreeMap.mem_toList_iff_getElem?_eq_some.mp hp
    rw [circuitOf_eq] at hp'
    rcases mem_foldl_declare hp' hq with ⟨old, ho, -⟩ | hmem
    · rw [Std.ExtTreeMap.getElem?_empty] at ho
      cases ho
    · obtain ⟨-, hall⟩ :=
        (@foldl_maxTarget_le_iff (-1) _ (items.flatMap Item.targets)).mp le_rfl
      have hle := hall q hmem
      rw [circuitOf_eq]
      dsimp only
      omega

theorem numQubits_le (c : KmxCircuit) : c.numQubits ≤ 8 * minStateBytes c := by
  unfold minStateBytes
  omega

end Layout

/-! ## 2. The encoder -/

/-- The bits that an assignment puts on the qubits, in the order of the encoder. -/
def placed (layout : List (List Char × List ℕ)) (values : List (List Char × ℕ)) :
    List (ℕ × Bool) :=
  values.flatMap fun e =>
    ((layout.lookup e.1).getD []).zipIdx.map fun p => (p.1, e.2.testBit p.2)

section Encoder

variable {layout : List (List Char × List ℕ)} {values : List (List Char × ℕ)} {n : ℕ}

theorem encodeMember_eq {bv : BitVector} {p : ℕ × ℕ} (hp : p.1 < 8 * bv.data.length)
    (residue : ℕ) :
    encodeMember residue bv p = .ok ⟨writeWire bv.data p.1 (residue.testBit p.2)⟩ := by
  rw [encodeMember, Nat.shiftRight_eq_div_pow, div_two_pow_and_one, BitVector.set_of_lt hp]

/-- The inner loop writes one bit after the other. -/
theorem exists_foldlM_encodeMember (residue : ℕ) : ∀ {ps : List (ℕ × ℕ)} {bv : BitVector},
    (∀ p ∈ ps, p.1 < 8 * bv.data.length) →
    ∃ bv', ps.foldlM (encodeMember residue) bv = .ok bv' ∧ bv'.data.length = bv.data.length ∧
      wires bv'.data = writes (wires bv.data) (ps.map fun p => (p.1, residue.testBit p.2))
  | [], bv, _ => ⟨bv, rfl, rfl, rfl⟩
  | p :: ps, bv, h => by
      rw [List.forall_mem_cons] at h
      have hlen : (writeWire bv.data p.1 (residue.testBit p.2)).length = bv.data.length :=
        List.length_set
      obtain ⟨bv', hrun, hlen', hw⟩ := @exists_foldlM_encodeMember residue ps
        ⟨writeWire bv.data p.1 (residue.testBit p.2)⟩ (by rw [hlen]; exact h.2)
      refine ⟨bv', ?_, hlen'.trans hlen, ?_⟩
      · rw [List.foldlM_cons, encodeMember_eq h.1]
        exact hrun
      · rw [hw, wires_writeWire h.1]
        rfl

/-- The reduction of a value leaves the bits that are written. -/
theorem testBit_residue {members : List ℕ} {p : ℕ × ℕ} (hp : p ∈ members.zipIdx) (v : ℕ) :
    (if members.length = 0 then 0 else v &&& (1 <<< members.length - 1)).testBit p.2
      = v.testBit p.2 := by
  have hlt : p.2 < members.length := by
    have hlt := List.snd_lt_add_of_mem_zipIdx hp
    omega
  rw [if_neg (by omega), Nat.one_shiftLeft, Nat.and_two_pow_sub_one_eq_mod, Nat.testBit_mod_two_pow,
    decide_eq_true hlt, Bool.true_and]

/-- One register. -/
theorem exists_encodeRegister {bv : BitVector} {e : List Char × ℕ} {members : List ℕ}
    (hlookup : layout.lookup e.1 = some members) (hlt : ∀ q ∈ members, q < 8 * bv.data.length) :
    ∃ bv', encodeRegister layout bv e = .ok bv' ∧ bv'.data.length = bv.data.length ∧
      wires bv'.data = writes (wires bv.data) (placed layout [e]) := by
  obtain ⟨bv', hrun, hlen, hw⟩ := @exists_foldlM_encodeMember
    (if members.length = 0 then 0 else e.2 &&& (1 <<< members.length - 1)) members.zipIdx bv
    (fun p hp => hlt p.1 (List.fst_mem_of_mem_zipIdx hp))
  refine ⟨bv', ?_, hlen, ?_⟩
  · rw [encodeRegister, hlookup]
    dsimp only
    rw [hrun]
    rfl
  · have hbits : placed layout [e] = members.zipIdx.map fun p => (p.1, Nat.testBit
        (if members.length = 0 then 0 else e.2 &&& (1 <<< members.length - 1)) p.2) := by
      rw [placed, List.flatMap_singleton, hlookup, Option.getD_some]
      exact List.map_congr_left fun p hp => by rw [testBit_residue hp]
    rw [hw, hbits]

/-- The loop over the values. -/
theorem exists_foldlM_encodeRegister (hlt : ∀ e ∈ layout, ∀ q ∈ e.2, q < 8 * n) :
    ∀ {values : List (List Char × ℕ)} {bv : BitVector}, bv.data.length = n →
    (∀ e ∈ values, e.1 ∈ layout.map Prod.fst) →
    ∃ bv', values.foldlM (encodeRegister layout) bv = .ok bv' ∧ bv'.data.length = n ∧
      wires bv'.data = writes (wires bv.data) (placed layout values)
  | [], bv, hlen, _ => ⟨bv, rfl, hlen, rfl⟩
  | e :: values, bv, hlen, hkeys => by
      rw [List.forall_mem_cons] at hkeys
      obtain ⟨members, hlookup⟩ := exists_lookup hkeys.1
      have hmembers := hlt _ (mem_of_lookup hlookup)
      rw [← hlen] at hmembers
      obtain ⟨bv1, hone, hlen1, hw1⟩ := exists_encodeRegister hlookup hmembers
      obtain ⟨bv', hrun, hlen', hw⟩ :=
        exists_foldlM_encodeRegister hlt (hlen1.trans hlen) hkeys.2
      refine ⟨bv', ?_, hlen', ?_⟩
      · rw [List.foldlM_cons, hone]
        exact hrun
      · have hsplit : placed layout (e :: values) = placed layout [e] ++ placed layout values := by
          unfold placed
          rw [List.flatMap_cons, List.flatMap_singleton]
        rw [hw, hw1, hsplit, writes_append]

theorem wires_replicate (n : ℕ) : wires (List.replicate n 0) = fun _ => false := by
  funext i
  rw [wires, List.getD_eq_getElem?_getD, List.getElem?_getD_replicate_default_eq]
  exact Nat.zero_testBit _

/-- **The encoder** on registers the layout has. -/
theorem exists_encodeRegisters (hkeys : ∀ e ∈ values, e.1 ∈ layout.map Prod.fst)
    (hlt : ∀ e ∈ layout, ∀ q ∈ e.2, q < 8 * n) :
    ∃ state, encodeRegisters values layout n = .ok state ∧ state.length = n ∧
      wires state = writes (fun _ => false) (placed layout values) := by
  obtain ⟨bv, hrun, hlen, hw⟩ := @exists_foldlM_encodeRegister layout n hlt values
    ⟨List.replicate n 0⟩ List.length_replicate hkeys
  refine ⟨bv.data, ?_, hlen, ?_⟩
  · rw [encodeRegisters, hrun]
    rfl
  · rw [hw, wires_replicate]

end Encoder

/-! ## 3. The decoder -/

/-- The number whose bits are the wires at the members, the first the least. -/
def valueOf (w : ℕ → Bool) : List ℕ → ℕ
  | [] => 0
  | q :: members => Nat.bit (w q) (valueOf w members)

section Decoder

variable {layout : List (List Char × List ℕ)} {state : List UInt8} {w : ℕ → Bool}

theorem valueOf_lt (w : ℕ → Bool) : ∀ members, valueOf w members < 2 ^ members.length
  | [] => Nat.one_pos
  | q :: members => by
      have hlt := valueOf_lt w members
      have hbit := (w q).toNat_le
      rw [valueOf, Nat.bit_val, List.length_cons, pow_succ]
      omega

theorem testBit_valueOf : ∀ {members : List ℕ} {j : ℕ} (hj : j < members.length),
    (valueOf w members).testBit j = w members[j]
  | q :: members, 0, _ => Nat.testBit_bit_zero (w q) _
  | q :: members, j + 1, hj => by
      rw [valueOf, Nat.testBit_bit_succ, testBit_valueOf (Nat.lt_of_succ_lt_succ hj)]
      rfl

theorem getElem_mem_zipIdx {members : List ℕ} {j : ℕ} (hj : j < members.length) :
    (members[j], j) ∈ members.zipIdx :=
  List.mem_zipIdx_iff_getElem?.mpr (List.getElem?_eq_getElem hj)

/-- A number is read back from its bits. -/
theorem valueOf_eq_iff {members : List ℕ} {v : ℕ} (hv : v < 2 ^ members.length) :
    valueOf w members = v ↔ ∀ p ∈ members.zipIdx, w p.1 = v.testBit p.2 := by
  refine ⟨fun h p hp => ?_, fun h => Nat.eq_of_testBit_eq fun j => ?_⟩
  · obtain ⟨-, hj, hq⟩ := List.mem_zipIdx hp
    rw [← h, testBit_valueOf (by omega), hq]
    rfl
  · by_cases hj : j < members.length
    · rw [testBit_valueOf hj]
      exact h _ (getElem_mem_zipIdx hj)
    · have hle : 2 ^ members.length ≤ 2 ^ j := Nat.pow_le_pow_right Nat.two_pos (by omega)
      rw [Nat.testBit_lt_two_pow ((valueOf_lt w members).trans_le hle),
        Nat.testBit_lt_two_pow (hv.trans_le hle)]

/-- The inner loop adds one bit after the other. -/
theorem foldlM_decodeMember : ∀ {members : List ℕ} {k value : ℕ},
    (∀ q ∈ members, q < 8 * state.length) → value < 2 ^ k →
    (members.zipIdx k).foldlM (decodeMember ⟨state⟩) value =
      .ok (value + 2 ^ k * valueOf (wires state) members)
  | [], k, value, _, _ => by
      rw [valueOf, Nat.mul_zero, Nat.add_zero]
      rfl
  | q :: members, k, value, h, hvalue => by
      rw [List.forall_mem_cons] at h
      have hor : value ||| (wires state q).toNat <<< k = value + 2 ^ k * (wires state q).toNat := by
        rw [Nat.or_comm, ← Nat.shiftLeft_add_eq_or_of_lt hvalue, Nat.shiftLeft_eq]
        ring
      have hlt : value + 2 ^ k * (wires state q).toNat < 2 ^ (k + 1) := by
        have hle : 2 ^ k * (wires state q).toNat ≤ 2 ^ k * 1 :=
          Nat.mul_le_mul_left _ (wires state q).toNat_le
        rw [pow_succ]
        omega
      have hmember : decodeMember ⟨state⟩ value (q, k) =
          .ok (value + 2 ^ k * (wires state q).toNat) := by
        rw [decodeMember, BitVector.get_of_lt h.1, ← hor]
        rfl
      rw [List.zipIdx_cons, List.foldlM_cons, hmember]
      refine (foldlM_decodeMember h.2 hlt).trans ?_
      rw [valueOf, Nat.bit_val]
      ring_nf

/-- **The decoder** on registers within the state. -/
theorem decodeRegisters_eq (hlt : ∀ e ∈ layout, ∀ q ∈ e.2, q < 8 * state.length) :
    decodeRegisters state layout =
      .ok (layout.map fun e => (e.1, valueOf (wires state) e.2)) := by
  have hone : ∀ e ∈ layout, (do
      return (e.1, ← e.2.zipIdx.foldlM (decodeMember ⟨state⟩) 0) :
        Except SimError (List Char × ℕ)) = .ok (e.1, valueOf (wires state) e.2) := by
    intro e he
    rw [foldlM_decodeMember (hlt e he) Nat.one_pos, pow_zero, Nat.one_mul, Nat.zero_add]
    rfl
  rw [← toOption_eq_some, decodeRegisters, toOption_mapM]
  exact mapM_eq_map fun e he => by rw [hone e he]; rfl

end Decoder

/-! ## 4. Round trips -/

/-- Values in range for the registers of a layout, in any order. -/
structure Assigns (layout : List (List Char × List ℕ)) (values : List (List Char × ℕ)) : Prop where
  nodup : (values.map Prod.fst).Nodup
  keys : ∀ name, name ∈ values.map Prod.fst ↔ name ∈ layout.map Prod.fst
  inRange : ∀ e ∈ values, ∀ members, layout.lookup e.1 = some members → e.2 < 2 ^ members.length

/-- `decode_registers(encode_registers(values)) == values`; a `dict` is compared key by key. -/
def RoundTrips (layout : List (List Char × List ℕ)) (numBytes : ℕ)
    (values : List (List Char × ℕ)) : Prop :=
  ∃ state decoded, encodeRegisters values layout numBytes = .ok state ∧
    decodeRegisters state layout = .ok decoded ∧
    ∀ name, decoded.lookup name = values.lookup name

section RoundTrip

variable {layout : List (List Char × List ℕ)} {values : List (List Char × ℕ)} {n numBytes : ℕ}

theorem mem_placed {e : List Char × ℕ} {members : List ℕ} {m : ℕ × ℕ} (he : e ∈ values)
    (hlookup : layout.lookup e.1 = some members) (hm : m ∈ members.zipIdx) :
    (m.1, e.2.testBit m.2) ∈ placed layout values := by
  refine List.mem_flatMap.mpr ⟨e, he, List.mem_map.mpr ⟨m, ?_, rfl⟩⟩
  rw [hlookup]
  exact hm

theorem exists_of_mem_placed {p : ℕ × Bool} (h : p ∈ placed layout values) :
    ∃ e ∈ values, ∃ members, layout.lookup e.1 = some members ∧
      ∃ m ∈ members.zipIdx, p = (m.1, e.2.testBit m.2) := by
  obtain ⟨e, he, hp⟩ := List.mem_flatMap.mp h
  obtain ⟨m, hm, rfl⟩ := List.mem_map.mp hp
  cases hlookup : layout.lookup e.1 with
  | none =>
    rw [hlookup] at hm
    cases hm
  | some members =>
    rw [hlookup] at hm
    exact ⟨e, he, members, hlookup, m, hm, rfl⟩

/-- The values read are those written when every bit stands. -/
theorem lookup_eq_iff (hv : Assigns layout values) (w : ℕ → Bool) :
    (∀ name, (layout.map fun e => (e.1, valueOf w e.2)).lookup name = values.lookup name) ↔
      ∀ p ∈ placed layout values, w p.1 = p.2 := by
  refine ⟨fun h p hp => ?_, fun h name => ?_⟩
  · obtain ⟨e, he, members, hlookup, m, hm, rfl⟩ := exists_of_mem_placed hp
    have hname := h e.1
    rw [lookup_map_snd, hlookup, lookup_of_mem hv.nodup he] at hname
    have hvalue := hv.inRange e he members hlookup
    exact (valueOf_eq_iff hvalue).mp (Option.some.inj hname) m hm
  · rw [lookup_map_snd]
    cases hlookup : layout.lookup name with
    | none =>
      have hout : name ∉ values.map Prod.fst := by
        intro hin
        obtain ⟨members, hsome⟩ := exists_lookup ((hv.keys name).mp hin)
        rw [hlookup] at hsome
        cases hsome
      cases hnone : values.lookup name with
      | none => rfl
      | some v => exact absurd (List.mem_map_of_mem (mem_of_lookup hnone)) hout
    | some members =>
      have hin : name ∈ layout.map Prod.fst := List.mem_map_of_mem (mem_of_lookup hlookup)
      obtain ⟨v, hsome⟩ := exists_lookup ((hv.keys name).mpr hin)
      have he := mem_of_lookup hsome
      have hvalue : valueOf w members = v :=
        (valueOf_eq_iff (hv.inRange _ he members hlookup)).mpr fun m hm =>
          h _ (mem_placed he hlookup hm)
      rw [hsome, Option.map_some, hvalue]

/-- **An assignment comes back** exactly when the bits it puts on one qubit agree. -/
theorem roundTrips_iff_agree (hfits : LayoutFits layout n) (hn : n ≤ 8 * numBytes)
    (hv : Assigns layout values) :
    RoundTrips layout numBytes values ↔ Agree (placed layout values) := by
  have hlt : ∀ e ∈ layout, ∀ q ∈ e.2, q < 8 * numBytes := fun e he q hq =>
    (hfits.lt e he q hq).trans_le hn
  have hkeys : ∀ e ∈ values, e.1 ∈ layout.map Prod.fst := fun e he =>
    (hv.keys e.1).mp (List.mem_map_of_mem he)
  obtain ⟨state, hencode, hlen, hw⟩ := exists_encodeRegisters hkeys hlt
  rw [← hlen] at hlt
  have hdecode := decodeRegisters_eq hlt
  rw [@agree_iff _ _ _ fun _ => false, ← hw, ← lookup_eq_iff hv]
  constructor
  · intro h
    obtain ⟨state', decoded, hencode', hdecode', hsame⟩ := h
    obtain rfl := Except.ok.inj (hencode.symm.trans hencode')
    obtain rfl := Except.ok.inj (hdecode.symm.trans hdecode')
    exact hsame
  · exact fun h => ⟨state, _, hencode, hdecode, h⟩

/-- The value with one bit for one register, and zero for the others. -/
def spike (layout : List (List Char × List ℕ)) (name : List Char) (i : ℕ) :
    List (List Char × ℕ) :=
  layout.map fun e => (e.1, if e.1 = name then 2 ^ i else 0)

theorem assigns_spike (hfits : LayoutFits layout n) {e : List Char × List ℕ} (he : e ∈ layout)
    {i : ℕ} (hi : i < e.2.length) : Assigns layout (spike layout e.1 i) := by
  have hfst : (spike layout e.1 i).map Prod.fst = layout.map Prod.fst := by
    rw [spike, List.map_map]
    rfl
  refine ⟨hfst ▸ hfits.nodup, fun name => by rw [hfst], ?_⟩
  intro e' he' members hlookup
  obtain ⟨e0, he0, rfl⟩ := List.mem_map.mp he'
  dsimp only at hlookup ⊢
  split_ifs with hname
  · have hmembers : layout.lookup e0.1 = some e.2 := by
      rw [hname]
      exact lookup_of_mem hfits.nodup he
    obtain rfl := Option.some.inj (hlookup.symm.trans hmembers)
    exact Nat.pow_lt_pow_right Nat.one_lt_two hi
  · exact Nat.two_pow_pos _

/-- Where every assignment agrees, a qubit has one place only. -/
theorem place_unique (hfits : LayoutFits layout n)
    (h : ∀ values, Assigns layout values → Agree (placed layout values))
    {e e' : List Char × List ℕ} (he : e ∈ layout) (he' : e' ∈ layout) {m m' : ℕ × ℕ}
    (hm : m ∈ e.2.zipIdx) (hm' : m' ∈ e'.2.zipIdx) (hq : m.1 = m'.1) :
    e.1 = e'.1 ∧ m.2 = m'.2 := by
  have hi : m.2 < e.2.length := by
    have hlt := List.snd_lt_add_of_mem_zipIdx hm
    omega
  have hspike : ∀ e0 ∈ layout, (e0.1, if e0.1 = e.1 then 2 ^ m.2 else 0) ∈ spike layout e.1 m.2 :=
    fun e0 he0 => List.mem_map.mpr ⟨e0, he0, rfl⟩
  -- the bit is set at the first place, so it is at the second
  have hbit := h _ (assigns_spike hfits he hi)
    _ (mem_placed (hspike e he) (lookup_of_mem hfits.nodup he) hm)
    _ (mem_placed (hspike e' he') (lookup_of_mem hfits.nodup he') hm') hq
  dsimp only at hbit
  rw [if_pos rfl, Nat.testBit_two_pow_self] at hbit
  split_ifs at hbit with hname
  · rw [Nat.testBit_two_pow] at hbit
    exact ⟨hname.symm, of_decide_eq_true hbit.symm⟩
  · rw [Nat.zero_testBit] at hbit
    cases hbit

theorem nodup_membersOf (hfits : LayoutFits layout n)
    (h : ∀ values, Assigns layout values → Agree (placed layout values)) :
    (membersOf layout).Nodup := by
  refine List.nodup_flatMap.mpr ⟨fun e he => ?_, ?_⟩
  · refine List.nodup_iff_injective_getElem.mpr fun i j hij => Fin.ext ?_
    exact (place_unique hfits h he he (getElem_mem_zipIdx i.2) (getElem_mem_zipIdx j.2) hij).2
  · refine (List.pairwise_map.mp hfits.nodup).imp_of_mem fun {e e'} he he' hne => ?_
    refine List.disjoint_left.mpr fun q hq hq' => hne ?_
    obtain ⟨i, hi, hqi⟩ := List.getElem_of_mem hq
    obtain ⟨j, hj, hqj⟩ := List.getElem_of_mem hq'
    exact (place_unique hfits h he he' (getElem_mem_zipIdx hi) (getElem_mem_zipIdx hj)
      (hqi.trans hqj.symm)).1

/-- Where no qubit is a member twice, two bits on one qubit are one bit. -/
theorem agree_placed (h : (membersOf layout).Nodup) (hnd : (values.map Prod.fst).Nodup) :
    Agree (placed layout values) := by
  obtain ⟨hmembers, hapart⟩ := List.nodup_flatMap.mp h
  intro p hp p' hp' hq
  obtain ⟨e, he, members, hlookup, m, hm, rfl⟩ := exists_of_mem_placed hp
  obtain ⟨e', he', members', hlookup', m', hm', rfl⟩ := exists_of_mem_placed hp'
  have hin := mem_of_lookup hlookup
  have hin' := mem_of_lookup hlookup'
  have hsymm : Std.Symm (Function.onFun List.Disjoint
      (Prod.snd : List Char × List ℕ → List ℕ)) := ⟨fun _ _ hd => hd.symm⟩
  -- registers that share a qubit are one register, whose members are apart
  have hsame : (e.1, members) = (e'.1, members') := by
    by_contra hne
    exact hapart.forall hin hin' hne (List.fst_mem_of_mem_zipIdx hm)
      (hq ▸ List.fst_mem_of_mem_zipIdx hm')
  obtain ⟨hname, rfl⟩ := Prod.mk.inj hsame
  have hvalue : e.2 = e'.2 := by
    have hsome := lookup_of_mem hnd he
    rw [hname, lookup_of_mem hnd he'] at hsome
    exact (Option.some.inj hsome).symm
  have hplace : m.2 = m'.2 := by
    have hget := List.mem_zipIdx_iff_getElem?.mp hm
    rw [hq, ← List.mem_zipIdx_iff_getElem?.mp hm'] at hget
    exact (List.getElem?_inj (by have hlt := List.snd_lt_of_mem_zipIdx hm; omega)
      (hmembers _ hin)).mp hget
  rw [hvalue, hplace]

/-- **All assignments agree** exactly when no qubit is a member twice. -/
theorem forall_agree_iff (hfits : LayoutFits layout n) :
    (∀ values, Assigns layout values → Agree (placed layout values)) ↔
      (membersOf layout).Nodup :=
  ⟨nodup_membersOf hfits, fun h _ hv => agree_placed h hv.nodup⟩

/-- **A state with nothing outside the registers comes back.** -/
theorem encode_decodeRegisters (hfits : LayoutFits layout n) (hn : n ≤ 8 * numBytes)
    {state : List UInt8} (hlen : state.length = numBytes)
    (hzero : ∀ q ∉ membersOf layout, wires state q = false) :
    ∃ values, decodeRegisters state layout = .ok values ∧
      encodeRegisters values layout numBytes = .ok state := by
  have hlt : ∀ e ∈ layout, ∀ q ∈ e.2, q < 8 * numBytes := fun e he q hq =>
    (hfits.lt e he q hq).trans_le hn
  have hdecode := @decodeRegisters_eq layout state (by rwa [hlen])
  refine ⟨_, hdecode, ?_⟩
  have hkeys : ∀ e ∈ layout.map fun e => (e.1, valueOf (wires state) e.2),
      e.1 ∈ layout.map Prod.fst := by
    intro e he
    obtain ⟨e0, he0, rfl⟩ := List.mem_map.mp he
    exact List.mem_map_of_mem he0
  obtain ⟨state', hencode, hlen', hw⟩ := exists_encodeRegisters hkeys hlt
  have hsame : wires state' = wires state := by
    rw [hw]
    refine writes_eq (fun p hp => ?_) fun q hq => ?_
    · obtain ⟨e, he, members, hlookup, m, hm, rfl⟩ := exists_of_mem_placed hp
      obtain ⟨e0, he0, rfl⟩ := List.mem_map.mp he
      obtain rfl := Option.some.inj ((lookup_of_mem hfits.nodup he0).symm.trans hlookup)
      exact (valueOf_eq_iff (valueOf_lt _ _)).mp rfl m hm
    · refine (hzero q fun hmem => hq ?_).symm
      obtain ⟨e0, he0, hq0⟩ := List.mem_flatMap.mp hmem
      obtain ⟨j, hj, rfl⟩ := List.getElem_of_mem hq0
      exact List.mem_map_of_mem (mem_placed (List.mem_map_of_mem he0)
        (lookup_of_mem hfits.nodup he0) (getElem_mem_zipIdx hj))
  rw [hencode, bytes_ext (hlen'.trans hlen.symm) hsame]

end RoundTrip

/-! ## 5. The codec of a parsed circuit -/

section Codec

variable {text : List Char} {c : KmxCircuit}

/-- **The codec on a parsed layout**: an assignment comes back when the bits on one qubit agree,
    every assignment does if and only if no qubit is a member twice, and a state with nothing
    outside the registers always does. -/
theorem registerCodec_iff (h : parseKmx text = .ok c) :
    (∀ numBytes values, minStateBytes c ≤ numBytes → Assigns (registerLayout c) values →
      (RoundTrips (registerLayout c) numBytes values ↔ Agree (placed (registerLayout c) values))) ∧
    ((∀ values, Assigns (registerLayout c) values →
      RoundTrips (registerLayout c) (minStateBytes c) values) ↔
        (membersOf (registerLayout c)).Nodup) ∧
    ∀ state : List UInt8, state.length = minStateBytes c →
      (∀ q ∉ membersOf (registerLayout c), wires state q = false) →
      ∃ values, decodeRegisters state (registerLayout c) = .ok values ∧
        encodeRegisters values (registerLayout c) (minStateBytes c) = .ok state := by
  have hfits := layoutFits_of_parseKmx h
  have hn := numQubits_le c
  refine ⟨fun numBytes values hle hv => ?_, ?_, fun state hlen hzero => ?_⟩
  · exact roundTrips_iff_agree hfits (hn.trans (Nat.mul_le_mul_left 8 hle)) hv
  · rw [← forall_agree_iff hfits]
    exact forall_congr' fun values => imp_congr_right fun hv => roundTrips_iff_agree hfits hn hv
  · exact encode_decodeRegisters hfits hn hlen hzero

/-- Two registers of two qubits each. -/
def twoRegisters : List Char :=
  ("APPEND_TO_REGISTER q0 r0\nAPPEND_TO_REGISTER q2 r0\n" ++
    "APPEND_TO_REGISTER q3 r1\nAPPEND_TO_REGISTER q1 r1\n").toList

theorem registerCodec_iff_twoRegisters : ∃ c, parseKmx twoRegisters = .ok c ∧
    ∀ values, Assigns (registerLayout c) values →
      RoundTrips (registerLayout c) (minStateBytes c) values := by
  have hlayout : (parseKmx twoRegisters).map registerLayout =
      .ok [(ACC_REGISTER, [0, 2]), (OFFSET_REGISTER, [3, 1])] := by decide +kernel
  obtain ⟨c, hc, hl⟩ := map_eq_ok.mp hlayout
  have hmembers : (membersOf (registerLayout c)).Nodup := by
    rw [hl]
    decide
  exact ⟨c, hc, (registerCodec_iff hc).2.1.mpr hmembers⟩

/-- A register that has its qubit twice. -/
def repeatedMember : List Char := "APPEND_TO_REGISTER q0 r0\nAPPEND_TO_REGISTER q0 r0\n".toList

/-- The value 1 is in range, and comes back as 0. -/
theorem repeatedMember_overwritten : ∃ c, parseKmx repeatedMember = .ok c ∧
    Assigns (registerLayout c) [(ACC_REGISTER, 1)] ∧
    ¬ RoundTrips (registerLayout c) (minStateBytes c) [(ACC_REGISTER, 1)] := by
  have hlayout : (parseKmx repeatedMember).map (fun c => (registerLayout c, minStateBytes c)) =
      .ok ([(ACC_REGISTER, [0, 0])], 1) := by decide +kernel
  obtain ⟨c, hc, hpair⟩ := map_eq_ok.mp hlayout
  obtain ⟨hl, hb⟩ := Prod.mk.inj hpair
  refine ⟨c, hc, ⟨by decide, fun name => by rw [hl]; rfl, ?_⟩, ?_⟩
  · intro e he members hmembers
    obtain rfl := List.mem_singleton.mp he
    rw [hl] at hmembers
    obtain rfl := Option.some.inj hmembers
    decide
  · rw [hl, hb]
    intro hback
    obtain ⟨state, decoded, hencode, hdecode, hsame⟩ := hback
    have hstate : encodeRegisters [(ACC_REGISTER, 1)] [(ACC_REGISTER, [0, 0])] 1 = .ok [0] := rfl
    obtain rfl := Except.ok.inj (hstate.symm.trans hencode)
    have hzero : decodeRegisters [0] [(ACC_REGISTER, [0, 0])] = .ok [(ACC_REGISTER, 0)] := rfl
    obtain rfl := Except.ok.inj (hzero.symm.trans hdecode)
    exact absurd (hsame ACC_REGISTER) (by decide)

end Codec

end GroverTax.Python
