/-
  File:      GroverTax/Kickmix/RegisterIo.lean
  Subject:   Register input and output at every width a parsed circuit can declare.

  * `loadMembers_fits` -- a load that returns has found members that fit a `u128`;
  * `outputMask_eq_mod` -- the mask of `check_case` is right at every width;
  * `registerIo_iff` -- **a load and a read are inverse exactly up to width 128**: behind it the
    shifts leave the 128 bits.
-/
import GroverTax.Kickmix.Verdict

namespace GroverTax.Kickmix

open GroverTax.Lib

/-- Loading `value` into a register and reading it back, and the expected output `check_case`
    compares with. -/
def RegisterIo (c : Circuit) (s : State) (r width value : ℕ) : Prop :=
  (∃ s', loadRegister s c r value = some s' ∧
    readRegister s' c r = some (value % 2 ^ width)) ∧
  ∀ expected < 2 ^ 128, expected &&& outputMask width = expected % 2 ^ width

section Io

variable {c : Circuit} {s s' : State} {members : List ℕ} {r value : ℕ}

/-- **A load that returns shifted by less than 128 places.** -/
theorem loadMembers_length : ∀ {members : List ℕ} {j : ℕ} {s s' : State},
    loadMembers value j members s = some s' → j ≤ 128 → j + members.length ≤ 128
  | [], _, _, _, _, hj => hj
  | q :: members, j, s, s', h, _ => by
      unfold loadMembers at h
      split_ifs at h with hj
      obtain ⟨s1, _, h⟩ := Option.bind_eq_some_iff.mp h
      have ih := loadMembers_length h hj
      rw [List.length_cons]
      omega

theorem loadMembers_fits (h : loadMembers value 0 members s = some s') :
    Fits s.qubits.length members :=
  ⟨Nat.zero_add members.length ▸ loadMembers_length h (Nat.zero_le _), loadMembers_lt h⟩

theorem outputMask_eq_mod {expected : ℕ} (width : ℕ) (h : expected < 2 ^ 128) :
    expected &&& outputMask width = expected % 2 ^ width := by
  by_cases hw : width ≤ 128
  · exact outputMask_and expected hw
  · have hle : 2 ^ 128 ≤ 2 ^ width := Nat.pow_le_pow_right (by decide) (by omega)
    rw [outputMask, if_pos (by omega), Nat.and_two_pow_sub_one_eq_mod, Nat.mod_eq_of_lt h,
      Nat.mod_eq_of_lt (h.trans_le hle)]

/-- **A load and a read are inverse exactly on members that fit.** -/
theorem registerIo_iff_fits (hr : c.registers[r]? = some members) (hnd : members.Nodup) :
    RegisterIo c s r members.length value ↔ Fits s.qubits.length members := by
  constructor
  · intro h'
    obtain ⟨⟨s', hload, -⟩, -⟩ := h'
    rw [loadRegister, hr] at hload
    exact loadMembers_fits hload
  · intro hfit
    obtain ⟨s', hload⟩ := @loadMembers_total value members 0 s hfit.2 (by
      rw [Nat.zero_add]; exact hfit.1)
    refine ⟨⟨s', by rw [loadRegister, hr]; exact hload, ?_⟩,
      fun expected h => outputMask_eq_mod members.length h⟩
    have hfit' : Fits s'.qubits.length members := by
      rw [(loadMembers_frame hload).qubits]
      exact hfit
    rw [readRegister_eq hr hfit', Option.some.injEq,
      regValue_eq_iff (Nat.mod_lt _ (Nat.two_pow_pos _))]
    intro j hj
    rw [loadMembers_spec hload hnd j hj, Nat.zero_add, Nat.testBit_mod_two_pow, decide_eq_true hj,
      Bool.true_and]

/-- A register member is a qubit of the circuit when the cast to `isize` keeps its id. -/
theorem member_lt_iff {text : List Char} (h : parse text = pure c)
    (hr : c.registers[r]? = some members) {q : ℕ} (hq : q ∈ members) :
    q < c.numQubits ↔ q < 2 ^ 63 := by
  obtain ⟨insts, -, hb⟩ := parse_eq_pure.mp h
  obtain ⟨hmax, -, hbuilt⟩ := build_eq_pure.mp hb
  rw [hbuilt.numQubits]
  constructor
  · intro hlt
    omega
  · intro hlt
    obtain ⟨inst, hi, hqi⟩ := hbuilt.exists_of_member hr hq
    have hle : asIsize q ≤ maxQubitOf insts :=
      mem_foldl_bumpQubit _ _ (List.mem_flatMap.mpr ⟨inst, hi, hqi⟩)
    rw [asIsize_of_lt hlt] at hle
    omega

/-- **Register input and output of a parsed circuit is right exactly up to width 128**, on members
    whose ids the cast to `isize` keeps. -/
theorem registerIo_iff {text : List Char} (h : parse text = pure c)
    (hr : c.registers[r]? = some members) (hnd : members.Nodup)
    (hs : s.qubits.length = c.numQubits) :
    RegisterIo c s r members.length value ↔ members.length ≤ 128 ∧ ∀ q ∈ members, q < 2 ^ 63 := by
  rw [registerIo_iff_fits hr hnd, hs]
  exact and_congr_right fun _ => forall₂_congr fun q hq => member_lt_iff h hr hq

end Io

/-! ## A register of 129 qubits -/

section Wide

/-- The line `APPEND_TO_REGISTER q<q> r0`. -/
def appendLine (q : ℕ) : List Char :=
  "APPEND_TO_REGISTER q".toList ++ (Nat.toDigits 10 q ++ " r0\n".toList)

def appendInst (q : ℕ) : Instruction := ⟨"APPEND_TO_REGISTER", [.qubit q, .register 0], none⟩

def wideText (n : ℕ) : List Char := (List.range n).flatMap appendLine

theorem declare_appendInst (registers : Std.ExtTreeMap ℕ (List ℕ)) (q : ℕ) :
    (declare registers (appendInst q))[0]? = some (registers[0]?.getD [] ++ [q]) := by
  show (entryPush registers 0 q)[0]? = _
  rw [entryPush, Std.ExtTreeMap.getElem?_alter_self]

theorem foldl_declare_appendInst (q : ℕ) : ∀ (qs : List ℕ) (registers : Std.ExtTreeMap ℕ (List ℕ)),
    (((q :: qs).map appendInst).foldl declare registers)[0]? =
      some (registers[0]?.getD [] ++ q :: qs)
  | [], registers => declare_appendInst registers q
  | p :: qs, registers => by
      have ih := foldl_declare_appendInst p qs (declare registers (appendInst q))
      rw [declare_appendInst, Option.getD_some, List.append_assoc] at ih
      exact ih

theorem exists_build {insts : List Instruction} (hq : maxQubitOf insts + 1 < 2 ^ 63)
    (hb : maxBitOf insts + 1 < 2 ^ 63) : ∃ c, build insts = pure c :=
  ⟨⟨insts, insts.foldl declare ∅, (maxQubitOf insts + 1).toNat, (maxBitOf insts + 1).toNat⟩,
    build_eq_pure.mpr ⟨hq, hb, rfl, rfl, rfl, rfl⟩⟩

theorem readLines_wideText : readLines 1 (lines (wideText 129)) =
    pure ((List.range 129).map appendInst) := by
  have h : Option.bind (readLines 1 (lines (wideText 129)) : Option (Except _ _)) Except.toOption =
      some ((List.range 129).map appendInst) := by decide +kernel
  obtain ⟨r, hr, hok⟩ := Option.bind_eq_some_iff.mp h
  rw [toOption_eq_some.mp hok] at hr
  exact hr

theorem registerIo_iff_qubit : ∃ c, parse (appendLine 0) = pure c ∧
    (RegisterIo c (State.new c.numQubits c.numBits) 0 [0].length 3 ↔
      [0].length ≤ 128 ∧ ∀ q ∈ [0], q < 2 ^ 63) := by
  have hparse : parse (appendLine 0) = pure ⟨[appendInst 0], entryPush ∅ 0 0, 1, 0⟩ := rfl
  have hreg : (entryPush ∅ 0 0)[0]? = some [0] := declare_appendInst ∅ 0
  exact ⟨_, hparse, registerIo_iff hparse hreg (List.nodup_singleton 0) rfl⟩

/-- A register of 129 distinct qubits is accepted, and its last member cannot be loaded. -/
theorem wide_register_unloadable : ∃ c members, parse (wideText 129) = pure c ∧
    c.registers[0]? = some members ∧ members.Nodup ∧
    ¬ RegisterIo c (State.new c.numQubits c.numBits) 0 members.length 0 := by
  obtain ⟨c, hc⟩ := @exists_build ((List.range 129).map appendInst) (by decide +kernel)
    (by decide +kernel)
  have hreg : c.registers[0]? = some (List.range 129) := by
    rw [(build_eq_pure.mp hc).2.2.registers]
    exact foldl_declare_appendInst 0 ((List.range 128).map Nat.succ) ∅
  refine ⟨c, List.range 129, parse_eq_pure.mpr ⟨_, readLines_wideText, hc⟩, hreg,
    List.nodup_range, fun hio => ?_⟩
  have hfit := ((registerIo_iff_fits hreg List.nodup_range).mp hio).1
  rw [List.length_range] at hfit
  omega

end Wide

end GroverTax.Kickmix
