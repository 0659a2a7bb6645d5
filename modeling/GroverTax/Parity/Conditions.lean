/-
  File:      GroverTax/Parity/Conditions.lean
  Subject:   Condition blocks in the two simulators.

  A block means the same on both sides: its body when the bit is on at the push, and nothing
  otherwise, at every depth and whatever the body does to the bit. Each side has one panic of its
  own on the way: the Rust simulator at a PUSH_CONDITION without bit, active or not, and the Cairo
  one at a condition stack that does not fit a `u32`.
-/
import GroverTax.Cairo.Conditions
import GroverTax.Kickmix.Conditions

namespace GroverTax.Parity

open GroverTax.Lib GroverTax.Kickmix

/-- Every PUSH_CONDITION of a program names its bit. -/
def PushesNameBits (body : List Instruction) : Prop :=
  ∀ inst ∈ body, Op.ofName inst.name = some .pushCondition → inst.condition ≠ none

theorem namesBit_eq_some {inst : Instruction} : namesBit inst = some () ↔
    (Op.ofName inst.name = some .pushCondition → inst.condition ≠ none) := by
  rw [← bracketOf_opens]
  unfold namesBit
  split_ifs with h
  · cases inst.condition <;> simp [h]
  · simp [h]

/-- **Condition blocks mean what the instruction set says, in both simulators.** -/
theorem conditionBlocks {M : Type} [MeasureSource M] {body : List Instruction}
    {records : List Cairo.Kickmix.Inst} (hbody : Balanced bracketOf 0 body)
    (hrecords : Balanced Cairo.Kickmix.bracketOf 0 records) (b : ℕ) (s : State) (m : M)
    (c : Cairo.Kickmix.State) (rng : Cairo.Kickmix.Rng)
    (hnames : s.getBit b = false → PushesNameBits body)
    (hdepth : c.condLen + 1 + nesting Cairo.Kickmix.bracketOf 0 records < 2 ^ 32) :
    runInstructions (conditionBlock b body) s m =
        (if s.getBit b then runInstructions body s m else some (s, m)) ∧
      Option.Rel Cairo.Kickmix.SameVisible
        (Cairo.Kickmix.run c rng (Cairo.Kickmix.conditionBlock b records))
        (if c.getB b = 0 then some (c, rng) else Cairo.Kickmix.run c rng records) := by
  refine ⟨?_, Cairo.Kickmix.run_block hrecords b rng hdepth⟩
  rw [runInstructions_block hbody]
  cases hv : s.getBit b with
  | true => rfl
  | false =>
    have hrun : Lib.run (fun _ inst => namesBit inst) () body = some () :=
      run_checks.mpr fun inst hi => namesBit_eq_some.mpr (hnames hv inst hi)
    rw [hrun]
    rfl

/-- A body that clears its own bit, then opens a block in the block. -/
def clearAndFlip : List Instruction :=
  [⟨"BIT_STORE0", [.bit 0], none⟩, ⟨"PUSH_CONDITION", [], some 1⟩, ⟨"X", [.qubit 0], none⟩,
    ⟨"POP_CONDITION", [], none⟩]

/-- Its records. -/
def clearAndFlipRecords : List Cairo.Kickmix.Inst :=
  (Cairo.Kickmix.encodeProgram clearAndFlip).getD []

theorem conditionBlocks_clearAndFlip :
    runInstructions (conditionBlock 0 clearAndFlip) ⟨[false], [true, true], false, []⟩
        (SplitMix64.new 0) = some (⟨[true], [false, true], false, []⟩, SplitMix64.new 0) ∧
      Option.Rel Cairo.Kickmix.SameVisible
        (Cairo.Kickmix.run Cairo.Kickmix.newState (Cairo.Kickmix.rngNew 0)
          (Cairo.Kickmix.conditionBlock 0 clearAndFlipRecords))
        (some (Cairo.Kickmix.newState, Cairo.Kickmix.rngNew 0)) := by
  have h := @conditionBlocks SplitMix64 _ clearAndFlip clearAndFlipRecords
    (by decide +kernel) (by decide +kernel) 0 ⟨[false], [true, true], false, []⟩ (SplitMix64.new 0)
    Cairo.Kickmix.newState (Cairo.Kickmix.rngNew 0)
    (fun _ => by unfold PushesNameBits; decide +kernel) (by decide +kernel)
  refine ⟨h.1.trans ?_, h.2⟩
  decide +kernel

/-- A block in the block, whose push names no bit. -/
def pushWithoutBit : List Instruction :=
  [⟨"PUSH_CONDITION", [], none⟩, ⟨"POP_CONDITION", [], none⟩]

/-- **The panics**: an inactive push without bit, and an active block on a full condition stack. -/
theorem conditionBlock_panics :
    (Balanced bracketOf 0 pushWithoutBit ∧
      runInstructions (conditionBlock 0 pushWithoutBit) (State.new 0 1) (SplitMix64.new 0) =
        none) ∧
      ∃ c : Cairo.Kickmix.State, c.condLen < 2 ^ 32 ∧ c.getB 0 = 1 ∧
        Cairo.Kickmix.run c (Cairo.Kickmix.rngNew 0) (Cairo.Kickmix.conditionBlock 0 []) = none ∧
        Cairo.Kickmix.run c (Cairo.Kickmix.rngNew 0) [] = some (c, Cairo.Kickmix.rngNew 0) := by
  refine ⟨⟨by decide +kernel, by decide +kernel⟩,
    ⟨fun _ => 0, fun _ => 1, 0, fun _ => 1, 2 ^ 32 - 1⟩, by decide, rfl, ?_, rfl⟩
  rw [Cairo.Kickmix.run_conditionBlock, checkedAdd, if_neg (by decide)]
  rfl

end GroverTax.Parity
