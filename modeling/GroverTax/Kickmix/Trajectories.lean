/-
  File:      GroverTax/Kickmix/Trajectories.lean
  Subject:   The measurement trajectories of the cases of one circuit: the generators of
             `case_measure`, src/kickmix/src/statement.rs, and the words they produce.

  A word is `mix` of the state; a trajectory adds the same constant to the state before each word.
  * `word_injective` -- the word at any place determines the seed: no step of `mix` loses a bit;
  * `caseMeasure_injOn` -- below 2^64 the index determines the seed, under every hash;
  * `caseMeasure_words_apart` -- **so two cases differ from their first word on**;
  * `caseMeasure_succ` -- they may be shifted copies all the same: under a hash that begins with
    eight zeros the next case has the same words, less the first.
-/
import GroverTax.Kickmix.Statement
import GroverTax.Lib.Mixers

namespace GroverTax.Kickmix

open GroverTax.Lib

/-! ## 1. Words -/

/-- The constant that the generator adds to its state, and that an index is multiplied by. -/
def GAMMA : UInt64 := 0x9E3779B97F4A7C15

/-- What `next_u64` makes of the state. -/
def mix (z : UInt64) : UInt64 :=
  let z := (z ^^^ (z >>> 30)) * 0xBF58476D1CE4E5B9
  let z := (z ^^^ (z >>> 27)) * 0x94D049BB133111EB
  z ^^^ (z >>> 31)

theorem nextU64_eq (s : SplitMix64) : s.nextU64 = (mix (s.state + GAMMA), ⟨s.state + GAMMA⟩) := rfl

/-- The generator after a word. -/
def SplitMix64.next (s : SplitMix64) : SplitMix64 := s.nextU64.2

/-- Word `n` of a trajectory. -/
def SplitMix64.word (s : SplitMix64) (n : ℕ) : UInt64 := (SplitMix64.next^[n] s).nextU64.1

/-- **No step of the mixer loses a bit**: the shifts are positive and the multipliers odd. -/
theorem mix_injective : Function.Injective mix := by
  have hfirst : Function.Injective fun z : UInt64 => (z ^^^ (z >>> 30)) * 0xBF58476D1CE4E5B9 :=
    (UInt64.mul_odd_injective (by decide)).comp
      (UInt64.xorShift_injective (by decide) (by decide))
  have hsecond : Function.Injective fun z : UInt64 => (z ^^^ (z >>> 27)) * 0x94D049BB133111EB :=
    (UInt64.mul_odd_injective (by decide)).comp
      (UInt64.xorShift_injective (by decide) (by decide))
  have hlast : Function.Injective fun z : UInt64 => z ^^^ (z >>> 31) :=
    UInt64.xorShift_injective (by decide) (by decide)
  exact hlast.comp (hsecond.comp hfirst)

/-- The state that a word is made of determines the one before it. -/
theorem eq_of_add_gamma {s t : SplitMix64} (h : s.state + GAMMA = t.state + GAMMA) : s = t := by
  cases s
  cases t
  exact congrArg SplitMix64.mk ((UInt64.add_left_inj GAMMA).mp h)

theorem next_injective : Function.Injective SplitMix64.next := by
  intro s t h
  exact eq_of_add_gamma (SplitMix64.mk.inj h)

/-- **The word at a place determines the seed.** -/
theorem word_injective (n : ℕ) : Function.Injective fun s : SplitMix64 => s.word n := by
  have hfirst : Function.Injective fun s : SplitMix64 => s.nextU64.1 := by
    intro s t h
    exact eq_of_add_gamma (mix_injective h)
  exact hfirst.comp (next_injective.iterate n)

/-! ## 2. Cases -/

section Cases

variable {circuitHash : List UInt8} {i j : ℕ}

/-- The first eight bytes of the hash, the lowest first. -/
def hashPrefix (circuitHash : List UInt8) : UInt64 :=
  (circuitHash.take 8).zipIdx.foldl
    (fun seed (b, i) => seed ||| (b.toUInt64 <<< UInt64.ofNat (8 * i))) 0

theorem caseMeasure_eq (circuitHash : List UInt8) (i : ℕ) :
    caseMeasure circuitHash i = ⟨hashPrefix circuitHash ^^^ (UInt64.ofNat i * GAMMA)⟩ := rfl

/-- **The index determines the seed.** -/
theorem caseMeasure_injOn (circuitHash : List UInt8) :
    Set.InjOn (caseMeasure circuitHash) {i | i < 2 ^ 64} := by
  intro i hi j hj h
  rw [caseMeasure_eq, caseMeasure_eq, SplitMix64.mk.injEq, UInt64.xor_right_inj] at h
  have hindex : UInt64.ofNat i = UInt64.ofNat j := UInt64.mul_odd_injective (by decide) h
  rw [← UInt64.toNat_ofNat_of_lt' hi, hindex, UInt64.toNat_ofNat_of_lt' hj]

/-- **Two cases differ in their seeds and in every word, at the same place.** -/
theorem word_caseMeasure_ne (hi : i < 2 ^ 64) (hj : j < 2 ^ 64) (hij : i ≠ j) (n : ℕ) :
    (caseMeasure circuitHash i).word n ≠ (caseMeasure circuitHash j).word n := by
  intro h
  exact hij (caseMeasure_injOn circuitHash hi hj (word_injective n h))

/-- **The trajectories of two cases are apart from their first word**: the seeds differ, and the
    output of the generator is injective in its state. -/
theorem caseMeasure_words_apart (circuitHash : List UInt8) :
    (Function.Injective fun state : UInt64 => (SplitMix64.new state).nextU64.1) ∧
      ∀ i j, i < 2 ^ 64 → j < 2 ^ 64 → i ≠ j →
        (caseMeasure circuitHash i).state ≠ (caseMeasure circuitHash j).state ∧
        (caseMeasure circuitHash i).nextU64.1 ≠ (caseMeasure circuitHash j).nextU64.1 := by
  refine ⟨fun a b h => ?_, fun i j hi hj hij => ⟨fun h => ?_, word_caseMeasure_ne hi hj hij 0⟩⟩
  · exact SplitMix64.mk.inj (word_injective 0 h)
  · exact hij (caseMeasure_injOn circuitHash hi hj (congrArg SplitMix64.mk h))

/-- The last two indices, under the empty hash. -/
theorem caseMeasure_words_apart_last :
    (caseMeasure [] (2 ^ 64 - 2)).state ≠ (caseMeasure [] (2 ^ 64 - 1)).state ∧
      (caseMeasure [] (2 ^ 64 - 2)).nextU64.1 ≠ (caseMeasure [] (2 ^ 64 - 1)).nextU64.1 :=
  (caseMeasure_words_apart []).2 _ _ (by decide) (by decide) (by decide)

/-- **A hash that begins with eight zeros** gives every case the words of the one before it, less
    the first. -/
theorem caseMeasure_succ (h : hashPrefix circuitHash = 0) (i : ℕ) :
    caseMeasure circuitHash (i + 1) = (caseMeasure circuitHash i).nextU64.2 := by
  rw [nextU64_eq, caseMeasure_eq, caseMeasure_eq, h, UInt64.zero_xor, UInt64.zero_xor,
    UInt64.ofNat_add, UInt64.add_mul]
  rfl

end Cases

end GroverTax.Kickmix
