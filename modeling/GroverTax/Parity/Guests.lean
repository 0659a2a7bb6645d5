/-
  File:      GroverTax/Parity/Guests.lean
  Subject:   The SP1 guest and the Cairo executable on one workload.

  Both read the same gates and compute the same outputs. They differ in what else they check: the
  SP1 guest the exact length of the circuit, the Cairo executable the padding, the ignored slots
  and that its counters are `u32`. `guests_agree_iff` says when the two sets of checks coincide.
-/
import GroverTax.Cairo.Canonical
import GroverTax.Cairo.Program
import GroverTax.Sp1.Program

namespace GroverTax.Parity

open GroverTax.Lib GroverTax.Gtv1 GroverTax.Cairo

variable {bytes : List UInt8} {cases : List (List UInt8 × List UInt8)}
  {sha256 : List UInt8 → List UInt8}

/-- Every case holds two arrays of 32 bytes. -/
def Sized (cases : List (List UInt8 × List UInt8)) : Prop :=
  ∀ p ∈ cases, p.1.length = 32 ∧ p.2.length = 32

/-- The Cairo executable completes on a circuit, its true commitment and the cases. -/
def CairoCompletes (bytes : List UInt8) (cases : List (List UInt8 × List UInt8)) : Prop :=
  ∃ r, applesToApplesExecutable (encodeInput bytes (commitmentOf bytes) [] cases) = some r

/-- The SP1 guest completes on the same circuit and cases. -/
def Sp1Completes (sha256 : List UInt8 → List UInt8) (bytes : List UInt8)
    (cases : List (List UInt8 × List UInt8)) : Prop :=
  ∃ values, Sp1.main sha256 bytes cases = some values

/-- What both guests check: the frame, the wires, and the outputs. -/
structure Accepted (bytes : List UInt8) (cases : List (List UInt8 × List UInt8)) : Prop where
  framed : Framed bytes
  inRange : ∀ g ∈ gatesOf bytes, g.InRange BITS_PER_VALUE
  outputs : ∀ p ∈ cases, wires p.2 = simulate (gatesOf bytes) (wires p.1)

/-- What only the Cairo executable checks. -/
structure Strict (bytes : List UInt8) (n : ℕ) : Prop where
  circuit : bytes.length < 2 ^ 32
  cases : n < 2 ^ 32
  padding : PadsZero bytes
  canonical : ∀ g ∈ gatesOf bytes, g.Canonical

/-- The guests complete on the same lists of `n` cases. -/
def Agree (sha256 : List UInt8 → List UInt8) (bytes : List UInt8) (n : ℕ) : Prop :=
  ∀ cases, cases.length = n → Sized cases →
    (CairoCompletes bytes cases ↔ Sp1Completes sha256 bytes cases)

theorem cairoCompletes_iff (hs : Sized cases) (hne : cases ≠ []) :
    CairoCompletes bytes cases ↔ Accepted bytes cases ∧ Strict bytes cases.length := by
  obtain ⟨p, hp⟩ := List.exists_mem_of_ne_nil cases hne
  rw [CairoCompletes, applesToApples_isSome hs]
  constructor
  · intro h
    obtain ⟨⟨hlen, hf, hpad⟩, hn, hall⟩ := h
    have hg := (hall p hp).1
    exact ⟨⟨hf, fun g hm => (hg g hm).1, fun q hq => (hall q hq).2⟩, hlen, hn, hpad,
      fun g hm => (hg g hm).2⟩
  · intro h
    obtain ⟨⟨hf, hr, ho⟩, hlen, hn, hpad, hc⟩ := h
    exact ⟨⟨hlen, hf, hpad⟩, hn, fun q hq => ⟨fun g hm => ⟨hr g hm, hc g hm⟩, ho q hq⟩⟩

theorem sp1Completes_iff (hs : Sized cases) (hne : cases ≠ []) :
    Sp1Completes sha256 bytes cases ↔
      Accepted bytes cases ∧ bytes.length = declaredLength bytes := by
  obtain ⟨p, hp⟩ := List.exists_mem_of_ne_nil cases hne
  have hsim : ∀ q ∈ cases, Sp1.simulate (gatesOf bytes) q.1 = some q.2 ↔
      (∀ g ∈ gatesOf bytes, g.InRange BITS_PER_VALUE) ∧
        wires q.2 = simulate (gatesOf bytes) (wires q.1) := by
    intro q hq
    obtain ⟨hx, hy⟩ := hs q hq
    rw [Sp1.simulate_eq_some, hx, hy]
    exact and_congr_right fun _ => and_iff_right rfl
  rw [Sp1Completes, Sp1.main_isSome]
  constructor
  · intro h
    obtain ⟨⟨hmagic, hlen⟩, hall⟩ := h
    exact ⟨⟨⟨hmagic, hlen.ge⟩, ((hsim p hp).mp (hall p hp)).1,
      fun q hq => ((hsim q hq).mp (hall q hq)).2⟩, hlen⟩
  · intro h
    obtain ⟨⟨hf, hr, ho⟩, hlen⟩ := h
    exact ⟨⟨hf.magic, hlen⟩, fun q hq => (hsim q hq).mpr ⟨hr, ho q hq⟩⟩

/-- Every circuit in range has an output to expect. -/
theorem exists_output (hr : ∀ g ∈ gatesOf bytes, g.InRange BITS_PER_VALUE) :
    ∃ y : List UInt8, y.length = 32 ∧
      wires y = simulate (gatesOf bytes) (wires (List.replicate 32 0)) :=
  exists_simulate (List.replicate 32 0) hr

/-- **The guests accept the same workloads of `n` cases over a circuit** exactly when, for a framed
    circuit in range, the checks of the one amount to those of the other. -/
theorem guests_agree_iff (sha256 : List UInt8 → List UInt8) (bytes : List UInt8) (n : ℕ)
    (hn : 0 < n) : Agree sha256 bytes n ↔
    (Framed bytes → (∀ g ∈ gatesOf bytes, g.InRange BITS_PER_VALUE) →
      (Strict bytes n ↔ bytes.length = declaredLength bytes)) := by
  constructor
  · intro h hf hr
    obtain ⟨y, hy, hw⟩ := exists_output hr
    have hmem : ∀ p ∈ List.replicate n (List.replicate 32 (0 : UInt8), y),
        p = (List.replicate 32 0, y) := fun p hp => List.eq_of_mem_replicate hp
    have hs : Sized (List.replicate n (List.replicate 32 0, y)) := by
      intro p hp
      rw [hmem p hp]
      exact ⟨List.length_replicate, hy⟩
    have hne : List.replicate n (List.replicate 32 (0 : UInt8), y) ≠ [] := by
      rw [Ne, List.replicate_eq_nil_iff]
      omega
    have ha : Accepted bytes (List.replicate n (List.replicate 32 0, y)) := by
      refine ⟨hf, hr, fun p hp => ?_⟩
      rw [hmem p hp]
      exact hw
    have hall := h _ List.length_replicate hs
    rw [cairoCompletes_iff hs hne, sp1Completes_iff hs hne, List.length_replicate] at hall
    rwa [and_iff_right ha, and_iff_right ha] at hall
  · intro h cases hlen hs
    have hne : cases ≠ [] := by
      rintro rfl
      exact absurd hlen hn.ne
    rw [cairoCompletes_iff hs hne, sp1Completes_iff hs hne, hlen]
    exact and_congr_right fun ha => h ha.framed ha.inRange

/-- The guests agree on one `NOT`, whatever the case. -/
theorem guests_agree_notBytes : Agree id notBytes 1 :=
  (guests_agree_iff id notBytes 1 (by decide)).mpr fun _ _ =>
    ⟨fun _ => by decide, fun _ => ⟨by decide, by decide, by unfold PadsZero; decide, by decide⟩⟩

/-- The header of an empty circuit, and one byte after it. -/
def emptyAndByte : List UInt8 := [71, 84, 86, 49, 0, 0, 0, 0, 0]

def zeroCase : List UInt8 × List UInt8 := (List.replicate 32 0, List.replicate 32 0)

/-- **The Cairo executable completes where the SP1 guest panics.** -/
theorem trailing_byte_splits_guests :
    CairoCompletes emptyAndByte [zeroCase] ∧ ¬ Sp1Completes id emptyAndByte [zeroCase] := by
  have hs : Sized [zeroCase] := by
    rw [Sized, List.forall_mem_singleton]
    decide
  have hf : Framed emptyAndByte := ⟨by decide, by decide⟩
  refine ⟨(cairoCompletes_iff hs (List.cons_ne_nil _ _)).mpr ⟨⟨hf, by decide, ?_⟩, by decide,
    by decide, by unfold PadsZero; decide, by decide⟩, fun h => ?_⟩
  · rw [List.forall_mem_singleton]
    rfl
  · exact absurd ((sp1Completes_iff hs (List.cons_ne_nil _ _)).mp h).2 (by decide)

end GroverTax.Parity
