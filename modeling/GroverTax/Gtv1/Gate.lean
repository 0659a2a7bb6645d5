/-
  File:      GroverTax/Gtv1/Gate.lean
  Subject:   What a GTV1 gate list means, whoever executes it.

  A state gives each wire a bit. `NOT`, `CNOT` and `TOFFOLI` flip their target where all their
  controls (none, one, two) are on; `NOP` does nothing. The three executors of the repository keep
  the bits in limbs or in bytes; each is related to `simulate`.

  * `Gate.used`, `Gate.unused` -- the slots an opcode reads and those it does not;
  * `Gate.InRange`, `Gate.Canonical` -- the two halves of a validity check;
  * `injOn_simulate` -- a list of gates in range is injective exactly when no gate controls its own
    target.
-/
import GroverTax.Lib.Bits
import GroverTax.Lib.Reversible

namespace GroverTax.Gtv1

open GroverTax.Lib

/-! ## 1. Gates -/

def NO_CTRL : ℕ := 0xFFFF
def OP_NOP : ℕ := 0
def OP_NOT : ℕ := 1
def OP_CNOT : ℕ := 2
def OP_TOFFOLI : ℕ := 3

structure Gate where
  opcode : ℕ
  target : ℕ
  ctrlA : ℕ
  ctrlB : ℕ
  deriving DecidableEq, Repr

/-- The controls an opcode reads. -/
def Gate.controls (g : Gate) : List ℕ :=
  if g.opcode = OP_CNOT then [g.ctrlA]
  else if g.opcode = OP_TOFFOLI then [g.ctrlA, g.ctrlB]
  else []

/-- The wires an opcode reads or writes. -/
def Gate.used (g : Gate) : List ℕ := if g.opcode = OP_NOP then [] else g.target :: g.controls

/-- The slots an opcode ignores. -/
def Gate.unused (g : Gate) : List ℕ :=
  if g.opcode = OP_NOP then [g.target, g.ctrlA, g.ctrlB]
  else if g.opcode = OP_NOT then [g.ctrlA, g.ctrlB]
  else if g.opcode = OP_CNOT then [g.ctrlB]
  else []

/-- A known opcode on `n` wires. -/
structure Gate.InRange (g : Gate) (n : ℕ) : Prop where
  opcode : g.opcode ≤ OP_TOFFOLI
  wires : ∀ w ∈ g.used, w < n

/-- The ignored slots carry the sentinel. -/
def Gate.Canonical (g : Gate) : Prop := ∀ w ∈ g.unused, w = NO_CTRL

instance (g : Gate) (n : ℕ) : Decidable (g.InRange n) :=
  decidable_of_iff (g.opcode ≤ OP_TOFFOLI ∧ ∀ w ∈ g.used, w < n)
    ⟨fun h => ⟨h.1, h.2⟩, fun h => ⟨h.opcode, h.wires⟩⟩

instance (g : Gate) : Decidable g.Canonical :=
  inferInstanceAs (Decidable (∀ w ∈ g.unused, w = NO_CTRL))

/-- No control of the gate is its target. -/
def Gate.Reversible (g : Gate) : Prop := g.target ∉ g.controls

instance (g : Gate) : Decidable g.Reversible := inferInstanceAs (Decidable (g.target ∉ g.controls))

/-! ## 2. Semantics -/

/-- **One gate.** -/
def Gate.apply (g : Gate) (s : ℕ → Bool) : ℕ → Bool :=
  if g.opcode = OP_NOP then s else flipWire g.target (fun s => g.controls.all s) s

/-- **A gate list, from left to right.** -/
def simulate (gates : List Gate) (s : ℕ → Bool) : ℕ → Bool := gates.foldl (fun s g => g.apply s) s

/-- The states of `n` wires. -/
abbrev states (n : ℕ) : Set (ℕ → Bool) := Supported {i | i < n}

section Semantics

variable {g : Gate} {n : ℕ}

theorem Gate.InRange.mono {m : ℕ} (h : g.InRange n) (hm : n ≤ m) : g.InRange m :=
  ⟨h.opcode, fun w hw => (h.wires w hw).trans_le hm⟩

theorem Gate.apply_nop (h : g.opcode = OP_NOP) (s : ℕ → Bool) : g.apply s = s := if_pos h

theorem Gate.apply_of_ne (h : g.opcode ≠ OP_NOP) (s : ℕ → Bool) :
    g.apply s = Function.update s g.target (s g.target ^^ g.controls.all s) := if_neg h

theorem Gate.used_of_ne (h : g.opcode ≠ OP_NOP) : g.used = g.target :: g.controls := if_neg h

theorem Gate.controls_nop (h : g.opcode = OP_NOP) : g.controls = [] := by
  unfold Gate.controls
  rw [h]
  rfl

theorem Gate.controls_not (h : g.opcode = OP_NOT) : g.controls = [] := by
  unfold Gate.controls
  rw [h]
  rfl

theorem Gate.controls_cnot (h : g.opcode = OP_CNOT) : g.controls = [g.ctrlA] := if_pos h

theorem Gate.controls_toffoli (h : g.opcode = OP_TOFFOLI) : g.controls = [g.ctrlA, g.ctrlB] := by
  unfold Gate.controls
  rw [h]
  rfl

/-- An opcode is one of the four, or it is unknown. -/
theorem Gate.opcode_cases (g : Gate) : g.opcode = OP_NOP ∨ g.opcode = OP_NOT ∨
    g.opcode = OP_CNOT ∨ g.opcode = OP_TOFFOLI ∨ OP_TOFFOLI < g.opcode := by
  unfold OP_NOP OP_NOT OP_CNOT OP_TOFFOLI
  omega

theorem Gate.inRange_nop (h : g.opcode = OP_NOP) : g.InRange n :=
  ⟨by rw [h]; decide, by rw [Gate.used, if_pos h]; exact List.forall_mem_nil _⟩

theorem Gate.inRange_of_ne (hne : g.opcode ≠ OP_NOP) (hle : g.opcode ≤ OP_TOFFOLI) :
    g.InRange n ↔ g.target < n ∧ ∀ c ∈ g.controls, c < n := by
  constructor
  · intro h
    have hw := h.wires
    rwa [Gate.used_of_ne hne, List.forall_mem_cons] at hw
  · intro h
    refine ⟨hle, ?_⟩
    rwa [Gate.used_of_ne hne, List.forall_mem_cons]

theorem Gate.not_inRange (h : OP_TOFFOLI < g.opcode) : ¬ g.InRange n :=
  fun hr => Nat.not_lt.mpr hr.opcode h

theorem Gate.canonical_nop (h : g.opcode = OP_NOP) :
    g.Canonical ↔ g.target = NO_CTRL ∧ g.ctrlA = NO_CTRL ∧ g.ctrlB = NO_CTRL := by
  rw [Gate.Canonical, Gate.unused, if_pos h]
  simp

theorem Gate.canonical_not (h : g.opcode = OP_NOT) :
    g.Canonical ↔ g.ctrlA = NO_CTRL ∧ g.ctrlB = NO_CTRL := by
  rw [Gate.Canonical, Gate.unused, if_neg (by rw [h]; decide), if_pos h]
  simp

theorem Gate.canonical_cnot (h : g.opcode = OP_CNOT) : g.Canonical ↔ g.ctrlB = NO_CTRL := by
  rw [Gate.Canonical, Gate.unused, if_neg (by rw [h]; decide), if_neg (by rw [h]; decide), if_pos h]
  simp

theorem Gate.canonical_toffoli (h : g.opcode = OP_TOFFOLI) : g.Canonical := by
  rw [Gate.Canonical, Gate.unused, if_neg (by rw [h]; decide), if_neg (by rw [h]; decide),
    if_neg (by rw [h]; decide)]
  exact List.forall_mem_nil _

theorem Gate.mapsTo_apply (h : g.InRange n) : Set.MapsTo g.apply (states n) (states n) := by
  intro s hs
  by_cases hnop : g.opcode = OP_NOP
  · rwa [Gate.apply_nop hnop]
  · have ht : g.target ∈ {i | i < n} :=
      h.wires g.target (Gate.used_of_ne hnop ▸ List.mem_cons_self)
    rw [Gate.apply, if_neg hnop]
    exact mapsTo_flipWire ht hs

/-- A gate of the list is injective exactly when it is reversible, and then onto. -/
theorem Gate.injOn_apply (h : g.InRange n) :
    (Set.InjOn g.apply (states n) ↔ g.Reversible) ∧
      (Set.InjOn g.apply (states n) → Set.SurjOn g.apply (states n) (states n)) := by
  by_cases hnop : g.opcode = OP_NOP
  · have hid : g.apply = id := funext fun s => Gate.apply_nop hnop s
    have hrev : g.Reversible := by
      rw [Gate.Reversible, Gate.controls_nop hnop]
      exact List.not_mem_nil
    rw [hid]
    exact ⟨iff_of_true (Set.injOn_id _) hrev, fun _ => Set.surjOn_id _⟩
  · have hflip : g.apply = flipWire g.target (fun s => g.controls.all s) :=
      funext fun s => if_neg hnop
    have hwires := h.wires
    rw [Gate.used_of_ne hnop, List.forall_mem_cons] at hwires
    have ht : g.target ∈ {i | i < n} := hwires.1
    have hc : ∀ c ∈ g.controls, c ∈ {i | i < n} := hwires.2
    rw [hflip, injOn_flipWire ht, ignores_all hc]
    exact ⟨Iff.rfl, fun hrev => surjOn_flipWire ht ((ignores_all hc).mpr hrev)⟩

/-- **A gate list is injective exactly when each of its gates is reversible.** -/
theorem injOn_simulate {gates : List Gate} (h : ∀ g ∈ gates, g.InRange n) :
    Set.InjOn (simulate gates) (states n) ↔ ∀ g ∈ gates, g.Reversible :=
  (injOn_foldl (fun g hg => Gate.mapsTo_apply (h g hg))
    (fun g hg => (Gate.injOn_apply (h g hg)).2)).trans
      (forall₂_congr fun g hg => (Gate.injOn_apply (h g hg)).1)

end Semantics

end GroverTax.Gtv1
