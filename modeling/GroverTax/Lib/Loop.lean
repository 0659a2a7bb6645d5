/-
  File:      GroverTax/Lib/Loop.lean
  Subject:   Loops that are left by a test at their head: `loop { if done { break; } body }`.

  The first argument of `loopUntil` bounds the number of turns. A loop that uses it up has no
  result, like one whose body panics, so that a result is never due to the bound.

  * `loopUntil_of_variant` -- total correctness: an invariant, and a variant every turn lowers;
  * `Visits` -- the states at the head of the loop; `Visits.inv` for what holds in all of them;
  * `loopUntil_counter` -- a loop whose counter goes up to a limit is the run over its values.
-/
import GroverTax.Lib.Run

namespace GroverTax.Lib

variable {S : Type*}

/-- The state in which the loop is left. -/
def loopUntil (done : S → Bool) (body : S → Option S) : ℕ → S → Option S
  | 0, _ => none
  | fuel + 1, s => if done s then some s else (body s).bind (loopUntil done body fuel)

/-- The states at the head of the loop that starts in `s0`. -/
inductive Visits (done : S → Bool) (body : S → Option S) (s0 : S) : S → Prop
  | start : Visits done body s0 s0
  | turn {s s' : S} (h : Visits done body s0 s) (hd : done s = false) (hb : body s = some s') :
      Visits done body s0 s'

variable {done : S → Bool} {body : S → Option S} {s s0 : S} {fuel : ℕ}

/-- **What the start has and every turn keeps** holds at the head of the loop. -/
theorem Visits.inv {I : S → Prop} (h0 : I s0)
    (hstep : ∀ s s', I s → done s = false → body s = some s' → I s') (h : Visits done body s0 s) :
    I s := by
  induction h with
  | start => exact h0
  | turn _ hd hb ih => exact hstep _ _ ih hd hb

theorem loopUntil_of_done (h : done s = true) : loopUntil done body (fuel + 1) s = some s :=
  if_pos h

theorem loopUntil_of_not_done (h : done s = false) :
    loopUntil done body (fuel + 1) s = (body s).bind (loopUntil done body fuel) :=
  if_neg (by rw [h]; decide)

/-- **A loop whose turns keep `I` and lower `variant`** is left in a state of `I`. -/
theorem loopUntil_of_variant (done : S → Bool) (body : S → Option S) (I : S → Prop)
    (variant : S → ℕ)
    (hstep : ∀ s, I s → done s = false → ∃ s', body s = some s' ∧ I s' ∧ variant s' < variant s) :
    ∀ {fuel : ℕ} {s : S}, I s → variant s < fuel →
      ∃ s', loopUntil done body fuel s = some s' ∧ I s' ∧ done s' = true
  | 0, _, _, hlt => absurd hlt (Nat.not_lt_zero _)
  | fuel + 1, s, hs, hlt => by
      cases hd : done s with
      | true => exact ⟨s, loopUntil_of_done hd, hs, hd⟩
      | false =>
        obtain ⟨s1, h1, hs1, hv⟩ := hstep s hs hd
        obtain ⟨s', h2, hs', hd'⟩ :=
          @loopUntil_of_variant done body I variant hstep fuel s1 hs1 (by omega)
        refine ⟨s', ?_, hs', hd'⟩
        rw [loopUntil_of_not_done hd, h1, Option.bind_some, h2]

/-- **A loop over a counter** that goes up to `n` runs over the values from `i` on. -/
theorem loopUntil_counter {step : S → ℕ → Option S} {body : S × ℕ → Option (S × ℕ)} {n : ℕ}
    (hbody : ∀ s i, i < n → body (s, i) = (step s i).map fun s' => (s', i + 1)) :
    ∀ {fuel : ℕ} {s : S} {i : ℕ}, i ≤ n → n - i < fuel →
      loopUntil (fun st => st.2 == n) body fuel (s, i) =
        (run step s (List.range' i (n - i))).map fun s' => (s', n)
  | 0, _, _, _, hlt => absurd hlt (Nat.not_lt_zero _)
  | fuel + 1, s, i, hi, hlt => by
      rw [loopUntil]
      by_cases e : i = n
      · subst e
        rw [if_pos (beq_self_eq_true i), Nat.sub_self]
        rfl
      · have hlt' : i < n := Nat.lt_of_le_of_ne hi e
        rw [if_neg (by simpa using e), hbody s i hlt', show n - i = n - (i + 1) + 1 by omega,
          List.range'_succ, run_cons]
        cases step s i with
        | none => rfl
        | some s1 => exact loopUntil_counter hbody (Nat.succ_le_of_lt hlt') (by omega)

end GroverTax.Lib
