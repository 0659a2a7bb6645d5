/-
  File:      GroverTax/Lib/Brackets.lean
  Subject:   Programs with bracketed blocks, and two runs of one program that stay related while the
             relation moves with the depth.

  * `Balanced` -- no prefix closes more than is open, and at the end all is closed; one lemma for
    each kind of first element;
  * `nesting` -- the greatest depth on the way;
  * `run_rel` -- two steps that keep `R d`, where an opening bracket leads from `R d` to
    `R (d + 1)` and a closing one back, keep it over every balanced program.
-/
import GroverTax.Lib.Run
import Mathlib.Data.List.Infix
import Mathlib.Order.Lattice

namespace GroverTax.Lib

/-- What an instruction does to the depth. -/
inductive Bracket where
  | opens
  | closes
  | plain
  deriving DecidableEq, Repr

variable {A S T : Type*}

/-! ## 1. Balanced programs -/

/-- `n` brackets of one kind. -/
def countKind (kind : A → Bracket) (k : Bracket) (as : List A) : ℕ := as.countP (kind · = k)

/-- Read from depth `d` on: no prefix closes more than is open, and the end is at depth `0`. -/
structure Balanced (kind : A → Bracket) (d : ℕ) (as : List A) : Prop where
  prefixes : ∀ pre, pre <+: as → countKind kind .closes pre ≤ d + countKind kind .opens pre
  total : countKind kind .closes as = d + countKind kind .opens as

/-- The greatest depth a program reaches from depth `d`. -/
def nesting (kind : A → Bracket) : ℕ → List A → ℕ
  | d, [] => d
  | d, a :: as => max d <| match kind a with
    | .opens => nesting kind (d + 1) as
    | .closes => nesting kind (d - 1) as
    | .plain => nesting kind d as

theorem le_nesting (kind : A → Bracket) (d : ℕ) (as : List A) : d ≤ nesting kind d as := by
  cases as with
  | nil => exact le_rfl
  | cons a as => exact le_max_left _ _

section Balanced

variable {kind : A → Bracket} {d : ℕ} {a : A} {as : List A}

@[simp] theorem countKind_nil (k : Bracket) : countKind kind k [] = 0 := rfl

theorem countKind_cons (k : Bracket) :
    countKind kind k (a :: as) = countKind kind k as + if kind a = k then 1 else 0 := by
  simp [countKind, List.countP_cons]

theorem balanced_nil : Balanced kind d [] ↔ d = 0 := by
  constructor
  · intro h
    exact h.total.symm
  · rintro rfl
    exact ⟨fun pre hp => by rw [List.prefix_nil.mp hp]; simp, by simp⟩

/-- A first element that moves the depth from `d` to `d'`. -/
theorem balanced_cons {d' : ℕ} (h : ∀ n m : ℕ,
      n + (if kind a = .closes then 1 else 0) ≤ d + (m + if kind a = .opens then 1 else 0) ↔
        n ≤ d' + m)
    (he : ∀ n m : ℕ,
      n + (if kind a = .closes then 1 else 0) = d + (m + if kind a = .opens then 1 else 0) ↔
        n = d' + m) :
    Balanced kind d (a :: as) ↔ Balanced kind d' as := by
  constructor
  · intro hb
    refine ⟨fun pre hp => ?_, ?_⟩
    · have := hb.prefixes (a :: pre) (List.cons_prefix_cons.mpr ⟨rfl, hp⟩)
      rwa [countKind_cons, countKind_cons, h] at this
    · have := hb.total
      rwa [countKind_cons, countKind_cons, he] at this
  · intro hb
    refine ⟨fun pre hp => ?_, ?_⟩
    · cases pre with
      | nil => simp
      | cons b pre =>
        obtain ⟨rfl, hpre⟩ := List.cons_prefix_cons.mp hp
        rw [countKind_cons, countKind_cons, h]
        exact hb.prefixes pre hpre
    · rw [countKind_cons, countKind_cons, he]
      exact hb.total

theorem balanced_opens (ha : kind a = .opens) :
    Balanced kind d (a :: as) ↔ Balanced kind (d + 1) as :=
  balanced_cons (fun n m => by simp [ha]; omega) (fun n m => by simp [ha]; omega)

theorem balanced_closes (ha : kind a = .closes) :
    Balanced kind (d + 1) (a :: as) ↔ Balanced kind d as :=
  balanced_cons (fun n m => by simp [ha]; omega) (fun n m => by simp [ha]; omega)

theorem balanced_plain (ha : kind a = .plain) :
    Balanced kind d (a :: as) ↔ Balanced kind d as :=
  balanced_cons (fun n m => by simp [ha]) (fun n m => by simp [ha])

/-- Nothing closes at depth `0`. -/
theorem not_balanced_closes (ha : kind a = .closes) : ¬ Balanced kind 0 (a :: as) := by
  intro h
  have := h.prefixes [a] (List.cons_prefix_cons.mpr ⟨rfl, List.nil_prefix⟩)
  simp [countKind_cons, ha] at this

instance decidableBalanced : ∀ (d : ℕ) (as : List A), Decidable (Balanced kind d as)
  | _, [] => decidable_of_iff _ balanced_nil.symm
  | d, a :: as =>
    match ha : kind a, d with
    | .opens, d => @decidable_of_iff _ _ (balanced_opens ha).symm (decidableBalanced (d + 1) as)
    | .closes, 0 => isFalse (not_balanced_closes ha)
    | .closes, d + 1 => @decidable_of_iff _ _ (balanced_closes ha).symm (decidableBalanced d as)
    | .plain, d => @decidable_of_iff _ _ (balanced_plain ha).symm (decidableBalanced d as)

end Balanced

/-! ## 2. Two runs of a balanced program -/

section Run

variable {step : S → A → Option S} {step' : T → A → Option T}

theorem rel_bind {P : S → T → Prop} {B C : Type*} {Q : B → C → Prop} {x : Option S} {y : Option T}
    {f : S → Option B} {g : T → Option C} (h : Option.Rel P x y)
    (hfg : ∀ s t, P s t → Option.Rel Q (f s) (g t)) : Option.Rel Q (x.bind f) (y.bind g) := by
  cases h with
  | none => exact .none
  | some hst => exact hfg _ _ hst

theorem rel_map_left {P : S → T → Prop} {B : Type*} {Q : B → T → Prop} {x : Option S}
    {y : Option T} {f : S → B} (h : Option.Rel P x y) (hf : ∀ s t, P s t → Q (f s) t) :
    Option.Rel Q (x.map f) y := by
  cases h with
  | none => exact .none
  | some hst => exact .some (hf _ _ hst)

theorem rel_some_iff {P : S → T → Prop} {x : Option S} {t : T} :
    Option.Rel P x (some t) ↔ ∃ s, x = some s ∧ P s t := by
  constructor
  · rintro ⟨⟩
    exact ⟨_, rfl, ‹_›⟩
  · intro h'
    obtain ⟨s, rfl, h⟩ := h'
    exact .some h

theorem rel_none_iff {P : S → T → Prop} {x : Option S} : Option.Rel P x none ↔ x = none := by
  constructor
  · rintro ⟨⟩
    rfl
  · rintro rfl
    exact .none

/-- **Two runs of a balanced program stay related.** The depth never passes `nesting`, so an
    opening bracket has to keep the relation below `N` only. -/
theorem run_rel {kind : A → Bracket} {R : ℕ → S → T → Prop} {N : ℕ}
    (hopens : ∀ d < N, ∀ a s t, kind a = .opens → R d s t →
      Option.Rel (R (d + 1)) (step s a) (step' t a))
    (hcloses : ∀ d a s t, kind a = .closes → R (d + 1) s t →
      Option.Rel (R d) (step s a) (step' t a))
    (hplain : ∀ d a s t, kind a = .plain → R d s t → Option.Rel (R d) (step s a) (step' t a)) :
    ∀ {as : List A} {d : ℕ} {s : S} {t : T}, Balanced kind d as → nesting kind d as ≤ N →
      R d s t → Option.Rel (R 0) (run step s as) (run step' t as)
  | [], d, s, t, hb, _, hR => by
      obtain rfl := balanced_nil.mp hb
      exact .some hR
  | a :: as, d, s, t, hb, hN, hR => by
      rw [run_cons, run_cons]
      cases ha : kind a with
      | opens =>
        simp only [nesting, ha] at hN
        have hd := le_nesting kind (d + 1) as
        exact rel_bind (hopens d (by omega) a s t ha hR) fun s1 t1 h1 =>
          run_rel hopens hcloses hplain ((balanced_opens ha).mp hb) (by omega) h1
      | closes =>
        cases d with
        | zero => exact absurd hb (not_balanced_closes ha)
        | succ d =>
          simp only [nesting, ha, Nat.add_sub_cancel] at hN
          exact rel_bind (hcloses d a s t ha hR) fun s1 t1 h1 =>
            run_rel hopens hcloses hplain ((balanced_closes ha).mp hb) (by omega) h1
      | plain =>
        simp only [nesting, ha] at hN
        exact rel_bind (hplain d a s t ha hR) fun s1 t1 h1 =>
          run_rel hopens hcloses hplain ((balanced_plain ha).mp hb) (by omega) h1

end Run

end GroverTax.Lib
