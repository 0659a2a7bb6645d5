/-
  File:      GroverTax/Lib/Reversible.lean
  Subject:   Circuits of conditional flips, over any type of wires.

  A state gives each wire a bit, a gate flips one wire where a condition on the state holds. The
  states a circuit runs on are those that are off outside a set `P` of wires.

  * `injOn_flipWire` -- a gate loses nothing exactly when its condition does not look at the wire
    it flips; such a gate undoes itself (`flipWire_flipWire`);
  * `ignores_all` -- the condition "every control is on" looks at its controls and nothing else;
  * `injOn_foldl` -- a list of such gates loses nothing exactly when no gate of it does.
-/
import Mathlib.Data.Set.Function

namespace GroverTax.Lib

/-! ## 1. One gate -/

section Gate

variable {W : Type*} [DecidableEq W] {P : Set W} {t : W} {f : (W → Bool) → Bool} {s : W → Bool}

/-- The state with wire `t` flipped where `f` says so. -/
def flipWire (t : W) (f : (W → Bool) → Bool) (s : W → Bool) : W → Bool :=
  Function.update s t (s t ^^ f s)

/-- The states that are off outside `P`. -/
def Supported (P : Set W) : Set (W → Bool) := {s | ∀ i, s i = true → i ∈ P}

/-- The condition `f` does not look at wire `t`. -/
def Ignores (P : Set W) (t : W) (f : (W → Bool) → Bool) : Prop :=
  ∀ s ∈ Supported P, ∀ b, f (Function.update s t b) = f s

omit [DecidableEq W] in
theorem eq_false_of_supported {i : W} (hs : s ∈ Supported P) (hi : i ∉ P) : s i = false := by
  by_contra hne
  exact hi (hs i (Bool.eq_true_of_not_eq_false hne))

theorem update_mem_supported (ht : t ∈ P) (hs : s ∈ Supported P) (b : Bool) :
    Function.update s t b ∈ Supported P := by
  intro i hi
  by_cases h : i = t
  · rwa [h]
  · rw [Function.update_of_ne h] at hi
    exact hs i hi

theorem mapsTo_flipWire (ht : t ∈ P) : Set.MapsTo (flipWire t f) (Supported P) (Supported P) :=
  fun _ hs => update_mem_supported ht hs _

/-- A gate that does not look at its target undoes itself. -/
theorem flipWire_flipWire (h : Ignores P t f) (hs : s ∈ Supported P) :
    flipWire t f (flipWire t f s) = s := by
  unfold flipWire
  rw [Function.update_self, h s hs, Function.update_idem, Bool.xor_assoc, Bool.xor_self,
    Bool.xor_false, Function.update_eq_self]

theorem surjOn_flipWire (ht : t ∈ P) (h : Ignores P t f) :
    Set.SurjOn (flipWire t f) (Supported P) (Supported P) :=
  fun _ hs => ⟨_, mapsTo_flipWire ht hs, flipWire_flipWire h hs⟩

/-- **A gate is injective exactly when its condition does not look at its target**: two states
    that differ at the target only, and on which the condition differs, become one. -/
theorem injOn_flipWire (ht : t ∈ P) :
    Set.InjOn (flipWire t f) (Supported P) ↔ Ignores P t f := by
  constructor
  · intro h s hs
    have hmerge : f (Function.update s t true) = f (Function.update s t false) := by
      by_contra hne
      have e : flipWire t f (Function.update s t true) =
          flipWire t f (Function.update s t false) := by
        unfold flipWire
        rw [Function.update_self, Function.update_self, Function.update_idem,
          Function.update_idem, Bool.eq_not_of_ne hne]
        simp
      have := congrFun (h (update_mem_supported ht hs true) (update_mem_supported ht hs false) e) t
      rw [Function.update_self, Function.update_self] at this
      cases this
    have hall : ∀ b, f (Function.update s t b) = f (Function.update s t true) := by
      intro b
      cases b
      · exact hmerge.symm
      · rfl
    intro b
    rw [hall b, ← hall (s t), Function.update_eq_self]
  · intro h s hs s' hs' e
    rw [← flipWire_flipWire h hs, e, flipWire_flipWire h hs']

/-- The condition "every control is on". -/
theorem ignores_all {controls : List W} (hc : ∀ c ∈ controls, c ∈ P) :
    Ignores P t (fun s => controls.all s) ↔ t ∉ controls := by
  constructor
  · intro h ht
    have hon : (fun i => decide (i ∈ controls)) ∈ Supported P :=
      fun i hi => hc i (of_decide_eq_true hi)
    have e := h _ hon false
    have htrue : controls.all (fun i => decide (i ∈ controls)) = true := by simp
    have := List.all_eq_true.mp (e.trans htrue) t ht
    rw [Function.update_self] at this
    cases this
  · intro ht s _ b
    have hsame : ∀ c ∈ controls, Function.update s t b c = s c :=
      fun c hcm => Function.update_of_ne (fun e : c = t => ht (e ▸ hcm)) _ _
    rw [Bool.eq_iff_iff, List.all_eq_true, List.all_eq_true]
    exact forall₂_congr fun c hcm => by rw [hsame c hcm]

end Gate

/-! ## 2. A list of gates -/

section Run

variable {S A : Type*} {act : S → A → S} {D : Set S}

/-- **A run is injective exactly when every step of it is**, for steps that are onto when they are
    injective. -/
theorem injOn_foldl : ∀ {as : List A}, (∀ a ∈ as, Set.MapsTo (act · a) D D) →
    (∀ a ∈ as, Set.InjOn (act · a) D → Set.SurjOn (act · a) D D) →
      (Set.InjOn (as.foldl act ·) D ↔ ∀ a ∈ as, Set.InjOn (act · a) D)
  | [], _, _ => by simp [Set.InjOn]
  | a :: as, hmap, hsurj => by
      have ih : Set.InjOn (as.foldl act ·) D ↔ ∀ b ∈ as, Set.InjOn (act · b) D :=
        injOn_foldl (fun b hb => hmap b (List.mem_cons_of_mem _ hb))
          (fun b hb => hsurj b (List.mem_cons_of_mem _ hb))
      rw [List.forall_mem_cons, ← ih]
      constructor
      · intro h
        have ha : Set.InjOn (act · a) D :=
          fun s hs s' hs' e => h hs hs' (congrArg (as.foldl act ·) e)
        refine ⟨ha, fun r hr r' hr' e => ?_⟩
        -- the states after the first step are all of `D`
        obtain ⟨s, hs, rfl⟩ := hsurj a List.mem_cons_self ha hr
        obtain ⟨s', hs', rfl⟩ := hsurj a List.mem_cons_self ha hr'
        exact congrArg (act · a) (h hs hs' e)
      · rintro ⟨ha, has⟩ s hs s' hs' e
        exact ha hs hs' (has (hmap a List.mem_cons_self hs) (hmap a List.mem_cons_self hs') e)

end Run

end GroverTax.Lib
