/-
  File:      GroverTax/Lib/Raises.lean
  Subject:   The exceptions that a computation may raise.

  `Raises P x` says that every exception of `x` is one of `P`; with no `P` at all `x` returns. There
  is one rule for each way of putting computations together:
  * `Raises.bind` -- one after the other: the second is only asked about what the first returns;
  * `raises_forM`, `raises_mapM`, `raises_foldlM` -- a loop, from what holds of every turn.
-/
import GroverTax.Lib.Run

namespace GroverTax.Lib

variable {E A B S : Type}

/-- Every exception of the computation is one of `P`. -/
def Raises (P : E → Prop) (x : Except E A) : Prop := ∀ e, x = .error e → P e

section Rules

variable {P Q : E → Prop} {x : Except E A}

theorem raises_ok (a : A) : Raises P (.ok a) := by
  intro e h
  cases h

@[simp] theorem raises_error {e : E} : Raises P (.error e : Except E A) ↔ P e := by
  refine ⟨fun h => h e rfl, fun h e' he => ?_⟩
  cases he
  exact h

theorem Raises.mono (h : Raises P x) (hPQ : ∀ e, P e → Q e) : Raises Q x :=
  fun e he => hPQ e (h e he)

/-- **What raises nothing returns.** -/
theorem exists_ok_iff : (∃ a, x = .ok a) ↔ Raises (fun _ => False) x := by
  refine ⟨fun h => ?_, fun h => ?_⟩
  · obtain ⟨a, rfl⟩ := h
    exact raises_ok a
  · cases x with
    | error e => exact (h e rfl).elim
    | ok a => exact ⟨a, rfl⟩

/-- What has returned is gone on with. -/
theorem bind_of_ok {a : A} (h : x = .ok a) (f : A → Except E B) : (x >>= f) = f a := by
  rw [h]
  rfl

theorem bind_of_error {e : E} (h : x = .error e) (f : A → Except E B) :
    (x >>= f) = .error e := by
  rw [h]
  rfl

/-- A loop whose turns all return. -/
theorem mapM_of_forall₂ {C : Type} {f : A → Except E C} {g : B → C} {R : A → B → Prop}
    {as : List A} {bs : List B} (hf : ∀ a, ∀ b ∈ bs, R a b → f a = .ok (g b))
    (h : List.Forall₂ R as bs) : as.mapM f = .ok (bs.map g) := by
  induction h with
  | nil => rfl
  | cons hab _ ih =>
    rw [List.mapM_cons, hf _ _ List.mem_cons_self hab,
      ih fun a b hb => hf a b (List.mem_cons_of_mem _ hb)]
    rfl

/-- **One computation after another.** -/
theorem Raises.bind {f : A → Except E B} (hx : Raises P x)
    (hf : ∀ a, x = .ok a → Raises P (f a)) : Raises P (x >>= f) := by
  cases x with
  | error e => exact raises_error.mpr (hx e rfl)
  | ok a => exact hf a rfl

theorem raises_forM {f : A → Except E Unit} : ∀ {as : List A},
    (∀ a ∈ as, Raises P (f a)) → Raises P (as.forM f)
  | [], _ => raises_ok ()
  | a :: as, h => by
      rw [List.forall_mem_cons] at h
      exact h.1.bind fun _ _ => raises_forM h.2

theorem raises_mapM {f : A → Except E B} : ∀ {as : List A},
    (∀ a ∈ as, Raises P (f a)) → Raises P (as.mapM f)
  | [], _ => raises_ok []
  | a :: as, h => by
      rw [List.forall_mem_cons] at h
      rw [List.mapM_cons]
      exact h.1.bind fun b _ => (raises_mapM h.2).bind fun bs _ => raises_ok (b :: bs)

/-- A loop with a state, about which nothing is known. -/
theorem raises_foldlM {f : S → A → Except E S} : ∀ {as : List A} {s : S},
    (∀ a ∈ as, ∀ s, Raises P (f s a)) → Raises P (as.foldlM f s)
  | [], s, _ => raises_ok s
  | a :: as, s, h => by
      rw [List.forall_mem_cons] at h
      rw [List.foldlM_cons]
      exact (h.1 s).bind fun _ _ => raises_foldlM h.2

end Rules

end GroverTax.Lib
