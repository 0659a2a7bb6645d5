/-
  File:      GroverTax/Lib/Run.lean
  Subject:   Runs of a partial step: a program is a list of instructions, a step that panics has
             no successor, and a run is the monadic fold of the step over the list.

  One lemma for each way of carrying a fact about one step to a whole run:
  * `run_inv` -- what every step keeps, every run keeps;
  * `run_map` -- what every step commutes with, every run commutes with;
  * `run_eq_none` -- a run panics at one of its steps, after a run that did not;
  * `run_range` -- a loop over a counter, by induction on the counter;
  * `Refines` -- a step that computes an abstract step on its valid instructions and panics on the
    others, and `Refines.run_eq_some`, the same for a run;
  * `forall₂_of_mapM` -- a program translated instruction by instruction;
  * `run_sim` -- forward simulation, each instruction answered by a list of instructions; the
    relation may depend on how many instructions have run.
-/
import Mathlib.Data.List.Forall2

namespace GroverTax.Lib

variable {S T A B : Type*}

/-- The run of `step` over a list: it stops with `none` at the first panic. -/
def run (step : S → A → Option S) : S → List A → Option S
  | s, [] => some s
  | s, a :: as => (step s a).bind fun s' => run step s' as

section Run

variable {step : S → A → Option S}

@[simp] theorem run_nil (s : S) : run step s [] = some s := rfl

theorem run_cons (s : S) (a : A) (as : List A) :
    run step s (a :: as) = (step s a).bind fun s' => run step s' as := rfl

theorem run_cons_some {s s' : S} {a : A} {as : List A} :
    run step s (a :: as) = some s' ↔ ∃ s1, step s a = some s1 ∧ run step s1 as = some s' :=
  Option.bind_eq_some_iff

theorem run_congr {step' : S → A → Option S} : ∀ {as : List A} {s : S},
    (∀ a ∈ as, ∀ s, step s a = step' s a) → run step s as = run step' s as
  | [], _, _ => rfl
  | a :: as, s, h => by
      rw [run_cons, run_cons, h a List.mem_cons_self]
      exact congrArg _ (funext fun s' => run_congr fun b hb => h b (List.mem_cons_of_mem _ hb))

theorem run_append (s : S) : ∀ (as bs : List A),
    run step s (as ++ bs) = (run step s as).bind fun s' => run step s' bs := by
  intro as bs
  induction as generalizing s with
  | nil => rfl
  | cons a as ih =>
    rw [List.cons_append, run_cons, run_cons, Option.bind_assoc]
    exact congrArg _ (funext fun s' => ih s')

/-- A map of states that commutes with every step commutes with a run. -/
theorem run_map {step' : T → A → Option T} {φ : S → T}
    (h : ∀ s a, step' (φ s) a = (step s a).map φ) : ∀ (as : List A) (s : S),
    run step' (φ s) as = (run step s as).map φ
  | [], _ => rfl
  | a :: as, s => by
      rw [run_cons, run_cons, h, Option.bind_map, Option.map_bind]
      exact congrArg _ (funext fun s' => run_map h as s')

/-- A loop that does not look at its list. -/
theorem run_const {f : S → Option S} : ∀ (as : List A) (bs : List B) {s : S},
    as.length = bs.length → run (fun s _ => f s) s as = run (fun s _ => f s) s bs
  | [], [], _, _ => rfl
  | _ :: as, _ :: bs, s, h => by
      rw [run_cons, run_cons]
      exact congrArg _ (funext fun s' => run_const as bs (Nat.succ.inj h))

/-- **A step with a check of its own**: the checks and the steps are two conditions. -/
theorem run_guard {guard : A → Option Unit} : ∀ {as : List A} {s s' : S},
    run (fun s a => (guard a).bind fun _ => step s a) s as = some s' ↔
      (∀ a ∈ as, guard a = some ()) ∧ run step s as = some s'
  | [], s, s' => by simp
  | a :: as, s, s' => by
      rw [run_cons_some, List.forall_mem_cons]
      simp only [run_cons_some, run_guard, Option.bind_eq_some_iff]
      constructor
      · intro h
        obtain ⟨s1, ⟨_, hg, hs⟩, hall, hr⟩ := h
        exact ⟨⟨hg, hall⟩, s1, hs, hr⟩
      · intro h
        obtain ⟨⟨hg, hall⟩, s1, hs, hr⟩ := h
        exact ⟨s1, ⟨(), hg, hs⟩, hall, hr⟩

/-- A loop of checks. -/
theorem run_checks {guard : A → Option Unit} : ∀ {as : List A} {u : Unit},
    run (fun _ a => guard a) () as = some u ↔ ∀ a ∈ as, guard a = some ()
  | [], u => by simp
  | a :: as, u => by
      rw [run_cons_some, List.forall_mem_cons, ← run_checks (u := u)]
      exact ⟨fun ⟨_, ha, hr⟩ => ⟨ha, hr⟩, fun ⟨ha, hr⟩ => ⟨(), ha, hr⟩⟩

/-- **An invariant of every step is an invariant of every run.** -/
theorem run_inv {I : S → Prop} : ∀ {as : List A} {s s' : S},
    (∀ a ∈ as, ∀ s s', I s → step s a = some s' → I s') → I s → run step s as = some s' → I s'
  | [], _, _, _, hs, h => by cases h; exact hs
  | a :: as, s, s', hstep, hs, h => by
      obtain ⟨s1, h1, h2⟩ := run_cons_some.mp h
      exact run_inv (fun b hb => hstep b (List.mem_cons_of_mem _ hb))
        (hstep a List.mem_cons_self s s1 hs h1) h2

/-- **A loop over a counter**: what holds before it and is kept by step `i` holds after it. -/
theorem run_range {step : S → ℕ → Option S} {I : ℕ → S → Prop} {s : S} (h0 : I 0 s) :
    ∀ {n : ℕ}, (∀ i < n, ∀ s, I i s → ∃ s', step s i = some s' ∧ I (i + 1) s') →
      ∃ s', run step s (List.range n) = some s' ∧ I n s'
  | 0, _ => ⟨s, rfl, h0⟩
  | n + 1, hstep => by
      obtain ⟨s1, h1, hs1⟩ := run_range h0 fun i hi => hstep i (Nat.lt_succ_of_lt hi)
      obtain ⟨s', h2, hs'⟩ := hstep n n.lt_succ_self s1 hs1
      refine ⟨s', ?_, hs'⟩
      rw [List.range_succ, run_append, h1]
      exact run_cons_some.mpr ⟨s', h2, rfl⟩

/-- **A run panics at one of its steps.** -/
theorem run_eq_none : ∀ {as : List A} {s : S}, run step s as = none ↔
    ∃ pre a post s1, as = pre ++ a :: post ∧ run step s pre = some s1 ∧ step s1 a = none
  | [], s => by simp
  | a :: as, s => by
      rw [run_cons]
      cases h : step s a with
      | none => exact ⟨fun _ => ⟨[], a, as, s, rfl, rfl, h⟩, fun _ => rfl⟩
      | some s1 =>
        rw [Option.bind_some, run_eq_none]
        constructor
        · intro h'
          obtain ⟨pre, b, post, s2, rfl, h1, h2⟩ := h'
          exact ⟨a :: pre, b, post, s2, rfl, run_cons_some.mpr ⟨s1, h, h1⟩, h2⟩
        · intro h'
          obtain ⟨pre, b, post, s2, e, h1, h2⟩ := h'
          cases pre with
          | nil =>
            cases h1
            cases e
            rw [h] at h2
            cases h2
          | cons c pre =>
            cases e
            obtain ⟨s3, h3, h4⟩ := run_cons_some.mp h1
            rw [h] at h3
            cases h3
            exact ⟨pre, b, post, s2, rfl, h4, h2⟩

end Run

section Refinement

/-- Inside the invariant `inv`, `step` computes `act` on the valid instructions and panics on the
    others; `rep` reads a state as an abstract one. -/
structure Refines (step : S → A → Option S) (inv : S → Prop) (valid : A → Prop) (rep : S → T)
    (act : T → A → T) : Prop where
  defined : ∀ s a, inv s → valid a → ∃ s', step s a = some s' ∧ inv s' ∧ rep s' = act (rep s) a
  valid : ∀ s a s', inv s → step s a = some s' → valid a

variable {step : S → A → Option S} {inv : S → Prop} {valid : A → Prop} {rep : S → T}
  {act : T → A → T}

/-- A run over valid instructions computes the abstract run. -/
theorem Refines.run_defined (h : Refines step inv valid rep act) : ∀ {as : List A} {s : S},
    inv s → (∀ a ∈ as, valid a) →
      ∃ s', run step s as = some s' ∧ inv s' ∧ rep s' = as.foldl act (rep s)
  | [], s, hs, _ => ⟨s, rfl, hs, rfl⟩
  | a :: as, s, hs, hv => by
      obtain ⟨s1, h1, hs1, e1⟩ := h.defined s a hs (hv a List.mem_cons_self)
      obtain ⟨s', h2, hs', e2⟩ := h.run_defined hs1 fun b hb => hv b (List.mem_cons_of_mem _ hb)
      exact ⟨s', run_cons_some.mpr ⟨s1, h1, h2⟩, hs', by rw [e2, e1, List.foldl_cons]⟩

/-- Every instruction of a completed run is valid. -/
theorem Refines.run_valid (h : Refines step inv valid rep act) : ∀ {as : List A} {s s' : S},
    inv s → run step s as = some s' → ∀ a ∈ as, valid a
  | [], _, _, _, _ => List.forall_mem_nil _
  | a :: as, s, s', hs, hr => by
      obtain ⟨s1, h1, h2⟩ := run_cons_some.mp hr
      have hv := h.valid s a s1 hs h1
      obtain ⟨s1', h1', hs1, _⟩ := h.defined s a hs hv
      cases h1.symm.trans h1'
      exact List.forall_mem_cons.mpr ⟨hv, h.run_valid hs1 h2⟩

/-- **A run completes exactly on valid instructions, and then computes the abstract run.** -/
theorem Refines.run_eq_some (h : Refines step inv valid rep act) {as : List A} {s s' : S}
    (hs : inv s) (hext : ∀ {t t'}, inv t → inv t' → rep t = rep t' → t = t') :
    run step s as = some s' ↔
      (∀ a ∈ as, valid a) ∧ inv s' ∧ rep s' = as.foldl act (rep s) := by
  constructor
  · intro hr
    have hv := h.run_valid hs hr
    obtain ⟨t, ht, hinv, e⟩ := h.run_defined hs hv
    cases hr.symm.trans ht
    exact ⟨hv, hinv, e⟩
  · intro h'
    obtain ⟨hv, hinv, e⟩ := h'
    obtain ⟨t, ht, hinv', e'⟩ := h.run_defined hs hv
    rw [ht, hext hinv' hinv (e'.trans e.symm)]

end Refinement

section Simulation

variable {step : S → A → Option S} {step' : T → B → Option T}

/-- A translation made element by element relates each element to its translation. -/
theorem forall₂_of_mapM {f : A → Option B} : ∀ {as : List A} {bs : List B},
    as.mapM f = some bs → List.Forall₂ (fun a b => f a = some b) as bs
  | [], bs, h => by
      cases h
      exact .nil
  | a :: as, bs, h => by
      simp only [List.mapM_cons, Option.bind_eq_bind, Option.bind_eq_some_iff, Option.pure_def,
        Option.some.injEq] at h
      obtain ⟨b, hb, bs', hbs, rfl⟩ := h
      exact .cons hb (forall₂_of_mapM hbs)

/-- What is related to two parts has two parts. -/
theorem forall₂_append_left {R : A → B → Prop} : ∀ {as as' : List A} {bs : List B},
    List.Forall₂ R (as ++ as') bs →
      ∃ cs cs', bs = cs ++ cs' ∧ List.Forall₂ R as cs ∧ List.Forall₂ R as' cs'
  | [], _, bs, h => ⟨[], bs, rfl, .nil, h⟩
  | a :: as, as', bs, h => by
      obtain ⟨b, bs', hab, h', rfl⟩ := List.forall₂_cons_left_iff.mp h
      obtain ⟨cs, cs', rfl, h1, h2⟩ := forall₂_append_left h'
      exact ⟨b :: cs, cs', rfl, .cons hab h1, h2⟩

theorem exists_forall₂ {R : A → B → Prop} : ∀ {as : List A}, (∀ a ∈ as, ∃ b, R a b) →
    ∃ bs, List.Forall₂ R as bs
  | [], _ => ⟨[], .nil⟩
  | a :: as, h => by
      obtain ⟨⟨b, hb⟩, hrest⟩ := List.forall_mem_cons.mp h
      obtain ⟨bs, hbs⟩ := exists_forall₂ hrest
      exact ⟨b :: bs, .cons hb hbs⟩

theorem exists_of_forall₂_left {R : A → B → Prop} {as : List A} {bs : List B}
    (h : List.Forall₂ R as bs) : ∀ a ∈ as, ∃ b ∈ bs, R a b := by
  induction h with
  | nil => simp
  | cons ha _ ih =>
    refine List.forall_mem_cons.mpr ⟨⟨_, List.mem_cons_self, ha⟩, fun a ha => ?_⟩
    obtain ⟨b, hb, hr⟩ := ih a ha
    exact ⟨b, List.mem_cons_of_mem _ hb, hr⟩

theorem exists_of_forall₂_right {R : A → B → Prop} {as : List A} {bs : List B}
    (h : List.Forall₂ R as bs) : ∀ b ∈ bs, ∃ a ∈ as, R a b :=
  exists_of_forall₂_left (R := fun b a => R a b) h.flip

theorem exists_of_mem_mapM {f : A → Option B} {as : List A} {bs : List B}
    (h : as.mapM f = some bs) : ∀ b ∈ bs, ∃ a ∈ as, f a = some b :=
  exists_of_forall₂_right (forall₂_of_mapM h)

theorem exists_image_of_mapM {f : A → Option B} {as : List A} {bs : List B}
    (h : as.mapM f = some bs) : ∀ a ∈ as, ∃ b ∈ bs, f a = some b :=
  exists_of_forall₂_left (forall₂_of_mapM h)

/-- A translation that agrees with another one where that one is defined. -/
theorem mapM_congr_of_some {f g : A → Option B} : ∀ {as : List A} {bs : List B},
    as.mapM f = some bs → (∀ a ∈ as, ∀ b ∈ bs, f a = some b → g a = some b) →
      as.mapM g = as.mapM f
  | [], _, _, _ => rfl
  | a :: as, bs, h, hfg => by
      simp only [List.mapM_cons, Option.bind_eq_bind, Option.bind_eq_some_iff, Option.pure_def,
        Option.some.injEq] at h
      obtain ⟨b, hb, bs', hbs, rfl⟩ := h
      rw [List.mapM_cons, List.mapM_cons, hb, hfg a List.mem_cons_self b List.mem_cons_self hb,
        mapM_congr_of_some hbs fun a ha b hb =>
          hfg a (List.mem_cons_of_mem _ ha) b (List.mem_cons_of_mem _ hb)]

theorem mapM_eq_map {f : A → Option B} {g : A → B} : ∀ {as : List A},
    (∀ a ∈ as, f a = some (g a)) → as.mapM f = some (as.map g)
  | [], _ => rfl
  | a :: as, h => by
      rw [List.mapM_cons, h a List.mem_cons_self,
        mapM_eq_map fun b hb => h b (List.mem_cons_of_mem _ hb)]
      rfl

/-- A translation that is defined exactly on the elements that meet `P`. -/
theorem mapM_eq_some_iff {f : A → Option B} {g : A → B} {P : A → Prop} :
    ∀ {as : List A} {bs : List B}, (∀ a ∈ as, ∀ b, f a = some b ↔ P a ∧ b = g a) →
      (as.mapM f = some bs ↔ (∀ a ∈ as, P a) ∧ bs = as.map g)
  | [], bs, _ => by simp [eq_comm]
  | a :: as, bs, h => by
      have ih : ∀ bs', as.mapM f = some bs' ↔ (∀ a ∈ as, P a) ∧ bs' = as.map g :=
        fun bs' => mapM_eq_some_iff fun x hx => h x (List.mem_cons_of_mem _ hx)
      simp only [List.mapM_cons, Option.bind_eq_bind, Option.bind_eq_some_iff, Option.pure_def,
        Option.some.injEq, h a List.mem_cons_self, ih, List.forall_mem_cons, List.map_cons]
      constructor
      · intro h'
        obtain ⟨_, ⟨ha, rfl⟩, _, ⟨has, rfl⟩, rfl⟩ := h'
        exact ⟨⟨ha, has⟩, rfl⟩
      · intro h'
        obtain ⟨⟨ha, has⟩, rfl⟩ := h'
        exact ⟨_, ⟨ha, rfl⟩, _, ⟨has, rfl⟩, rfl⟩

/-- Forgetting the error of a translation. -/
theorem toOption_mapM {E : Type*} {f : A → Except E B} : ∀ {as : List A},
    (as.mapM f).toOption = as.mapM fun a => (f a).toOption
  | [] => rfl
  | a :: as => by
      rw [List.mapM_cons, List.mapM_cons, ← toOption_mapM]
      cases f a with
      | error e => rfl
      | ok b =>
        cases as.mapM f with
        | error e => rfl
        | ok bs => rfl

theorem toOption_eq_some {E : Type*} {x : Except E A} {a : A} :
    x.toOption = some a ↔ x = .ok a := by
  cases x with
  | error e => exact iff_of_false (fun h => by cases h) (fun h => by cases h)
  | ok b => exact ⟨fun h => congrArg _ (Option.some.inj h), fun h => congrArg _ (Except.ok.inj h)⟩

theorem exists_of_mem_mapM_ok {E : Type*} {f : A → Except E B} {as : List A} {bs : List B}
    (h : as.mapM f = .ok bs) : ∀ b ∈ bs, ∃ a ∈ as, f a = .ok b := by
  rw [← toOption_eq_some, toOption_mapM] at h
  intro b hb
  obtain ⟨a, ha, hab⟩ := exists_of_mem_mapM h b hb
  exact ⟨a, ha, toOption_eq_some.mp hab⟩

theorem length_of_mapM_ok {E : Type*} {f : A → Except E B} {as : List A} {bs : List B}
    (h : as.mapM f = .ok bs) : bs.length = as.length := by
  rw [← toOption_eq_some, toOption_mapM] at h
  exact (forall₂_of_mapM h).length_eq.symm

theorem bind_eq_ok {E A B : Type} {x : Except E A} {f : A → Except E B} {b : B} :
    (x >>= f) = .ok b ↔ ∃ a, x = .ok a ∧ f a = .ok b := by
  cases x with
  | error e => exact iff_of_false (fun h => by cases h) (fun ⟨_, h, _⟩ => by cases h)
  | ok a =>
    constructor
    · intro h
      exact ⟨a, rfl, h⟩
    · intro h'
      obtain ⟨_, h, hf⟩ := h'
      cases h
      exact hf

theorem pure_eq_ok {E A : Type} {a b : A} : (pure a : Except E A) = .ok b ↔ a = b :=
  ⟨Except.ok.inj, congrArg Except.ok⟩

theorem map_eq_ok {E A B : Type} {x : Except E A} {f : A → B} {b : B} :
    x.map f = .ok b ↔ ∃ a, x = .ok a ∧ f a = b := by
  cases x with
  | error e => exact iff_of_false (fun h => by cases h) (fun ⟨_, h, _⟩ => by cases h)
  | ok a =>
    refine ⟨fun h => ⟨a, rfl, Except.ok.inj h⟩, fun h => ?_⟩
    obtain ⟨_, e, hf⟩ := h
    cases e
    exact congrArg Except.ok hf

/-- A loop over numbered items whose rounds only check. -/
theorem forM_zipIdx_eq_ok {E A : Type} {f : A × ℕ → Except E Unit} {P : A → Prop} {u : Unit}
    (h : ∀ a i, f (a, i) = .ok () ↔ P a) : ∀ {as : List A} {i : ℕ},
    (as.zipIdx i).forM f = .ok u ↔ ∀ a ∈ as, P a
  | [], _ => iff_of_true rfl (List.forall_mem_nil _)
  | a :: as, i => by
      rw [List.zipIdx_cons, List.forM_eq_forM, List.forM_cons, ← List.forM_eq_forM, bind_eq_ok,
        List.forall_mem_cons, ← forM_zipIdx_eq_ok h (i := i + 1)]
      exact ⟨fun ⟨_, ha, has⟩ => ⟨(h a i).mp ha, has⟩, fun ⟨ha, has⟩ => ⟨(), (h a i).mpr ha, has⟩⟩

/-- **Forward simulation.** `E a bs` says that `bs` is the translation of `a`; after `n`
    instructions the states are related by `R n`. -/
theorem run_sim {E : A → List B → Prop} {R : ℕ → S → T → Prop} {N : ℕ}
    (hstep : ∀ n < N, ∀ a bs s t s', E a bs → R n s t → step s a = some s' →
      ∃ t', run step' t bs = some t' ∧ R (n + 1) s' t') :
    ∀ {as : List A} {bss : List (List B)} {n : ℕ} {s : S} {t : T} {s' : S},
      List.Forall₂ E as bss → n + as.length ≤ N → R n s t → run step s as = some s' →
        ∃ t', run step' t bss.flatten = some t' ∧ R (n + as.length) s' t'
  | [], _, n, s, t, s', .nil, _, hR, h => by
      cases h
      exact ⟨t, rfl, hR⟩
  | a :: as, bs :: bss, n, s, t, s', .cons hE hEs, hN, hR, h => by
      rw [List.length_cons] at hN
      obtain ⟨s1, h1, h2⟩ := run_cons_some.mp h
      obtain ⟨t1, ht1, hR1⟩ := hstep n (by omega) a bs s t s1 hE hR h1
      obtain ⟨t', ht', hR'⟩ := run_sim hstep hEs (by omega) hR1 h2
      refine ⟨t', ?_, ?_⟩
      · rw [List.flatten_cons, run_append, ht1]
        exact ht'
      · rwa [List.length_cons, Nat.add_comm as.length, ← Nat.add_assoc]

end Simulation

end GroverTax.Lib
