/-
  File:      GroverTax/Lib/Writes.lean
  Subject:   A function written at a list of places, and dictionaries as lists of entries.

  * `writes` -- one write after the other, the last one at a place standing;
  * `agree_iff` -- every write stands exactly when the writes at one place agree;
  * `mem_of_lookup`, `lookup_of_mem` -- a dictionary without a key twice is read off its entries.
-/
import Mathlib.Data.List.Nodup
import Mathlib.Logic.Function.Basic

namespace GroverTax.Lib

/-! ## 1. Writes -/

section Writes

variable {A B : Type*} [DecidableEq A] {f g : A → B} {ps : List (A × B)} {a : A}

def writes (f : A → B) (ps : List (A × B)) : A → B :=
  ps.foldl (fun f p => Function.update f p.1 p.2) f

/-- Two writes at one place write the same. -/
def Agree (ps : List (A × B)) : Prop := ∀ p ∈ ps, ∀ q ∈ ps, p.1 = q.1 → p.2 = q.2

theorem writes_cons (f : A → B) (p : A × B) (ps : List (A × B)) :
    writes f (p :: ps) = writes (Function.update f p.1 p.2) ps := rfl

theorem writes_append (f : A → B) (ps qs : List (A × B)) :
    writes f (ps ++ qs) = writes (writes f ps) qs :=
  List.foldl_append

theorem writes_of_notMem : ∀ {ps : List (A × B)} {f : A → B}, a ∉ ps.map Prod.fst →
    writes f ps a = f a
  | [], _, _ => rfl
  | p :: ps, f, h => by
      rw [List.map_cons, List.mem_cons, not_or] at h
      rw [writes_cons, writes_of_notMem h.2, Function.update_of_ne h.1]

/-- A place that is written holds one of its writes. -/
theorem mem_writes : ∀ {ps : List (A × B)} {f : A → B}, a ∈ ps.map Prod.fst →
    (a, writes f ps a) ∈ ps
  | p :: ps, f, h => by
      rw [writes_cons]
      by_cases hlater : a ∈ ps.map Prod.fst
      · exact List.mem_cons_of_mem p (mem_writes hlater)
      · have ha : a = p.1 := (List.mem_cons.mp h).resolve_right hlater
        rw [writes_of_notMem hlater, ha, Function.update_self]
        exact List.mem_cons_self

/-- **Every write stands exactly when they agree.** -/
theorem agree_iff : Agree ps ↔ ∀ p ∈ ps, writes f ps p.1 = p.2 := by
  refine ⟨fun h p hp => ?_, fun h p hp q hq e => ?_⟩
  · exact h _ (mem_writes (List.mem_map_of_mem hp)) p hp rfl
  · rw [← h p hp, ← h q hq, e]

omit [DecidableEq A] in
theorem agree_of_nodup (h : (ps.map Prod.fst).Nodup) : Agree ps := by
  intro p hp q hq e
  exact congrArg Prod.snd (List.inj_on_of_nodup_map h hp hq e)

/-- Writes of what a function has, over what agrees with it elsewhere, give the function. -/
theorem writes_eq (hps : ∀ p ∈ ps, g p.1 = p.2) (hf : ∀ a ∉ ps.map Prod.fst, f a = g a) :
    writes f ps = g := by
  funext a
  by_cases ha : a ∈ ps.map Prod.fst
  · exact (hps _ (mem_writes (f := f) ha)).symm
  · rw [writes_of_notMem ha, hf a ha]

end Writes

/-! ## 2. Dictionaries -/

section Dict

variable {K V W : Type*} [BEq K] [LawfulBEq K] {l : List (K × V)} {k : K} {v : V}

theorem mem_of_lookup (h : l.lookup k = some v) : (k, v) ∈ l := by
  obtain ⟨l₁, l₂, rfl, -⟩ := List.lookup_eq_some_iff.mp h
  exact List.mem_append_right l₁ List.mem_cons_self

theorem lookup_of_mem : ∀ {l : List (K × V)}, (l.map Prod.fst).Nodup → (k, v) ∈ l →
    l.lookup k = some v
  | (k', v') :: l, hnd, h => by
      rw [List.map_cons, List.nodup_cons] at hnd
      rcases List.mem_cons.mp h with e | hmem
      · cases e
        exact List.lookup_cons_self
      · have hkey : k ∈ l.map Prod.fst := List.mem_map.mpr ⟨_, hmem, rfl⟩
        have hne : k ≠ k' := fun e => hnd.1 (e ▸ hkey)
        rw [List.lookup_cons, beq_false_of_ne hne]
        exact lookup_of_mem hnd.2 hmem

theorem exists_lookup (h : k ∈ l.map Prod.fst) : ∃ v, l.lookup k = some v := by
  refine Option.isSome_iff_exists.mp (List.lookup_isSome_iff.mpr ?_)
  obtain ⟨p, hp, rfl⟩ := List.mem_map.mp h
  exact ⟨p, hp, beq_self_eq_true p.1⟩

omit [LawfulBEq K] in
theorem lookup_map_snd (f : V → W) : ∀ (l : List (K × V)) (k : K),
    (l.map fun e => (e.1, f e.2)).lookup k = (l.lookup k).map f
  | [], _ => rfl
  | e :: l, k => by
      rw [List.map_cons, List.lookup_cons, List.lookup_cons, lookup_map_snd f l k]
      cases k == e.1 <;> rfl

end Dict

end GroverTax.Lib
