/-
  File:      GroverTax/Cairo/Program.lean
  Subject:   The two executables of src/stwo-side/cairo/src/lib.cairo.

  The input is one flat array of field elements, read from the front; a panic is `none`. Both
  executables read and check the circuit in the same way and then loop over the cases.

  * `encodeInput` -- the documented layout of the array;
  * `applesToApples_isSome`, `iadd_isSome` -- when an executable completes on such an array.
-/
import GroverTax.Cairo.Commit
import GroverTax.Cairo.Wide

namespace GroverTax.Cairo

open GroverTax.Lib GroverTax.Lib.Blake2s GroverTax.Gtv1

/-! ## 1. The source -/

/-- `*span.pop_front().unwrap()`. -/
def popFront : List ℕ → Option (ℕ × List ℕ)
  | [] => none
  | felt :: span => some (felt, span)

/-- `(*span.pop_front().unwrap()).try_into().unwrap()`, into `w` bits. -/
def popInto (w : ℕ) (span : List ℕ) : Option (ℕ × List ℕ) := do
  let (felt, span) ← popFront span
  return (← tryInto w felt, span)

/-- One round of the loops that read bytes. -/
def popByte (st : List UInt8 × List ℕ) : Option (List UInt8 × List ℕ) := do
  let (b, span) ← popInto 8 st.2
  return (st.1 ++ [UInt8.ofNat b], span)

def popBytes (n : ℕ) (span : List ℕ) : Option (List UInt8 × List ℕ) :=
  run (fun st _ => popByte st) ([], span) (List.range n)

/-- What both executables do first: the circuit bytes, and their commitment against the expected
    one. -/
def popCircuit (span : List ℕ) : Option (List UInt8 × List ℕ) := do
  let (nCb, span) ← popInto 32 span
  let (circuitBytes, span) ← popBytes nCb span
  let (expectedLo, span) ← popInto 128 span
  let (expectedHi, span) ← popInto 128 span
  let digest ← commitBlake2s circuitBytes
  let computed ← digestToU256Be digest
  if computed = ⟨expectedLo, expectedHi⟩ then return (circuitBytes, span) else none

section Case

variable {S : Type} [DecidableEq S]

/-- One round of the loops over the cases; `load` and `sim` are those of the executable. -/
def popCase (n : ℕ) (load : List UInt8 → Option S) (sim : S → Option S) (span : List ℕ) :
    Option (List ℕ) := do
  let (xBytes, span) ← popBytes n span
  let (yBytes, span) ← popBytes n span
  let xState ← load xBytes
  let yState ← load yBytes
  let s ← sim xState
  if s = yState then some span else none

end Case

/-- The gate loop of the first executable validates each gate before it runs it. -/
def checkedStep (s : State) (gate : Gate) : Option State :=
  (rangeCheckGate gate).bind fun _ => step s gate

def applesToApplesExecutable (input : List ℕ) : Option ℕ := do
  let (circuitBytes, span) ← popCircuit input
  let gates ← deserialise circuitBytes
  let (nTc, span) ← popInto 32 span
  let _ ← run (fun span _ => popCase 32 bytesToState (fun s => run checkedStep s gates) span) span
    (List.range nTc)
  return 1

/-- The gate list `nReps` times. -/
def runReps (gates : List Gate) (nReps : ℕ) (s : State512) : Option State512 :=
  run (fun s _ => run step512 s gates) s (List.range nReps)

def iaddExecutable (input : List ℕ) : Option ℕ := do
  let (circuitBytes, span) ← popCircuit input
  let gates ← deserialise circuitBytes
  let (nReps, span) ← popInto 32 span
  if nReps ≥ 1 then
    let (nSb, span) ← popInto 32 span
    if nSb ≤ MAX_STATE_BYTES then
      let (nTc, span) ← popInto 32 span
      let _ ← run (fun _ gate => rangeCheckGate512 gate) () gates
      let _ ← run (fun span _ => popCase nSb bytesToState512 (runReps gates nReps) span) span
        (List.range nTc)
      return 1
    else none
  else none

/-! ## 2. The input -/

def bytesInput (bytes : List UInt8) : List ℕ := bytes.map UInt8.toNat

def encodeCase (p : List UInt8 × List UInt8) : List ℕ := bytesInput p.1 ++ bytesInput p.2

/-- The documented layout: the circuit, its commitment, the parameters of the executable, the
    cases. -/
def encodeInput (bytes : List UInt8) (commitment : U256) (params : List ℕ)
    (cases : List (List UInt8 × List UInt8)) : List ℕ :=
  bytes.length :: (bytesInput bytes ++ (commitment.low :: commitment.high ::
    (params ++ (cases.length :: cases.flatMap encodeCase))))

section Reading

variable {bytes : List UInt8} {span rest : List ℕ} {w v n : ℕ}

theorem popInto_eq (w v : ℕ) (rest : List ℕ) :
    popInto w (v :: rest) = (tryInto w v).bind fun u => some (u, rest) := rfl

theorem popInto_cons (h : v < 2 ^ w) : popInto w (v :: rest) = some (v, rest) := by
  rw [popInto_eq, tryInto_of_lt h, Option.bind_some]

theorem popInto_cons_eq_some {r : ℕ × List ℕ} :
    popInto w (v :: rest) = some r ↔ v < 2 ^ w ∧ r = (v, rest) := by
  by_cases h : v < 2 ^ w
  · rw [popInto_cons h, Option.some.injEq, and_iff_right h, eq_comm]
  · rw [popInto_eq, tryInto, if_neg h]
    exact iff_of_false (fun e => by cases e) fun e => h e.1

theorem run_popByte (rest : List ℕ) : ∀ (bytes acc : List UInt8),
    run (fun st _ => popByte st) (acc, bytesInput bytes ++ rest) bytes = some (acc ++ bytes, rest)
  | [], acc => by rw [List.append_nil]; rfl
  | b :: bytes, acc => by
      have hb : popByte (acc, bytesInput (b :: bytes) ++ rest) =
          some (acc ++ [b], bytesInput bytes ++ rest) := by
        have hpop : popInto 8 (bytesInput (b :: bytes) ++ rest) =
            some (b.toNat, bytesInput bytes ++ rest) := popInto_cons b.toNat_lt
        rw [popByte, hpop]
        exact congrArg (fun b' => some (acc ++ [b'], bytesInput bytes ++ rest)) UInt8.ofNat_toNat
      rw [run_cons, hb, Option.bind_some, run_popByte rest bytes, List.append_assoc]
      rfl

theorem popBytes_append (h : bytes.length = n) :
    popBytes n (bytesInput bytes ++ rest) = some (bytes, rest) := by
  rw [popBytes, run_const _ bytes (by rw [List.length_range, h]), run_popByte]
  rfl

theorem beNat_lt (bytes : List UInt8) : beNat bytes < 256 ^ bytes.length := by
  induction bytes using List.reverseRecOn with
  | nil => decide
  | append_singleton bytes b ih =>
    have hb := b.toNat_lt
    have e : beNat (bytes ++ [b]) = beNat bytes * 256 + b.toNat := List.foldl_append
    rw [e, List.length_append, List.length_singleton, pow_succ]
    omega

theorem length_digest (bytes : List UInt8) : (digest bytes).length = 32 := by
  rw [digest, length_flatMap_const (k := 4) fun w _ => rfl, length_hashWords]

theorem commitmentOf_lt (bytes : List UInt8) :
    (commitmentOf bytes).low < 2 ^ 128 ∧ (commitmentOf bytes).high < 2 ^ 128 := by
  refine ⟨Nat.mod_lt _ (Nat.two_pow_pos 128), Nat.div_lt_of_lt_mul ?_⟩
  refine (beNat_lt (digest bytes)).trans_le ?_
  rw [length_digest]
  norm_num

/-- **The circuit and its true commitment** pass when the length is a `u32`. -/
theorem popCircuit_eq_some {r : List UInt8 × List ℕ} :
    popCircuit (bytes.length :: (bytesInput bytes ++
      ((commitmentOf bytes).low :: (commitmentOf bytes).high :: rest))) = some r ↔
      bytes.length < 2 ^ 32 ∧ r = (bytes, rest) := by
  obtain ⟨hlo, hhi⟩ := commitmentOf_lt bytes
  by_cases h : bytes.length < 2 ^ 32
  · have hpop : popCircuit (bytes.length :: (bytesInput bytes ++
        ((commitmentOf bytes).low :: (commitmentOf bytes).high :: rest))) = some (bytes, rest) := by
      simp only [popCircuit, Option.bind_eq_bind, Option.bind_eq_some_iff]
      exact ⟨_, popInto_cons h, _, popBytes_append rfl, _, popInto_cons hlo, _, popInto_cons hhi, _,
        commitBlake2s_eq h, _, digestToU256Be_eq bytes, if_pos rfl⟩
    rw [hpop, and_iff_right h]
    exact ⟨fun e => (Option.some.inj e).symm, fun e => congrArg some e.symm⟩
  · refine iff_of_false (fun e => ?_) fun e => h e.1
    obtain ⟨r', hr', -⟩ := Option.bind_eq_some_iff.mp e
    exact h (popInto_cons_eq_some.mp hr').1

end Reading

/-! ## 3. The cases -/

section Cases

variable {S : Type} [DecidableEq S] {load : List UInt8 → Option S} {sim : S → Option S}
  {rest : List ℕ} {n : ℕ} {inv : S → Prop} {rep : S → ℕ → Bool} {act : (ℕ → Bool) → ℕ → Bool}
  {cond : Prop}

/-- What a case is read and checked for: `act` is what the simulation does to the wires, when
    `cond` holds of the gates. -/
theorem popCase_eq_some {p : List UInt8 × List UInt8} {r : List ℕ}
    (hload : ∀ bytes : List UInt8, bytes.length = n →
      ∃ s, load bytes = some s ∧ inv s ∧ rep s = wires bytes)
    (hsim : ∀ s s', inv s → (sim s = some s' ↔ cond ∧ inv s' ∧ rep s' = act (rep s)))
    (hx : p.1.length = n) (hy : p.2.length = n) :
    popCase n load sim (encodeCase p ++ rest) = some r ↔
      (cond ∧ wires p.2 = act (wires p.1)) ∧ r = rest := by
  obtain ⟨xs, hxs, hxi, hxr⟩ := hload p.1 hx
  obtain ⟨ys, hys, hyi, hyr⟩ := hload p.2 hy
  have hsy : sim xs = some ys ↔ cond ∧ wires p.2 = act (wires p.1) := by
    rw [hsim xs ys hxi, and_iff_right hyi, hxr, hyr]
  rw [← hsy, popCase, encodeCase, List.append_assoc, popBytes_append hx]
  simp only [Option.bind_eq_bind, Option.bind_some, popBytes_append hy, hxs, hys]
  cases sim xs with
  | none => simp
  | some s =>
    by_cases e : s = ys
    · simp [e, eq_comm]
    · simp [e]

/-- **The loop over the cases.** -/
theorem run_popCase {ok : List UInt8 × List UInt8 → Prop} (rest r : List ℕ) :
    ∀ {cases : List (List UInt8 × List UInt8)}, (∀ p ∈ cases, ∀ rest r,
      popCase n load sim (encodeCase p ++ rest) = some r ↔ ok p ∧ r = rest) →
      (run (fun span _ => popCase n load sim span) (cases.flatMap encodeCase ++ rest)
        (List.range cases.length) = some r ↔ (∀ p ∈ cases, ok p) ∧ r = rest)
  | cases, h => by
      rw [run_const _ cases (by rw [List.length_range])]
      induction cases with
      | nil => simp [eq_comm]
      | cons p cases ih =>
        have ih' := ih fun q hq => h q (List.mem_cons_of_mem _ hq)
        rw [run_cons_some, List.flatMap_cons, List.append_assoc, List.forall_mem_cons]
        simp only [h p List.mem_cons_self]
        constructor
        · intro h'
          obtain ⟨_, ⟨hp, rfl⟩, hr⟩ := h'
          obtain ⟨hall, rfl⟩ := ih'.mp hr
          exact ⟨⟨hp, hall⟩, rfl⟩
        · intro h'
          obtain ⟨⟨hp, hall⟩, rfl⟩ := h'
          exact ⟨_, ⟨hp, rfl⟩, ih'.mpr ⟨hall, rfl⟩⟩

end Cases

/-! ## 4. The executables -/

section Executables

variable {gates : List Gate} {bytes : List UInt8} {cases : List (List UInt8 × List UInt8)}

theorem rangeCheckGate_eq_some {g : Gate} :
    rangeCheckGate g = some () ↔ g.InRange BITS_PER_VALUE ∧ g.Canonical :=
  checkGate_eq_some (by decide)

theorem rangeCheckGate512_eq_some {g : Gate} :
    rangeCheckGate512 g = some () ↔ g.InRange BITS_PER_VALUE_512 ∧ g.Canonical :=
  checkGate_eq_some (by decide)

/-- A state is known by its wires. -/
theorem some_eq_iff_wires {S W : Type} {wf : S → Prop} {wiresOf : S → W} {t s' : S} {w : W}
    (ext : wf s' → wiresOf t = wiresOf s' → t = s') (ht : wf t) (hw : wiresOf t = w) :
    some t = some s' ↔ wf s' ∧ wiresOf s' = w := by
  refine ⟨fun e => ?_, fun h => ?_⟩
  · cases e
    exact ⟨ht, hw⟩
  · obtain ⟨hwf', hw'⟩ := h
    rw [ext hwf' (hw.trans hw'.symm)]

theorem run_checkedStep_eq_some {s s' : State} (hs : s.WF) : run checkedStep s gates = some s' ↔
    (∀ g ∈ gates, rangeCheckGate g = some ()) ∧ s'.WF ∧ s'.wires = simulate gates s.wires := by
  unfold checkedStep
  rw [run_guard]
  refine and_congr_right fun hg => ?_
  obtain ⟨t, ht, hwf, hw⟩ := run_step hg hs
  rw [ht]
  exact some_eq_iff_wires hwf.ext hwf hw

/-- Validated gates, any number of times. -/
theorem runReps_spec (hg : ∀ g ∈ gates, rangeCheckGate512 g = some ()) {s : State512} (hs : s.WF) :
    ∀ k, ∃ s', runReps gates k s = some s' ∧ s'.WF ∧ s'.wires = (simulate gates)^[k] s.wires := by
  intro k
  refine run_range (I := fun k (s' : State512) => s'.WF ∧ s'.wires = (simulate gates)^[k] s.wires) ⟨hs, rfl⟩
    fun i _ t ht => ?_
  obtain ⟨t', ht', hwf, hw⟩ := run_step512 hg ht.1
  refine ⟨t', ht', hwf, ?_⟩
  rw [hw, ht.2, Function.iterate_succ_apply']

theorem runReps_eq_some (hg : ∀ g ∈ gates, rangeCheckGate512 g = some ()) {s s' : State512}
    (hs : s.WF) {k : ℕ} : runReps gates k s = some s' ↔
      True ∧ s'.WF ∧ s'.wires = (simulate gates)^[k] s.wires := by
  obtain ⟨t, ht, hwf, hw⟩ := runReps_spec hg hs k
  rw [ht, and_iff_right trivial]
  exact some_eq_iff_wires hwf.ext hwf hw

/-- The declared length of a string whose length is a `u32`. -/
theorem Framed.declaredLength_le (hf : Framed bytes) (h : bytes.length < 2 ^ 32) :
    declaredLength bytes ≤ 2 ^ 32 := hf.complete.trans h.le

/-- **When the first executable completes** on a circuit, its true commitment and some cases. -/
theorem applesToApples_isSome (hcases : ∀ p ∈ cases, p.1.length = 32 ∧ p.2.length = 32) :
    (∃ r, applesToApplesExecutable (encodeInput bytes (commitmentOf bytes) [] cases) = some r) ↔
      (bytes.length < 2 ^ 32 ∧ Framed bytes ∧ PadsZero bytes) ∧ cases.length < 2 ^ 32 ∧
        ∀ p ∈ cases, (∀ g ∈ gatesOf bytes, g.InRange BITS_PER_VALUE ∧ g.Canonical) ∧
          wires p.2 = simulate (gatesOf bytes) (wires p.1) := by
  have hcase : ∀ p ∈ cases, ∀ rest r,
      popCase 32 bytesToState (fun s => run checkedStep s (gatesOf bytes)) (encodeCase p ++ rest) =
        some r ↔ ((∀ g ∈ gatesOf bytes, rangeCheckGate g = some ()) ∧
          wires p.2 = simulate (gatesOf bytes) (wires p.1)) ∧ r = rest :=
    fun p hp rest r => popCase_eq_some (fun _ h => bytesToState_spec h)
      (fun s s' hs => run_checkedStep_eq_some hs) (hcases p hp).1 (hcases p hp).2
  have hrun := fun r => run_popCase [] r hcase
  simp only [List.append_nil, rangeCheckGate_eq_some] at hrun
  simp only [applesToApplesExecutable, encodeInput, List.nil_append, Option.bind_eq_bind,
    Option.bind_eq_some_iff, Prod.exists, Option.pure_def, popCircuit_eq_some, Prod.mk.injEq]
  constructor
  · intro h'
    obtain ⟨_, _, _, ⟨hlen, rfl, rfl⟩, _, hd, _, _, hn, _, hr, -⟩ := h'
    obtain ⟨⟨hf, -⟩, hp, rfl⟩ := deserialise_eq_some.mp hd
    obtain ⟨hn', e⟩ := popInto_cons_eq_some.mp hn
    cases e
    exact ⟨⟨hlen, hf, hp⟩, hn', ((hrun _).mp hr).1⟩
  · intro h'
    obtain ⟨⟨hlen, hf, hp⟩, hn, hall⟩ := h'
    exact ⟨1, _, _, ⟨hlen, rfl, rfl⟩, _, deserialise_eq_some.mpr
      ⟨⟨hf, Framed.declaredLength_le hf hlen⟩, hp, rfl⟩, _, _, popInto_cons hn, _,
      (hrun _).mpr ⟨hall, rfl⟩, rfl⟩

/-- **When the second executable completes.** -/
theorem iadd_isSome {nReps nSb : ℕ} (hcases : ∀ p ∈ cases, p.1.length = nSb ∧ p.2.length = nSb) :
    (∃ r, iaddExecutable (encodeInput bytes (commitmentOf bytes) [nReps, nSb] cases) = some r) ↔
      (bytes.length < 2 ^ 32 ∧ Framed bytes ∧ PadsZero bytes) ∧
        ((1 ≤ nReps ∧ nReps < 2 ^ 32) ∧ nSb ≤ 64 ∧ cases.length < 2 ^ 32) ∧
        (∀ g ∈ gatesOf bytes, g.InRange BITS_PER_VALUE_512 ∧ g.Canonical) ∧
        ∀ p ∈ cases, wires p.2 = (simulate (gatesOf bytes))^[nReps] (wires p.1) := by
  -- the loop of the range checks has passed before the cases are read
  have hrun : (∀ g ∈ gatesOf bytes, rangeCheckGate512 g = some ()) → nSb ≤ 64 → ∀ r,
      run (fun span _ => popCase nSb bytesToState512 (runReps (gatesOf bytes) nReps) span)
        (cases.flatMap encodeCase) (List.range cases.length) = some r ↔
        (∀ p ∈ cases, wires p.2 = (simulate (gatesOf bytes))^[nReps] (wires p.1)) ∧ r = [] := by
    intro hg hsb r
    have hcase : ∀ p ∈ cases, ∀ rest r,
        popCase nSb bytesToState512 (runReps (gatesOf bytes) nReps) (encodeCase p ++ rest) =
          some r ↔ (True ∧ wires p.2 = (simulate (gatesOf bytes))^[nReps] (wires p.1)) ∧ r = rest :=
      fun p hp rest r => popCase_eq_some (fun _ h => bytesToState512_spec (h.le.trans hsb))
        (fun s s' hs => runReps_eq_some hg hs) (hcases p hp).1 (hcases p hp).2
    have h := run_popCase [] r hcase
    simp only [List.append_nil, true_and] at h
    exact h
  simp only [iaddExecutable, encodeInput, List.cons_append, List.nil_append, Option.bind_eq_bind,
    Option.bind_eq_some_iff, Prod.exists, Option.pure_def, popCircuit_eq_some, Prod.mk.injEq,
    Option.ite_none_right_eq_some, run_checks, MAX_STATE_BYTES]
  constructor
  · rintro ⟨_, _, _, ⟨hlen, rfl, rfl⟩, _, hd, _, _, hk, hk1, _, _, hsb, hsb', _, _, hn, _, hg, _, hr,
      -⟩
    obtain ⟨⟨hf, -⟩, hp, rfl⟩ := deserialise_eq_some.mp hd
    obtain ⟨hk', e⟩ := popInto_cons_eq_some.mp hk
    cases e
    obtain ⟨-, e⟩ := popInto_cons_eq_some.mp hsb
    cases e
    obtain ⟨hn', e⟩ := popInto_cons_eq_some.mp hn
    cases e
    exact ⟨⟨hlen, hf, hp⟩, ⟨⟨hk1, hk'⟩, hsb', hn'⟩,
      fun g hg' => rangeCheckGate512_eq_some.mp (hg g hg'), ((hrun hg hsb' _).mp hr).1⟩
  · intro h'
    obtain ⟨⟨hlen, hf, hp⟩, ⟨⟨hk1, hk⟩, hsb, hn⟩, hg, hall⟩ := h'
    have hg' : ∀ g ∈ gatesOf bytes, rangeCheckGate512 g = some () :=
      fun g hm => rangeCheckGate512_eq_some.mpr (hg g hm)
    have hsb' : nSb < 2 ^ 32 := by omega
    exact ⟨1, _, _, ⟨hlen, rfl, rfl⟩, _, deserialise_eq_some.mpr
      ⟨⟨hf, Framed.declaredLength_le hf hlen⟩, hp, rfl⟩, _, _, popInto_cons hk, hk1, _, _,
      popInto_cons hsb', hsb, _, _, popInto_cons hn, (), hg', _, (hrun hg' hsb _).mpr ⟨hall, rfl⟩,
      rfl⟩

end Executables

end GroverTax.Cairo
