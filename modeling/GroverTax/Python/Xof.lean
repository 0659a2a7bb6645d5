/-
  File:      GroverTax/Python/Xof.lean
  Subject:   The byte stream of src/python/grover_tax/xof.py over any digest function, under every
             sequence of reads.

  `hashlib.shake_256(seed).digest(n)` is a parameter. A raised exception is an error value, also of
  the derivation that reads the stream. `IsXof` is what `hashlib` documents: `n` bytes, and a
  shorter digest is the beginning of a longer one.

  * `XOF.read_stream` -- a read returns the next bytes of the stream, and keeps the buffer a
    beginning of it;
  * `XOF.readAll_stream` -- **the chunks of any sequence of reads make up one digest.**
-/
import GroverTax.Kickmix.FiatShamir
import Mathlib.Algebra.BigOperators.Ring.Finset

namespace GroverTax.Python

open GroverTax.Lib GroverTax.Kickmix

/-! ## 1. The source -/

inductive CaseError where
  /-- derive_cases: width must be positive, got {width} -/
  | width (width : ℤ)
  /-- derive_cases: num_samples must be positive, got {num_samples} -/
  | numSamples (numSamples : ℤ)
  /-- XOF.read: n must be non-negative, got {n} -/
  | readLength (n : ℤ)
  deriving DecidableEq, Repr

def INITIAL_BUFFER : ℕ := 4096

structure XOF where
  seed : List UInt8
  offset : ℕ := 0
  buffer : List UInt8 := []
  deriving DecidableEq, Repr

/-- The `position` property. -/
def XOF.position (xof : XOF) : ℕ := xof.offset

section Code

variable (digest : List UInt8 → ℕ → List UInt8)

/-- The buffer, long enough for `needed` bytes. -/
def XOF.grow (xof : XOF) (needed : ℕ) : XOF :=
  if needed > xof.buffer.length then
    { xof with buffer := digest xof.seed (max (max needed (xof.buffer.length * 2)) INITIAL_BUFFER) }
  else xof

def XOF.read (xof : XOF) (n : ℤ) : Except CaseError (List UInt8 × XOF) :=
  if n < 0 then .error (.readLength n)
  else if n = 0 then .ok ([], xof)
  else
    let needed := xof.offset + n.toNat
    let xof := xof.grow digest needed
    .ok ((xof.buffer.drop xof.offset).take n.toNat, { xof with offset := xof.offset + n.toNat })

/-- One `read` after another: the chunks, and the stream after the last one. -/
def XOF.readAll : XOF → List ℤ → Except CaseError (List (List UInt8) × XOF)
  | xof, [] => .ok ([], xof)
  | xof, n :: sizes => do
      let (chunk, xof) ← xof.read digest n
      let (chunks, xof) ← xof.readAll sizes
      return (chunk :: chunks, xof)

/-- What `hashlib` documents. -/
structure IsXof : Prop where
  length_digest : ∀ seed n, (digest seed n).length = n
  take_digest : ∀ seed m n, m ≤ n → digest seed m = (digest seed n).take m

/-- The buffer is a beginning of the stream. -/
def XOF.Buffered (xof : XOF) : Prop := xof.buffer = digest xof.seed xof.buffer.length

end Code

/-! ## 2. One read -/

section Read

variable {digest : List UInt8 → ℕ → List UInt8} {xof : XOF} {n : ℕ}

/-- Bytes `i` to `i + n - 1` of the stream, cut out of any digest that has them. -/
theorem IsXof.drop_digest (h : IsXof digest) (seed : List UInt8) {i m : ℕ} (hm : i + n ≤ m) :
    ((digest seed m).drop i).take n = (digest seed (i + n)).drop i := by
  rw [h.take_digest seed (i + n) m hm, List.drop_take, Nat.add_sub_cancel_left]

/-- Neighbouring parts of the stream. -/
theorem IsXof.drop_append_drop (h : IsXof digest) (seed : List UInt8) {i j m : ℕ} (hij : i ≤ j)
    (hm : j ≤ m) : (digest seed j).drop i ++ (digest seed m).drop j = (digest seed m).drop i := by
  have hlen : i ≤ (digest seed j).length := hij.trans (h.length_digest seed j).ge
  rw [← List.drop_append_of_le_length hlen, h.take_digest seed j m hm, List.take_append_drop]

/-- **Growing** gives a buffer that is long enough, and a beginning of the stream still. -/
theorem XOF.grow_stream (h : IsXof digest) (hb : xof.Buffered digest) (needed : ℕ) :
    (xof.grow digest needed).Buffered digest ∧
      needed ≤ (xof.grow digest needed).buffer.length ∧
      (xof.grow digest needed).seed = xof.seed ∧
      (xof.grow digest needed).offset = xof.offset := by
  unfold XOF.grow
  split_ifs with hlen
  · refine ⟨?_, ?_, rfl, rfl⟩
    · show digest _ _ = digest _ (digest _ _).length
      rw [h.length_digest]
    · show needed ≤ (digest _ _).length
      rw [h.length_digest]
      exact (le_max_left _ _).trans (le_max_left _ _)
  · exact ⟨hb, Nat.le_of_not_lt hlen, rfl, rfl⟩

/-- **A read** returns the next bytes of the stream. -/
theorem XOF.read_stream (h : IsXof digest) (hb : xof.Buffered digest) (n : ℕ) :
    ∃ xof', xof.read digest n =
        .ok ((digest xof.seed (xof.offset + n)).drop xof.offset, xof') ∧
      xof'.Buffered digest ∧ xof'.seed = xof.seed ∧ xof'.offset = xof.offset + n := by
  unfold XOF.read
  rw [if_neg (by omega)]
  split_ifs with h0
  · -- nothing is read, and nothing is left of the digest behind its end
    obtain rfl : n = 0 := by omega
    refine ⟨xof, ?_, hb, rfl, rfl⟩
    rw [Nat.add_zero, List.drop_eq_nil_of_le (h.length_digest _ _).le]
  · obtain ⟨hb', hlen, hseed, hoff⟩ := XOF.grow_stream h hb (xof.offset + n)
    dsimp only
    rw [Int.toNat_natCast]
    generalize xof.grow digest (xof.offset + n) = grown at hb' hlen hseed hoff
    refine ⟨{ grown with offset := grown.offset + n }, ?_, hb', hseed, by rw [hoff]⟩
    rw [hb', hseed, hoff, h.drop_digest xof.seed hlen]

theorem isXof_shake256 : IsXof shake256 where
  length_digest := length_shake256
  take_digest seed _ _ h := (take_shake256 seed h).symm

end Read

/-! ## 3. Any sequence of reads -/

section Stream

variable {digest : List UInt8 → ℕ → List UInt8}

/-- **The reads from any point on.** -/
theorem XOF.readAll_from (h : IsXof digest) : ∀ (sizes : List ℕ) {xof : XOF},
    xof.Buffered digest → ∃ chunks xof',
      xof.readAll digest (sizes.map fun n : ℕ => (n : ℤ)) = .ok (chunks, xof') ∧
      chunks.flatten = (digest xof.seed (xof.offset + sizes.sum)).drop xof.offset ∧
      chunks.map List.length = sizes ∧ xof'.offset = xof.offset + sizes.sum
  | [], xof, _ => by
      refine ⟨[], xof, rfl, ?_, rfl, rfl⟩
      exact (List.drop_eq_nil_of_le (h.length_digest _ _).le).symm
  | n :: sizes, xof, hb => by
      obtain ⟨xof1, hread, hb1, hseed, hoff⟩ := XOF.read_stream h hb n
      obtain ⟨chunks, xof2, hrest, hflat, hlens, hoff2⟩ := XOF.readAll_from h sizes hb1
      rw [hseed, hoff] at hflat
      have hadd : xof.offset + n + sizes.sum = xof.offset + (n :: sizes).sum := by
        rw [List.sum_cons, Nat.add_assoc]
      refine ⟨(digest xof.seed (xof.offset + n)).drop xof.offset :: chunks, xof2, ?_, ?_, ?_, ?_⟩
      · exact bind_eq_ok.mpr ⟨_, hread, bind_eq_ok.mpr ⟨_, hrest, rfl⟩⟩
      · rw [List.flatten_cons, hflat, hadd,
          h.drop_append_drop xof.seed (Nat.le_add_right _ _) (hadd ▸ Nat.le_add_right _ _)]
      · rw [List.map_cons, hlens, List.length_drop, h.length_digest, Nat.add_sub_cancel_left]
      · rw [hoff2, hoff, hadd]

/-- **The stream does not depend on how it is read.** -/
theorem XOF.readAll_stream (digest : List UInt8 → ℕ → List UInt8) (h : IsXof digest)
    (seed : List UInt8) (sizes : List ℤ) (hsizes : ∀ n ∈ sizes, 0 ≤ n) :
    ∃ chunks xof', XOF.readAll digest { seed := seed } sizes = .ok (chunks, xof') ∧
      chunks.flatten = digest seed sizes.sum.toNat ∧
      chunks.map (fun chunk => (chunk.length : ℤ)) = sizes ∧ xof'.position = sizes.sum := by
  obtain ⟨ns, rfl⟩ : ∃ ns : List ℕ, sizes = ns.map fun n : ℕ => (n : ℤ) := by
    have hback : (sizes.map Int.toNat).map (fun n : ℕ => (n : ℤ)) = sizes.map id := by
      rw [List.map_map]
      exact List.map_congr_left fun n hn => Int.toNat_of_nonneg (hsizes n hn)
    exact ⟨sizes.map Int.toNat, by rw [hback, List.map_id]⟩
  have hbuffered : XOF.Buffered digest { seed := seed } :=
    (List.length_eq_zero_iff.mp (h.length_digest seed 0)).symm
  obtain ⟨chunks, xof', hread, hflat, hlens, hoff⟩ := XOF.readAll_from h ns hbuffered
  have hsum : (ns.map fun n : ℕ => (n : ℤ)).sum = (ns.sum : ℤ) := (Nat.cast_list_sum ns).symm
  rw [Nat.zero_add] at hflat hoff
  refine ⟨chunks, xof', hread, ?_, ?_, ?_⟩
  · rw [hflat, hsum, Int.toNat_natCast, List.drop_zero]
  · rw [← hlens, List.map_map]
    rfl
  · rw [hsum, XOF.position, hoff]

/-- The theorem at SHAKE-256, with an empty read, a read to the end of the first buffer, and one
    byte more. -/
theorem XOF.readAll_stream_shake256 : ∃ chunks xof',
    XOF.readAll shake256 { seed := [7] } [0, 4096, 1] = .ok (chunks, xof') ∧
      chunks.flatten = shake256 [7] 4097 ∧
      chunks.map (fun chunk => (chunk.length : ℤ)) = [0, 4096, 1] ∧ xof'.position = (4097 : ℤ) :=
  XOF.readAll_stream shake256 isXof_shake256 [7] [0, 4096, 1] (by decide)

end Stream

end GroverTax.Python
