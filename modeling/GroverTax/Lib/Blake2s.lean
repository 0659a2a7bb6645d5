/-
  File:      GroverTax/Lib/Blake2s.lean
  Subject:   BLAKE2s with a 32-byte digest and no key.

  The message is cut into blocks of 64 bytes, the last one filled up with zeros; the empty message
  has one block. Every block but the last is compressed with the number of bytes up to its end, the
  last one with the length of the message and the final flag.
-/
import Mathlib.Data.List.Basic
import Mathlib.Algebra.Ring.Nat

namespace GroverTax.Lib.Blake2s

/-! ## 1. Compression -/

def IV : List UInt32 :=
  [0x6A09E667, 0xBB67AE85, 0x3C6EF372, 0xA54FF53A, 0x510E527F, 0x9B05688C, 0x1F83D9AB, 0x5BE0CD19]

/-- The message schedule, one row a round. -/
def SIGMA : List (List ℕ) :=
  [[0, 1, 2, 3, 4, 5, 6, 7, 8, 9, 10, 11, 12, 13, 14, 15],
   [14, 10, 4, 8, 9, 15, 13, 6, 1, 12, 0, 2, 11, 7, 5, 3],
   [11, 8, 12, 0, 5, 2, 15, 13, 10, 14, 3, 6, 7, 1, 9, 4],
   [7, 9, 3, 1, 13, 12, 11, 14, 2, 6, 5, 10, 4, 0, 15, 8],
   [9, 0, 5, 7, 2, 4, 10, 15, 14, 1, 11, 12, 6, 8, 3, 13],
   [2, 12, 6, 10, 0, 11, 8, 3, 4, 13, 7, 5, 15, 14, 1, 9],
   [12, 5, 1, 15, 14, 13, 4, 10, 0, 7, 6, 3, 9, 2, 8, 11],
   [13, 11, 7, 14, 12, 1, 3, 9, 5, 0, 15, 4, 8, 6, 2, 10],
   [6, 15, 14, 9, 11, 3, 0, 8, 12, 2, 13, 7, 1, 4, 10, 5],
   [10, 2, 8, 4, 7, 6, 1, 5, 15, 11, 9, 14, 3, 12, 13, 0]]

def rotr (x n : UInt32) : UInt32 := (x >>> n) ||| (x <<< (32 - n))

/-- The mixing function on four words of the local vector. -/
def mix (v : List UInt32) (a b c d : ℕ) (x y : UInt32) : List UInt32 :=
  let va := v.getD a 0 + v.getD b 0 + x
  let vd := rotr (v.getD d 0 ^^^ va) 16
  let vc := v.getD c 0 + vd
  let vb := rotr (v.getD b 0 ^^^ vc) 12
  let va := va + vb + y
  let vd := rotr (vd ^^^ va) 8
  let vc := vc + vd
  let vb := rotr (vb ^^^ vc) 7
  (((v.set a va).set b vb).set c vc).set d vd

/-- The four columns, then the four diagonals. -/
def mixRound (m v : List UInt32) (s : List ℕ) : List UInt32 :=
  let word (i : ℕ) : UInt32 := m.getD (s.getD i 0) 0
  let v := mix v 0 4 8 12 (word 0) (word 1)
  let v := mix v 1 5 9 13 (word 2) (word 3)
  let v := mix v 2 6 10 14 (word 4) (word 5)
  let v := mix v 3 7 11 15 (word 6) (word 7)
  let v := mix v 0 5 10 15 (word 8) (word 9)
  let v := mix v 1 6 11 12 (word 10) (word 11)
  let v := mix v 2 7 8 13 (word 12) (word 13)
  mix v 3 4 9 14 (word 14) (word 15)

/-- The compression function; `t` counts the bytes so far. -/
def compress (h m : List UInt32) (t : ℕ) (last : Bool) : List UInt32 :=
  let v := h ++ IV
  let v := v.set 12 (v.getD 12 0 ^^^ UInt32.ofNat t)
  let v := v.set 13 (v.getD 13 0 ^^^ UInt32.ofNat (t / 2 ^ 32))
  let v := if last then v.set 14 (v.getD 14 0 ^^^ 0xFFFFFFFF) else v
  let v := SIGMA.foldl (mixRound m) v
  (List.range 8).map fun i => h.getD i 0 ^^^ v.getD i 0 ^^^ v.getD (i + 8) 0

/-! ## 2. The hash -/

/-- The first word is mixed with the parameters: digest length 32, no key, fan-out and depth 1. -/
def initial : List UInt32 := IV.set 0 (0x6A09E667 ^^^ 0x01010020)

/-- The little-endian word at `off`, zeros beyond the end. -/
def wordAt (bytes : List UInt8) (off : ℕ) : ℕ :=
  (bytes.getD off 0).toNat + (bytes.getD (off + 1) 0).toNat * 0x100 +
    (bytes.getD (off + 2) 0).toNat * 0x10000 + (bytes.getD (off + 3) 0).toNat * 0x1000000

/-- Block `k` of a message. -/
def block (bytes : List UInt8) (k : ℕ) : List UInt32 :=
  (List.range 16).map fun j => UInt32.ofNat (wordAt bytes (64 * k + j * 4))

/-- The number of blocks of a message of `n` bytes. -/
def blockCount (n : ℕ) : ℕ := if n = 0 then 1 else (n + 63) / 64

/-- The chaining value before block `k`. -/
def chain (bytes : List UInt8) (k : ℕ) : List UInt32 :=
  (List.range k).foldl (fun h i => compress h (block bytes i) (64 * (i + 1)) false) initial

/-- **The hash**, as eight words. -/
def hashWords (bytes : List UInt8) : List UInt32 :=
  let last := blockCount bytes.length - 1
  compress (chain bytes last) (block bytes last) bytes.length true

/-- The four bytes of a word, lowest first. -/
def leBytes (w : UInt32) : List UInt8 :=
  (List.range 4).map fun i => UInt8.ofNat (w.toNat / 256 ^ i)

/-- **The digest**, as 32 bytes. -/
def digest (bytes : List UInt8) : List UInt8 := (hashWords bytes).flatMap leBytes

theorem chain_succ (bytes : List UInt8) (k : ℕ) : chain bytes (k + 1) =
    compress (chain bytes k) (block bytes k) (64 * (k + 1)) false := by
  rw [chain, List.range_succ, List.foldl_append]
  rfl

theorem length_hashWords (bytes : List UInt8) : (hashWords bytes).length = 8 := rfl

theorem blockCount_sub_one (n : ℕ) : blockCount n - 1 = (n - 1) / 64 := by
  unfold blockCount
  split_ifs <;> omega

end GroverTax.Lib.Blake2s
