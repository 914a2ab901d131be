import Mathlib.Algebra.GroupWithZero.Nat
import Mathlib.Data.List.Basic

/-! # SHA-256

The digest of a byte sequence, over 32-bit words. Bytes are natural numbers below 256.
-/
namespace CueBee.Sha256

abbrev Word := BitVec 32

/-- The first 32 bits of the fractional parts of the cube roots of the first 64 primes. -/
def roundConstants : List Word := [
  0x428a2f98,0x71374491,0xb5c0fbcf,0xe9b5dba5,0x3956c25b,0x59f111f1,0x923f82a4,0xab1c5ed5,
  0xd807aa98,0x12835b01,0x243185be,0x550c7dc3,0x72be5d74,0x80deb1fe,0x9bdc06a7,0xc19bf174,
  0xe49b69c1,0xefbe4786,0x0fc19dc6,0x240ca1cc,0x2de92c6f,0x4a7484aa,0x5cb0a9dc,0x76f988da,
  0x983e5152,0xa831c66d,0xb00327c8,0xbf597fc7,0xc6e00bf3,0xd5a79147,0x06ca6351,0x14292967,
  0x27b70a85,0x2e1b2138,0x4d2c6dfc,0x53380d13,0x650a7354,0x766a0abb,0x81c2c92e,0x92722c85,
  0xa2bfe8a1,0xa81a664b,0xc24b8b70,0xc76c51a3,0xd192e819,0xd6990624,0xf40e3585,0x106aa070,
  0x19a4c116,0x1e376c08,0x2748774c,0x34b0bcb5,0x391c0cb3,0x4ed8aa4a,0x5b9cca4f,0x682e6ff3,
  0x748f82ee,0x78a5636f,0x84c87814,0x8cc70208,0x90befffa,0xa4506ceb,0xbef9a3f7,0xc67178f2]

/-- The eight working variables. -/
structure Registers where
  a : Word
  b : Word
  c : Word
  d : Word
  e : Word
  f : Word
  g : Word
  h : Word
deriving DecidableEq

def start : Registers where
  a := 0x6a09e667
  b := 0xbb67ae85
  c := 0x3c6ef372
  d := 0xa54ff53a
  e := 0x510e527f
  f := 0x9b05688c
  g := 0x1f83d9ab
  h := 0x5be0cd19

namespace Registers

def add (r s : Registers) : Registers :=
  ⟨r.a + s.a,r.b + s.b,r.c + s.c,r.d + s.d,r.e + s.e,r.f + s.f,r.g + s.g,r.h + s.h⟩

def toList (r : Registers) : List Word := [r.a,r.b,r.c,r.d,r.e,r.f,r.g,r.h]

/-- One round, with its constant and its word of the schedule. -/
def round (r : Registers) (k w : Word) : Registers :=
  let choice := (r.e &&& r.f) ^^^ (~~~r.e &&& r.g)
  let majority := (r.a &&& r.b) ^^^ (r.a &&& r.c) ^^^ (r.b &&& r.c)
  let first := r.h + (r.e.rotateRight 6 ^^^ r.e.rotateRight 11 ^^^ r.e.rotateRight 25) + choice + k + w
  let second := (r.a.rotateRight 2 ^^^ r.a.rotateRight 13 ^^^ r.a.rotateRight 22) + majority
  ⟨first + second,r.a,r.b,r.c,r.d + first,r.e,r.f,r.g⟩

end Registers

/-- The schedule grown by `n` words; the latest word is the head. -/
def grow : ℕ → List Word → List Word
  | 0, latest => latest
  | n + 1, latest =>
    let w2 := latest.getD 1 0
    let w15 := latest.getD 14 0
    let s0 := w15.rotateRight 7 ^^^ w15.rotateRight 18 ^^^ (w15 >>> 3)
    let s1 := w2.rotateRight 17 ^^^ w2.rotateRight 19 ^^^ (w2 >>> 10)
    grow n ((latest.getD 15 0 + s0 + latest.getD 6 0 + s1) :: latest)

/-- The 64 words of the schedule of a block of 16. -/
def schedule (block : List Word) : List Word := (grow 48 block.reverse).reverse

def compress (r : Registers) (block : List Word) : Registers :=
  r.add ((roundConstants.zip (schedule block)).foldl (fun r p => r.round p.1 p.2) r)

/-- Big-endian words of four bytes. -/
def words : List ℕ → List Word
  | a :: b :: c :: d :: rest => BitVec.ofNat 32 (((a * 256 + b) * 256 + c) * 256 + d) :: words rest
  | _ => []

/-- The last `n` blocks of 16 words. -/
def blocks : ℕ → List Word → List (List Word)
  | 0, _ => []
  | n + 1, ws => ws.take 16 :: blocks n (ws.drop 16)

/-- A one bit, zeros, and the length in bits as eight big-endian bytes. -/
def padding (length : ℕ) : List ℕ :=
  [0x80] ++ List.replicate ((119 - length % 64) % 64) 0 ++
    (List.range 8).map (fun i => 8 * length / 256 ^ (7 - i) % 256)

def digest (bytes : List ℕ) : Registers :=
  let ws := words (bytes ++ padding bytes.length)
  (blocks (ws.length / 16) ws).foldl compress start

def hexDigit (n : ℕ) : Char := Nat.digitChar (n % 16)

/-- The eight hexadecimal digits of a word. -/
def hexWord (w : Word) : List Char := (List.range 8).map (fun i => hexDigit (w.toNat / 16 ^ (7 - i)))

/-- The digest in hexadecimal. -/
def hexdigest (bytes : List ℕ) : List Char := (digest bytes).toList.flatMap hexWord

example : String.ofList (hexdigest []) =
    "e3b0c44298fc1c149afbf4c8996fb92427ae41e4649b934ca495991b7852b855" := by decide +kernel

theorem isHex_hexDigit (n : ℕ) : ∃ d < 16, hexDigit n = Nat.digitChar d :=
  ⟨n % 16,Nat.mod_lt _ (by decide),rfl⟩

theorem mem_hexdigest {bytes : List ℕ} {c : Char} (h : c ∈ hexdigest bytes) :
    ∃ d < 16, c = Nat.digitChar d := by
  obtain ⟨w,-,hc⟩ := List.mem_flatMap.mp h
  obtain ⟨i,-,rfl⟩ := List.mem_map.mp hc
  exact isHex_hexDigit _

end CueBee.Sha256
