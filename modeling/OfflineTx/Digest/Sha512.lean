import OfflineTx.Bytes.Fixed

/-!
# SHA-512

The message is padded to whole blocks of 128 bytes, which are worked into a state of eight words
one after the other. The digest is the final state, highest byte of each word first.
-/

namespace OfflineTx.Sha512

structure State where
  a : UInt64
  b : UInt64
  c : UInt64
  d : UInt64
  e : UInt64
  f : UInt64
  g : UInt64
  h : UInt64
deriving DecidableEq

/-- Fractional parts of the square roots of the first eight primes. -/
def State.start : State where
  a := 0x6a09e667f3bcc908
  b := 0xbb67ae8584caa73b
  c := 0x3c6ef372fe94f82b
  d := 0xa54ff53a5f1d36f1
  e := 0x510e527fade682d1
  f := 0x9b05688c2b3e6c1f
  g := 0x1f83d9abfb41bd6b
  h := 0x5be0cd19137e2179

/-- Fractional parts of the cube roots of the first 80 primes. -/
def roundConstants : List UInt64 := [
  0x428a2f98d728ae22, 0x7137449123ef65cd, 0xb5c0fbcfec4d3b2f, 0xe9b5dba58189dbbc,
  0x3956c25bf348b538, 0x59f111f1b605d019, 0x923f82a4af194f9b, 0xab1c5ed5da6d8118,
  0xd807aa98a3030242, 0x12835b0145706fbe, 0x243185be4ee4b28c, 0x550c7dc3d5ffb4e2,
  0x72be5d74f27b896f, 0x80deb1fe3b1696b1, 0x9bdc06a725c71235, 0xc19bf174cf692694,
  0xe49b69c19ef14ad2, 0xefbe4786384f25e3, 0x0fc19dc68b8cd5b5, 0x240ca1cc77ac9c65,
  0x2de92c6f592b0275, 0x4a7484aa6ea6e483, 0x5cb0a9dcbd41fbd4, 0x76f988da831153b5,
  0x983e5152ee66dfab, 0xa831c66d2db43210, 0xb00327c898fb213f, 0xbf597fc7beef0ee4,
  0xc6e00bf33da88fc2, 0xd5a79147930aa725, 0x06ca6351e003826f, 0x142929670a0e6e70,
  0x27b70a8546d22ffc, 0x2e1b21385c26c926, 0x4d2c6dfc5ac42aed, 0x53380d139d95b3df,
  0x650a73548baf63de, 0x766a0abb3c77b2a8, 0x81c2c92e47edaee6, 0x92722c851482353b,
  0xa2bfe8a14cf10364, 0xa81a664bbc423001, 0xc24b8b70d0f89791, 0xc76c51a30654be30,
  0xd192e819d6ef5218, 0xd69906245565a910, 0xf40e35855771202a, 0x106aa07032bbd1b8,
  0x19a4c116b8d2d0c8, 0x1e376c085141ab53, 0x2748774cdf8eeb99, 0x34b0bcb5e19b48a8,
  0x391c0cb3c5c95a63, 0x4ed8aa4ae3418acb, 0x5b9cca4f7763e373, 0x682e6ff3d6b2b8a3,
  0x748f82ee5defb2fc, 0x78a5636f43172f60, 0x84c87814a1f0ab72, 0x8cc702081a6439ec,
  0x90befffa23631e28, 0xa4506cebde82bde9, 0xbef9a3f7b2c67915, 0xc67178f2e372532b,
  0xca273eceea26619c, 0xd186b8c721c0c207, 0xeada7dd6cde0eb1e, 0xf57d4f7fee6ed178,
  0x06f067aa72176fba, 0x0a637dc5a2c898a6, 0x113f9804bef90dae, 0x1b710b35131c471b,
  0x28db77f523047d84, 0x32caab7b40c72493, 0x3c9ebe0a15c9bebc, 0x431d67c49c100d4c,
  0x4cc5d4becb3e42b6, 0x597f299cfc657e2a, 0x5fcb6fab3ad6faec, 0x6c44198c4a475817]

def rotate (x : UInt64) (n : UInt64) : UInt64 :=
  x >>> n ||| x <<< (64 - n)

def bigSigma0 (x : UInt64) : UInt64 :=
  rotate x 28 ^^^ rotate x 34 ^^^ rotate x 39

def bigSigma1 (x : UInt64) : UInt64 :=
  rotate x 14 ^^^ rotate x 18 ^^^ rotate x 41

def sigma0 (x : UInt64) : UInt64 :=
  rotate x 1 ^^^ rotate x 8 ^^^ x >>> 7

def sigma1 (x : UInt64) : UInt64 :=
  rotate x 19 ^^^ rotate x 61 ^^^ x >>> 6

def words : Bytes → List UInt64
  | p :: q :: r :: s :: t :: u :: v :: w :: bs =>
    (p.toUInt64 <<< 56 ||| q.toUInt64 <<< 48 ||| r.toUInt64 <<< 40 ||| s.toUInt64 <<< 32 |||
    t.toUInt64 <<< 24 ||| u.toUInt64 <<< 16 ||| v.toUInt64 <<< 8 ||| w.toUInt64) ::
      words bs
  | _ => []

/-- The words of a block and those that follow from them, one for each round. -/
def schedule (block : Bytes) : Array UInt64 :=
  (List.range 64).foldl (fun ws i =>
    ws.push (sigma1 (ws.getD (i + 14) 0) + ws.getD (i + 9) 0 + sigma0 (ws.getD (i + 1) 0) +
      ws.getD i 0)) (words block).toArray

def round (s : State) (input : UInt64 × UInt64) : State :=
  let choice := (s.e &&& s.f) ^^^ (~~~s.e &&& s.g)
  let majority := (s.a &&& s.b) ^^^ (s.a &&& s.c) ^^^ (s.b &&& s.c)
  let t := s.h + bigSigma1 s.e + choice + input.1 + input.2
  { a := t + (bigSigma0 s.a + majority), b := s.a, c := s.b, d := s.c, e := s.d + t, f := s.e,
    g := s.f, h := s.g }

def State.add (s t : State) : State where
  a := s.a + t.a
  b := s.b + t.b
  c := s.c + t.c
  d := s.d + t.d
  e := s.e + t.e
  f := s.f + t.f
  g := s.g + t.g
  h := s.h + t.h

def compress (s : State) (block : Bytes) : State :=
  s.add ((roundConstants.zip (schedule block).toList).foldl round s)

/-- Works `n` blocks into the state. -/
def compressAll : Nat → State → Bytes → State
  | 0, s, _ => s
  | n + 1, s, bs => compressAll n (compress s (bs.take 128)) (bs.drop 128)

/-- A one bit, zeros up to the end of a block, and the number of bits in the last 16 bytes. -/
def padding (length : Nat) : Bytes :=
  0x80 :: List.replicate ((239 - length % 128) % 128) 0 ++ Bytes.ofNatBE 16 (8 * length)

theorem length_padding (length : Nat) : (length + (padding length).length) % 128 = 0 := by
  simp only [padding, List.length_append, List.length_cons, List.length_replicate,
    Bytes.length_ofNatBE]
  omega

def State.bytes (s : State) : Bytes :=
  [s.a, s.b, s.c, s.d, s.e, s.f, s.g, s.h].flatMap fun (w : UInt64) => Bytes.ofNatBE 8 w.toNat

theorem State.length_bytes (s : State) : s.bytes.length = 64 := by
  simp [State.bytes]

def digest (message : Bytes) : FixedBytes 64 :=
  let padded := message ++ padding message.length
  let final := compressAll (padded.length / 128) .start padded
  ⟨final.bytes, final.length_bytes⟩

end OfflineTx.Sha512
