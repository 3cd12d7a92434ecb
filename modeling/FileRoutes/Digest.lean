import FileRoutes.Text.Utf8

/-! SHA-256 of a byte sequence, on 32-bit words. A block's schedule slides a window of sixteen
words, and a round turns eight working words; both are folds over lists. -/

namespace FileRoutes.Digest

abbrev Word := UInt32

def rotate (w : Word) (n : UInt32) : Word :=
  (w >>> n) ||| (w <<< (32 - n))

def initial : List Word :=
  [0x6a09e667, 0xbb67ae85, 0x3c6ef372, 0xa54ff53a, 0x510e527f, 0x9b05688c, 0x1f83d9ab, 0x5be0cd19]

def roundConstants : List Word :=
  [0x428a2f98, 0x71374491, 0xb5c0fbcf, 0xe9b5dba5, 0x3956c25b, 0x59f111f1, 0x923f82a4, 0xab1c5ed5,
   0xd807aa98, 0x12835b01, 0x243185be, 0x550c7dc3, 0x72be5d74, 0x80deb1fe, 0x9bdc06a7, 0xc19bf174,
   0xe49b69c1, 0xefbe4786, 0x0fc19dc6, 0x240ca1cc, 0x2de92c6f, 0x4a7484aa, 0x5cb0a9dc, 0x76f988da,
   0x983e5152, 0xa831c66d, 0xb00327c8, 0xbf597fc7, 0xc6e00bf3, 0xd5a79147, 0x06ca6351, 0x14292967,
   0x27b70a85, 0x2e1b2138, 0x4d2c6dfc, 0x53380d13, 0x650a7354, 0x766a0abb, 0x81c2c92e, 0x92722c85,
   0xa2bfe8a1, 0xa81a664b, 0xc24b8b70, 0xc76c51a3, 0xd192e819, 0xd6990624, 0xf40e3585, 0x106aa070,
   0x19a4c116, 0x1e376c08, 0x2748774c, 0x34b0bcb5, 0x391c0cb3, 0x4ed8aa4a, 0x5b9cca4f, 0x682e6ff3,
   0x748f82ee, 0x78a5636f, 0x84c87814, 0x8cc70208, 0x90befffa, 0xa4506ceb, 0xbef9a3f7, 0xc67178f2]

def lengthBytes (bits : Nat) : Bytes :=
  (List.range 8).map fun i => UInt8.ofNat (bits / Nat.pow 256 (7 - i))

/-- The message, a set bit, zeros up to a whole block, and the length in bits. -/
def pad (message : Bytes) : Bytes :=
  message ++ 0x80 :: List.replicate ((119 - message.length % 64) % 64) 0
    ++ lengthBytes (8 * message.length)

def word (bytes : Bytes) : Word :=
  bytes.foldl (fun w b => (w <<< 8) ||| b.toUInt32) 0

def blocks (bytes : Bytes) : List (List Word) :=
  (List.range (bytes.length / 64)).map fun i =>
    (List.range 16).map fun j => word ((bytes.drop (64 * i + 4 * j)).take 4)

/-- The next `n` words of the schedule whose last sixteen words are `window`. -/
def extend : Nat → List Word → List Word
  | 0, _ => []
  | n + 1, window =>
    let w (i : Nat) : Word := window.getD i 0
    let s0 := rotate (w 1) 7 ^^^ rotate (w 1) 18 ^^^ (w 1 >>> 3)
    let s1 := rotate (w 14) 17 ^^^ rotate (w 14) 19 ^^^ (w 14 >>> 10)
    let next := w 0 + s0 + w 9 + s1
    next :: extend n (window.drop 1 ++ [next])

def schedule (block : List Word) : List Word :=
  block ++ extend 48 block

def round (state : List Word) (kw : Word × Word) : List Word :=
  match state with
  | [a, b, c, d, e, f, g, h] =>
    let s1 := rotate e 6 ^^^ rotate e 11 ^^^ rotate e 25
    let choice := (e &&& f) ^^^ ((~~~ e) &&& g)
    let t1 := h + s1 + choice + kw.1 + kw.2
    let s0 := rotate a 2 ^^^ rotate a 13 ^^^ rotate a 22
    let majority := (a &&& b) ^^^ (a &&& c) ^^^ (b &&& c)
    [t1 + (s0 + majority), a, b, c, d + t1, e, f, g]
  | other => other

def compress (state block : List Word) : List Word :=
  List.zipWith (· + ·) state ((roundConstants.zip (schedule block)).foldl round state)

def sha256 (message : Bytes) : List Word :=
  (blocks (pad message)).foldl compress initial

def hexDigit (n : Nat) : Char :=
  Char.ofNat (if n < 10 then 48 + n else 87 + n)

def hex (w : Word) : Text :=
  (List.range 8).map fun i => hexDigit (w.toNat / Nat.pow 16 (7 - i) % 16)

/-- The first eight hexadecimal digits of the digest of a text. -/
def short (t : Text) : Text :=
  ((sha256 (Utf8.encode t)).take 1).flatMap hex

end FileRoutes.Digest
