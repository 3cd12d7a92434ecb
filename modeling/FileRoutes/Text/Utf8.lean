import FileRoutes.Text

/-! Texts as bytes, and bytes as texts. Decoding goes byte by byte and splits the input into
characters and broken runs, a broken run being the longest start of a character that the next byte
does not continue. A byte sequence is a text exactly when no run is broken. -/

namespace FileRoutes

abbrev Bytes := List UInt8

namespace Utf8

def encodeChar (c : Char) : Bytes :=
  let n := c.toNat
  let tail (k : Nat) : UInt8 := UInt8.ofNat (0x80 + k % 64)
  if n < 0x80 then [UInt8.ofNat n]
  else if n < 0x800 then [UInt8.ofNat (0xC0 + n / 64), tail n]
  else if n < 0x10000 then [UInt8.ofNat (0xE0 + n / 4096), tail (n / 64), tail n]
  else [UInt8.ofNat (0xF0 + n / 262144), tail (n / 4096), tail (n / 64), tail n]

def encode (t : Text) : Bytes :=
  t.flatMap encodeChar

/-- A character begun: its bytes so far, the bits they carry, the bytes still owed, and the range
of the next one. -/
structure Pending where
  seen : Bytes
  bits : Nat
  owed : Nat
  low : Nat
  high : Nat
deriving DecidableEq, Repr

inductive Chunk where
  | char (c : Char)
  | broken (run : Bytes)
deriving DecidableEq, Repr

/-- One byte between characters. The first byte narrows the range of the second, so that no
character has two spellings and no surrogate has any. -/
def start (b : UInt8) : List Chunk × Option Pending :=
  let n := b.toNat
  if n < 0x80 then ([.char (Char.ofNat n)], none)
  else if n < 0xC2 then ([.broken [b]], none)
  else if n < 0xE0 then ([], some ⟨[b], n - 0xC0, 1, 0x80, 0xBF⟩)
  else if n < 0xF0 then
    ([], some ⟨[b], n - 0xE0, 2, if n = 0xE0 then 0xA0 else 0x80, if n = 0xED then 0x9F else 0xBF⟩)
  else if n < 0xF5 then
    ([], some ⟨[b], n - 0xF0, 3, if n = 0xF0 then 0x90 else 0x80, if n = 0xF4 then 0x8F else 0xBF⟩)
  else ([.broken [b]], none)

def step : Option Pending → UInt8 → List Chunk × Option Pending
  | none, b => start b
  | some p, b =>
    if p.low ≤ b.toNat ∧ b.toNat ≤ p.high then
      let bits := p.bits * 64 + (b.toNat - 0x80)
      if p.owed ≤ 1 then ([.char (Char.ofNat bits)], none)
      else ([], some ⟨p.seen ++ [b], bits, p.owed - 1, 0x80, 0xBF⟩)
    else (.broken p.seen :: (start b).1, (start b).2)

def chunksFrom : Option Pending → Bytes → List Chunk
  | none, [] => []
  | some p, [] => [.broken p.seen]
  | state, b :: rest => (step state b).1 ++ chunksFrom (step state b).2 rest

def chunks (bytes : Bytes) : List Chunk :=
  chunksFrom none bytes

def Chunk.char? : Chunk → Option Char
  | .char c => some c
  | .broken _ => none

/-- The text that the bytes encode, if they encode one. -/
def decode? (bytes : Bytes) : Option Text :=
  (chunks bytes).mapM Chunk.char?

/-- The text with a replacement character for each broken run. -/
def display (bytes : Bytes) : Text :=
  (chunks bytes).map fun chunk => chunk.char?.getD '\uFFFD'

end Utf8

end FileRoutes
