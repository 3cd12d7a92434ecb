import FileRoutes.Text.Shown
import FileRoutes.Text.Utf8

/-! The quoted form of a byte sequence, for messages. Double quotes, backslashes and the common
controls are escaped, characters with nothing to show are given by number, and so are bytes that
belong to no character. -/

namespace FileRoutes.Text

def hexDigits (n : Nat) : Text :=
  Nat.toDigits 16 n

def quotedChar (c : Char) : Text :=
  if c = '\x00' then ['\\', '0']
  else if c = '\t' then ['\\', 't']
  else if c = '\r' then ['\\', 'r']
  else if c = '\n' then ['\\', 'n']
  else if c = '\\' ∨ c = '"' then ['\\', c]
  else if isShown c then [c]
  else ['\\', 'u', '{'] ++ hexDigits c.toNat ++ ['}']

/-- Two digits, with capitals. -/
def quotedByte (b : UInt8) : Text :=
  ['\\', 'x'] ++ [b.toNat / 16, b.toNat % 16].flatMap fun n => (hexDigits n).map Char.toUpper

def quotedChunk : Utf8.Chunk → Text
  | .char c => quotedChar c
  | .broken run => run.flatMap quotedByte

def quoted (bytes : Bytes) : Text :=
  '"' :: (Utf8.chunks bytes).flatMap quotedChunk ++ ['"']

end FileRoutes.Text
