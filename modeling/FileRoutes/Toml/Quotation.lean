import FileRoutes.Toml.Scalar

/-! Strings of TOML: basic ones with escapes and literal ones without, on one line or on several. A
string of several lines may hold one or two of its quotes in a row, even right before its end. -/

namespace FileRoutes.Toml

/-- Controls other than the tab are no text. -/
def isTextChar (c : Char) : Bool :=
  c == '\t' || (0x20 ≤ c.toNat && c != '\x7f')

def escape? (c : Char) : Option Char :=
  match c with
  | 'b' => some '\x08'
  | 't' => some '\t'
  | 'n' => some '\n'
  | 'f' => some '\x0c'
  | 'r' => some '\r'
  | '"' => some '"'
  | '\\' => some '\\'
  | _ => none

/-- The character of a code point given by hexadecimal digits. -/
def codePoint? (digits : Text) : Option Char :=
  let n := number 16 digits
  if digits.all (isBaseDigit 16) && n.isValidChar then some (Char.ofNat n) else none

/-- Puts a character in front of what is read. -/
def prepend (c : Char) (read : Option (Text × Text)) : Option (Text × Text) :=
  read.map fun r => (c :: r.1, r.2)

/-- The rest of a basic string and what follows its end. -/
def basicRest : Reader Text
  | '"' :: rest => some ([], rest)
  | '\\' :: 'u' :: a :: b :: c :: d :: rest =>
    (codePoint? [a, b, c, d]).bind fun x => prepend x (basicRest rest)
  | '\\' :: 'U' :: a :: b :: c :: d :: e :: f :: g :: h :: rest =>
    (codePoint? [a, b, c, d, e, f, g, h]).bind fun x => prepend x (basicRest rest)
  | '\\' :: c :: rest => (escape? c).bind fun x => prepend x (basicRest rest)
  | c :: rest => if isTextChar c then prepend c (basicRest rest) else none
  | [] => none

def literalRest : Reader Text
  | '\'' :: rest => some ([], rest)
  | c :: rest => if isTextChar c then prepend c (literalRest rest) else none
  | [] => none

/-- Where the reader of a basic string of several lines stands: in its text, after a backslash that
has to reach the end of its line, or after such an end, where blanks and line ends are left out. -/
inductive LineState where
  | within
  | ending
  | trimming
deriving DecidableEq, Repr

/-- The rest of a basic string of several lines and what follows its end. -/
def basicLines : LineState → Reader Text
  | .ending, ' ' :: rest => basicLines .ending rest
  | .ending, '\t' :: rest => basicLines .ending rest
  | .ending, '\r' :: '\n' :: rest => basicLines .trimming rest
  | .ending, '\n' :: rest => basicLines .trimming rest
  | .ending, _ => none
  | .trimming, ' ' :: rest => basicLines .trimming rest
  | .trimming, '\t' :: rest => basicLines .trimming rest
  | .trimming, '\r' :: '\n' :: rest => basicLines .trimming rest
  | .trimming, '\n' :: rest => basicLines .trimming rest
  | _, '"' :: '"' :: '"' :: '"' :: '"' :: rest => some (['"', '"'], rest)
  | _, '"' :: '"' :: '"' :: '"' :: rest => some (['"'], rest)
  | _, '"' :: '"' :: '"' :: rest => some ([], rest)
  | _, '\\' :: 'u' :: a :: b :: c :: d :: rest =>
    (codePoint? [a, b, c, d]).bind fun x => prepend x (basicLines .within rest)
  | _, '\\' :: 'U' :: a :: b :: c :: d :: e :: f :: g :: h :: rest =>
    (codePoint? [a, b, c, d, e, f, g, h]).bind fun x => prepend x (basicLines .within rest)
  | _, '\\' :: ' ' :: rest => basicLines .ending rest
  | _, '\\' :: '\t' :: rest => basicLines .ending rest
  | _, '\\' :: '\r' :: '\n' :: rest => basicLines .trimming rest
  | _, '\\' :: '\n' :: rest => basicLines .trimming rest
  | _, '\\' :: c :: rest => (escape? c).bind fun x => prepend x (basicLines .within rest)
  | _, '\r' :: '\n' :: rest => prepend '\n' (basicLines .within rest)
  | _, c :: rest =>
    if c == '\n' || isTextChar c then prepend c (basicLines .within rest) else none
  | _, [] => none

def literalLines : Reader Text
  | '\'' :: '\'' :: '\'' :: '\'' :: '\'' :: rest => some (['\'', '\''], rest)
  | '\'' :: '\'' :: '\'' :: '\'' :: rest => some (['\''], rest)
  | '\'' :: '\'' :: '\'' :: rest => some ([], rest)
  | '\r' :: '\n' :: rest => prepend '\n' (literalLines rest)
  | c :: rest => if c == '\n' || isTextChar c then prepend c (literalLines rest) else none
  | [] => none

/-- What follows a line end, if the text starts with one. -/
def afterLineEnd? : Text → Option Text
  | '\n' :: rest => some rest
  | '\r' :: '\n' :: rest => some rest
  | _ => none

/-- A line end right after the opening is left out. -/
def skipLineEnd (t : Text) : Text :=
  (afterLineEnd? t).getD t

def quotation : Reader Text
  | '"' :: '"' :: '"' :: rest => basicLines .within (skipLineEnd rest)
  | '"' :: rest => basicRest rest
  | '\'' :: '\'' :: '\'' :: rest => literalLines (skipLineEnd rest)
  | '\'' :: rest => literalRest rest
  | _ => none

end FileRoutes.Toml
