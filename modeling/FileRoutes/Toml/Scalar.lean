import FileRoutes.Toml.Value

/-! Scalars of TOML other than strings. A scalar is a run of characters that is read as a whole: a
boolean, an integer of 64 bits, a float, or a date, a time or both. -/

namespace FileRoutes.Toml

/-- Digits, with single underscores between them left out. -/
def digitGroups (isDigit : Char → Bool) : Text → Option Text
  | [] => none
  | [c] => if isDigit c then some [c] else none
  | c :: '_' :: d :: rest =>
    if isDigit c then (digitGroups isDigit (d :: rest)).map (c :: ·) else none
  | c :: rest => if isDigit c then (digitGroups isDigit rest).map (c :: ·) else none

def digitValue (c : Char) : Nat :=
  if c.isDigit then c.toNat - '0'.toNat
  else if c.isUpper then c.toNat - 'A'.toNat + 10
  else c.toNat - 'a'.toNat + 10

def number (base : Nat) (digits : Text) : Nat :=
  digits.foldl (fun n c => n * base + digitValue c) 0

def isBaseDigit (base : Nat) (c : Char) : Bool :=
  c.isAlphanum && digitValue c < base

/-- A sign, if there is one, and what follows it. -/
def signed : Text → Bool × Text
  | '+' :: rest => (false, rest)
  | '-' :: rest => (true, rest)
  | t => (false, t)

/-- Decimal digits without a leading zero. -/
def plainDigits (t : Text) : Option Text :=
  match t with
  | '0' :: _ :: _ => none
  | _ => digitGroups Char.isDigit t

def inRange (n : Int) : Option Value :=
  if Int64.minValue.toInt ≤ n ∧ n ≤ Int64.maxValue.toInt then some (.integer n) else none

def based (base : Nat) (t : Text) : Option Value :=
  (digitGroups (isBaseDigit base) t).bind fun digits => inRange (number base digits)

def integer? (t : Text) : Option Value :=
  match t with
  | '0' :: 'x' :: rest => based 16 rest
  | '0' :: 'o' :: rest => based 8 rest
  | '0' :: 'b' :: rest => based 2 rest
  | _ =>
    let (negative, rest) := signed t
    (plainDigits rest).bind fun digits =>
      let n : Int := number 10 digits
      inRange (if negative then -n else n)

/-- Whether `digits` times a power of ten rounds to no double, being too large. -/
def overflows (digits : Nat) (scale : Int) : Bool :=
  let limit := Nat.pow 2 1024 - Nat.pow 2 970
  let length : Int := (Nat.toDigits 10 digits).length
  if digits = 0 then false
  else if length + scale > 310 then true
  else if length + scale < 300 then false
  else if 0 ≤ scale then limit ≤ digits * Nat.pow 10 scale.toNat
  else limit * Nat.pow 10 (-scale).toNat ≤ digits

def exponent? (t : Text) : Option Int :=
  let (negative, rest) := signed t
  (digitGroups Char.isDigit rest).map fun digits =>
    let n : Int := number 10 digits
    if negative then -n else n

def isExponentMark (c : Char) : Bool :=
  c == 'e' || c == 'E'

/-- A float has a fraction or an exponent; one that is too large is refused. -/
def float? (t : Text) : Option Value :=
  let (negative, magnitude) := signed t
  if magnitude = "inf".toList ∨ magnitude = "nan".toList then some (.float t)
  else
    let mantissa := magnitude.takeWhile fun c => !isExponentMark c
    let whole := mantissa.takeWhile (· != '.')
    let fraction := match mantissa.drop whole.length with
      | '.' :: rest => digitGroups Char.isDigit rest
      | _ => some []
    let power := match magnitude.drop mantissa.length with
      | _ :: rest => exponent? rest
      | [] => some 0
    match plainDigits whole, fraction, power with
    | some digits, some decimals, some power =>
      if whole.length = magnitude.length then none
      else if !negative && overflows (number 10 (digits ++ decimals)) (power - decimals.length) then
        none
      else some (.float t)
    | _, _, _ => none

/-- Two digits that make a number from `low` to `high`. -/
def twoDigits (low high : Nat) (a b : Char) : Option Nat :=
  let n := number 10 [a, b]
  if a.isDigit && b.isDigit && low ≤ n && n ≤ high then some n else none

def daysInMonth (year month : Nat) : Nat :=
  if month = 2 then
    if year % 4 = 0 ∧ (year % 100 ≠ 0 ∨ year % 400 = 0) then 29 else 28
  else if month = 4 ∨ month = 6 ∨ month = 9 ∨ month = 11 then 30
  else 31

def isDate : Text → Bool
  | [y1, y2, y3, y4, '-', m1, m2, '-', d1, d2] =>
    [y1, y2, y3, y4].all Char.isDigit &&
      ((twoDigits 1 12 m1 m2).any fun month =>
        (twoDigits 1 (daysInMonth (number 10 [y1, y2, y3, y4]) month) d1 d2).isSome)
  | _ => false

/-- What follows a time of day, if the text starts with one. -/
def afterTime? : Text → Option Text
  | h1 :: h2 :: ':' :: m1 :: m2 :: ':' :: s1 :: s2 :: rest =>
    if (twoDigits 0 23 h1 h2).isSome && (twoDigits 0 59 m1 m2).isSome
        && (twoDigits 0 60 s1 s2).isSome then
      match rest with
      | '.' :: d :: decimals =>
        if d.isDigit then some (decimals.dropWhile Char.isDigit) else none
      | _ => some rest
    else none
  | _ => none

def isOffset : Text → Bool
  | [] => true
  | [c] => c == 'Z' || c == 'z'
  | [sign, h1, h2, ':', m1, m2] =>
    (sign == '+' || sign == '-') && (twoDigits 0 23 h1 h2).isSome && (twoDigits 0 59 m1 m2).isSome
  | _ => false

def isDateTime (t : Text) : Bool :=
  let date := t.take 10
  match t.drop 10 with
  | [] => isDate date || afterTime? t == some []
  | c :: time =>
    afterTime? t == some [] ||
      (isDate date && ['T', 't', ' '].contains c && (afterTime? time).any isOffset)

def scalar? (t : Text) : Option Value :=
  if t = "true".toList then some (.boolean true)
  else if t = "false".toList then some (.boolean false)
  else if isDateTime t then some (.date t)
  else (integer? t).or (float? t)

def isScalarChar (c : Char) : Bool :=
  c.isAlphanum || ['+', '-', '.', '_', ':'].contains c

/-- A scalar, and what follows it. A date and a time may have a space between them. -/
def scalar : Reader Value := fun t =>
  let run := t.takeWhile isScalarChar
  let rest := t.dropWhile isScalarChar
  let joined := match isDate run, rest with
    | true, ' ' :: after =>
      let whole := run ++ ' ' :: after.takeWhile isScalarChar
      if isDateTime whole then some (Value.date whole, after.dropWhile isScalarChar) else none
    | _, _ => none
  joined.or ((scalar? run).map fun value => (value, rest))

end FileRoutes.Toml
