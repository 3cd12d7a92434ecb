import FileRoutes.Toml.Document

/-! Reading a TOML document line by line. Values nest to a fixed depth, and so do keys. -/

namespace FileRoutes.Toml

/-- How deep arrays and inline tables nest, and how many parts a key has at most. -/
def nestingLimit : Nat := 79

def isBlank (c : Char) : Bool :=
  c == ' ' || c == '\t'

def skipBlanks (t : Text) : Text :=
  t.dropWhile isBlank

/-- Skips blanks, line ends and comments. -/
def skipFiller : (inComment : Bool) → Text → Text
  | _, '\n' :: rest => skipFiller false rest
  | _, '\r' :: '\n' :: rest => skipFiller false rest
  | true, c :: rest => if isTextChar c then skipFiller true rest else c :: rest
  | false, '#' :: rest => skipFiller true rest
  | false, c :: rest => if isBlank c then skipFiller false rest else c :: rest
  | _, [] => []

/-- What follows the end of a line that may end in a comment. -/
def lineRest (t : Text) : Option Text :=
  let rest := match skipBlanks t with
    | '#' :: rest => rest.dropWhile isTextChar
    | rest => rest
  if rest = [] then some [] else afterLineEnd? rest

/-- Reads again and again, as long as it takes something away. -/
def many {α : Type} (read : Reader α) (t : Text) : List α × Text :=
  match read t with
  | none => ([], t)
  | some (a, rest) =>
    if rest.length < t.length then (a :: (many read rest).1, (many read rest).2) else ([], t)
termination_by t.length

def isBareKeyChar (c : Char) : Bool :=
  c.isAlphanum || c == '_' || c == '-'

def simpleKey : Reader Text
  | '"' :: rest => basicRest rest
  | '\'' :: rest => literalRest rest
  | t =>
    let name := t.takeWhile isBareKeyChar
    if name.isEmpty then none else some (name, t.dropWhile isBareKeyChar)

def keyPart : Reader Text := fun t =>
  (simpleKey (skipBlanks t)).map fun r => (r.1, skipBlanks r.2)

def dottedKey : Reader (List Text) := fun t =>
  (keyPart t).bind fun first =>
    let more := many (fun
      | '.' :: rest => keyPart rest
      | _ => none) first.2
    let key := first.1 :: more.1
    if key.length ≤ nestingLimit then some (key, more.2) else none

def pair (value : Reader Value) : Reader (List Text × Value) := fun t =>
  (dottedKey t).bind fun key =>
    match key.2 with
    | '=' :: rest => (value (skipBlanks rest)).map fun v => ((key.1, v.1), v.2)
    | _ => none

/-- The items of an array after its opening. -/
def arrayItems (value : Reader Value) (t : Text) : Option (List Value × Text) :=
  match skipFiller false t with
  | ']' :: rest => some ([], rest)
  | start =>
    (value start).bind fun item =>
      match skipFiller false item.2 with
      | ']' :: rest => some ([item.1], rest)
      | ',' :: rest =>
        if rest.length < t.length then
          (arrayItems value rest).map fun items => (item.1 :: items.1, items.2)
        else none
      | _ => none
termination_by t.length

/-- The pairs of an inline table after its opening. A comma is followed by another pair. -/
def inlinePairs (value : Reader Value) (t : Text) : Option (List (List Text × Value) × Text) :=
  (pair value t).bind fun first =>
    match skipBlanks first.2 with
    | '}' :: rest => some ([first.1], rest)
    | ',' :: rest =>
      if rest.length < t.length then
        (inlinePairs value rest).map fun more => (first.1 :: more.1, more.2)
      else none
    | _ => none
termination_by t.length

def inlineTable (value : Reader Value) : Reader Value := fun t =>
  match skipBlanks t with
  | '}' :: rest => some (.table [], rest)
  | start =>
    (inlinePairs value start).bind fun pairs =>
      (pairs.1.foldlM (fun entries p => addPair p.1 p.2 .header entries) []).map fun entries =>
        (.table (entryValues entries), pairs.2)

/-- A value in which arrays and inline tables nest to the given depth. -/
def value : (depth : Nat) → Reader Value
  | depth, t =>
    match t, depth with
    | '[' :: rest, depth + 1 =>
      (arrayItems (value depth) rest).map fun items => (.list items.1, items.2)
    | '{' :: rest, depth + 1 => inlineTable (value depth) rest
    | '"' :: _, _ => (quotation t).map fun r => (.text r.1, r.2)
    | '\'' :: _, _ => (quotation t).map fun r => (.text r.1, r.2)
    | _, _ => scalar t

def headerPath (closing : Text) : Reader (List Text) := fun t =>
  (dottedKey t).bind fun path => (Text.after? closing path.2).map fun rest => (path.1, rest)

def statement : Reader (Option Statement) := fun t =>
  match skipBlanks t with
  | '[' :: '[' :: rest =>
    (headerPath [']', ']'] rest).map fun r => (some (.arrayHeader r.1), r.2)
  | '[' :: rest => (headerPath [']'] rest).map fun r => (some (.header r.1), r.2)
  | '#' :: rest => some (none, '#' :: rest)
  | '\n' :: rest => some (none, '\n' :: rest)
  | '\r' :: rest => some (none, '\r' :: rest)
  | [] => some (none, [])
  | start => (pair (value nestingLimit) start).map fun r => (some (.pair r.1.1 r.1.2), r.2)

/-- A line with at most one statement. -/
def line : Reader (Option Statement) := fun t =>
  (statement t).bind fun r => (lineRest r.2).map fun rest => (r.1, rest)

/-- The top table of a document, which a byte order mark may open. -/
def document? (t : Text) : Option Value :=
  let lines := many line ((Text.after? ['\uFEFF'] t).getD t)
  if lines.2 = [] then
    ((lines.1.filterMap id).foldlM Document.step {}).map fun document =>
      .table (entryValues document.entries)
  else none

end FileRoutes.Toml
