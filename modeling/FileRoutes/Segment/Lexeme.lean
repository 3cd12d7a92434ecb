import FileRoutes.ParamName
import FileRoutes.PatternError
import FileRoutes.Segment.Node

/-! The lexemes of a segment: runs of literal text, parameters and wildcards in either notation,
and the braces of a group. Each lexeme comes with the rest of the segment from its first character
on. A fault ends the sequence. -/

namespace FileRoutes

inductive Lexeme where
  | node (node : Node)
  | openGroup
  | closeGroup
  | fault (fault : Fault)
deriving Repr

namespace Lexeme

/-- Characters set aside for notations that segments do not have. -/
def isReserved (c : Char) : Bool :=
  ['(', ')', '?', '+', '!', '\\'].contains c

def isNameChar (c : Char) : Bool :=
  c.isAlphanum || c == '_' || c == '$'

/-- The separator is literal text only where a whole pattern is read back. -/
def isLiteral (separator : Bool) (c : Char) : Bool :=
  !(['{', '}', '[', ']', ':', '*'].contains c) && !isReserved c && (separator || c != '/')

def isBracketName (c : Char) : Bool :=
  c != '[' && c != ']' && c != '/'

/-- A name after `:` or `*`, and what follows it. -/
def marked (make : Text → Node) (cs : Text) : Lexeme × Text :=
  let name := cs.takeWhile isNameChar
  if name.isEmpty then (.fault .missingName, [])
  else (.node (make (ParamName.sanitize name)), cs.dropWhile isNameChar)

/-- The node of a bracket around `raw`: three dots make a wildcard, and a wildcard or a second
bracket makes a group. -/
def bracketed (double : Bool) (raw : Text) : Lexeme :=
  let splat := Text.after? ['.', '.', '.'] raw
  let name := splat.getD raw
  if name.isEmpty then .fault .missingName
  else
    let name := ParamName.sanitize name
    if splat.isSome then .node (.group [.wildcard name])
    else if double then .node (.group [.param name])
    else .node (.param name)

/-- A bracket whose opening is read, and what follows it. -/
def bracket (double : Bool) (cs : Text) : Lexeme × Text :=
  match double, cs.dropWhile isBracketName with
  | false, ']' :: rest => (bracketed false (cs.takeWhile isBracketName), rest)
  | true, ']' :: ']' :: rest => (bracketed true (cs.takeWhile isBracketName), rest)
  | _, _ => (.fault (.unclosed '['), [])

def first (separator : Bool) (c : Char) (cs : Text) : Lexeme × Text :=
  if c = '{' then (.openGroup, cs)
  else if c = '}' then (.closeGroup, cs)
  else if c = ':' then marked .param cs
  else if c = '*' then marked .wildcard cs
  else if c = '[' then
    match cs with
    | '[' :: inner => bracket true inner
    | _ => bracket false cs
  else if isReserved c then (.fault (.reserved c), [])
  else if isLiteral separator c then
    (.node (.text (c :: cs.takeWhile (isLiteral separator))), cs.dropWhile (isLiteral separator))
  else (.fault (.unexpected c), [])

theorem length_dropWhile_le (p : Char → Bool) (cs : Text) : (cs.dropWhile p).length ≤ cs.length :=
  (List.dropWhile_suffix p).length_le

theorem marked_length_le (make : Text → Node) (cs : Text) :
    (marked make cs).2.length ≤ cs.length := by
  unfold marked
  dsimp only
  split
  · simp
  · exact length_dropWhile_le _ _

theorem bracket_length_le (double : Bool) (cs : Text) :
    (bracket double cs).2.length ≤ cs.length := by
  have hlen := length_dropWhile_le isBracketName cs
  unfold bracket
  split
  · next h => rw [h] at hlen; simp only [List.length_cons] at hlen ⊢; omega
  · next h => rw [h] at hlen; simp only [List.length_cons] at hlen ⊢; omega
  · simp

theorem first_length_le (separator : Bool) (c : Char) (cs : Text) :
    (first separator c cs).2.length ≤ cs.length := by
  unfold first
  repeat' split
  all_goals first
    | exact marked_length_le _ _
    | exact bracket_length_le _ _
    | exact Nat.le_trans (bracket_length_le _ _) (Nat.le_succ _)
    | exact length_dropWhile_le _ _
    | simp

def lex (separator : Bool) : Text → List (Text × Lexeme)
  | [] => []
  | c :: cs => (c :: cs, (first separator c cs).1) :: lex separator (first separator c cs).2
termination_by cs => cs.length
decreasing_by exact Nat.lt_succ_of_le (first_length_le separator c cs)

end Lexeme

end FileRoutes
