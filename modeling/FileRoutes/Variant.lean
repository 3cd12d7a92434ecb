import FileRoutes.Pattern

/-! Variants of a pattern: its concrete forms, without groups. A choice leaves each group out or
takes it, a group inside another only with the other; the choices are listed group by group from the
left, leaving out first. Choices whose forms differ in parameter names alone match the same
addresses, and of these only the one that binds its parameters earliest survives. -/

namespace FileRoutes

inductive Atom where
  | text (value : Text)
  | param (name : Text)
  | wildcard (name : Text)
deriving DecidableEq, Repr

structure Variant where
  pattern : Text
  params : List Text
deriving DecidableEq, Repr

namespace Atom

def render : Atom → Text
  | .text value => value
  | .param name => ':' :: name
  | .wildcard name => '*' :: name

/-- What the atom matches, its name erased. -/
def shape : Atom → Text
  | .text value => value
  | .param _ => [':']
  | .wildcard _ => ['*']

def name? : Atom → Option Text
  | .text _ => none
  | .param name => some name
  | .wildcard name => some name

end Atom

namespace Node

/-- Every first form followed by every second one. -/
def pairs (firsts seconds : List (List Atom)) : List (List Atom) :=
  firsts.flatMap fun a => seconds.map (a ++ ·)

/-- The forms of the nodes, one for each choice. -/
def choices : List Node → List (List Atom)
  | [] => [[]]
  | .text value :: rest => pairs [[.text value]] (choices rest)
  | .param name :: rest => pairs [[.param name]] (choices rest)
  | .wildcard name :: rest => pairs [[.wildcard name]] (choices rest)
  | .group inner :: rest => pairs ([] :: choices inner) (choices rest)

end Node

namespace Variant

def rooted (t : Text) : Text :=
  match t with
  | '/' :: _ => t
  | _ => '/' :: t

def ofAtoms (atoms : List Atom) : Variant :=
  ⟨rooted (atoms.flatMap Atom.render), atoms.filterMap Atom.name?⟩

def shape (atoms : List Atom) : Text :=
  rooted (atoms.flatMap Atom.shape)

/-- Where a name is declared last; a name that is not declared comes after all others. -/
def position (declared : List Text) (name : Text) : Nat :=
  match declared.reverse.idxOf? name with
  | some i => declared.length - 1 - i
  | none => declared.length

/-- A choice with what decides whether it survives: its shape, packed into a string to compare fast,
and the positions that it binds. -/
structure Candidate where
  atoms : List Atom
  shape : String
  binding : List Nat
deriving DecidableEq, Repr

namespace Candidate

def ofAtoms (declared : List Text) (atoms : List Atom) : Candidate where
  atoms
  shape := String.ofList (Variant.shape atoms)
  binding := (atoms.filterMap Atom.name?).map (position declared)

/-- Takes a candidate among those kept: in place of the one of its shape if it binds earlier, and
last if its shape is new. -/
def keep (kept : List Candidate) (candidate : Candidate) : List Candidate :=
  match kept with
  | [] => [candidate]
  | k :: rest =>
    if k.shape = candidate.shape then
      (if candidate.binding < k.binding then candidate else k) :: rest
    else k :: keep rest candidate

end Candidate

def survivors (declared : List Text) (all : List (List Atom)) : List Candidate :=
  (all.map (Candidate.ofAtoms declared)).foldl Candidate.keep []

end Variant

/-- The variants of a pattern and the number of choices that gave way to another. -/
structure Expansion where
  variants : List Variant
  pruned : Nat
deriving DecidableEq, Repr

namespace Pattern

/-- The nodes of each token, read back from its piece of the pattern. -/
def tokenNodes (p : Pattern) : Except PatternError (List (List Node)) :=
  p.tokens.mapM fun token => Node.parse true token.pattern

def expand (p : Pattern) : Except PatternError Expansion :=
  p.tokenNodes.map fun nodes =>
    let all := Node.choices nodes.flatten
    let kept := Variant.survivors (p.params.map Prod.fst) all
    ⟨kept.map fun k => Variant.ofAtoms k.atoms, all.length - kept.length⟩

end Pattern

end FileRoutes
