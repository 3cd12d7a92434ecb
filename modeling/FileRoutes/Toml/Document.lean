import FileRoutes.Toml.Quotation

/-! Building a TOML document from its statements. A table comes about by its header, on the way to a
table below it, or by a dotted key. A header may still open a table of the second kind, and dotted
keys may add to any table but one with a header; everything else is given once. -/

namespace FileRoutes.Toml

inductive TableOrigin where
  | header
  | passage
  | dotted
deriving DecidableEq, Repr

inductive Content where
  | value (value : Value)
  | table (origin : TableOrigin) (entries : List (Text × Content))
  | tables (items : List (List (Text × Content)))
deriving Repr

abbrev Entries := List (Text × Content)

inductive Statement where
  | pair (key : List Text) (value : Value)
  | header (path : List Text)
  | arrayHeader (path : List Text)
deriving Repr

def put (key : Text) (content : Content) : Entries → Entries
  | [] => [(key, content)]
  | entry :: rest =>
    if entry.1 = key then (key, content) :: rest else entry :: put key content rest

/-- Changes the table at a path and makes the tables that the path lacks. A list of tables stands
for its last one. -/
def alter (made : TableOrigin) (change : TableOrigin → Entries → Option Entries) :
    List Text → TableOrigin → Entries → Option Entries
  | [], origin, entries => change origin entries
  | key :: path, _, entries =>
    match lookup key entries with
    | none =>
      (alter made change path made []).map fun new => put key (.table made new) entries
    | some (.table origin inner) =>
      if made = .dotted ∧ origin = .header then none
      else
        (alter made change path origin inner).map fun new => put key (.table origin new) entries
    | some (.tables items) =>
      (alter made change path .header (items.getLastD [])).map fun new =>
        put key (.tables (items.dropLast ++ [new])) entries
    | some (.value _) => none

/-- Adds a pair to a table; the tables of a dotted key belong to such keys alone. -/
def addPair (key : List Text) (value : Value) (origin : TableOrigin) (entries : Entries) :
    Option Entries :=
  let path := key.dropLast
  let name := key.getLastD []
  let insert (origin : TableOrigin) (entries : Entries) : Option Entries :=
    if path ≠ [] ∧ origin ≠ .dotted ∨ (lookup name entries).isSome then none
    else some (put name (.value value) entries)
  alter .dotted insert path origin entries

def openTable (name : Text) (entries : Entries) : Option Entries :=
  match lookup name entries with
  | none => some (put name (.table .header []) entries)
  | some (.table .passage inner) => some (put name (.table .header inner) entries)
  | _ => none

def openArrayItem (name : Text) (entries : Entries) : Option Entries :=
  match lookup name entries with
  | none => some (put name (.tables [[]]) entries)
  | some (.tables items) => some (put name (.tables (items ++ [[]])) entries)
  | _ => none

/-- The document so far, and the path of the table that takes the next pair. -/
structure Document where
  entries : Entries := []
  current : List Text := []

namespace Document

def enter (document : Document) (path : List Text) (opening : Text → Entries → Option Entries) :
    Option Document :=
  (alter .passage (fun _ => opening (path.getLastD [])) path.dropLast .header
    document.entries).map fun entries => ⟨entries, path⟩

def step (document : Document) : Statement → Option Document
  | .pair key value =>
    (alter .passage (addPair key value) document.current .header document.entries).map
      fun entries => { document with entries }
  | .header path => document.enter path openTable
  | .arrayHeader path => document.enter path openArrayItem

end Document

mutual

def Content.toValue : Content → Value
  | .value value => value
  | .table _ entries => .table (entryValues entries)
  | .tables items => .list (tableValues items)

def entryValues : List (Text × Content) → List (Text × Value)
  | [] => []
  | (key, content) :: rest => (key, content.toValue) :: entryValues rest

def tableValues : List (List (Text × Content)) → List Value
  | [] => []
  | entries :: rest => .table (entryValues entries) :: tableValues rest

end

end FileRoutes.Toml
