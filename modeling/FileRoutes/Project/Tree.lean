import FileRoutes.FilePath

/-! A tree of files and folders, in which the entries of a folder stand in the order of their names.
Paths are looked up from a folder of the tree; what lies outside of the tree is taken for an empty
folder. -/

namespace FileRoutes

inductive Tree where
  | file (content : Bytes)
  | folder (entries : List (Bytes × Tree))
deriving Repr

namespace Tree

def empty : Tree :=
  .folder []

def child? (name : Bytes) (entries : List (Bytes × Tree)) : Option Tree :=
  (entries.find? fun entry => entry.1 == name).map Prod.snd

/-- Sets the entry of a name and keeps the names in order. -/
def setEntry (name : Bytes) (tree : Tree) : List (Bytes × Tree) → List (Bytes × Tree)
  | [] => [(name, tree)]
  | entry :: rest =>
    if entry.1 = name then (name, tree) :: rest
    else if name < entry.1 then (name, tree) :: entry :: rest
    else entry :: setEntry name tree rest

/-- Puts a tree at a path and makes the folders above it. A folder does not replace another. -/
def insert : List Bytes → Tree → Tree → Tree
  | [], .folder _, .folder entries => .folder entries
  | [], new, _ => new
  | name :: path, new, .folder entries =>
    .folder (setEntry name (insert path new ((child? name entries).getD empty)) entries)
  | _ :: _, _, .file content => .file content

def names (path : FilePath) : List Bytes :=
  path.components.filterMap fun
    | .name bytes => some bytes
    | _ => none

def withFile (tree : Tree) (path : FilePath) (content : Bytes) : Tree :=
  insert (names path) (.file content) tree

def withFolder (tree : Tree) (path : FilePath) : Tree :=
  insert (names path) empty tree

/-- Follows the parts of a path from the innermost of the folders that lead to a place. Nothing
follows a file, not even an empty part. -/
def follow (above : List Tree) : Tree → List Bytes → Option Tree
  | place, [] => some place
  | .file _, _ :: _ => none
  | .folder entries, part :: parts =>
    if part = [] ∨ part = [FilePath.dot] then follow above (.folder entries) parts
    else if part = [FilePath.dot, FilePath.dot] then
      match above with
      | [] => follow [] empty parts
      | parent :: outer => follow outer parent parts
    else
      match child? part entries with
      | none => none
      | some tree => follow (.folder entries :: above) tree parts

def find? (tree : Tree) (path : FilePath) : Option Tree :=
  if path.bytes = [] then none
  else follow [] (if path.isAbsolute then empty else tree) (path.bytes.splitOn FilePath.slash)

mutual

/-- The files of a tree that is found at `path`, folder by folder in the order of names. -/
def files (path : FilePath) : Tree → List FilePath
  | .file _ => [path]
  | .folder entries => filesIn path entries

def filesIn (folder : FilePath) : List (Bytes × Tree) → List FilePath
  | [] => []
  | (name, tree) :: rest => files (folder.join ⟨name⟩) tree ++ filesIn folder rest

end

end Tree

end FileRoutes
