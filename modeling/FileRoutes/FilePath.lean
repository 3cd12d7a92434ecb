import FileRoutes.Text.Utf8

/-! File paths are byte sequences, read as components: an opening `/`, then what stands between
separators, less empty components and less `.` anywhere but at the start of a relative path. -/

namespace FileRoutes

structure FilePath where
  bytes : Bytes
deriving DecidableEq, Repr

namespace FilePath

inductive Component where
  | root
  | here
  | up
  | name (bytes : Bytes)
deriving DecidableEq, Repr

def slash : UInt8 := 0x2F
def dot : UInt8 := 0x2E

def ofText (t : Text) : FilePath :=
  ⟨Utf8.encode t⟩

def display (p : FilePath) : Text :=
  Utf8.display p.bytes

def isAbsolute (p : FilePath) : Bool :=
  p.bytes.head? == some slash

/-- The component that a part between separators stands for after the start of a path. -/
def component? (part : Bytes) : Option Component :=
  if part = [] ∨ part = [dot] then none
  else if part = [dot, dot] then some .up
  else some (.name part)

def components (p : FilePath) : List Component :=
  let parts := p.bytes.splitOn slash
  let lead := if p.isAbsolute then [.root] else if parts.head? = some [dot] then [.here] else []
  lead ++ parts.filterMap component?

/-- The components after those of `root`, if the path starts with these. -/
def componentsBelow? (root path : FilePath) : Option (List Component) :=
  if root.components.isPrefixOf path.components then
    some (path.components.drop root.components.length)
  else none

def fileName? (p : FilePath) : Option Bytes :=
  match p.components.getLast? with
  | some (.name bytes) => some bytes
  | _ => none

/-- The parts of a file name before and after its last dot. A name that has no dot, or none but an
opening one, is all stem. -/
def splitName (name : Bytes) : Bytes × Option Bytes :=
  let extension := (name.reverse.takeWhile (· != dot)).reverse
  let stem := name.take (name.length - extension.length - 1)
  if stem.isEmpty then (name, none) else (stem, some extension)

def stem? (p : FilePath) : Option Bytes :=
  p.fileName?.map fun name => (splitName name).1

def extension? (p : FilePath) : Option Bytes :=
  p.fileName?.bind fun name => (splitName name).2

/-- A path as seen from a directory; an absolute one stays as it is. -/
def join (directory path : FilePath) : FilePath :=
  if path.isAbsolute then path
  else if directory.bytes = [] ∨ directory.bytes.getLast? = some slash then
    ⟨directory.bytes ++ path.bytes⟩
  else ⟨directory.bytes ++ slash :: path.bytes⟩

end FilePath

end FileRoutes
