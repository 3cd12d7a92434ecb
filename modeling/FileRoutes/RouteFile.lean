import FileRoutes.Settings
import FileRoutes.Specificity

/-! Route files. The directory of a file below the routes directory names its route, and the name
compiles to the route's tokens and pattern. -/

namespace FileRoutes

inductive Folder where
  | api
  | pages
deriving DecidableEq, Repr

inductive Role where
  | index
  | layout
  | other
deriving DecidableEq, Repr

structure RouteFile where
  name : Text
  folder : Folder
  file : Text
  fullPath : FilePath
  tokens : List Token
  pattern? : Option Text
deriving DecidableEq, Repr

/-- Why a file is no route file. -/
inductive RouteError where
  | pattern (file : FilePath) (error : PatternError)
  | outsideRoot (file root : FilePath)
  | notUtf8 (file : FilePath)
deriving DecidableEq, Repr

namespace Folder

def label : Folder → Text
  | .api => "api".toList
  | .pages => "pages".toList

end Folder

namespace RouteError

def file : RouteError → FilePath
  | .pattern file _ => file
  | .outsideRoot file _ => file
  | .notUtf8 file => file

def message : RouteError → String
  | .pattern file error =>
    let file := String.ofList file.display
    let error := error.message
    s!"invalid route path in {file}: {error}"
  | .outsideRoot file root =>
    let file := String.ofList file.display
    let root := String.ofList root.display
    s!"route file {file} is outside of {root}"
  | .notUtf8 file =>
    let file := String.ofList file.display
    s!"route path {file} is not valid UTF-8"

end RouteError

namespace RouteFile

/-- The route file `file` in the route directory `name`. -/
def make (folder : Folder) (name file : Text) (fullPath : FilePath) :
    Except PatternError RouteFile :=
  (Pattern.compile name).map fun p => ⟨name, folder, file, fullPath, p.tokens, some p.pattern⟩

/-- The directory of a route as the segments of its name. -/
def directorySegment (file root : FilePath) : FilePath.Component → Except RouteError Text
  | .name bytes =>
    match Utf8.decode? bytes with
    | some segment => .ok segment
    | none => .error (.notUtf8 file)
  | _ => .error (.outsideRoot file root)

/-- Files right in the routes directory belong to the route `index`. -/
def nameOf (segments : List Text) : Text :=
  if segments.isEmpty then "index".toList else Text.joinSegments segments

/-- The route file at a path below the routes directory `root`. -/
def ofPath (path root : FilePath) (folder : Folder) : Except RouteError RouteFile :=
  match FilePath.componentsBelow? root path with
  | none => .error (.outsideRoot path root)
  | some below =>
    match below.getLast? with
    | some (.name bytes) =>
      match Utf8.decode? bytes with
      | none => .error (.notUtf8 path)
      | some file =>
        match below.dropLast.mapM (directorySegment path root) with
        | .error e => .error e
        | .ok segments =>
          match make folder (nameOf segments) file path with
          | .error e => .error (.pattern path e)
          | .ok entry => .ok entry
    | _ => .error (.outsideRoot path root)

def withPattern (entry : RouteFile) (pattern : Text) : RouteFile :=
  { entry with pattern? := some pattern }

def patternText (entry : RouteFile) : Text :=
  entry.pattern?.getD []

def path (entry : RouteFile) : Pattern :=
  ⟨entry.tokens, entry.patternText⟩

def stem (entry : RouteFile) : Text :=
  ((FilePath.ofText entry.file).stem?.bind Utf8.decode?).getD entry.file

def role (settings : PageSettings) (entry : RouteFile) : Role :=
  if entry.stem = settings.indexStem then .index
  else if entry.stem = settings.layoutStem then .layout
  else .other

def specificity (entry : RouteFile) : Specificity :=
  .ofTokens entry.name entry.tokens

def sorted (entries : List RouteFile) : List RouteFile :=
  Specificity.sortBy specificity entries

end RouteFile

end FileRoutes
