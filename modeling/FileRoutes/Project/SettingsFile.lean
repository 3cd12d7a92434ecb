import FileRoutes.Project.Tree
import FileRoutes.Settings
import FileRoutes.Text.Blank
import FileRoutes.Text.Quoted
import FileRoutes.Toml.Reader

/-! The settings file of a project. A project without one, or with a blank one, has the defaults;
so has every entry that is left out. Unknown entries are passed over, and entries of another type
make the file malformed. -/

namespace FileRoutes

inductive ProjectError where
  | unreadableSettings (path : FilePath)
  | malformedSettings (path : FilePath)
  | missingRoutes (path : FilePath)
deriving DecidableEq, Repr

namespace ProjectError

def message : ProjectError → String
  | .unreadableSettings path =>
    let path := String.ofList (Text.quoted path.bytes)
    s!"Failed to read config file: {path}"
  | .malformedSettings path =>
    let path := String.ofList (Text.quoted path.bytes)
    s!"Failed to parse config file: {path}"
  | .missingRoutes path =>
    let path := String.ofList (Text.quoted path.bytes)
    s!"Routes directory not found: {path}"

end ProjectError

namespace Settings

/-- The entries of a table; a date counts as a table that has none. -/
def entriesOf : Toml.Value → Option (List (Text × Toml.Value))
  | .table entries => some entries
  | .date _ => some []
  | _ => none

def textOf : Toml.Value → Option Text
  | .text t => some t
  | _ => none

def textsOf : Toml.Value → Option (List Text)
  | .list items => items.mapM textOf
  | _ => none

/-- An entry, or the default in its absence. -/
def entryOr {α : Type} (read : Toml.Value → Option α) (default : α) (key : String)
    (entries : List (Text × Toml.Value)) : Option α :=
  match Toml.lookup key.toList entries with
  | none => some default
  | some value => read value

def routesOf (value : Toml.Value) : Option RouteSettings := do
  let entries ← entriesOf value
  let apiDir ← entryOr textOf ({} : RouteSettings).apiDir "api_dir" entries
  let pagesDir ← entryOr textOf ({} : RouteSettings).pagesDir "pages_dir" entries
  let extensions ← entryOr textsOf ({} : RouteSettings).extensions "extensions" entries
  return { apiDir, pagesDir, extensions }

def pagesOf (value : Toml.Value) : Option PageSettings := do
  let entries ← entriesOf value
  let indexStem ← entryOr textOf ({} : PageSettings).indexStem "index_stem" entries
  let layoutStem ← entryOr textOf ({} : PageSettings).layoutStem "layout_stem" entries
  return { indexStem, layoutStem }

def ofDocument (value : Toml.Value) : Option Settings := do
  let entries ← entriesOf value
  let routes ← entryOr routesOf {} "routes" entries
  let pages ← entryOr pagesOf {} "nested" entries
  return { routes, pages }

def ofText (t : Text) : Option Settings :=
  if t.all Text.isBlank then some {} else (Toml.document? t).bind ofDocument

def load (project : Tree) (path : FilePath) : Except ProjectError Settings :=
  match project.find? path with
  | none => .ok {}
  | some (.folder _) => .error (.unreadableSettings path)
  | some (.file content) =>
    match Utf8.decode? content with
    | none => .error (.unreadableSettings path)
    | some t =>
      match ofText t with
      | none => .error (.malformedSettings path)
      | some settings => .ok settings

def defaultFile : FilePath :=
  .ofText "routegen.toml".toList

end Settings

end FileRoutes
