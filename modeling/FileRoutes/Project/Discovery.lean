import FileRoutes.Project.SettingsFile
import FileRoutes.RouteFile

/-! Finding the route files of a project. Every file below a routes directory that has one of the
extensions is looked at; it either becomes a route file or is left out with the reason. -/

namespace FileRoutes

inductive Finding where
  | route (entry : RouteFile)
  | excluded (error : RouteError)
deriving DecidableEq, Repr

/-- The findings below one routes directory, in the order of the walk. -/
abbrev Findings := List Finding

namespace Finding

def ofPath (root : FilePath) (folder : Folder) (path : FilePath) : Finding :=
  match RouteFile.ofPath path root folder with
  | .ok entry => .route entry
  | .error error => .excluded error

def entry? : Finding → Option RouteFile
  | .route entry => some entry
  | .excluded _ => none

def error? : Finding → Option RouteError
  | .route _ => none
  | .excluded error => some error

end Finding

namespace Findings

/-- The route files, the most specific first. -/
def entries (findings : Findings) : List RouteFile :=
  RouteFile.sorted (findings.filterMap Finding.entry?)

/-- Why files were left out, in the order of the walk. -/
def diagnostics (findings : Findings) : List RouteError :=
  findings.filterMap Finding.error?

def ofTree (settings : RouteSettings) (root : FilePath) (folder : Folder) (tree : Tree) :
    Findings :=
  ((tree.files root).filter settings.isRouteFile).map (Finding.ofPath root folder)

end Findings

namespace RouteError

/-- The error under the file that it belongs to. -/
def diagnostic (error : RouteError) : String :=
  let file := String.ofList error.file.display
  let message := error.message
  s!"{file}: {message}"

end RouteError

/-- What is found in the two folders of a project; a folder that does not exist has `none`. -/
structure ProjectFindings where
  apiPath : FilePath
  api : Option Findings
  pagesPath : FilePath
  pages : Option Findings

namespace Tree

def findingsAt? (project : Tree) (settings : RouteSettings) (root : FilePath) (folder : Folder) :
    Option Findings :=
  match project.find? root with
  | some (.folder entries) => some (.ofTree settings root folder (.folder entries))
  | _ => none

def discover (project : Tree) (settings : RouteSettings) (root : FilePath) (folder : Folder) :
    Except ProjectError Findings :=
  match project.findingsAt? settings root folder with
  | some findings => .ok findings
  | none => .error (.missingRoutes root)

def discoverProject (project : Tree) (settings : Settings) (root : FilePath) : ProjectFindings :=
  let apiPath := root.join (.ofText settings.routes.apiDir)
  let pagesPath := root.join (.ofText settings.routes.pagesDir)
  { apiPath, pagesPath
    api := project.findingsAt? settings.routes apiPath .api
    pages := project.findingsAt? settings.routes pagesPath .pages }

end Tree

end FileRoutes
