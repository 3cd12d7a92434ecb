import FileRoutes.Middleware.Mount
import FileRoutes.Page
import FileRoutes.Project.Discovery
import FileRoutes.Variant

/-! Events are what is said in passing while routes are compiled. They are read off the results, in
the order in which these come about. -/

namespace FileRoutes

inductive Event where
  | prunedVariants (pattern : Text) (count : Nat)
  | duplicateFile (role : Role) (kept ignored : RouteFile)
  | resolvedSlot (route : Text) (slot : Slot) (origin : Origin)
  | overriddenSlot (route : Text) (slot : Slot)
  | noHandlers (route : Text)
  | foundRoute (entry : RouteFile)
  | excludedRoute (error : RouteError)
  | missingFolder (folder : Folder) (path : FilePath)
deriving DecidableEq, Repr

inductive EventLevel where
  | debug
  | warning
deriving DecidableEq, Repr

variable {F : Type}

namespace Event

def level : Event → EventLevel
  | .duplicateFile _ _ _ => .warning
  | .excludedRoute _ => .warning
  | _ => .debug

def message : Event → String
  | .prunedVariants _ _ => "pruned ambiguous pattern variants"
  | .duplicateFile .index _ _ => "duplicate Index file for route"
  | .duplicateFile .layout _ _ => "duplicate Layout file for route"
  | .duplicateFile .other _ _ => "duplicate Other file for route"
  | .resolvedSlot _ _ _ => "resolved prioritized slot"
  | .overriddenSlot _ _ => "route overrides global slot"
  | .noHandlers _ => "route declares no handlers"
  | .foundRoute entry =>
    let folder := String.ofList entry.folder.label
    s!"discovered {folder} route"
  | .excludedRoute error =>
    let file := String.ofList (Text.quoted error.file.bytes)
    let message := error.message
    s!"Excluding route {file}: {message}"
  | .missingFolder folder path =>
    let folder := String.ofList folder.label
    let path := String.ofList (Text.quoted path.bytes)
    s!"No {folder} directory at {path}"

/-- What the event is about, by key. -/
def fields : Event → List (String × Text)
  | .prunedVariants pattern count =>
    [("pattern", pattern), ("pruned", (toString count).toList)]
  | .duplicateFile _ kept ignored =>
    [("name", kept.name), ("kept", kept.fullPath.display), ("ignored", ignored.fullPath.display)]
  | .resolvedSlot route slot origin =>
    [("route", route), ("slot", slot.name), ("origin", origin.label)]
  | .overriddenSlot route slot => [("route", route), ("slot", slot.name)]
  | .noHandlers route => [("route", route)]
  | .foundRoute entry => [("route", entry.name), ("file", entry.file)]
  | .excludedRoute _ => []
  | .missingFolder _ _ => []

end Event

/-- Pruning is told only where something was pruned. -/
def Expansion.events (pattern : Text) (expansion : Expansion) : List Event :=
  if expansion.pruned = 0 then [] else [.prunedVariants pattern expansion.pruned]

/-- Each file that is passed over for another one of its page, page by page. -/
def Forest.events (settings : PageSettings) (entries : List RouteFile) : List Event :=
  let files := Forest.routable settings entries
  (Page.allDescendants (Forest.build settings entries)).flatMap fun page =>
    (Forest.duplicates settings files page.name).map fun d => .duplicateFile d.1 d.2.1 d.2.2

namespace StackItem

def resolvedEvent? (route : Text) : StackItem F → Option Event
  | .middleware origin m => m.slot?.map fun slot => .resolvedSlot route slot origin
  | .handler _ => none

def overriddenEvent? (route : Text) : StackItem F → Option Event
  | .middleware .route m => m.slot?.map fun slot => .overriddenSlot route slot
  | _ => none

end StackItem

namespace SharedMiddleware

def stackEvents (shared : SharedMiddleware F) (endpoint : Endpoint F) : List Event :=
  (shared.leadingPart endpoint).filterMap (StackItem.resolvedEvent? endpoint.file.name)
    ++ (shared.globalPart endpoint).filterMap (StackItem.overriddenEvent? endpoint.file.name)

def mountEvents (shared : SharedMiddleware F) (endpoint : Endpoint F) : List Event :=
  shared.stackEvents endpoint
    ++ if (shared.mounts endpoint).isEmpty then [.noHandlers endpoint.file.name] else []

def tableEvents (shared : SharedMiddleware F) (endpoints : List (Endpoint F)) : List Event :=
  (Endpoint.sorted endpoints).flatMap shared.mountEvents

end SharedMiddleware

def Finding.event : Finding → Event
  | .route entry => .foundRoute entry
  | .excluded error => .excludedRoute error

def Findings.events (findings : Findings) : List Event :=
  findings.map Finding.event

def ProjectFindings.events (found : ProjectFindings) : List Event :=
  let told (folder : Folder) (path : FilePath) : Option Findings → List Event
    | some findings => findings.events
    | none => [.missingFolder folder path]
  told .api found.apiPath found.api ++ told .pages found.pagesPath found.pages

end FileRoutes
