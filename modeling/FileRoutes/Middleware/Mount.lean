import FileRoutes.Middleware.Stack

/-! Mounts are what a router takes: a path, a method, and the functions to run. Each handler of a
stack gives one, with the functions of all middleware that runs for its method and then its own. -/

namespace FileRoutes

/-- An item that a mount is made of, for display. -/
structure Trace where
  origin? : Option Origin := none
  handler? : Option Method := none
  slot? : Option Slot := none
  methods? : Option (List Method) := none
  label? : Option Text := none
  functions : Nat
deriving DecidableEq, Repr

structure Mount (F : Type) where
  name : Text
  path : Text
  methods : List Method
  functions : List F
  traces : List Trace
deriving DecidableEq, Repr

variable {F : Type}

namespace Trace

def ofMiddleware (origin : Origin) (m : Middleware F) : Trace where
  origin? := some origin
  slot? := m.options.slot?
  methods? := m.options.methods?
  label? := m.options.label?
  functions := m.functions.length

def ofHandler (h : Handler F) : Trace where
  handler? := some h.method
  functions := h.functions.length

def display (trace : Trace) : Text :=
  let source := match trace.handler?, trace.origin? with
    | some method, _ => "handler ".toList ++ method.name
    | none, some origin => origin.label
    | none, none => ['?']
  let slot := trace.slot?.elim [] fun slot => " [".toList ++ slot.name ++ [']']
  let label := trace.label?.elim [] fun label => ' ' :: label
  let methods := trace.methods?.elim [] fun methods => " on ".toList ++ Method.joined methods
  source ++ slot ++ label ++ methods ++ " (".toList ++ (toString trace.functions).toList ++ [')']

end Trace

namespace Mount

/-- The traces line by line, under the methods and the path. -/
def debugText (mount : Mount F) : Text :=
  let lines := mount.traces.mapIdx fun i trace =>
    "  ".toList ++ (toString (i + 1)).toList ++ ". ".toList ++ trace.display ++ ['\n']
  Method.joined mount.methods ++ ' ' :: mount.path ++ '\n' :: lines.flatten

end Mount

namespace StackItem

/-- The middleware of a stack that runs for a method. -/
def runningFor (stack : List (StackItem F)) (method : Method) : List (Origin × Middleware F) :=
  stack.filterMap fun
    | .middleware origin m => if m.options.appliesTo method then some (origin, m) else none
    | .handler _ => none

def mount (name path : Text) (stack : List (StackItem F)) (h : Handler F) : Mount F :=
  let running := runningFor stack h.method
  { name, path
    methods := [h.method]
    functions := running.flatMap (·.2.functions) ++ h.functions
    traces := running.map (fun r => Trace.ofMiddleware r.1 r.2) ++ [.ofHandler h] }

/-- One mount for each handler. -/
def mounts (name path : Text) (stack : List (StackItem F)) : List (Mount F) :=
  (stack.filterMap handler?).map (mount name path stack)

end StackItem

namespace SharedMiddleware

def mounts (shared : SharedMiddleware F) (endpoint : Endpoint F) : List (Mount F) :=
  StackItem.mounts endpoint.file.name endpoint.file.path.routePath (shared.stack endpoint)

/-- The mounts of all endpoints, the most specific endpoint first. -/
def table (shared : SharedMiddleware F) (endpoints : List (Endpoint F)) : List (Mount F) :=
  (Endpoint.sorted endpoints).flatMap shared.mounts

end SharedMiddleware

end FileRoutes
