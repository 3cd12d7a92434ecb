import FileRoutes.Middleware.Declaration
import FileRoutes.RouteFile

/-! The middleware stack of a route. The leading slots come first in their order, each with its last
declaration. Then come the global declarations and then those of the route, in their order; the
first declaration of a custom slot holds the place of the slot, and the last one fills it. -/

namespace FileRoutes

structure Endpoint (F : Type) where
  file : RouteFile
  wrappers : List (Middleware F) := []
  declarations : List (Declaration F) := []
deriving DecidableEq, Repr

structure SharedMiddleware (F : Type) where
  core : List (Middleware F) := []
  global : List (Middleware F) := []
deriving DecidableEq, Repr

inductive StackItem (F : Type) where
  | middleware (origin : Origin) (middleware : Middleware F)
  | handler (handler : Handler F)
deriving DecidableEq, Repr

variable {F : Type}

/-- The last item that satisfies `p`, looked for from the end. -/
def findLast? {α : Type} (p : α → Bool) (items : List α) : Option α :=
  items.reverse.find? p

/-- How many items a look for the last one that satisfies `p` tests. -/
def findLastTests {α : Type} (p : α → Bool) (items : List α) : Nat :=
  min items.length ((items.reverse.takeWhile fun item => !p item).length + 1)

namespace Endpoint

def methods (endpoint : Endpoint F) : List Method :=
  (endpoint.declarations.filterMap Declaration.handler?).map (·.method)

def specificity (endpoint : Endpoint F) : Specificity :=
  endpoint.file.specificity

def sorted (endpoints : List (Endpoint F)) : List (Endpoint F) :=
  Specificity.sortBy specificity endpoints

end Endpoint

namespace StackItem

def slot? : StackItem F → Option Slot
  | .middleware _ m => m.slot?
  | .handler _ => none

def isHandler : StackItem F → Bool
  | .middleware _ _ => false
  | .handler _ => true

def handler? : StackItem F → Option (Handler F)
  | .middleware _ _ => none
  | .handler h => some h

def hasSlot (item : StackItem F) (name : Text) : Bool :=
  item.slot?.any (·.name == name)

def ofDeclaration : Declaration F → StackItem F
  | .middleware m => .middleware .route m
  | .handler h => .handler h

/-- The last item of that slot. -/
def last? (items : List (StackItem F)) (name : Text) : Option (StackItem F) :=
  findLast? (·.hasSlot name) items

/-- The items that hold a place: those without a slot, and the first one of each slot that is not
claimed already. -/
def holders (claimed : List Text) : List (StackItem F) → List (StackItem F)
  | [] => []
  | item :: rest =>
    match item.slot? with
    | none => item :: holders claimed rest
    | some slot =>
      if claimed.contains slot.name then holders claimed rest
      else item :: holders (slot.name :: claimed) rest

/-- The item that fills the place of `item`. -/
def winner (items : List (StackItem F)) (item : StackItem F) : StackItem F :=
  match item.slot? with
  | none => item
  | some slot => (last? items slot.name).getD item

end StackItem

namespace Endpoint

/-- What wraps the route comes before its own declarations. -/
def items (endpoint : Endpoint F) : List (StackItem F) :=
  endpoint.wrappers.map (.middleware .route) ++ endpoint.declarations.map .ofDeclaration

end Endpoint

namespace SharedMiddleware

def coreItems (shared : SharedMiddleware F) : List (StackItem F) :=
  shared.core.map (.middleware .core)

def globalItems (shared : SharedMiddleware F) : List (StackItem F) :=
  shared.global.map (.middleware .global)

def leadingPart (shared : SharedMiddleware F) (endpoint : Endpoint F) : List (StackItem F) :=
  LeadingSlot.names.filterMap
    (StackItem.last? (shared.coreItems ++ shared.globalItems ++ endpoint.items))

def globalPart (shared : SharedMiddleware F) (endpoint : Endpoint F) : List (StackItem F) :=
  (StackItem.holders LeadingSlot.names shared.globalItems).map
    (StackItem.winner (shared.globalItems ++ endpoint.items))

def routePart (shared : SharedMiddleware F) (endpoint : Endpoint F) : List (StackItem F) :=
  let claimed := LeadingSlot.names ++ (shared.global.filterMap (·.slot?)).map (·.name)
  (StackItem.holders claimed endpoint.items).map (StackItem.winner endpoint.items)

def stack (shared : SharedMiddleware F) (endpoint : Endpoint F) : List (StackItem F) :=
  shared.leadingPart endpoint ++ shared.globalPart endpoint ++ shared.routePart endpoint

end SharedMiddleware

end FileRoutes
