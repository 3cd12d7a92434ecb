import FileRoutes.Middleware.Method
import FileRoutes.Middleware.Slot

/-! What route files declare: middleware with its options, and handlers of single methods. Functions
are of any type `F`. -/

namespace FileRoutes

inductive Origin where
  | core
  | global
  | route
deriving DecidableEq, Repr

structure MiddlewareOptions where
  slot? : Option Slot := none
  methods? : Option (List Method) := none
  label? : Option Text := none
deriving DecidableEq, Repr

structure Middleware (F : Type) where
  functions : List F
  options : MiddlewareOptions
deriving DecidableEq, Repr

structure Handler (F : Type) where
  method : Method
  functions : List F
deriving DecidableEq, Repr

inductive Declaration (F : Type) where
  | middleware (middleware : Middleware F)
  | handler (handler : Handler F)
deriving DecidableEq, Repr

variable {F : Type}

namespace Origin

def label : Origin → Text
  | .core => "core".toList
  | .global => "global".toList
  | .route => "route".toList

end Origin

namespace MiddlewareOptions

def withSlot (options : MiddlewareOptions) (slot : Slot) : MiddlewareOptions :=
  { options with slot? := some slot }

def withMethods (options : MiddlewareOptions) (methods : List Method) : MiddlewareOptions :=
  { options with methods? := some methods }

def withLabel (options : MiddlewareOptions) (label : Text) : MiddlewareOptions :=
  { options with label? := some label }

/-- Middleware that lists no methods runs for all of them. -/
def appliesTo (options : MiddlewareOptions) (method : Method) : Bool :=
  match options.methods? with
  | none => true
  | some methods => methods.contains method

end MiddlewareOptions

namespace Middleware

def slot? (m : Middleware F) : Option Slot :=
  m.options.slot?

def hasSlot (m : Middleware F) (name : Text) : Bool :=
  m.slot?.any (·.name == name)

/-- The defaults of the leading slots that have one. The function of each is made from its place
among them, counted from one, and its slot. -/
def defaults (make : Nat → Slot → F) : List (Middleware F) :=
  LeadingSlot.withDefault.mapIdx fun i slot =>
    ⟨[make (i + 1) (.leading slot)], { slot? := some (.leading slot) }⟩

end Middleware

namespace Declaration

def middleware? : Declaration F → Option (Middleware F)
  | .middleware m => some m
  | .handler _ => none

def handler? : Declaration F → Option (Handler F)
  | .middleware _ => none
  | .handler h => some h

end Declaration

end FileRoutes
