import FileRoutes.Middleware.Mount
import FileRoutes.Wire.Value

/-! Wire forms of middleware, stacks and mounts. Functions are given by name. -/

namespace FileRoutes

open Wire (Value)

namespace Method

def toWire (method : Method) : Value :=
  .text method.name

def ofWire? (value : Value) : Option Method :=
  value.named? all name

end Method

namespace Origin

def all : List Origin :=
  [.core, .global, .route]

def toWire (origin : Origin) : Value :=
  .text origin.label

def ofWire? (value : Value) : Option Origin :=
  value.named? all label

end Origin

namespace Slot

def toWire (slot : Slot) : Value :=
  .text slot.name

def ofWire? (value : Value) : Option Slot :=
  value.text?.map ofName

end Slot

namespace MiddlewareOptions

def toWire (options : MiddlewareOptions) : Value :=
  .record (Value.optionalField "slot" Slot.toWire options.slot?
    ++ Value.optionalField "on" (fun methods => .list (methods.map Method.toWire)) options.methods?
    ++ Value.optionalField "debug" Value.text options.label?)

def ofWire? (value : Value) : Option MiddlewareOptions :=
  if value.isRecord then do
    let slot? ← value.optional "slot" Slot.ofWire?
    let methods? ← value.optional "on" (Value.list? Method.ofWire?)
    let label? ← value.optional "debug" Value.text?
    return { slot?, methods?, label? }
  else none

end MiddlewareOptions

namespace Middleware

def toWire (m : Middleware Text) : Value :=
  .record [("functions", .texts m.functions), ("options", m.options.toWire)]

end Middleware

namespace Handler

def wireFields (h : Handler Text) : List (String × Value) :=
  [("method", h.method.toWire), ("functions", .texts h.functions)]

end Handler

namespace Declaration

def toWire : Declaration Text → Value
  | .middleware m =>
    .record [("kind", .ofString "middleware"), ("functions", .texts m.functions),
      ("options", m.options.toWire)]
  | .handler h => .record (("kind", .ofString "handler") :: h.wireFields)

end Declaration

namespace StackItem

def wireFields : StackItem Text → List (String × Value)
  | .middleware origin m =>
    [("kind", .ofString "middleware"), ("origin", origin.toWire), ("definition", m.toWire)]
  | .handler h => ("kind", .ofString "handler") :: h.wireFields

end StackItem

namespace Trace

def toWire (trace : Trace) : Value :=
  .record [("origin", .ofOption Origin.toWire trace.origin?),
    ("handler", .ofOption Method.toWire trace.handler?),
    ("slot", .ofOption Slot.toWire trace.slot?),
    ("on", .ofOption (fun methods => .list (methods.map Method.toWire)) trace.methods?),
    ("label", .ofOption Value.text trace.label?), ("functions", .ofNat trace.functions)]

end Trace

namespace Mount

def wireFields (mount : Mount Text) : List (String × Value) :=
  [("name", .text mount.name), ("path", .text mount.path),
    ("methods", .list (mount.methods.map Method.toWire)), ("middleware", .texts mount.functions),
    ("debug", .list (mount.traces.map Trace.toWire))]

end Mount

end FileRoutes
