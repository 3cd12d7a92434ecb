import FileRoutes.Middleware.Mount
import FileRoutes.Proofs.SlotTable
import Mathlib

/-! What the mounts of a route are made of. A stack holds the handlers of the route in their order,
and each slot at most once, the leading ones first. A mount takes the items of the stack that run
for its method and then one handler, so it keeps all of this; its functions are those of the same
items, block by block as the traces count them. -/

namespace FileRoutes

variable {F : Type}

namespace Trace

def slotName? (trace : Trace) : Option Text :=
  trace.slot?.map Slot.name

end Trace

namespace StackItem

def slotName? (item : StackItem F) : Option Text :=
  item.slot?.map Slot.name

def functions : StackItem F → List F
  | .middleware _ m => m.functions
  | .handler h => h.functions

def trace : StackItem F → Trace
  | .middleware origin m => .ofMiddleware origin m
  | .handler h => .ofHandler h

/-- Handlers run for no method as part of the way to another handler. -/
def runsFor (method : Method) : StackItem F → Bool
  | .middleware _ m => m.options.appliesTo method
  | .handler _ => false

/-- The items of a stack that lead to one of its handlers. -/
def leadingTo (stack : List (StackItem F)) (h : Handler F) : List (StackItem F) :=
  stack.filter (runsFor h.method) ++ [.handler h]

@[simp] theorem slotName?_trace (item : StackItem F) : item.trace.slotName? = item.slotName? := by
  cases item <;> rfl

@[simp] theorem functions_trace (item : StackItem F) :
    item.trace.functions = item.functions.length := by
  cases item <;> rfl

variable (name path : Text) (stack : List (StackItem F)) (h : Handler F)

end StackItem

namespace Endpoint

end Endpoint

namespace SharedMiddleware

open StackItem

variable (shared : SharedMiddleware F) (endpoint : Endpoint F)

end SharedMiddleware

/-- A mount that runs the items of a stack that lead to a handler, and nothing else. -/
structure Mount.WellFormed (stack : List (StackItem F)) (handler : Handler F) (mount : Mount F) :
    Prop where
  methods : mount.methods = [handler.method]
  handlerLast : ∃ before, mount.traces = before ++ [.ofHandler handler] ∧
    ∀ trace ∈ before, trace.handler? = none
  slots : (mount.traces.filterMap Trace.slotName?).Nodup
  leadingFirst : ∃ leading later, mount.traces = leading ++ later ∧
    (leading.map Trace.slotName?).Sublist (LeadingSlot.names.map some) ∧
    ∀ trace ∈ later, ∀ slot ∈ trace.slot?, slot.isLeading = false
  runs : ∀ trace ∈ mount.traces, ∀ methods ∈ trace.methods?, handler.method ∈ methods
  items : mount.traces = (StackItem.leadingTo stack handler).map StackItem.trace
  blocks : (mount.traces.map (·.functions)).splitLengths mount.functions =
    (StackItem.leadingTo stack handler).map StackItem.functions
  exhausted : (mount.traces.map (·.functions)).sum = mount.functions.length

namespace StackItem

variable {stack : List (StackItem F)} {h : Handler F} {item : StackItem F}

end StackItem

namespace SharedMiddleware

open StackItem

variable (shared : SharedMiddleware F) (endpoint : Endpoint F) (h : Handler F)

end SharedMiddleware

end FileRoutes
