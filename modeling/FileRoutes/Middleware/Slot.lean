import FileRoutes.Text

/-! Slots are the places of a middleware stack that a later declaration can take over. Seven of them
lead every stack in a fixed order. A slot counts by its name alone, whether it is spelled as one of
the seven or as a custom slot. -/

namespace FileRoutes

inductive LeadingSlot where
  | errorHandler
  | params
  | validateParams
  | bodyparser
  | payload
  | validatePayload
  | validateResponse
deriving DecidableEq, Repr

inductive Slot where
  | leading (slot : LeadingSlot)
  | custom (name : Text)
deriving DecidableEq, Repr

namespace LeadingSlot

def all : List LeadingSlot :=
  [.errorHandler, .params, .validateParams, .bodyparser, .payload, .validatePayload,
    .validateResponse]

/-- The slots that have a default. -/
def withDefault : List LeadingSlot :=
  [.params, .validateParams, .validatePayload, .validateResponse]

def name : LeadingSlot → Text
  | .errorHandler => "errorHandler".toList
  | .params => "params".toList
  | .validateParams => "validateParams".toList
  | .bodyparser => "bodyparser".toList
  | .payload => "payload".toList
  | .validatePayload => "validatePayload".toList
  | .validateResponse => "validateResponse".toList

def names : List Text :=
  all.map name

end LeadingSlot

namespace Slot

def name : Slot → Text
  | .leading slot => slot.name
  | .custom name => name

def ofName (name : Text) : Slot :=
  match LeadingSlot.all.find? fun slot => slot.name == name with
  | some slot => .leading slot
  | none => .custom name

def isLeading (slot : Slot) : Bool :=
  LeadingSlot.names.contains slot.name

def same (a b : Slot) : Bool :=
  a.name == b.name

end Slot

end FileRoutes
