import FileRoutes.Text

/-! Values in wire form: what records, lists, texts and numbers of the library are written as and
read from. A number is a whole number divided by a power of ten. Reading passes over fields that it
does not know, and takes a field that is left out or null for one without a value where the field
may be so. -/

namespace FileRoutes.Wire

inductive Value where
  | null
  | boolean (value : Bool)
  | number (digits : Int) (scale : Nat)
  | text (value : Text)
  | list (items : List Value)
  | record (fields : List (String × Value))
deriving Repr

instance : Inhabited Value := ⟨.null⟩

namespace Value

def lookup (key : String) (fields : List (String × Value)) : Option Value :=
  (fields.find? fun field => field.1 == key).map Prod.snd

def field? (key : String) : Value → Option Value
  | .record fields => lookup key fields
  | _ => none

/-- Whether the value is a record at all. -/
def isRecord : Value → Bool
  | .record _ => true
  | _ => false

def ofNat (n : Nat) : Value :=
  .number n 0

def ofString (s : String) : Value :=
  .text s.toList

def texts (ts : List Text) : Value :=
  .list (ts.map .text)

def ofOption {α : Type} (write : α → Value) : Option α → Value
  | some a => write a
  | none => .null

/-- A field that is left out when there is no value for it. -/
def optionalField {α : Type} (key : String) (write : α → Value) : Option α → List (String × Value)
  | some a => [(key, write a)]
  | none => []

def text? : Value → Option Text
  | .text t => some t
  | _ => none

/-- Counts are whole numbers of 64 bits. -/
def count? : Value → Option Nat
  | .number (.ofNat n) 0 => if n < UInt64.size then some n else none
  | _ => none

def items? : Value → Option (List Value)
  | .list items => some items
  | _ => none

def list? {α : Type} (read : Value → Option α) (value : Value) : Option (List α) :=
  value.items?.bind fun items => items.mapM read

def required {α : Type} (key : String) (read : Value → Option α) (value : Value) : Option α :=
  (value.field? key).bind read

/-- A field that may be left out or null. -/
def optional {α : Type} (key : String) (read : Value → Option α) (value : Value) :
    Option (Option α) :=
  match value.field? key with
  | none => some none
  | some .null => some none
  | some field => (read field).map some

/-- A field that may be left out. -/
def orDefault {α : Type} (key : String) (read : Value → Option α) (default : α) (value : Value) :
    Option α :=
  match value.field? key with
  | none => some default
  | some field => read field

/-- The element of a list whose written name the text is. -/
def named? {α : Type} (all : List α) (name : α → Text) (value : Value) : Option α :=
  value.text?.bind fun t => all.find? fun a => name a == t

theorem sizeOf_field_lt {key : String} {value field : Value}
    (h : value.field? key = some field) : sizeOf field < sizeOf value := by
  cases value with
  | record fields =>
    obtain ⟨found, hfind, rfl⟩ := Option.map_eq_some_iff.1 h
    have hlt := List.sizeOf_lt_of_mem (List.mem_of_find?_eq_some hfind)
    obtain ⟨name, field⟩ := found
    simp only [Prod.mk.sizeOf_spec, Value.record.sizeOf_spec] at *
    omega
  | _ => simp [field?] at h

theorem sizeOf_item_lt {key : String} {value item : Value} {items : List Value}
    (h : value.required key items? = some items) (hitem : item ∈ items) :
    sizeOf item < sizeOf value := by
  obtain ⟨field, hfield, hitems⟩ := Option.bind_eq_some_iff.1 h
  have hlt := sizeOf_field_lt hfield
  cases field with
  | list all =>
    simp only [items?, Option.some.injEq] at hitems
    subst hitems
    have := List.sizeOf_lt_of_mem hitem
    simp only [Value.list.sizeOf_spec] at hlt
    omega
  | _ => simp [items?] at hitems

end Value

end FileRoutes.Wire
