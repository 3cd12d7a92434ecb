import FileRoutes.Text

/-! HTTP methods. A method is read without regard to the case of ASCII letters. -/

namespace FileRoutes

inductive Method where
  | get
  | post
  | put
  | patch
  | delete
  | head
  | options
deriving DecidableEq, Repr

namespace Method

def all : List Method :=
  [.get, .post, .put, .patch, .delete, .head, .options]

def name : Method → Text
  | .get => "GET".toList
  | .post => "POST".toList
  | .put => "PUT".toList
  | .patch => "PATCH".toList
  | .delete => "DELETE".toList
  | .head => "HEAD".toList
  | .options => "OPTIONS".toList

def ordinal (method : Method) : Nat :=
  all.idxOf method

def ofText? (t : Text) : Option Method :=
  all.find? fun method => method.name == t.map Char.toUpper

/-- In the order of `all`. -/
def sorted (methods : List Method) : List Method :=
  methods.mergeSort fun a b => a.ordinal ≤ b.ordinal

def joined (methods : List Method) : Text :=
  [','].intercalate (methods.map name)

/-- What is said of a text that names no method. -/
def unknownMessage (t : Text) : String :=
  let t := String.ofList t
  s!"unknown HTTP method `{t}`"

end Method

end FileRoutes
