import FileRoutes.Text

/-! Values of a TOML document. Floats and dates keep their spelling. -/

namespace FileRoutes.Toml

inductive Value where
  | text (value : Text)
  | integer (value : Int)
  | float (spelling : Text)
  | boolean (value : Bool)
  | date (spelling : Text)
  | list (items : List Value)
  | table (entries : List (Text × Value))
deriving Repr

/-- The value of a key; keys of a table differ. -/
def lookup {α : Type} (key : Text) (entries : List (Text × α)) : Option α :=
  (entries.find? fun entry => entry.1 == key).map Prod.snd

abbrev Reader (α : Type) := Text → Option (α × Text)

end FileRoutes.Toml
