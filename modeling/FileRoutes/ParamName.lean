import FileRoutes.Digest

/-! Parameter names as identifiers. A name of ASCII letters, digits and `_` that does not start with
a digit stands for itself. Any other name has its other characters replaced by `_` and a piece of
its digest appended, which keeps `user-id` and `user.id` apart. -/

namespace FileRoutes.ParamName

def isWordChar (c : Char) : Bool :=
  c.isAlphanum || c == '_'

def startsWithDigit : Text → Bool
  | [] => false
  | c :: _ => c.isDigit

def isIdentifier (name : Text) : Bool :=
  !name.isEmpty && name.all isWordChar && !startsWithDigit name

/-- The name with every other character replaced, opened by `_` if it starts with a digit. -/
def masked (raw : Text) : Text :=
  let name := raw.map fun c => if isWordChar c then c else '_'
  if startsWithDigit raw then '_' :: name else name

def sanitize (raw : Text) : Text :=
  if isIdentifier raw then raw else masked raw ++ '_' :: Digest.short raw

end FileRoutes.ParamName
