import FileRoutes.Pattern

/-! The order in which overlapping routes are tried: more static segments first, then fewer segments,
then by name. Sorting keeps the given order of routes that compare equal. -/

namespace FileRoutes

structure Specificity where
  statics : Nat
  length : Nat
  name : Text
deriving DecidableEq, Repr

namespace Specificity

def ofTokens (name : Text) (tokens : List Token) : Specificity :=
  ⟨tokens.countP Token.isStatic, tokens.length, name⟩

def compare (a b : Specificity) : Ordering :=
  (Ord.compare b.statics a.statics).then
    ((Ord.compare a.length b.length).then (Ord.compare a.name b.name))

def le (a b : Specificity) : Bool :=
  (compare a b).isLE

/-- The most specific first. -/
def sortBy {α : Type} (key : α → Specificity) (items : List α) : List α :=
  items.mergeSort fun a b => le (key a) (key b)

end Specificity

end FileRoutes
