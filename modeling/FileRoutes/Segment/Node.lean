import FileRoutes.Text

/-! A directory segment as a tree: literal text, parameters, wildcards, and optional groups of the
same. Rendering writes the tree in brace notation, where a parameter is `:name`, a wildcard `*name`
and a group stands between braces. -/

namespace FileRoutes

inductive Node where
  | text (value : Text)
  | param (name : Text)
  | wildcard (name : Text)
  | group (inner : List Node)
deriving Repr

namespace Node

def render : List Node → Text
  | [] => []
  | .text value :: rest => value ++ render rest
  | .param name :: rest => ':' :: name ++ render rest
  | .wildcard name :: rest => '*' :: name ++ render rest
  | .group inner :: rest => '{' :: render inner ++ '}' :: render rest

/-- A segment with its separator. If it opens with a group the separator belongs to the group, so
that leaving the group out leaves the separator out as well. -/
def renderSegment : List Node → Text
  | .group inner :: rest => '{' :: '/' :: render inner ++ '}' :: render rest
  | nodes => '/' :: render nodes

end Node

end FileRoutes
