import FileRoutes.Segment.Lexeme

/-! Reading a segment. Lexemes are put together on a stack that holds, for each group still open,
where it opened and the nodes before it. -/

namespace FileRoutes

namespace Node

abbrev Frame := Text × List Node

/-- The nodes that the lexemes add to `nodes`, inside the groups of `stack`. -/
def assemble (stack : List Frame) (nodes : List Node) :
    List (Text × Lexeme) → Except (Text × Fault) (List Node)
  | [] =>
    match stack with
    | [] => .ok nodes
    | (opened, _) :: _ => .error (opened, .unclosed '{')
  | (here, .fault fault) :: _ => .error (here, fault)
  | (_, .node node) :: rest => assemble stack (nodes ++ [node]) rest
  | (here, .openGroup) :: rest => assemble ((here, nodes) :: stack) [] rest
  | (here, .closeGroup) :: rest =>
    match stack, nodes with
    | (_, before) :: outer, n :: ns => assemble outer (before ++ [.group (n :: ns)]) rest
    | _, _ => .error (here, .unexpected '}')

/-- Reads a segment; with `separator` also a whole pattern. -/
def parse (separator : Bool) (segment : Text) : Except PatternError (List Node) :=
  match assemble [] [] (Lexeme.lex separator segment) with
  | .ok nodes => .ok nodes
  | .error (here, fault) => .error (.malformed segment (Text.offsetIn segment here) fault)

/-- Writes each opening `{...` as `{*`. -/
def normalizeSplats : Text → Text
  | '{' :: '.' :: '.' :: '.' :: rest => '{' :: '*' :: normalizeSplats rest
  | c :: rest => c :: normalizeSplats rest
  | [] => []

end Node

end FileRoutes
