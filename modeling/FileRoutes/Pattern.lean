import FileRoutes.Segment.Parser

/-! Route patterns. A directory path compiles segment by segment to tokens, each with its typed
parts and its piece of the pattern; the pattern of the path is the pieces put together, less the
separator that a plain first segment starts with. -/

namespace FileRoutes

inductive TokenKind where
  | static
  | param
  | mixed
deriving DecidableEq, Repr

inductive ParamKind where
  | required
  | optional
  | splat
deriving DecidableEq, Repr

inductive Part where
  | static (value : Text)
  | param (name : Text) (kind : ParamKind)
deriving DecidableEq, Repr

structure Token where
  kind : TokenKind
  source : Text
  pattern : Text
  parts : List Part
deriving DecidableEq, Repr

structure Pattern where
  tokens : List Token
  pattern : Text
deriving DecidableEq, Repr

namespace Part

/-- A parameter is required outside of all groups and optional inside; text counts outside only. -/
def ofNodes (grouped : Bool) : List Node → List Part
  | [] => []
  | .text value :: rest =>
    if grouped then ofNodes grouped rest else .static value :: ofNodes grouped rest
  | .param name :: rest =>
    .param name (if grouped then .optional else .required) :: ofNodes grouped rest
  | .wildcard name :: rest => .param name .splat :: ofNodes grouped rest
  | .group inner :: rest => ofNodes true inner ++ ofNodes grouped rest
termination_by nodes => nodes
decreasing_by
  all_goals simp only [List.cons.sizeOf_spec, Node.group.sizeOf_spec]
  all_goals omega

def param? : Part → Option (Text × ParamKind)
  | .static _ => none
  | .param name kind => some (name, kind)

end Part

namespace TokenKind

def ofParts : List Part → TokenKind
  | [.static _] => .static
  | [.param _ _] => .param
  | _ => .mixed

end TokenKind

namespace Token

def isStatic (token : Token) : Bool :=
  token.kind == .static

def ofNodes (source : Text) (nodes : List Node) : Token :=
  let parts := Part.ofNodes false nodes
  ⟨.ofParts parts, source, Node.renderSegment nodes, parts⟩

/-- Compiles one segment. -/
def compile (segment : Text) : Except PatternError Token :=
  (Node.parse false (Node.normalizeSplats segment)).map (ofNodes segment)

/-- The pieces put together. -/
def joinPatterns : List Token → Text
  | [] => []
  | token :: rest => (Text.after? ['/'] token.pattern).getD token.pattern ++ rest.flatMap (·.pattern)

end Token

namespace Pattern

/-- The segments that name a route, where a leading `index` stands for the directory itself. -/
def routeSegments (path : Text) : List Text :=
  match Text.segments (Text.trimSlashes path) with
  | [[]] => []
  | first :: rest => if first = ['i', 'n', 'd', 'e', 'x'] then rest else first :: rest
  | [] => []

def ofTokens (tokens : List Token) : Pattern :=
  ⟨tokens, Token.joinPatterns tokens⟩

/-- Compiles a directory path; the error is that of its first bad segment. -/
def compile (path : Text) : Except PatternError Pattern :=
  let token (segment : Text) : Except PatternError Token :=
    if segment.isEmpty then .error (.emptySegment path) else Token.compile segment
  ((routeSegments path).mapM token).map ofTokens

/-- Parameters in order of declaration. -/
def params (p : Pattern) : List (Text × ParamKind) :=
  p.tokens.flatMap fun token => token.parts.filterMap Part.param?

/-- The pattern as a router mounts it. -/
def routePath (p : Pattern) : Text :=
  match p.pattern with
  | [] => ['/']
  | '{' :: rest => '{' :: rest
  | pattern => '/' :: pattern

end Pattern

end FileRoutes
