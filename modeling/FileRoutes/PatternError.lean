import FileRoutes.Text

/-! Why a directory path is no route pattern. A fault inside a segment carries the segment as it
was read and the byte offset of the character that is reported. -/

namespace FileRoutes

inductive Fault where
  | unclosed (bracket : Char)
  | unexpected (found : Char)
  | missingName
  | reserved (found : Char)
deriving DecidableEq, Repr

inductive PatternError where
  | emptySegment (path : Text)
  | malformed (segment : Text) (offset : Nat) (fault : Fault)
deriving DecidableEq, Repr

namespace PatternError

def message : PatternError → String
  | .emptySegment path =>
    let path := String.ofList path
    s!"empty segment in path `{path}`"
  | .malformed segment offset fault =>
    let what := match fault with
      | .unclosed bracket => s!"unclosed `{bracket}`"
      | .unexpected found => s!"unexpected `{found}`"
      | .missingName => "missing parameter name"
      | .reserved found => s!"reserved character `{found}`"
    let segment := String.ofList segment
    s!"{what} in segment `{segment}` at offset {offset}"

end PatternError

end FileRoutes
