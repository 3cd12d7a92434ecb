import FileRoutes.Variant
import FileRoutes.Wire.Value

/-! Wire forms of patterns and variants. -/

namespace FileRoutes

open Wire (Value)

namespace TokenKind

def all : List TokenKind :=
  [.static, .param, .mixed]

def wireName : TokenKind → Text
  | .static => "static".toList
  | .param => "param".toList
  | .mixed => "mixed".toList

def toWire (kind : TokenKind) : Value :=
  .text kind.wireName

def ofWire? (value : Value) : Option TokenKind :=
  value.named? all wireName

end TokenKind

namespace ParamKind

def all : List ParamKind :=
  [.required, .optional, .splat]

def wireName : ParamKind → Text
  | .required => "required".toList
  | .optional => "optional".toList
  | .splat => "splat".toList

def toWire (kind : ParamKind) : Value :=
  .text kind.wireName

def ofWire? (value : Value) : Option ParamKind :=
  value.named? all wireName

end ParamKind

namespace Part

def toWire : Part → Value
  | .static value => .record [("type", .ofString "static"), ("value", .text value)]
  | .param name kind =>
    .record [("type", .ofString "param"), ("name", .text name), ("kind", kind.toWire)]

def ofWire? (value : Value) : Option Part := do
  let type ← value.required "type" Value.text?
  if type = "static".toList then
    return .static (← value.required "value" Value.text?)
  else if type = "param".toList then
    return .param (← value.required "name" Value.text?) (← value.required "kind" ParamKind.ofWire?)
  else none

end Part

namespace Token

def toWire (token : Token) : Value :=
  .record [("kind", token.kind.toWire), ("orig", .text token.source),
    ("pattern", .text token.pattern), ("parts", .list (token.parts.map Part.toWire))]

def ofWire? (value : Value) : Option Token := do
  let kind ← value.required "kind" TokenKind.ofWire?
  let source ← value.required "orig" Value.text?
  let pattern ← value.required "pattern" Value.text?
  let parts ← value.required "parts" (Value.list? Part.ofWire?)
  return { kind, source, pattern, parts }

end Token

namespace Pattern

def toWire (p : Pattern) : Value :=
  .record [("tokens", .list (p.tokens.map Token.toWire)), ("pattern", .text p.pattern)]

def ofWire? (value : Value) : Option Pattern := do
  let tokens ← value.required "tokens" (Value.list? Token.ofWire?)
  let pattern ← value.required "pattern" Value.text?
  return { tokens, pattern }

end Pattern

namespace Variant

def toWire (variant : Variant) : Value :=
  .record [("pattern", .text variant.pattern), ("params", .texts variant.params)]

def ofWire? (value : Value) : Option Variant := do
  let pattern ← value.required "pattern" Value.text?
  let params ← value.required "params" (Value.list? Value.text?)
  return { pattern, params }

end Variant

end FileRoutes
