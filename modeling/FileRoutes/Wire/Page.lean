import FileRoutes.Page
import FileRoutes.Wire.Pattern

/-! Wire forms of route files and pages. A file path is written as text, so one that is no text has
no wire form. -/

namespace FileRoutes

open Wire (Value)

namespace Folder

def all : List Folder :=
  [.api, .pages]

def toWire (folder : Folder) : Value :=
  .text folder.label

def ofWire? (value : Value) : Option Folder :=
  value.named? all label

end Folder

namespace RouteFile

def toWire? (entry : RouteFile) : Option Value :=
  (Utf8.decode? entry.fullPath.bytes).map fun fullPath =>
    .record ([("name", .text entry.name), ("folder", entry.folder.toWire),
      ("file", .text entry.file), ("fileFullpath", .text fullPath),
      ("pathTokens", .list (entry.tokens.map Token.toWire))]
      ++ Value.optionalField "pathPattern" Value.text entry.pattern?)

def ofWire? (value : Value) : Option RouteFile := do
  let name ← value.required "name" Value.text?
  let folder ← value.required "folder" Folder.ofWire?
  let file ← value.required "file" Value.text?
  let fullPath ← value.required "fileFullpath" Value.text?
  let tokens ← value.required "pathTokens" (Value.list? Token.ofWire?)
  let pattern? ← value.optional "pathPattern" Value.text?
  return { name, folder, file, fullPath := .ofText fullPath, tokens, pattern? }

/-- The wire form of a file that may be absent. -/
def optionalWire? : Option RouteFile → Option Value
  | none => some .null
  | some entry => entry.toWire?

end RouteFile

namespace Page

mutual

def toWire? : Page → Option Value
  | ⟨name, index, layout, tokens, parent, children⟩ => do
    let index ← RouteFile.optionalWire? index
    let layout ← RouteFile.optionalWire? layout
    let children ← allToWire? children
    return .record [("name", .text name), ("index", index), ("layout", layout),
      ("pathTokens", .list (tokens.map Token.toWire)), ("parent", .ofOption .text parent),
      ("children", .list children)]

def allToWire? : List Page → Option (List Value)
  | [] => some []
  | page :: rest => do
    let page ← toWire? page
    let rest ← allToWire? rest
    return page :: rest

end

def ofWire? (value : Value) : Option Page := do
  let name ← value.required "name" Value.text?
  let index ← value.optional "index" RouteFile.ofWire?
  let layout ← value.optional "layout" RouteFile.ofWire?
  let tokens ← value.required "pathTokens" (Value.list? Token.ofWire?)
  let parent ← value.optional "parent" Value.text?
  let items ← (value.required "children" Value.items?).attach
  let children ← items.1.attach.mapM fun item => ofWire? item.1
  return { name, index, layout, tokens, parent, children }
termination_by sizeOf value
decreasing_by exact Value.sizeOf_item_lt items.2 item.2

end Page

end FileRoutes
