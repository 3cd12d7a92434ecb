import FileRoutes.Proofs.PageTree
import FileRoutes.Proofs.Utf8
import FileRoutes.Wire.Page

/-! Pages in wire form. Each type is read back from what it is written as: a choice by its name, a
list item by item, a record field by field, and a field that may have no value from both ways of
saying so. For pages that is an induction on the tree. The one thing that has no wire form is a
file path that is no text, so a tree is written exactly if all its paths are texts. -/

namespace FileRoutes

namespace Wire.Value

variable {α : Type} {read : Value → Option α} {write : α → Value} {key : String} {value field : Value}

/-- Reading gives back whatever was written. -/
def Undoes (read : Value → Option α) (write : α → Value) : Prop :=
  ∀ a, read (write a) = some a

theorem undoes_text : Undoes text? .text := fun _ => rfl

theorem undoes_named {all : List α} {name : α → Text} (hall : ∀ a, a ∈ all)
    (hname : ∀ a b, name a = name b → a = b) : Undoes (named? all name) fun a => .text (name a) := by
  intro a
  have hfound : ∃ b, all.find? (fun b => name b == name a) = some b := by
    rw [← Option.isSome_iff_exists, List.find?_isSome]
    exact ⟨a, hall a, beq_self_eq_true _⟩
  obtain ⟨b, hb⟩ := hfound
  -- what is found has the name that was looked for, and names tell the elements apart
  have hsame : name b = name a := by simpa using List.find?_some hb
  rw [hname b a hsame] at hb
  exact hb

theorem Undoes.list (h : Undoes read write) : Undoes (list? read) fun as => .list (as.map write) := by
  intro as
  have hread : (fun a => read (write a)) = some := funext h
  change (as.map write).mapM read = some as
  rw [List.mapM_map, Function.comp_def, hread]
  simpa using List.mapM_pure (m := Option) (l := as) (f := id)

theorem optional_of_field? (h : value.field? key = some field) (hnull : field ≠ .null) :
    value.optional key read = (read field).map some := by
  rw [optional, h]
  cases field with
  | null => exact absurd rfl hnull
  | _ => rfl

/-- A field that is left out where there is no value. -/
theorem Undoes.optional (h : Undoes read write) (hnull : ∀ a, write a ≠ .null) {a? : Option α}
    (hfield : value.field? key = a?.map write) : value.optional key read = some a? := by
  cases a? with
  | none => rw [Value.optional, hfield, Option.map_none]
  | some a => rw [optional_of_field? hfield (hnull a), h, Option.map_some]

/-- A field that is null where there is no value. -/
theorem Undoes.nullable (h : Undoes read write) (hnull : ∀ a, write a ≠ .null) {a? : Option α}
    (hfield : value.field? key = some (ofOption write a?)) : value.optional key read = some a? := by
  cases a? with
  | none => rw [Value.optional, hfield, ofOption]
  | some a => rw [optional_of_field? hfield (hnull a), ofOption, h, Option.map_some]

end Wire.Value

open Wire (Value)
open Wire.Value (Undoes)

namespace TokenKind

theorem undoes_toWire : Undoes ofWire? toWire :=
  Value.undoes_named (fun kind => by cases kind <;> decide)
    fun a b => by cases a <;> cases b <;> decide

end TokenKind

namespace ParamKind

theorem undoes_toWire : Undoes ofWire? toWire :=
  Value.undoes_named (fun kind => by cases kind <;> decide)
    fun a b => by cases a <;> cases b <;> decide

end ParamKind

namespace Folder

theorem undoes_toWire : Undoes ofWire? toWire :=
  Value.undoes_named (fun folder => by cases folder <;> decide)
    fun a b => by cases a <;> cases b <;> decide

end Folder

namespace Part

theorem undoes_toWire : Undoes ofWire? toWire := by
  intro part
  cases part with
  | static value => rfl
  | param name kind => cases kind <;> rfl

end Part

namespace Token

theorem undoes_toWire : Undoes ofWire? toWire := by
  intro token
  have hkind : token.toWire.required "kind" TokenKind.ofWire? = some token.kind :=
    TokenKind.undoes_toWire token.kind
  have hsource : token.toWire.required "orig" Value.text? = some token.source := rfl
  have hpattern : token.toWire.required "pattern" Value.text? = some token.pattern := rfl
  have hparts : token.toWire.required "parts" (Value.list? Part.ofWire?) = some token.parts :=
    Part.undoes_toWire.list token.parts
  rw [ofWire?, hkind, hsource, hpattern, hparts]
  rfl

end Token

namespace FilePath

/-- The path is the encoding of a text. -/
def IsText (path : FilePath) : Prop :=
  ∃ t, ofText t = path

theorem decode?_eq_some_iff {path : FilePath} {t : Text} :
    Utf8.decode? path.bytes = some t ↔ ofText t = path := by
  obtain ⟨bytes⟩ := path
  rw [Utf8.decode?_eq_some_iff, ofText, FilePath.mk.injEq]

end FilePath

namespace RouteFile

variable {entry : RouteFile} {file? : Option RouteFile} {key : String} {value field : Value}

/-- What the file is written as, its path being a text. -/
def wireOf (entry : RouteFile) (fullPath : Text) : Value :=
  .record ([("name", .text entry.name), ("folder", entry.folder.toWire),
    ("file", .text entry.file), ("fileFullpath", .text fullPath),
    ("pathTokens", .list (entry.tokens.map Token.toWire))]
    ++ Value.optionalField "pathPattern" Value.text entry.pattern?)

theorem toWire?_eq_some_iff :
    entry.toWire? = some value ↔
      ∃ t, FilePath.ofText t = entry.fullPath ∧ entry.wireOf t = value := by
  rw [toWire?, Option.map_eq_some_iff]
  simp only [FilePath.decode?_eq_some_iff]
  exact Iff.rfl

theorem ofWire?_wireOf (entry : RouteFile) (t : Text) :
    ofWire? (entry.wireOf t) = some { entry with fullPath := .ofText t } := by
  have hname : (entry.wireOf t).required "name" Value.text? = some entry.name := rfl
  have hfolder : (entry.wireOf t).required "folder" Folder.ofWire? = some entry.folder :=
    Folder.undoes_toWire entry.folder
  have hfile : (entry.wireOf t).required "file" Value.text? = some entry.file := rfl
  have hpath : (entry.wireOf t).required "fileFullpath" Value.text? = some t := rfl
  have htokens : (entry.wireOf t).required "pathTokens" (Value.list? Token.ofWire?) =
      some entry.tokens := Token.undoes_toWire.list entry.tokens
  have hpattern : (entry.wireOf t).optional "pathPattern" Value.text? = some entry.pattern? := by
    refine Value.undoes_text.optional (fun t => nofun) ?_
    rw [wireOf]
    cases entry.pattern? <;> rfl
  rw [ofWire?, hname, hfolder, hfile, hpath, htokens, hpattern]
  rfl

theorem ofWire?_of_toWire? (h : entry.toWire? = some value) : ofWire? value = some entry := by
  obtain ⟨t, hpath, rfl⟩ := toWire?_eq_some_iff.1 h
  rw [ofWire?_wireOf, hpath]

theorem exists_optionalWire?_iff : (∃ field, optionalWire? file? = some field) ↔
    ∀ entry ∈ file?, entry.fullPath.IsText := by
  cases file? with
  | none => simp [optionalWire?]
  | some entry =>
    simp only [optionalWire?, toWire?_eq_some_iff, FilePath.IsText, Option.mem_some_iff,
      forall_eq']
    exact ⟨fun ⟨_, t, ht, _⟩ => ⟨t, ht⟩, fun ⟨t, ht⟩ => ⟨_, t, ht, rfl⟩⟩

theorem optional_of_optionalWire? (h : optionalWire? file? = some field)
    (hfield : value.field? key = some field) : value.optional key ofWire? = some file? := by
  cases file? with
  | none =>
    rw [optionalWire?, Option.some.injEq] at h
    rw [Value.optional, hfield, ← h]
  | some entry =>
    obtain ⟨t, hpath, rfl⟩ := toWire?_eq_some_iff.1 h
    rw [Value.optional_of_field? hfield nofun, ofWire?_wireOf, hpath, Option.map_some]

end RouteFile

namespace Page

variable {page : Page} {pages : List Page} {value : Value} {values : List Value}

/-- What the page is written as, with the wire forms of its files and children. -/
def wireOf (page : Page) (index layout : Value) (children : List Value) : Value :=
  .record [("name", .text page.name), ("index", index), ("layout", layout),
    ("pathTokens", .list (page.tokens.map Token.toWire)),
    ("parent", .ofOption .text page.parent), ("children", .list children)]

theorem toWire?_eq_some_iff : toWire? page = some value ↔
    ∃ index layout children, RouteFile.optionalWire? page.index = some index ∧
      RouteFile.optionalWire? page.layout = some layout ∧
      allToWire? page.children = some children ∧ page.wireOf index layout children = value := by
  obtain ⟨name, index, layout, tokens, parent, children⟩ := page
  simp [toWire?, wireOf, Option.bind_eq_some_iff]

theorem allToWire?_cons_eq_some_iff : allToWire? (page :: pages) = some values ↔
    ∃ value rest, toWire? page = some value ∧ allToWire? pages = some rest ∧
      value :: rest = values := by
  simp [allToWire?, Option.bind_eq_some_iff]

theorem ofWire?_eq (value : Value) : ofWire? value = do
    let name ← value.required "name" Value.text?
    let index ← value.optional "index" RouteFile.ofWire?
    let layout ← value.optional "layout" RouteFile.ofWire?
    let tokens ← value.required "pathTokens" (Value.list? Token.ofWire?)
    let parent ← value.optional "parent" Value.text?
    let children ← value.required "children" (Value.list? ofWire?)
    return { name, index, layout, tokens, parent, children } := by
  have hitems : ∀ items : List Value,
      (items.attach.mapM fun item => ofWire? item.1) = items.mapM ofWire? := by
    intro items
    conv_rhs => rw [← List.attach_map_subtype_val items, List.mapM_map]
    rfl
  have hchildren : value.required "children" (Value.list? ofWire?) =
      (value.required "children" Value.items?).bind fun items => items.mapM ofWire? := by
    rw [Value.required, Value.required, Option.bind_assoc]
    rfl
  rw [ofWire?, hchildren]
  simp only [hitems]
  generalize value.required "children" Value.items? = items?
  cases items? <;> rfl

/-- Every path of a file in the tree is a text. -/
def PathsAreTexts (page : Page) : Prop :=
  ∀ other ∈ descendants page, ∀ entry ∈ other.index.toList ++ other.layout.toList,
    entry.fullPath.IsText

theorem mapM_ofWire?_of_allToWire? (h : allToWire? pages = some values)
    (hpages : ∀ page ∈ pages, ∀ value, toWire? page = some value → ofWire? value = some page) :
    values.mapM ofWire? = some pages := by
  induction pages generalizing values with
  | nil =>
    obtain rfl : values = [] := by simpa [allToWire?, eq_comm] using h
    rfl
  | cons page pages ih =>
    obtain ⟨value, rest, hpage, hrest, rfl⟩ := allToWire?_cons_eq_some_iff.1 h
    rw [List.mapM_cons, hpages page List.mem_cons_self value hpage,
      ih hrest fun other hother => hpages other (List.mem_cons_of_mem page hother)]
    rfl

theorem ofWire?_wireOf {index layout : Value} {children : List Value}
    (hindex : RouteFile.optionalWire? page.index = some index)
    (hlayout : RouteFile.optionalWire? page.layout = some layout)
    (hchildren : children.mapM ofWire? = some page.children) :
    ofWire? (page.wireOf index layout children) = some page := by
  have hname : (page.wireOf index layout children).required "name" Value.text? =
      some page.name := rfl
  have hindex : (page.wireOf index layout children).optional "index" RouteFile.ofWire? =
      some page.index := RouteFile.optional_of_optionalWire? hindex rfl
  have hlayout : (page.wireOf index layout children).optional "layout" RouteFile.ofWire? =
      some page.layout := RouteFile.optional_of_optionalWire? hlayout rfl
  have htokens : (page.wireOf index layout children).required "pathTokens"
      (Value.list? Token.ofWire?) = some page.tokens := Token.undoes_toWire.list page.tokens
  have hparent : (page.wireOf index layout children).optional "parent" Value.text? =
      some page.parent := Value.undoes_text.nullable (fun t => nofun) rfl
  have hchildren : (page.wireOf index layout children).required "children"
      (Value.list? ofWire?) = some page.children := hchildren
  rw [ofWire?_eq, hname, hindex, hlayout, htokens, hparent, hchildren]
  obtain ⟨name, index, layout, tokens, parent, children⟩ := page
  rfl

/-- A page that is written is read back, by induction on the tree. -/
theorem ofWire?_of_toWire? (h : toWire? page = some value) : ofWire? value = some page := by
  induction page using induction generalizing value with
  | step page ih =>
    obtain ⟨index, layout, children, hindex, hlayout, hchildren, rfl⟩ := toWire?_eq_some_iff.1 h
    exact ofWire?_wireOf hindex hlayout
      (mapM_ofWire?_of_allToWire? hchildren fun child hchild value hvalue => ih child hchild hvalue)

theorem exists_allToWire?_iff :
    (∃ values, allToWire? pages = some values) ↔
      ∀ page ∈ pages, ∃ value, toWire? page = some value := by
  induction pages with
  | nil => simp [allToWire?]
  | cons page pages ih =>
    simp only [allToWire?_cons_eq_some_iff, List.forall_mem_cons, ← ih]
    exact ⟨fun ⟨_, value, rest, hpage, hrest, _⟩ => ⟨⟨value, hpage⟩, rest, hrest⟩,
      fun ⟨⟨value, hpage⟩, rest, hrest⟩ => ⟨_, value, rest, hpage, hrest, rfl⟩⟩

theorem pathsAreTexts_iff : PathsAreTexts page ↔
    (∀ entry ∈ page.index, entry.fullPath.IsText) ∧
      (∀ entry ∈ page.layout, entry.fullPath.IsText) ∧
      ∀ child ∈ page.children, PathsAreTexts child := by
  constructor
  · intro h
    have hown := h page (mem_descendants.2 (Or.inl rfl))
    exact ⟨fun entry hentry => hown entry (List.mem_append_left _ (Option.mem_toList.2 hentry)),
      fun entry hentry => hown entry (List.mem_append_right _ (Option.mem_toList.2 hentry)),
      fun child hchild other hother => h other (mem_descendants.2 (Or.inr ⟨child, hchild, hother⟩))⟩
  · rintro ⟨hindex, hlayout, hchildren⟩ other hother entry hentry
    rcases mem_descendants.1 hother with rfl | ⟨child, hchild, hother⟩
    · rcases List.mem_append.1 hentry with hentry | hentry
      · exact hindex entry (Option.mem_toList.1 hentry)
      · exact hlayout entry (Option.mem_toList.1 hentry)
    · exact hchildren child hchild other hother entry hentry

/-- A page is written exactly if the paths of all its files are texts. -/
theorem exists_toWire?_iff : (∃ value, toWire? page = some value) ↔ PathsAreTexts page := by
  induction page using induction with
  | step page ih =>
    have hparts : (∃ value, toWire? page = some value) ↔
        (∃ index, RouteFile.optionalWire? page.index = some index) ∧
          (∃ layout, RouteFile.optionalWire? page.layout = some layout) ∧
          ∃ children, allToWire? page.children = some children := by
      simp only [toWire?_eq_some_iff]
      exact ⟨fun ⟨_, index, layout, children, hindex, hlayout, hchildren, _⟩ =>
          ⟨⟨index, hindex⟩, ⟨layout, hlayout⟩, children, hchildren⟩,
        fun ⟨⟨index, hindex⟩, ⟨layout, hlayout⟩, children, hchildren⟩ =>
          ⟨_, index, layout, children, hindex, hlayout, hchildren, rfl⟩⟩
    rw [hparts, RouteFile.exists_optionalWire?_iff, RouteFile.exists_optionalWire?_iff,
      exists_allToWire?_iff, pathsAreTexts_iff]
    exact and_congr_right fun _ => and_congr_right fun _ => forall₂_congr ih

/-- A page whose paths are texts is read back from its wire form, and written as the same again; a
page with any other path has no wire form. -/
theorem wire_roundTrip (page : Page) :
    (PathsAreTexts page → ∃ value, toWire? page = some value ∧ ofWire? value = some page ∧
      (ofWire? value).bind toWire? = some value) ∧
    (¬ PathsAreTexts page → toWire? page = none) := by
  constructor
  · intro h
    obtain ⟨value, hvalue⟩ := exists_toWire?_iff.2 h
    have hread := ofWire?_of_toWire? hvalue
    exact ⟨value, hvalue, hread, by rw [hread, Option.bind_some, hvalue]⟩
  · intro h
    rw [← exists_toWire?_iff, ← Option.isSome_iff_exists] at h
    simpa using h

/-- A page with an index and no layout over one with a layout and no index. The pattern of the index
is empty, and the layout has none. -/
def manual : Page where
  name := "manual".toList
  index := some
    { name := "manual".toList, folder := .pages, file := "index.rsx".toList
      fullPath := .ofText "pages/mañual/index.rsx".toList, tokens := [], pattern? := some [] }
  layout := none
  tokens := [⟨.mixed, "v[[n]]".toList, "/v{:n}".toList, [.static ['v'], .param ['n'] .optional]⟩]
  parent := none
  children := [
    { name := "manual/api".toList, index := none
      layout := some
        { name := "manual/api".toList, folder := .api, file := "layout.rsx".toList
          fullPath := .ofText [], tokens := [], pattern? := none }
      tokens := [], parent := some "manual".toList, children := [] }]

/-- The same with a path for the index that no text is encoded as. -/
def torn : Page :=
  { manual with index := manual.index.map fun entry => { entry with fullPath := ⟨[0xFF]⟩ } }

theorem wire_roundTrip_manual :
    (PathsAreTexts manual ∧ ∃ value, toWire? manual = some value ∧ ofWire? value = some manual ∧
      (ofWire? value).bind toWire? = some value) ∧
    ¬ PathsAreTexts torn ∧ toWire? torn = none := by
  have htexts : PathsAreTexts manual := by
    refine pathsAreTexts_iff.2 ⟨?_, nofun, fun child hchild => ?_⟩
    · rintro entry ⟨⟩
      exact ⟨_, rfl⟩
    · obtain rfl := List.mem_singleton.1 hchild
      refine pathsAreTexts_iff.2 ⟨nofun, ?_, nofun⟩
      rintro entry ⟨⟩
      exact ⟨_, rfl⟩
  have htorn : ¬ PathsAreTexts torn := by
    intro h
    obtain ⟨t, ht⟩ := (pathsAreTexts_iff.1 h).1 _ rfl
    have hread := FilePath.decode?_eq_some_iff.2 ht
    have hbroken : Utf8.decode? [0xFF] = none := by decide
    exact absurd (hbroken.symm.trans hread) nofun
  exact ⟨⟨htexts, (wire_roundTrip manual).1 htexts⟩, htorn, (wire_roundTrip torn).2 htorn⟩

end Page

end FileRoutes
