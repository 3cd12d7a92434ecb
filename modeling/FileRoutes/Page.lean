import FileRoutes.RouteFile
import FileRoutes.RouteName

/-! Pages nest by name. The index and layout files of one name make a page, and a page hangs below
the nearest name above it that has one; directories without such files are passed over. A page
keeps the tokens that its parent has not used. -/

namespace FileRoutes

structure Page where
  name : Text
  index : Option RouteFile
  layout : Option RouteFile
  tokens : List Token
  parent : Option Text
  children : List Page
deriving Repr

namespace Page

def relativePattern (page : Page) : Text :=
  Token.joinPatterns page.tokens

def specificity (page : Page) : Specificity :=
  .ofTokens page.name page.tokens

mutual

/-- The page and all below it, each before what is below it. -/
def descendants : Page → List Page
  | ⟨name, index, layout, tokens, parent, children⟩ =>
    ⟨name, index, layout, tokens, parent, children⟩ :: allDescendants children

def allDescendants : List Page → List Page
  | [] => []
  | page :: rest => descendants page ++ allDescendants rest

end

mutual

/-- The page of that name at or below this one. -/
def find? (target : Text) : Page → Option Page
  | ⟨name, index, layout, tokens, parent, children⟩ =>
    if name = target then some ⟨name, index, layout, tokens, parent, children⟩
    else findAmong? target children

def findAmong? (target : Text) : List Page → Option Page
  | [] => none
  | page :: rest => (find? target page).or (findAmong? target rest)

end

end Page

namespace Forest

/-- The files that make pages, the most specific first. -/
def routable (settings : PageSettings) (entries : List RouteFile) : List RouteFile :=
  (RouteFile.sorted entries).filter fun entry => entry.role settings != .other

def names (entries : List RouteFile) : List Text :=
  (entries.map (·.name)).eraseDups

/-- Names that have no other one above them. -/
def rootNames (files : List RouteFile) : List Text :=
  names (files.filter fun entry =>
    !(RouteName.ancestors entry.name).any fun ancestor => files.any (·.name == ancestor))

def below (files : List RouteFile) (parent : Text) : List RouteFile :=
  files.filter fun entry => RouteName.isBelow parent entry.name

/-- Names below `parent` with no other one in between. -/
def childNames (files : List RouteFile) (parent : Text) : List Text :=
  names ((below files parent).filter fun entry =>
    !(below files parent).any fun between => RouteName.isBelow between.name entry.name)

def filesOf (settings : PageSettings) (files : List RouteFile) (name : Text) (role : Role) :
    List RouteFile :=
  files.filter fun entry => entry.name == name && entry.role settings == role

theorem mem_names {entries : List RouteFile} {name : Text} :
    name ∈ names entries ↔ ∃ entry ∈ entries, entry.name = name := by
  simp [names, List.mem_eraseDups]

theorem mem_below {files : List RouteFile} {parent : Text} {entry : RouteFile} :
    entry ∈ below files parent ↔ entry ∈ files ∧ RouteName.isBelow parent entry.name = true := by
  simp [below]

/-- Fewer files lie below a child than below its parent. -/
theorem length_below_lt {files : List RouteFile} {parent child : Text}
    (h : child ∈ childNames files parent) :
    (below files child).length < (below files parent).length := by
  obtain ⟨entry, hentry, rfl⟩ := mem_names.1 h
  have hbelow := mem_below.1 (List.mem_filter.1 hentry).1
  have hsplit : below files entry.name =
      (below files parent).filter fun e => RouteName.isBelow entry.name e.name := by
    simp only [below, List.filter_filter]
    refine List.filter_congr fun e _ => ?_
    cases he : RouteName.isBelow entry.name e.name with
    | false => rfl
    | true => simp [RouteName.isBelow_trans hbelow.2 he]
  rw [hsplit]
  refine List.length_filter_lt_length_iff_exists.2 ⟨entry, mem_below.2 hbelow, ?_⟩
  simp [RouteName.isBelow_irrefl]

/-- The page of a name with all pages below it; `used` tokens belong to its parent. -/
def page (settings : PageSettings) (files : List RouteFile) (parent : Option Text) (used : Nat)
    (name : Text) : Option Page :=
  let index := (filesOf settings files name .index).head?
  let layout := (filesOf settings files name .layout).head?
  (index.or layout).map fun entry =>
    { name, index, layout, parent
      tokens := entry.tokens.drop used
      children := (childNames files name).attach.filterMap fun child =>
        page settings files (some name) entry.tokens.length child.1 }
termination_by (below files name).length
decreasing_by exact length_below_lt child.2

/-- The pages that the route files make, as trees. -/
def build (settings : PageSettings) (entries : List RouteFile) : List Page :=
  let files := routable settings entries
  (rootNames files).filterMap (page settings files none 0)

/-- Pairs of a kept file and one passed over for it, for the index of a page and then its layout. -/
def duplicates (settings : PageSettings) (files : List RouteFile) (name : Text) :
    List (Role × RouteFile × RouteFile) :=
  [Role.index, Role.layout].flatMap fun role =>
    match filesOf settings files name role with
    | [] => []
    | kept :: others => others.map fun ignored => (role, kept, ignored)

end Forest

end FileRoutes
