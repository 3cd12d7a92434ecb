import FileRoutes.Proofs.Nesting

/-! How deep pages nest. A child has the name of its parent, a separator and more, whatever the names
look like, so each step down a forest costs a separator and no line of pages is longer than the
separators of a name allow. For the same reason the recursion that makes the pages ends on its own:
cut off at that depth, it has made them all. -/

namespace FileRoutes

theorem mapM_eq_some_map {α β : Type} {f : α → Option β} {g : α → β} {xs : List α}
    (h : ∀ x ∈ xs, f x = some (g x)) : xs.mapM f = some (xs.map g) := by
  induction xs with
  | nil => rfl
  | cons x xs ih =>
    rw [List.mapM_cons, h x List.mem_cons_self, ih fun y hy => h y (List.mem_cons_of_mem x hy)]
    rfl

namespace RouteName

def slashes (name : Text) : Nat :=
  name.count '/'

theorem slashes_lt_of_isBelow {above name : Text} (h : isBelow above name = true) :
    slashes above < slashes name := by
  obtain ⟨rest, rfl⟩ := isBelow_iff.1 h
  rw [slashes, slashes, List.count_append, List.count_cons_self]
  omega

end RouteName

namespace Page

mutual

/-- The pages on the longest line from this one down. -/
def depth : Page → Nat
  | ⟨_, _, _, _, _, children⟩ => depthOfAll children + 1

def depthOfAll : List Page → Nat
  | [] => 0
  | page :: rest => max (depth page) (depthOfAll rest)

end

theorem depth_eq (page : Page) : depth page = depthOfAll page.children + 1 := by
  obtain ⟨name, index, layout, tokens, parent, children⟩ := page
  rw [depth]

theorem depthOfAll_le_iff {pages : List Page} {n : Nat} :
    depthOfAll pages ≤ n ↔ ∀ page ∈ pages, depth page ≤ n := by
  induction pages with
  | nil => simp [depthOfAll]
  | cons page rest ih => simp [depthOfAll, ih]

/-- A quantity that grows from a page to its children bounds how deep they go. -/
theorem depth_add_le {bound : Nat} (rank : Page → Nat) (page : Page)
    (hgrows : ∀ above ∈ descendants page, ∀ child ∈ above.children, rank above < rank child)
    (hbound : ∀ other ∈ descendants page, rank other ≤ bound) :
    depth page + rank page ≤ bound + 1 := by
  induction page using induction with
  | step page ih =>
    have hself : page ∈ descendants page := mem_descendants.2 (Or.inl rfl)
    have hchild : ∀ child ∈ page.children, depth child ≤ bound - rank page := by
      intro child hchild
      have hbelow : ∀ other ∈ descendants child, other ∈ descendants page :=
        fun other hother => mem_descendants.2 (Or.inr ⟨child, hchild, hother⟩)
      have hdepth := ih child hchild (fun above habove => hgrows above (hbelow above habove))
        fun other hother => hbound other (hbelow other hother)
      have hstep := hgrows page hself child hchild
      omega
    have hdepth := depthOfAll_le_iff.2 hchild
    have hrank := hbound page hself
    rw [depth_eq]
    omega

end Page

namespace Forest

open RouteName (isBelow slashes)

variable {settings : PageSettings} {files : List RouteFile} {parent : Option Text} {used : Nat}
  {name : Text} {page : Page}

/-- The most separators in a name of the files. -/
def mostSlashes (files : List RouteFile) : Nat :=
  (files.map fun entry => slashes entry.name).foldr max 0

theorem slashes_le_mostSlashes {entry : RouteFile} (h : entry ∈ files) :
    slashes entry.name ≤ mostSlashes files := by
  unfold mostSlashes
  induction files with
  | nil => simp at h
  | cons first rest ih =>
    rw [List.map_cons, List.foldr_cons]
    rcases List.mem_cons.1 h with rfl | hrest
    · exact Nat.le_max_left _ _
    · exact (ih hrest).trans (Nat.le_max_right _ _)

/-- The page of a name by recursion that is given up where more than `levels` pages would lie in
line. -/
def pageWithin (settings : PageSettings) (files : List RouteFile) :
    Nat → Option Text → Nat → Text → Option (Option Page)
  | 0, _, _, _ => none
  | levels + 1, parent, used, name =>
    let index := (filesOf settings files name .index).head?
    let layout := (filesOf settings files name .layout).head?
    match index.or layout with
    | none => some none
    | some entry => do
      let children ← (childNames files name).mapM
        (pageWithin settings files levels (some name) entry.tokens.length)
      return some { name, index, layout, parent, tokens := entry.tokens.drop used
                    children := children.filterMap id }

/-- The forest by recursion that is given up below `levels` pages. -/
def buildWithin (levels : Nat) (settings : PageSettings) (entries : List RouteFile) :
    Option (List Page) :=
  let files := routable settings entries
  ((rootNames files).mapM (pageWithin settings files levels none 0)).map (List.filterMap id)

theorem below_of_mem_childNames {child : Text} (h : child ∈ childNames files name) :
    child ∈ names files ∧ isBelow name child = true :=
  mem_names_below.1 (mem_childNames.1 h).1

/-- As many levels are enough as there can be separators in names below. -/
theorem pageWithin_eq {bound levels : Nat} (hbound : ∀ name ∈ names files, slashes name ≤ bound)
    (hname : name ∈ names files) (henough : bound < slashes name + levels) :
    pageWithin settings files levels parent used name =
      some (Forest.page settings files parent used name) := by
  induction levels generalizing name parent used with
  | zero =>
    have hle := hbound name hname
    omega
  | succ levels ih =>
    rw [pageWithin, page_eq, source?]
    cases (filesOf settings files name .index).head?.or
        (filesOf settings files name .layout).head? with
    | none => rfl
    | some entry =>
      have hchild : ∀ child ∈ childNames files name,
          pageWithin settings files levels (some name) entry.tokens.length child =
            some (Forest.page settings files (some name) entry.tokens.length child) := by
        intro child hchild
        have hbelow := below_of_mem_childNames hchild
        -- a separator more in the name makes up for a level less
        have hmore := RouteName.slashes_lt_of_isBelow hbelow.2
        exact ih hbelow.1 (by omega)
      simp only [mapM_eq_some_map hchild, Option.map_some, pageFrom]
      simp [List.filterMap_map]

/-- A page made for a name of the files. -/
structure Made (settings : PageSettings) (files : List RouteFile) (page : Page) : Prop where
  known : page.name ∈ names files
  made : ∃ parent used, Forest.page settings files parent used page.name = some page

theorem made_of_page (hname : name ∈ names files)
    (h : Forest.page settings files parent used name = some page) :
    page.name = name ∧ Made settings files page := by
  obtain ⟨entry, -, rfl⟩ := page_eq_some_iff.1 h
  exact ⟨rfl, hname, parent, used, h⟩

theorem Made.child (h : Made settings files page) {child : Page} (hchild : child ∈ page.children) :
    isBelow page.name child.name = true ∧ Made settings files child := by
  obtain ⟨parent, used, hmade⟩ := h.made
  obtain ⟨entry, -, hpage⟩ := page_eq_some_iff.1 hmade
  rw [← hpage] at hchild
  obtain ⟨name, hlevel, hmade⟩ := List.mem_filterMap.1 hchild
  have hbelow := below_of_mem_childNames hlevel
  obtain ⟨hname, hmade⟩ := made_of_page hbelow.1 hmade
  rw [hname]
  exact ⟨hbelow.2, hmade⟩

theorem forall_made : ∀ page ∈ Page.allDescendants
    ((rootNames files).filterMap (Forest.page settings files none 0)),
    Made settings files page := by
  refine Page.forall_mem_allDescendants (fun root hroot => ?_)
    fun page hpage child hchild => (hpage.child hchild).2
  obtain ⟨name, hname, hmade⟩ := List.mem_filterMap.1 hroot
  exact (made_of_page (mem_rootNames_iff.1 hname).1 hmade).2

theorem slashes_le_of_mem_names {entries : List RouteFile}
    (h : name ∈ names (routable settings entries)) : slashes name ≤ mostSlashes entries := by
  obtain ⟨entry, hentry, -, rfl⟩ := mem_names_routable.1 h
  exact slashes_le_mostSlashes hentry

theorem buildWithin_eq {entries : List RouteFile} {levels : Nat}
    (h : mostSlashes entries < levels) :
    buildWithin levels settings entries = some (build settings entries) := by
  have hroot : ∀ root ∈ rootNames (routable settings entries),
      pageWithin settings (routable settings entries) levels none 0 root =
        some (Forest.page settings (routable settings entries) none 0 root) := fun root hroot =>
    pageWithin_eq (fun name => slashes_le_of_mem_names) (mem_rootNames_iff.1 hroot).1 (by omega)
  simp only [buildWithin, build, mapM_eq_some_map hroot, Option.map_some, List.filterMap_map]
  rfl

theorem depth_le {entries : List RouteFile} :
    Page.depthOfAll (build settings entries) ≤ mostSlashes entries + 1 := by
  have hmade := @forall_made settings (routable settings entries)
  refine Page.depthOfAll_le_iff.2 fun root hroot => ?_
  have hlisted : ∀ page ∈ Page.descendants root, Made settings (routable settings entries) page :=
    fun page hpage => hmade page (Page.mem_allDescendants.2 ⟨root, hroot, hpage⟩)
  have hdepth : Page.depth root + slashes root.name ≤ mostSlashes entries + 1 :=
    Page.depth_add_le (fun page => slashes page.name) root
      (fun above habove child hchild =>
        RouteName.slashes_lt_of_isBelow ((hlisted above habove).child hchild).1)
      fun page hpage => slashes_le_of_mem_names (hlisted page hpage).known
  omega

/-- Whatever the names and tokens of the route files: recursion that is allowed one level more than
the most separators in a name makes the whole forest, the name of a child goes on from that of its
parent behind a separator, and the forest has no more levels than that. -/
theorem build_bounded (settings : PageSettings) (entries : List RouteFile) :
    (∀ extra, buildWithin (1 + mostSlashes entries + extra) settings entries =
      some (build settings entries)) ∧
    (∀ page ∈ Page.allDescendants (build settings entries), ∀ child ∈ page.children,
      ∃ rest, child.name = page.name ++ '/' :: rest) ∧
    Page.depthOfAll (build settings entries) ≤ 1 + mostSlashes entries := by
  refine ⟨fun extra => buildWithin_eq (by omega), fun page hpage child hchild => ?_, ?_⟩
  · exact RouteName.isBelow_iff.1 ((forall_made page hpage).child hchild).1
  · rw [Nat.add_comm]
    exact depth_le

/-- Index files with names of separators only, and without tokens. -/
def bare : List RouteFile :=
  ["", "/", "//"].map fun name =>
    { name := name.toList, folder := .pages, file := "index.rsx".toList, fullPath := .ofText []
      tokens := [], pattern? := none }

/-- All three are roots and hang below each other as well, as deep as the bound allows. -/
theorem build_bare_bounded :
    buildWithin 2 {} bare = none ∧ buildWithin 3 {} bare = some (build {} bare) ∧
      (∀ page ∈ Page.allDescendants (build {} bare), ∀ child ∈ page.children,
        ∃ rest, child.name = page.name ++ '/' :: rest) ∧
      Page.depthOfAll (build {} bare) = 3 ∧
      (Page.allDescendants (build {} bare)).map Page.name =
        ["", "/", "//", "/", "//", "//"].map String.toList := by
  obtain ⟨hends, hlonger, -⟩ := build_bounded {} bare
  have hmost : mostSlashes bare = 2 := by cbv
  rw [hmost] at hends
  exact ⟨by cbv, hends 0, hlonger, by cbv, by cbv⟩

end Forest

end FileRoutes
