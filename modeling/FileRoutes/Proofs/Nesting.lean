import FileRoutes.Proofs.NameOrder
import FileRoutes.Proofs.PageTree
import Mathlib

/-! How pages nest. The names of each level are the top ones of a class: the roots those of all
names, the children of a page those of the names below it. A level therefore covers its class, and
each name once, by induction on the number of files below a page. -/

namespace FileRoutes.Forest

open RouteName (isBelow AtOrBelow Topmost IsProper IsPathPrefix IsNearestAbove)

theorem nodup_eraseDups (names : List Text) : names.eraseDups.Nodup := by
  induction hlength : names.length using Nat.strongRecOn generalizing names with
  | ind n ih =>
    rcases names with - | ⟨name, rest⟩
    · simp
    · rw [List.eraseDups_cons, List.nodup_cons, List.mem_eraseDups]
      have hshorter := List.length_filter_le (fun other => !other == name) rest
      rw [List.length_cons] at hlength
      exact ⟨by simp, ih _ (by omega) _ rfl⟩

theorem names_nodup (files : List RouteFile) : (names files).Nodup :=
  nodup_eraseDups _

variable {settings : PageSettings} {files : List RouteFile} {parent : Option Text} {used : Nat}
  {name : Text} {page : Page}

theorem mem_names_filter (keep : Text → Bool) :
    name ∈ names (files.filter fun entry => keep entry.name) ↔
      name ∈ names files ∧ keep name = true := by
  simp only [mem_names, List.mem_filter]
  constructor
  · rintro ⟨entry, ⟨hentry, hkeep⟩, rfl⟩
    exact ⟨⟨entry, hentry, rfl⟩, hkeep⟩
  · rintro ⟨⟨entry, hentry, rfl⟩, hkeep⟩
    exact ⟨entry, ⟨hentry, hkeep⟩, rfl⟩

theorem mem_names_below {above : Text} :
    name ∈ names (below files above) ↔ name ∈ names files ∧ isBelow above name = true :=
  mem_names_filter _

/-- Children are the top ones of the names below their parent. -/
theorem mem_childNames {above : Text} :
    name ∈ childNames files above ↔ Topmost (· ∈ names (below files above)) name := by
  rw [childNames, mem_names_filter fun name =>
    !(below files above).any fun between => isBelow between.name name, Topmost]
  apply and_congr_right
  intro _
  simp only [Bool.not_eq_true', List.any_eq_false, mem_names, forall_exists_index, and_imp,
    forall_apply_eq_imp_iff₂]

/-- Roots are the names that lie below none without the separators at their ends. -/
theorem mem_rootNames_iff : name ∈ rootNames files ↔
    name ∈ names files ∧ ∀ above ∈ names files, ¬ isBelow above (Text.trimSlashes name) = true := by
  rw [rootNames, mem_names_filter fun name =>
    !(RouteName.ancestors name).any fun ancestor => files.any (·.name == ancestor)]
  apply and_congr_right
  intro _
  simp only [Bool.not_eq_true', List.any_eq_false, List.any_eq_true, beq_iff_eq, ← mem_names,
    RouteName.mem_ancestors]
  exact ⟨fun h above hnamed hbelow => h above hbelow hnamed,
    fun h above hbelow hnamed => h above hnamed hbelow⟩

/-- Roots are the top ones of all names. -/
theorem mem_rootNames (h : ∀ name ∈ names files, IsProper name) :
    name ∈ rootNames files ↔ Topmost (· ∈ names files) name := by
  rw [mem_rootNames_iff, Topmost]
  apply and_congr_right
  intro hname
  rw [RouteName.trimSlashes_of_isProper (h name hname)]

/-- The file whose tokens a page takes: its index, or its layout if it has none. -/
def source? (settings : PageSettings) (files : List RouteFile) (name : Text) : Option RouteFile :=
  (filesOf settings files name .index).head?.or (filesOf settings files name .layout).head?

/-- The page of a name whose tokens are those of `entry`. -/
def pageFrom (settings : PageSettings) (files : List RouteFile) (parent : Option Text) (used : Nat)
    (name : Text) (entry : RouteFile) : Page where
  name
  index := (filesOf settings files name .index).head?
  layout := (filesOf settings files name .layout).head?
  tokens := entry.tokens.drop used
  parent
  children := (childNames files name).filterMap
    (Forest.page settings files (some name) entry.tokens.length)

theorem page_eq :
    Forest.page settings files parent used name =
      (source? settings files name).map (pageFrom settings files parent used name) := by
  have hchildren : ∀ entry : RouteFile, ((childNames files name).attach.filterMap fun child =>
      Forest.page settings files (some name) entry.tokens.length child.1) =
      (childNames files name).filterMap
        (Forest.page settings files (some name) entry.tokens.length) := by
    intro entry
    conv_rhs => rw [← List.attach_map_subtype_val (childNames files name), List.filterMap_map]
    rfl
  rw [Forest.page]
  simp only [hchildren]
  rfl

/-- A page and the file that it takes its tokens from. -/
theorem page_eq_some_iff :
    Forest.page settings files parent used name = some page ↔
      ∃ entry, source? settings files name = some entry ∧
        pageFrom settings files parent used name entry = page := by
  rw [page_eq, Option.map_eq_some_iff]

/-- There is a page of each name. -/
theorem exists_page (hroutable : ∀ entry ∈ files, entry.role settings ≠ .other)
    (hname : name ∈ names files) :
    ∃ page, Forest.page settings files parent used name = some page := by
  obtain ⟨entry, hentry, rfl⟩ := mem_names.1 hname
  have hmem : ∀ role, entry.role settings = role →
      entry ∈ filesOf settings files entry.name role := by
    intro role hrole
    simp [filesOf, hentry, hrole]
  rw [← Option.isSome_iff_exists, page_eq, Option.isSome_map, source?, Option.isSome_or,
    Bool.or_eq_true]
  cases hrole : entry.role settings with
  | index => exact Or.inl (List.isSome_head?.2 (List.ne_nil_of_mem (hmem _ hrole)))
  | layout => exact Or.inr (List.isSome_head?.2 (List.ne_nil_of_mem (hmem _ hrole)))
  | other => exact absurd hrole (hroutable entry hentry)

/-- The pages of a forest have the names at or below its tops, each once. -/
structure Covers (files : List RouteFile) (tops : List Text) (forest : List Page) : Prop where
  nodup : ((Page.allDescendants forest).map Page.name).Nodup
  mem : ∀ name, name ∈ (Page.allDescendants forest).map Page.name ↔
    name ∈ names files ∧ ∃ top ∈ tops, AtOrBelow top name

theorem covers_nil : Covers files [] [] :=
  ⟨by simp [Page.allDescendants], by simp [Page.allDescendants]⟩

theorem Covers.cons {top : Text} {tops : List Text} {forest : List Page}
    (hpage : Covers files [top] [page]) (hforest : Covers files tops forest)
    (hapart : ∀ other ∈ tops, ∀ name, AtOrBelow top name → ¬ AtOrBelow other name) :
    Covers files (top :: tops) (page :: forest) := by
  have hsplit : (Page.allDescendants (page :: forest)).map Page.name =
      (Page.allDescendants [page]).map Page.name ++
        (Page.allDescendants forest).map Page.name := by
    simp [Page.allDescendants]
  refine ⟨?_, fun name => ?_⟩
  · rw [hsplit, List.nodup_append]
    refine ⟨hpage.nodup, hforest.nodup, ?_⟩
    rintro a ha b hb rfl
    obtain ⟨-, _, htop, hreach⟩ := (hpage.mem a).1 ha
    obtain ⟨-, other, hother, hreach'⟩ := (hforest.mem a).1 hb
    obtain rfl := List.mem_singleton.1 htop
    exact hapart other hother a hreach hreach'
  · rw [hsplit, List.mem_append, hpage.mem, hforest.mem, ← and_or_left]
    simp

/-- A level covers what its pages cover, if these lie apart. -/
theorem covers_level {tops : List Text} (hnodup : tops.Nodup)
    (hpages : ∀ top ∈ tops, ∃ page, Forest.page settings files parent used top = some page ∧
      Covers files [top] [page])
    (hapart : ∀ a ∈ tops, ∀ b ∈ tops, ∀ name, AtOrBelow a name → AtOrBelow b name → a = b) :
    Covers files tops (tops.filterMap (Forest.page settings files parent used)) := by
  induction tops with
  | nil => exact covers_nil
  | cons top tops ih =>
    obtain ⟨hnew, hnodup⟩ := List.nodup_cons.1 hnodup
    obtain ⟨page, hpage, hcovers⟩ := hpages top (by simp)
    have hrest := ih hnodup (fun other hother => hpages other (by simp [hother]))
      fun a ha b hb => hapart a (by simp [ha]) b (by simp [hb])
    rw [List.filterMap_cons_some hpage]
    apply hcovers.cons hrest
    intro other hother name hreach hreach'
    obtain rfl := hapart top (by simp) other (by simp [hother]) name hreach hreach'
    exact hnew hother

theorem childNames_nodup (above : Text) : (childNames files above).Nodup :=
  names_nodup _

/-- The names below a page are at or below its children. -/
theorem below_iff_exists_child {above : Text} :
    (name ∈ names files ∧ isBelow above name = true) ↔
      name ∈ names files ∧ ∃ child ∈ childNames files above, AtOrBelow child name := by
  constructor
  · rintro ⟨hname, hbelow⟩
    obtain ⟨child, hchild, hreach⟩ := RouteName.exists_topmost (mem_names_below.2 ⟨hname, hbelow⟩)
    exact ⟨hname, child, mem_childNames.2 hchild, hreach⟩
  · rintro ⟨hname, child, hchild, hreach⟩
    have hbelow := (mem_names_below.1 (mem_childNames.1 hchild).1).2
    refine ⟨hname, ?_⟩
    rcases hreach with rfl | hreach
    · exact hbelow
    · exact RouteName.isBelow_trans hbelow hreach

/-- A page over children that cover the names below it. -/
theorem Covers.under (hpage : page.name = name) (hname : name ∈ names files)
    (h : Covers files (childNames files name) page.children) : Covers files [name] [page] := by
  subst hpage
  have hall : (Page.allDescendants [page]).map Page.name =
      page.name :: (Page.allDescendants page.children).map Page.name := by
    rw [Page.allDescendants_cons, Page.descendants_eq, Page.allDescendants, List.append_nil,
      List.map_cons]
  have hbelow : ∀ other, other ∈ (Page.allDescendants page.children).map Page.name ↔
      other ∈ names files ∧ isBelow page.name other = true := by
    intro other
    rw [h.mem, below_iff_exists_child]
  refine ⟨?_, fun other => ?_⟩
  · rw [hall, List.nodup_cons]
    refine ⟨fun hself => ?_, h.nodup⟩
    have hirrefl := ((hbelow page.name).1 hself).2
    rw [RouteName.isBelow_irrefl] at hirrefl
    exact absurd hirrefl (by simp)
  · rw [hall, List.mem_cons, hbelow]
    constructor
    · rintro (rfl | ⟨hother, hlies⟩)
      · exact ⟨hname, page.name, by simp, Or.inl rfl⟩
      · exact ⟨hother, page.name, by simp, Or.inr hlies⟩
    · rintro ⟨hother, top, htop, hreach⟩
      obtain rfl := List.mem_singleton.1 htop
      rcases hreach with hsame | hlies
      · exact Or.inl hsame
      · exact Or.inr ⟨hother, hlies⟩

theorem covers_page (hroutable : ∀ entry ∈ files, entry.role settings ≠ .other)
    (hname : name ∈ names files)
    (hpage : Forest.page settings files parent used name = some page) :
    Covers files [name] [page] := by
  induction hlength : (below files name).length using Nat.strongRecOn
    generalizing name parent used page with
  | ind n ih =>
    obtain ⟨entry, -, rfl⟩ := page_eq_some_iff.1 hpage
    have hchildren : Covers files (childNames files name)
        (pageFrom settings files parent used name entry).children := by
      refine covers_level (childNames_nodup name) (fun child hchild => ?_)
        fun a ha b hb _ => (mem_childNames.1 ha).unique (mem_childNames.1 hb)
      have hmem := (mem_names_below.1 (mem_childNames.1 hchild).1).1
      have hshorter := length_below_lt hchild
      obtain ⟨page, hmade⟩ := exists_page hroutable hmem
      exact ⟨page, hmade, ih _ (by omega) hmem hmade rfl⟩
    exact Covers.under rfl hname hchildren

/-- The roots cover all names. -/
theorem covers_roots (hproper : ∀ name ∈ names files, IsProper name)
    (hroutable : ∀ entry ∈ files, entry.role settings ≠ .other) :
    Covers files (rootNames files)
      ((rootNames files).filterMap (Forest.page settings files none 0)) := by
  refine covers_level (names_nodup _) (fun root hroot => ?_) fun a ha b hb _ =>
    ((mem_rootNames hproper).1 ha).unique ((mem_rootNames hproper).1 hb)
  have hmem := ((mem_rootNames hproper).1 hroot).1
  obtain ⟨page, hmade⟩ := exists_page hroutable hmem
  exact ⟨page, hmade, covers_page hroutable hmem hmade⟩

/-- A page as it stands in a forest: made for its name, below the nearest name above it. -/
structure Placed (settings : PageSettings) (files : List RouteFile) (page : Page) : Prop where
  known : page.name ∈ names files
  made : ∃ used, Forest.page settings files page.parent used page.name = some page
  nearest : IsNearestAbove (· ∈ names files) page.name page.parent

theorem placed_root (hproper : ∀ name ∈ names files, IsProper name)
    (hpage : page ∈ (rootNames files).filterMap (Forest.page settings files none 0)) :
    Placed settings files page ∧ page.parent = none := by
  obtain ⟨root, hroot, hmade⟩ := List.mem_filterMap.1 hpage
  obtain ⟨entry, -, rfl⟩ := page_eq_some_iff.1 hmade
  have htop := (mem_rootNames hproper).1 hroot
  refine ⟨⟨htop.1, ⟨0, hmade⟩, fun above habove hprefix => ?_⟩, rfl⟩
  exact htop.2 above habove (RouteName.isBelow_iff_isPathPrefix.2 hprefix)

theorem placed_child (h : Placed settings files page) {child : Page}
    (hchild : child ∈ page.children) :
    Placed settings files child ∧ child.parent = some page.name := by
  obtain ⟨used, hmade⟩ := h.made
  obtain ⟨entry, -, hpage⟩ := page_eq_some_iff.1 hmade
  rw [← hpage] at hchild
  obtain ⟨name, htop, hmade⟩ := List.mem_filterMap.1 hchild
  obtain ⟨source, -, rfl⟩ := page_eq_some_iff.1 hmade
  have hchildTop := mem_childNames.1 htop
  obtain ⟨hknown, hbelow⟩ := mem_names_below.1 hchildTop.1
  refine ⟨⟨hknown, ⟨_, hmade⟩, h.known, RouteName.isBelow_iff_isPathPrefix.1 hbelow,
    fun above habove hprefix => ?_⟩, rfl⟩
  have hreach := RouteName.isBelow_iff_isPathPrefix.2 hprefix
  rcases RouteName.isBelow_trichotomy hreach hbelow with rfl | hlies | hlies
  · exact Nat.le_refl _
  · exact Nat.le_of_lt (RouteName.length_lt_of_isBelow hlies)
  · -- a name in between would keep the child from its level
    exact absurd hreach (hchildTop.2 above (mem_names_below.2 ⟨habove, hlies⟩))

theorem Placed.filled (h : Placed settings files page) :
    page.index.isSome ∨ page.layout.isSome := by
  obtain ⟨used, hmade⟩ := h.made
  obtain ⟨entry, hsource, hpage⟩ := page_eq_some_iff.1 hmade
  have hsome : (source? settings files page.name).isSome := by rw [hsource, Option.isSome_some]
  rw [source?, Option.isSome_or, Bool.or_eq_true] at hsome
  rw [← hpage]
  exact hsome

/-- A forest with one page for each name of a class, each below the nearest name above it. -/
structure Nests (named : Text → Prop) (forest : List Page) : Prop where
  once : ((Page.allDescendants forest).map Page.name).Nodup
  names : ∀ name, name ∈ (Page.allDescendants forest).map Page.name ↔ named name
  nearest : ∀ page ∈ Page.allDescendants forest, IsNearestAbove named page.name page.parent
  root : ∀ page ∈ Page.allDescendants forest, page.parent = none ↔ page ∈ forest
  child : ∀ page ∈ Page.allDescendants forest, ∀ name, page.parent = some name ↔
    ∃ above ∈ Page.allDescendants forest, above.name = name ∧ page ∈ above.children
  filled : ∀ page ∈ Page.allDescendants forest, page.index.isSome ∨ page.layout.isSome

theorem forall_placed (hproper : ∀ name ∈ names files, IsProper name) :
    ∀ page ∈ Page.allDescendants
      ((rootNames files).filterMap (Forest.page settings files none 0)),
      Placed settings files page :=
  Page.forall_mem_allDescendants (fun _ hroot => (placed_root hproper hroot).1)
    fun _ hpage _ hchild => (placed_child hpage hchild).1

theorem nests_roots (hproper : ∀ name ∈ names files, IsProper name)
    (hroutable : ∀ entry ∈ files, entry.role settings ≠ .other) :
    Nests (· ∈ names files)
      ((rootNames files).filterMap (Forest.page settings files none 0)) := by
  have hcovers := covers_roots hproper hroutable
  have hplaced := @forall_placed settings files hproper
  refine ⟨hcovers.nodup, fun name => ?_, fun page hpage => (hplaced page hpage).nearest,
    fun page hpage => ?_, fun page hpage name => ?_, fun page hpage => (hplaced page hpage).filled⟩
  · rw [hcovers.mem]
    apply and_iff_left_of_imp
    intro hname
    obtain ⟨top, htop, hreach⟩ := RouteName.exists_topmost hname
    exact ⟨top, (mem_rootNames hproper).2 htop, hreach⟩
  · refine ⟨fun hparent => ?_, fun hroot => (placed_root hproper hroot).2⟩
    rcases Page.exists_above_of_mem_allDescendants hpage with hroot | ⟨above, habove, hchild⟩
    · exact hroot
    · rw [(placed_child (hplaced above habove) hchild).2] at hparent
      exact absurd hparent (by simp)
  · constructor
    · intro hparent
      rcases Page.exists_above_of_mem_allDescendants hpage with hroot | ⟨above, habove, hchild⟩
      · rw [(placed_root hproper hroot).2] at hparent
        exact absurd hparent (by simp)
      · rw [(placed_child (hplaced above habove) hchild).2, Option.some.injEq] at hparent
        exact ⟨above, habove, hparent, hchild⟩
    · rintro ⟨above, habove, rfl, hchild⟩
      exact (placed_child (hplaced above habove) hchild).2

theorem mem_routable {entries : List RouteFile} {entry : RouteFile} :
    entry ∈ routable settings entries ↔ entry ∈ entries ∧ entry.role settings ≠ .other := by
  simp [routable, RouteFile.sorted, Specificity.sortBy]

/-- The names of the index and layout files. -/
def IsPageName (settings : PageSettings) (entries : List RouteFile) (name : Text) : Prop :=
  ∃ entry ∈ entries, entry.role settings ≠ .other ∧ entry.name = name

theorem mem_names_routable {entries : List RouteFile} :
    name ∈ names (routable settings entries) ↔ IsPageName settings entries name := by
  simp only [mem_names, mem_routable, IsPageName, and_assoc]

/-- The pages of route files are those of the names that have an index or a layout, each once and
below the nearest such name above its own. -/
theorem build_nests {entries : List RouteFile} (h : ∀ entry ∈ entries, IsProper entry.name) :
    Nests (IsPageName settings entries) (build settings entries) := by
  have hproper : ∀ name ∈ names (routable settings entries), IsProper name := by
    intro name hname
    obtain ⟨entry, hentry, rfl⟩ := mem_names.1 hname
    exact h entry (mem_routable.1 hentry).1
  have hnested := nests_roots hproper fun entry hentry => (mem_routable.1 hentry).2
  have hnamed : (· ∈ names (routable settings entries)) = IsPageName settings entries :=
    funext fun name => propext mem_names_routable
  rw [hnamed] at hnested
  exact hnested

/-- Index files of three routes; `blog/post` has none. -/
def gapped : List RouteFile :=
  ["blog", "blogroll", "blog/post/[slug]"].filterMap fun name =>
    (RouteFile.make .pages name.toList "index.rsx".toList
      (.ofText s!"pages/{name}/index.rsx".toList)).toOption

/-- The page of `blog/post/[slug]` hangs below `blog`, and that of `blogroll` does not. -/
theorem build_gapped_nests :
    (∀ entry ∈ gapped, IsProper entry.name) ∧ Nests (IsPageName {} gapped) (build {} gapped) ∧
      (Page.allDescendants (build {} gapped)).map (fun page => (page.name, page.parent)) =
        [("blog".toList, none), ("blog/post/[slug]".toList, some "blog".toList),
          ("blogroll".toList, none)] := by
  have hnames : gapped.map RouteFile.name =
      ["blog".toList, "blogroll".toList, "blog/post/[slug]".toList] := by cbv
  have hproper : ∀ name ∈ gapped.map RouteFile.name, IsProper name := by
    rw [hnames]
    decide
  have hentries : ∀ entry ∈ gapped, IsProper entry.name :=
    fun entry hentry => hproper _ (List.mem_map_of_mem hentry)
  exact ⟨hentries, build_nests hentries, by cbv⟩

end FileRoutes.Forest
