import FileRoutes.Proofs.CompiledName
import FileRoutes.Proofs.Nesting
import Mathlib.Data.List.Nodup

/-! Names with separators at their ends. A name has a page below each root that it is or lies below,
so it has one page if and only if the roots are the top names. What lies below a page is told from
names as they are written, but whether a name is a root from the name without the separators at its
ends. The two differ where a name is below another in one of the two readings only: such a name is
no root and below none, and has no page, or it is a root and below another, and has several. -/

namespace FileRoutes

namespace RouteName

instance (above name : Text) : Decidable (AtOrBelow above name) :=
  inferInstanceAs (Decidable (name = above ∨ isBelow above name = true))

/-- Each name of a class has one root at or above it if and only if the roots are the top names. -/
theorem forall_existsUnique_root_iff {named root : Text → Prop}
    (hnamed : ∀ name, root name → named name) :
    (∀ name, named name → ∃! above, root above ∧ AtOrBelow above name) ↔
      ∀ name, root name ↔ Topmost named name := by
  constructor
  · intro h name
    have hroot : ∀ top, Topmost named top → root top := by
      intro top htop
      obtain ⟨above, ⟨habove, hreach⟩, -⟩ := h top htop.1
      rcases hreach with rfl | hbelow
      · exact habove
      · exact absurd hbelow (htop.2 above (hnamed above habove))
    refine ⟨fun hname => ?_, hroot name⟩
    obtain ⟨top, htop, hreach⟩ := exists_topmost (hnamed name hname)
    obtain rfl := (h name (hnamed name hname)).unique ⟨hroot top htop, hreach⟩ ⟨hname, Or.inl rfl⟩
    exact htop
  · intro h name hname
    obtain ⟨top, htop, hreach⟩ := exists_topmost hname
    refine ⟨top, ⟨(h top).2 htop, hreach⟩, fun other hother => ?_⟩
    exact Topmost.unique ((h other).1 hother.1) htop hother.2 hreach

instance (above name : Text) : Decidable (IsPathPrefix above name) :=
  inferInstanceAs (Decidable (above ≠ name ∧ Text.segments above <+: Text.segments name))

/-- Some name of the class is a path prefix of the name. -/
def HasPrefix (named : Text → Prop) (name : Text) : Prop :=
  ∃ above, named above ∧ IsPathPrefix above name

theorem topmost_iff {named : Text → Prop} {name : Text} :
    Topmost named name ↔ named name ∧ ¬ HasPrefix named name := by
  simp only [Topmost, HasPrefix, isBelow_iff_isPathPrefix, not_exists, not_and]

end RouteName

namespace Forest

open RouteName (isBelow AtOrBelow Topmost HasPrefix)

/-- How many pages of a forest have the name. -/
def occurrences (forest : List Page) (name : Text) : Nat :=
  ((Page.allDescendants forest).map Page.name).count name

variable {settings : PageSettings} {files : List RouteFile} {parent : Option Text} {used : Nat}
  {name top : Text} {page : Page}

theorem occurrences_cons (forest : List Page) :
    occurrences (page :: forest) name = occurrences [page] name + occurrences forest name := by
  simp [occurrences, Page.allDescendants]

theorem Covers.occurrences (h : Covers files [top] [page]) (hname : name ∈ names files) :
    occurrences [page] name = if AtOrBelow top name then 1 else 0 := by
  have hmem := h.mem name
  simp only [hname, true_and, List.mem_singleton, exists_eq_left] at hmem
  split
  · next hreach => exact List.count_eq_one_of_mem h.nodup (hmem.2 hreach)
  · next hreach => exact List.count_eq_zero.2 fun hlisted => hreach (hmem.1 hlisted)

/-- A name has a page for each top name of a level that it is or lies below. -/
theorem occurrences_level (hroutable : ∀ entry ∈ files, entry.role settings ≠ .other)
    (hname : name ∈ names files) {tops : List Text} (htops : ∀ top ∈ tops, top ∈ names files) :
    occurrences (tops.filterMap (Forest.page settings files parent used)) name =
      tops.countP (AtOrBelow · name) := by
  induction tops with
  | nil => rfl
  | cons top tops ih =>
    have htop := htops top List.mem_cons_self
    obtain ⟨page, hpage⟩ := exists_page hroutable htop
    rw [List.filterMap_cons_some hpage, occurrences_cons,
      (covers_page hroutable htop hpage).occurrences hname, ih fun other hother =>
        htops other (List.mem_cons_of_mem top hother), List.countP_cons, Nat.add_comm]
    simp only [decide_eq_true_eq]

theorem countP_eq_one_iff {α : Type} {xs : List α} (hnodup : xs.Nodup) (p : α → Prop)
    [DecidablePred p] : xs.countP (p ·) = 1 ↔ ∃! x, x ∈ xs ∧ p x := by
  rw [List.countP_eq_length_filter, List.length_eq_one_iff]
  have hmem : ∀ x, x ∈ xs.filter (p ·) ↔ x ∈ xs ∧ p x := by simp
  constructor
  · rintro ⟨x, hx⟩
    rw [hx] at hmem
    exact ⟨x, (hmem x).1 (by simp), fun y hy => by simpa using (hmem y).2 hy⟩
  · rintro ⟨x, hx, hunique⟩
    refine ⟨x, List.perm_singleton.1 ?_⟩
    rw [List.perm_ext_iff_of_nodup (hnodup.filter _) (by simp)]
    intro y
    rw [hmem, List.mem_singleton]
    exact ⟨hunique y, fun hy => hy ▸ hx⟩

theorem occurrences_roots_eq_one_iff
    (hroutable : ∀ entry ∈ files, entry.role settings ≠ .other) (hname : name ∈ names files) :
    occurrences ((rootNames files).filterMap (Forest.page settings files none 0)) name = 1 ↔
      ∃! root, root ∈ rootNames files ∧ AtOrBelow root name := by
  rw [occurrences_level hroutable hname fun root hroot => (mem_rootNames_iff.1 hroot).1]
  exact countP_eq_one_iff (names_nodup _) (AtOrBelow · name)

/-- Every name has one page if and only if each lies below others in both readings or in none. -/
theorem occurrences_roots_iff (hroutable : ∀ entry ∈ files, entry.role settings ≠ .other) :
    (∀ name ∈ names files,
        occurrences ((rootNames files).filterMap (Forest.page settings files none 0)) name = 1) ↔
      ∀ name ∈ names files, (HasPrefix (· ∈ names files) (Text.trimSlashes name) ↔
        HasPrefix (· ∈ names files) name) := by
  have hroots : ∀ name, name ∈ rootNames files ↔
      name ∈ names files ∧ ¬ HasPrefix (· ∈ names files) (Text.trimSlashes name) := by
    intro name
    rw [mem_rootNames_iff]
    simp only [HasPrefix, RouteName.isBelow_iff_isPathPrefix, not_exists, not_and]
  calc
    _ ↔ ∀ name, name ∈ names files → ∃! root, root ∈ rootNames files ∧ AtOrBelow root name :=
      forall₂_congr fun name hname => occurrences_roots_eq_one_iff hroutable hname
    _ ↔ ∀ name, name ∈ rootNames files ↔ Topmost (· ∈ names files) name :=
      RouteName.forall_existsUnique_root_iff fun name hname => ((hroots name).1 hname).1
    _ ↔ _ := by
      simp only [hroots, RouteName.topmost_iff, and_congr_right_iff, not_iff_not]

/-- Every name of an index or layout file has one page if and only if each such name has others of
them for prefixes both as it is written and without the separators at its ends, or in neither form.
That holds if no such name has separators at its ends. -/
theorem page_names_once_iff (settings : PageSettings) (entries : List RouteFile) :
    ((∀ name, IsPageName settings entries name →
        occurrences (build settings entries) name = 1) ↔
      ∀ name, IsPageName settings entries name →
        (HasPrefix (IsPageName settings entries) (Text.trimSlashes name) ↔
          HasPrefix (IsPageName settings entries) name)) ∧
    ((∀ name, IsPageName settings entries name → Text.trimSlashes name = name) →
      ∀ name, IsPageName settings entries name →
        occurrences (build settings entries) name = 1) := by
  have hroutable : ∀ entry ∈ routable settings entries, entry.role settings ≠ .other :=
    fun entry hentry => (mem_routable.1 hentry).2
  have h := occurrences_roots_iff hroutable
  simp only [mem_names_routable] at h
  refine ⟨h, fun htrimmed => h.2 fun name hname => ?_⟩
  rw [htrimmed name hname]

/-- The index files of routes. -/
def indexFiles (names : List String) : List RouteFile :=
  names.filterMap fun name =>
    (RouteFile.make .pages name.toList "index.rsx".toList
      (.ofText s!"pages/{name}/index.rsx".toList)).toOption

theorem made_of_mem_indexFiles {names : List String} {entry : RouteFile}
    (h : entry ∈ indexFiles names) :
    ∃ file path, RouteFile.make .pages entry.name file path = .ok entry := by
  obtain ⟨name, -, hmade⟩ := List.mem_filterMap.1 h
  have hmake := RouteFile.eq_ok_of_toOption hmade
  rw [← RouteFile.name_of_make hmake] at hmake
  exact ⟨_, _, hmake⟩

theorem isPageName_iff_mem {entries : List RouteFile} {names : List Text}
    (h : entries.map (fun entry => (entry.role settings, entry.name)) =
      names.map fun name => (.index, name)) :
    IsPageName settings entries name ↔ name ∈ names := by
  have hlisted : ∀ role, (∃ entry ∈ entries, entry.role settings = role ∧ entry.name = name) ↔
      (role, name) ∈ names.map fun name => (Role.index, name) := by
    intro role
    simp [← h]
  constructor
  · rintro ⟨entry, hentry, -, hname⟩
    have hmem := (hlisted _).1 ⟨entry, hentry, rfl, hname⟩
    simp only [List.mem_map, Prod.mk.injEq] at hmem
    obtain ⟨_, hmem, -, rfl⟩ := hmem
    exact hmem
  · intro hname
    obtain ⟨entry, hentry, hrole, hname⟩ := (hlisted .index).2 (List.mem_map_of_mem hname)
    exact ⟨entry, hentry, by simp [hrole], hname⟩

/-- Separators at the ends do no harm where they do not change what lies below what. -/
theorem page_names_once_apart :
    (∀ name, IsPageName {} (indexFiles ["/about", "about/team/", "about"]) name →
      occurrences (build {} (indexFiles ["/about", "about/team/", "about"])) name = 1) ∧
    (Page.allDescendants (build {} (indexFiles ["/about", "about/team/", "about"]))).map
        (fun page => (page.name, page.parent)) =
      [("/about".toList, none), ("about".toList, none),
        ("about/team/".toList, some "about".toList)] := by
  have hfiles : (indexFiles ["/about", "about/team/", "about"]).map
      (fun entry => (entry.role {}, entry.name)) =
      ["/about".toList, "about/team/".toList, "about".toList].map fun name => (.index, name) := by
    cbv
  refine ⟨(page_names_once_iff {} _).1.2 ?_, by cbv⟩
  simp only [isPageName_iff_mem hfiles, HasPrefix]
  decide

/-- A name with a separator in front is no root because of a name that it does not lie below as it
is written. A name with a separator behind is a root and lies below another one as well. -/
theorem page_names_lost_and_doubled :
    ((∀ entry ∈ indexFiles ["about", "/about/team"],
        ∃ file path, RouteFile.make .pages entry.name file path = .ok entry) ∧
      IsPageName {} (indexFiles ["about", "/about/team"]) "/about/team".toList ∧
      occurrences (build {} (indexFiles ["about", "/about/team"])) "/about/team".toList = 0) ∧
    (∀ entry ∈ indexFiles ["about", "about/"],
        ∃ file path, RouteFile.make .pages entry.name file path = .ok entry) ∧
      IsPageName {} (indexFiles ["about", "about/"]) "about/".toList ∧
      occurrences (build {} (indexFiles ["about", "about/"])) "about/".toList = 2 := by
  have hlost : (indexFiles ["about", "/about/team"]).map
      (fun entry => (entry.role {}, entry.name)) =
      ["about".toList, "/about/team".toList].map fun name => (.index, name) := by cbv
  have hdoubled : (indexFiles ["about", "about/"]).map (fun entry => (entry.role {}, entry.name)) =
      ["about".toList, "about/".toList].map fun name => (.index, name) := by cbv
  refine ⟨⟨fun entry => made_of_mem_indexFiles, (isPageName_iff_mem hlost).2 (by simp), by cbv⟩,
    fun entry => made_of_mem_indexFiles, (isPageName_iff_mem hdoubled).2 (by simp), by cbv⟩

end Forest

end FileRoutes
