import FileRoutes.Proofs.SlashedName

/-! Looking up pages by name. The search visits the pages of a tree in the order in which they are
listed and stops at the first hit. In the forest of route files what is listed below a page is
told by the names alone: all pages at or below its name, in the order of the whole forest, because
a page reaches every name below its own and no name has a page elsewhere as well. -/

namespace FileRoutes

theorem eq_filter_of_sublist {α : Type} {xs ys : List α} (hsublist : xs.Sublist ys)
    (hnodup : ys.Nodup) (p : α → Prop) [DecidablePred p] (h : ∀ x, x ∈ xs ↔ x ∈ ys ∧ p x) :
    xs = ys.filter (p ·) := by
  have hself : xs.filter (p ·) = xs :=
    List.filter_eq_self.2 fun x hx => decide_eq_true ((h x).1 hx).2
  have hfilter := hsublist.filter (p ·)
  rw [hself] at hfilter
  refine hfilter.eq_of_length (List.Perm.length_eq ?_)
  rw [List.perm_ext_iff_of_nodup (hnodup.sublist hsublist) (hnodup.filter _)]
  simpa using h

namespace Page

theorem find?_of_page (target : Text) (page : Page) :
    find? target page =
      if page.name = target then some page else findAmong? target page.children := by
  obtain ⟨name, index, layout, tokens, parent, children⟩ := page
  rw [find?]

theorem findAmong?_eq {target : Text} {pages : List Page}
    (h : ∀ page ∈ pages,
      find? target page = (descendants page).find? fun other => other.name == target) :
    findAmong? target pages = (allDescendants pages).find? fun other => other.name == target := by
  induction pages with
  | nil => rw [findAmong?, allDescendants, List.find?_nil]
  | cons page rest ih =>
    rw [findAmong?, allDescendants_cons, List.find?_append, h page List.mem_cons_self,
      ih fun other hother => h other (List.mem_cons_of_mem page hother)]

/-- The search finds the first page that is listed with the name. -/
theorem find?_eq (target : Text) (page : Page) :
    find? target page = (descendants page).find? fun other => other.name == target := by
  induction page using induction with
  | step page ih =>
    rw [find?_of_page, descendants_eq, List.find?_cons, findAmong?_eq ih]
    by_cases hname : page.name = target
    · rw [if_pos hname, beq_iff_eq.2 hname]
    · rw [if_neg hname, beq_eq_false_iff_ne.2 hname]

theorem descendants_sublist_of_mem {forest : List Page} {root : Page} (h : root ∈ forest) :
    (descendants root).Sublist (allDescendants forest) := by
  induction forest with
  | nil => simp at h
  | cons first rest ih =>
    rw [allDescendants_cons]
    rcases List.mem_cons.1 h with rfl | hrest
    · exact List.sublist_append_left _ _
    · exact (ih hrest).trans (List.sublist_append_right _ _)

/-- What is listed below a page is listed in the whole forest, in the same order. -/
theorem descendants_sublist {forest : List Page} :
    ∀ page ∈ allDescendants forest, (descendants page).Sublist (allDescendants forest) := by
  refine forall_mem_allDescendants (fun root hroot => descendants_sublist_of_mem hroot) ?_
  intro page hpage child hchild
  have hbelow : (descendants child).Sublist (descendants page) := by
    rw [descendants_eq page]
    exact (descendants_sublist_of_mem hchild).cons page
  exact hbelow.trans hpage

end Page

namespace Forest

open RouteName (AtOrBelow IsProper IsPathPrefix)

variable {settings : PageSettings} {files : List RouteFile} {forest : List Page} {page other : Page}

/-- The pages listed below a page are those at or below its name. -/
theorem mem_descendants_iff (hnodup : ((Page.allDescendants forest).map Page.name).Nodup)
    (hknown : ∀ page ∈ Page.allDescendants forest, page.name ∈ names files)
    (hcovers : Covers files [page.name] [page]) (hpage : page ∈ Page.allDescendants forest) :
    other ∈ Page.descendants page ↔
      other ∈ Page.allDescendants forest ∧ AtOrBelow page.name other.name := by
  have hall : Page.allDescendants [page] = Page.descendants page := by
    rw [Page.allDescendants_cons, Page.allDescendants, List.append_nil]
  have hnames := hcovers.mem other.name
  rw [hall] at hnames
  have hlisted := (Page.descendants_sublist page hpage).subset
  constructor
  · intro hother
    obtain ⟨-, top, htop, hreach⟩ := hnames.1 (List.mem_map_of_mem hother)
    obtain rfl := List.mem_singleton.1 htop
    exact ⟨hlisted hother, hreach⟩
  · rintro ⟨hother, hreach⟩
    obtain ⟨same, hsame, hname⟩ := List.mem_map.1
      (hnames.2 ⟨hknown other hother, page.name, List.mem_singleton_self _, hreach⟩)
    -- the page of that name below this one is the only one in the forest
    rwa [List.inj_on_of_nodup_map hnodup (hlisted hsame) hother hname] at hsame

/-- A name is looked up in the order of the descendants, and the descendants of a page in the forest
of route files are the pages of its name and of those that it is a path prefix of. -/
theorem lookup_follows_descendants :
    (∀ (target : Text) (page : Page),
      Page.find? target page = (Page.descendants page).find? fun other => other.name == target) ∧
    ∀ (settings : PageSettings) (entries : List RouteFile),
      (∀ entry ∈ entries, IsProper entry.name) →
      ∀ page ∈ Page.allDescendants (build settings entries),
        Page.descendants page = (Page.allDescendants (build settings entries)).filter fun other =>
          other.name = page.name ∨ IsPathPrefix page.name other.name := by
  refine ⟨Page.find?_eq, fun settings entries h page hpage => ?_⟩
  have hproper : ∀ name ∈ names (routable settings entries), IsProper name := by
    intro name hname
    obtain ⟨entry, hentry, -, rfl⟩ := mem_names_routable.1 hname
    exact h entry hentry
  have hroutable : ∀ entry ∈ routable settings entries, entry.role settings ≠ .other :=
    fun entry hentry => (mem_routable.1 hentry).2
  have hnodup := (covers_roots hproper hroutable).nodup
  have hplaced := @forall_placed settings _ hproper
  obtain ⟨used, hmade⟩ := (hplaced page hpage).made
  have hcovers := covers_page hroutable (hplaced page hpage).known hmade
  refine eq_filter_of_sublist (Page.descendants_sublist page hpage) (.of_map _ hnodup) _
    fun other => ?_
  rw [mem_descendants_iff hnodup (fun page hpage => (hplaced page hpage).known) hcovers hpage,
    AtOrBelow, RouteName.isBelow_iff_isPathPrefix]
  exact Iff.rfl

/-- Index files of `docs`, of two names in line below it, and of one that only begins alike. -/
def docs : List RouteFile :=
  indexFiles ["docs", "docs/api", "docs/api/[id]", "docs/apidoc"]

/-- The page of `docs/api` lists the one of `docs/api/[id]`, and not that of `docs/apidoc`. -/
theorem descendants_of_docs_api :
    (∀ entry ∈ docs, IsProper entry.name) ∧
      ∃ page ∈ Page.allDescendants (build {} docs), page.name = "docs/api".toList ∧
        Page.descendants page = ((Page.allDescendants (build {} docs)).filter fun other =>
          other.name = page.name ∨ IsPathPrefix page.name other.name) ∧
        (Page.descendants page).map Page.name = ["docs/api".toList, "docs/api/[id]".toList] := by
  have hnames : docs.map RouteFile.name = ["docs".toList, "docs/api".toList,
      "docs/api/[id]".toList, "docs/apidoc".toList] := by cbv
  have hproper : ∀ name ∈ docs.map RouteFile.name, IsProper name := by
    rw [hnames]
    decide
  have hentries : ∀ entry ∈ docs, IsProper entry.name :=
    fun entry hentry => hproper _ (List.mem_map_of_mem hentry)
  have hlisted : (Page.allDescendants (build {} docs)).map Page.name = ["docs".toList,
      "docs/api".toList, "docs/api/[id]".toList, "docs/apidoc".toList] := by cbv
  have hmem : "docs/api".toList ∈ (Page.allDescendants (build {} docs)).map Page.name := by
    rw [hlisted]
    decide
  obtain ⟨page, hpage, hname⟩ := List.mem_map.1 hmem
  have hdescendants := lookup_follows_descendants.2 {} docs hentries page hpage
  refine ⟨hentries, page, hpage, hname, hdescendants, ?_⟩
  rw [hdescendants, hname]
  calc
    _ = ((Page.allDescendants (build {} docs)).map Page.name).filter fun name =>
        name = "docs/api".toList ∨ IsPathPrefix "docs/api".toList name :=
      List.filter_map.symm
    _ = _ := by
      rw [hlisted]
      decide

end Forest

end FileRoutes
