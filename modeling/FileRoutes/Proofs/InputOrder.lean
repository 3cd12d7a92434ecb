import FileRoutes.Proofs.Nesting
import FileRoutes.Proofs.SpecificityOrder

/-! The order in which route files are given. Files in order of specificity have their names in an
order that does not depend on it, and levels are made from names alone. Files of one name tie, so
which of them comes first does depend on the order given, but a page takes files by role, and as long
as no two files of a role have the same name it takes the same ones. -/

namespace FileRoutes.Forest

open RouteName (isBelow)

variable {settings : PageSettings} {files others : List RouteFile}

/-- No two index files and no two layout files have the same name. -/
def Unrivalled (settings : PageSettings) (files : List RouteFile) : Prop :=
  files.Pairwise fun a b =>
    a.role settings = b.role settings → a.role settings ≠ .other → a.name ≠ b.name

namespace Unrivalled

theorem perm (h : Unrivalled settings files) (hperm : files.Perm others) :
    Unrivalled settings others := by
  refine (hperm.pairwise_iff fun {a b} hab hrole hother => ?_).1 h
  exact (hab hrole.symm (hrole ▸ hother)).symm

theorem filter (h : Unrivalled settings files) (keep : RouteFile → Bool) :
    Unrivalled settings (files.filter keep) :=
  List.Pairwise.filter keep h

theorem length_filesOf_le (h : Unrivalled settings files) {role : Role} (hrole : role ≠ .other)
    (name : Text) : (filesOf settings files name role).length ≤ 1 := by
  have hrivals : Unrivalled settings (filesOf settings files name role) := h.filter _
  have hmem : ∀ entry ∈ filesOf settings files name role,
      entry.name = name ∧ entry.role settings = role := by
    simp [filesOf]
  rcases hfiles : filesOf settings files name role with _ | ⟨a, _ | ⟨b, rest⟩⟩
  · simp
  · simp
  · rw [hfiles] at hrivals hmem
    obtain ⟨haName, haRole⟩ := hmem a (by simp)
    obtain ⟨hbName, hbRole⟩ := hmem b (by simp)
    have hne := List.rel_of_pairwise_cons hrivals List.mem_cons_self
    exact absurd (haName.trans hbName.symm) (hne (haRole.trans hbRole.symm) (haRole ▸ hrole))

end Unrivalled

/-- Files whose names come in the same order, with the same index and layout files of each. -/
structure Alike (settings : PageSettings) (files others : List RouteFile) : Prop where
  names : files.map RouteFile.name = others.map RouteFile.name
  filesOf : ∀ name role, role ≠ .other →
    filesOf settings files name role = filesOf settings others name role

theorem routable_pairwise (settings : PageSettings) (entries : List RouteFile) :
    (routable settings entries).Pairwise fun a b =>
      Specificity.le a.specificity b.specificity = true :=
  (Specificity.sortBy_pairwise RouteFile.specificity entries).filter _

theorem routable_perm {entries given : List RouteFile} (h : entries.Perm given) :
    (routable settings entries).Perm (routable settings given) := by
  have hsorted : (RouteFile.sorted entries).Perm (RouteFile.sorted given) :=
    (Specificity.sortBy_perm _ entries).trans (h.trans (Specificity.sortBy_perm _ given).symm)
  exact hsorted.filter _

theorem eq_of_perm_of_length_le_one {α : Type} {xs ys : List α} (h : xs.Perm ys)
    (hlength : xs.length ≤ 1) : xs = ys := by
  match xs with
  | [] => exact h.nil_eq
  | [x] => exact (List.perm_singleton.1 h.symm).symm
  | x :: y :: rest => simp at hlength

theorem alike_routable {entries given : List RouteFile} (h : Unrivalled settings entries)
    (hperm : entries.Perm given) :
    Alike settings (routable settings entries) (routable settings given) := by
  have hroutable : (routable settings entries).Perm (routable settings given) :=
    routable_perm hperm
  refine ⟨?_, fun name role hrole => ?_⟩
  · have hkeys := Specificity.map_key_eq_of_perm (routable_pairwise settings entries)
      (routable_pairwise settings given) hroutable
    have hnames := congrArg (List.map Specificity.name) hkeys
    rw [List.map_map, List.map_map] at hnames
    exact hnames
  · have hsorted : Unrivalled settings (RouteFile.sorted entries) :=
      h.perm (Specificity.sortBy_perm _ entries).symm
    have hfiles : Unrivalled settings (routable settings entries) := hsorted.filter _
    exact eq_of_perm_of_length_le_one (hroutable.filter _) (hfiles.length_filesOf_le hrole name)

theorem names_filter_congr (h : files.map RouteFile.name = others.map RouteFile.name)
    (keep : Text → Bool) :
    names (files.filter fun entry => keep entry.name) =
      names (others.filter fun entry => keep entry.name) := by
  have hfilter : ∀ files : List RouteFile,
      names (files.filter fun entry => keep entry.name) =
        ((files.map RouteFile.name).filter keep).eraseDups := by
    intro files
    rw [List.filter_map]
    rfl
  rw [hfilter, hfilter, h]

theorem any_name_congr (h : files.map RouteFile.name = others.map RouteFile.name)
    (test : Text → Bool) :
    (files.any fun entry => test entry.name) = others.any fun entry => test entry.name := by
  have hany := congrArg (List.any · test) h
  simp only [List.any_map] at hany
  exact hany

theorem rootNames_congr (h : files.map RouteFile.name = others.map RouteFile.name) :
    rootNames files = rootNames others := by
  have hany : ∀ ancestor, files.any (·.name == ancestor) = others.any (·.name == ancestor) :=
    fun ancestor => any_name_congr h (· == ancestor)
  simp only [rootNames, hany]
  exact names_filter_congr h fun name =>
    !(RouteName.ancestors name).any fun ancestor => others.any (·.name == ancestor)

theorem childNames_congr (h : files.map RouteFile.name = others.map RouteFile.name) (above : Text) :
    childNames files above = childNames others above := by
  have hbelow : (below files above).map RouteFile.name = (below others above).map RouteFile.name := by
    have hfilter := congrArg (List.filter (isBelow above)) h
    simp only [List.filter_map] at hfilter
    exact hfilter
  have hany : ∀ name, ((below files above).any fun between => isBelow between.name name) =
      (below others above).any fun between => isBelow between.name name :=
    fun name => any_name_congr hbelow (isBelow · name)
  simp only [childNames, hany]
  exact names_filter_congr hbelow fun name =>
    !(below others above).any fun between => isBelow between.name name

variable {parent : Option Text} {used : Nat} {name : Text}

theorem page_congr (h : Alike settings files others) :
    page settings files parent used name = page settings others parent used name := by
  induction hlength : (below files name).length using Nat.strongRecOn
    generalizing parent used name with
  | ind n ih =>
    have hfrom : pageFrom settings files parent used name =
        pageFrom settings others parent used name := by
      funext entry
      simp only [pageFrom, h.filesOf name .index (by simp), h.filesOf name .layout (by simp),
        ← childNames_congr h.names, Page.mk.injEq, true_and]
      refine List.filterMap_congr fun child hchild => ih _ ?_ rfl
      exact hlength ▸ length_below_lt hchild
    rw [page_eq, page_eq, hfrom, source?, source?, h.filesOf name .index (by simp),
      h.filesOf name .layout (by simp)]

/-- If no two index files and no two layout files have the same name, the pages do not depend on the
order in which files are given. -/
theorem build_eq_of_perm {entries given : List RouteFile} (h : Unrivalled settings entries)
    (hperm : entries.Perm given) : build settings entries = build settings given := by
  have halike := alike_routable h hperm
  rw [build, build, rootNames_congr halike.names]
  exact List.filterMap_congr fun root _ => page_congr halike

/-- An index and a layout file of one name, and an index file below it. -/
def pair : List RouteFile :=
  [("about", "index.rsx"), ("about", "layout.rsx"), ("about/team", "index.rsx")].filterMap
    fun (name, file) => (RouteFile.make .pages name.toList file.toList
      (.ofText s!"pages/{name}/{file}".toList)).toOption

/-- Sorting leaves the index and the layout file of `about` in the order in which they are given. -/
theorem build_reverse_pair :
    Unrivalled {} pair ∧ pair.Perm pair.reverse ∧ build {} pair = build {} pair.reverse ∧
      RouteFile.sorted pair ≠ RouteFile.sorted pair.reverse := by
  have hfiles : pair.map (fun entry => (entry.role {}, entry.name)) =
      [(.index, "about".toList), (.layout, "about".toList), (.index, "about/team".toList)] := by cbv
  have hunrivalled : Unrivalled {} pair := by
    have hpairwise : (pair.map fun entry => (entry.role {}, entry.name)).Pairwise
        fun a b => a.1 = b.1 → a.1 ≠ .other → a.2 ≠ b.2 := by
      rw [hfiles]
      decide
    exact List.pairwise_map.1 hpairwise
  have hperm : pair.Perm pair.reverse := (List.reverse_perm pair).symm
  have hsorted : (RouteFile.sorted pair).map (·.role {}) = [.index, .index, .layout] := by cbv
  have hreverse : (RouteFile.sorted pair.reverse).map (·.role {}) = [.index, .layout, .index] := by
    cbv
  refine ⟨hunrivalled, hperm, build_eq_of_perm hunrivalled hperm, fun hsame => ?_⟩
  rw [← hsame, hsorted] at hreverse
  exact absurd hreverse (by decide)

end FileRoutes.Forest
