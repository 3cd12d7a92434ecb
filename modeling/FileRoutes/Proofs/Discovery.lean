import FileRoutes.Project.Discovery
import FileRoutes.Proofs.FoundFile
import FileRoutes.Proofs.SpecificityOrder

/-! Discovery. The walk takes the files below the routes directory in the order of the names that
lead to them, each once. Every one of them that has one of the extensions is found as an entry or as
a diagnostic, so the paths of both together are those of these files. Diagnostics keep the order of
the walk, and sorting keeps it among entries of one name. Entries depend on nothing but the files
that become entries. -/

namespace FileRoutes

namespace Finding

/-- The file that was looked at. -/
def file : Finding → FilePath
  | .route entry => entry.fullPath
  | .excluded error => error.file

variable {root path : FilePath} {folder : Folder} {finding : Finding} {entry : RouteFile}
  {error : RouteError}

theorem entry?_eq_some_iff : finding.entry? = some entry ↔ finding = .route entry := by
  cases finding with
  | route found =>
    rw [Finding.route.injEq]
    exact Option.some_inj
  | excluded error => exact ⟨nofun, nofun⟩

theorem error?_eq_some_iff : finding.error? = some error ↔ finding = .excluded error := by
  cases finding with
  | route entry => exact ⟨nofun, nofun⟩
  | excluded found =>
    rw [Finding.excluded.injEq]
    exact Option.some_inj

theorem ofPath_eq_route_iff :
    ofPath root folder path = .route entry ↔ RouteFile.ofPath path root folder = .ok entry := by
  unfold ofPath
  cases RouteFile.ofPath path root folder <;> simp

theorem ofPath_eq_excluded_iff :
    ofPath root folder path = .excluded error ↔
      RouteFile.ofPath path root folder = .error error := by
  unfold ofPath
  cases RouteFile.ofPath path root folder <;> simp

theorem file_ofPath (root : FilePath) (folder : Folder) (path : FilePath) :
    (ofPath root folder path).file = path := by
  cases h : ofPath root folder path with
  | route entry => exact RouteFile.fullPath_of_ofPath (ofPath_eq_route_iff.1 h)
  | excluded error => exact RouteFile.file_of_ofPath (ofPath_eq_excluded_iff.1 h)

theorem files_perm (findings : List Finding) :
    ((findings.filterMap entry?).map RouteFile.fullPath ++
      (findings.filterMap error?).map RouteError.file).Perm (findings.map file) := by
  induction findings with
  | nil => exact .refl _
  | cons finding findings ih =>
    cases finding with
    | route entry => exact ih.cons _
    | excluded error => exact List.perm_middle.trans (ih.cons _)

end Finding

namespace Findings

variable {settings : RouteSettings} {root : FilePath} {folder : Folder} {tree : Tree}
  {entry : RouteFile} {error : RouteError}

theorem map_file_ofTree (settings : RouteSettings) (root : FilePath) (folder : Folder)
    (tree : Tree) : (ofTree settings root folder tree).map Finding.file =
      (tree.files root).filter settings.isRouteFile := by
  rw [ofTree, List.map_map]
  exact (List.map_congr_left fun path _ => Finding.file_ofPath root folder path).trans
    (List.map_id _)

theorem files_perm : ((ofTree settings root folder tree).entries.map RouteFile.fullPath ++
    (ofTree settings root folder tree).diagnostics.map RouteError.file).Perm
      ((tree.files root).filter settings.isRouteFile) := by
  rw [← map_file_ofTree settings root folder]
  exact (((Specificity.sortBy_perm _ _).map _).append_right _).trans (Finding.files_perm _)

theorem mem_ofTree {finding : Finding} : finding ∈ ofTree settings root folder tree ↔
    ∃ path ∈ tree.files root, settings.isRouteFile path = true ∧
      Finding.ofPath root folder path = finding := by
  simp only [ofTree, List.mem_map, List.mem_filter, and_assoc]

theorem mem_found :
    entry ∈ (ofTree settings root folder tree).filterMap Finding.entry? ↔
      entry.fullPath ∈ tree.files root ∧ settings.isRouteFile entry.fullPath = true ∧
        RouteFile.ofPath entry.fullPath root folder = .ok entry := by
  simp only [List.mem_filterMap, Finding.entry?_eq_some_iff, exists_eq_right, mem_ofTree,
    Finding.ofPath_eq_route_iff]
  constructor
  · rintro ⟨path, hpath, hroute, hok⟩
    obtain rfl := RouteFile.fullPath_of_ofPath hok
    exact ⟨hpath, hroute, hok⟩
  · rintro ⟨hpath, hroute, hok⟩
    exact ⟨_, hpath, hroute, hok⟩

theorem mem_entries : entry ∈ (ofTree settings root folder tree).entries ↔
    entry.fullPath ∈ tree.files root ∧ settings.isRouteFile entry.fullPath = true ∧
      RouteFile.ofPath entry.fullPath root folder = .ok entry := by
  rw [entries, RouteFile.sorted, (Specificity.sortBy_perm _ _).mem_iff, mem_found]

theorem mem_diagnostics : error ∈ (ofTree settings root folder tree).diagnostics ↔
    error.file ∈ tree.files root ∧ settings.isRouteFile error.file = true ∧
      RouteFile.ofPath error.file root folder = .error error := by
  simp only [diagnostics, List.mem_filterMap, Finding.error?_eq_some_iff, exists_eq_right,
    mem_ofTree, Finding.ofPath_eq_excluded_iff]
  constructor
  · rintro ⟨path, hpath, hroute, herror⟩
    obtain rfl := RouteFile.file_of_ofPath herror
    exact ⟨hpath, hroute, herror⟩
  · rintro ⟨hpath, hroute, herror⟩
    exact ⟨_, hpath, hroute, herror⟩

theorem ofTree_pairwise (settings : RouteSettings) (root : FilePath) (folder : Folder)
    (h : tree.Proper) : (ofTree settings root folder tree).Pairwise fun a b =>
      tree.Before root a.file b.file := by
  rw [← List.pairwise_map, map_file_ofTree]
  exact (h.files_pairwise root).sublist List.filter_sublist

theorem diagnostics_pairwise (settings : RouteSettings) (root : FilePath) (folder : Folder)
    (h : tree.Proper) :
    ((ofTree settings root folder tree).diagnostics.map RouteError.file).Pairwise
      (tree.Before root) := by
  refine List.pairwise_map.2 (List.pairwise_filterMap.2
    ((ofTree_pairwise settings root folder h).imp ?_))
  intro a b hbefore error herror other hother
  obtain rfl := Finding.error?_eq_some_iff.1 herror
  obtain rfl := Finding.error?_eq_some_iff.1 hother
  exact hbefore

/-- Items that are in order among those of each key. -/
theorem pairwise_of_filter {α β : Type} [DecidableEq β] {key : α → β} {R : α → α → Prop}
    {items : List α} (h : ∀ k, (items.filter fun item => key item = k).Pairwise R) :
    items.Pairwise fun a b => key a = key b → R a b := by
  induction items with
  | nil => exact .nil
  | cons first items ih =>
    refine List.pairwise_cons.2 ⟨fun item hitem hkey => ?_, ih fun k => ?_⟩
    · have hfirst := h (key first)
      rw [List.filter_cons_of_pos (by simp)] at hfirst
      exact (List.pairwise_cons.1 hfirst).1 item (List.mem_filter.2 ⟨hitem, by simp [hkey]⟩)
    · exact (h k).sublist ((List.sublist_cons_self _ _).filter _)

theorem entries_pairwise (settings : RouteSettings) (root : FilePath) (folder : Folder)
    (h : tree.Proper) : (ofTree settings root folder tree).entries.Pairwise fun a b =>
      a.name = b.name → tree.Before root a.fullPath b.fullPath := by
  have hwalk : ((ofTree settings root folder tree).filterMap Finding.entry?).Pairwise fun a b =>
      tree.Before root a.fullPath b.fullPath := by
    refine List.pairwise_filterMap.2 ((ofTree_pairwise settings root folder h).imp ?_)
    intro a b hbefore entry hentry other hother
    obtain rfl := Finding.entry?_eq_some_iff.1 hentry
    obtain rfl := Finding.entry?_eq_some_iff.1 hother
    exact hbefore
  refine pairwise_of_filter fun name => ?_
  have hspecificity : ∀ entry ∈ ((ofTree settings root folder tree).filterMap Finding.entry?).filter
      (fun entry => entry.name = name), entry.specificity = RouteName.specificity name := by
    intro entry hentry
    obtain ⟨hmem, hname⟩ := List.mem_filter.1 hentry
    have hcompiled := RouteFile.isCompiled_of_ofPath (mem_found.1 hmem).2.2
    rw [hcompiled.specificity_eq, of_decide_eq_true hname]
  rw [entries, RouteFile.sorted, Specificity.filter_sortBy]
  · exact hwalk.sublist List.filter_sublist
  · refine List.pairwise_of_forall_mem_list fun a ha b hb => ?_
    rw [hspecificity a ha, hspecificity b hb]
    exact Specificity.le_refl _

/-- The route file at a place below the routes directory, if there is one. -/
def entryAt (settings : RouteSettings) (root : FilePath) (folder : Folder) (names : List Bytes) :
    Option RouteFile :=
  if settings.isRouteFile (root.descend names) then
    (RouteFile.ofPath (root.descend names) root folder).toOption
  else none

theorem found_eq (settings : RouteSettings) (root : FilePath) (folder : Folder)
    (tree : Tree) : (ofTree settings root folder tree).filterMap Finding.entry? =
      tree.places.filterMap (entryAt settings root folder) := by
  rw [ofTree, Tree.files_eq, List.filter_map, List.map_map, List.filterMap_map,
    List.filterMap_filter]
  refine List.filterMap_congr fun names _ => ?_
  simp only [Function.comp_apply, entryAt, Finding.ofPath]
  split
  · cases RouteFile.ofPath (root.descend names) root folder <;> rfl
  · rfl

/-- Trees that hold the same files as far as these become route files have the same entries. -/
theorem entries_congr {other : Tree} (h : tree.Proper) (hother : other.Proper)
    (hsame : ∀ names, (entryAt settings root folder names).isSome →
      (tree.HasFile names ↔ other.HasFile names)) :
    (ofTree settings root folder tree).entries = (ofTree settings root folder other).entries := by
  have hplaces := h.filter_places_eq hother hsame
  have hkept : ∀ places : List (List Bytes), places.filterMap (entryAt settings root folder) =
      (places.filter fun names => (entryAt settings root folder names).isSome).filterMap
        (entryAt settings root folder) := by
    intro places
    rw [List.filterMap_filter]
    refine List.filterMap_congr fun names _ => ?_
    cases entryAt settings root folder names <;> rfl
  rw [entries, entries, found_eq, found_eq, hkept tree.places, hplaces, ← hkept]

/-- What discovery makes of the files of a tree. -/
structure Account (settings : RouteSettings) (root : FilePath) (folder : Folder) (tree : Tree)
    (findings : Findings) : Prop where
  /-- Different files have different paths. -/
  apart : ∀ names others, tree.HasFile names → tree.HasFile others →
    root.descend names = root.descend others → names = others
  /-- Each file that has one of the extensions becomes one entry or one diagnostic. -/
  once : ∀ directories own, tree.HasFile (directories ++ [own]) → settings.HasExtension own →
    (findings.entries.map RouteFile.fullPath).count (root.descend (directories ++ [own])) +
      (findings.diagnostics.map RouteError.file).count (root.descend (directories ++ [own])) = 1
  /-- Nothing comes of any other file. -/
  only : ∀ path ∈
      findings.entries.map RouteFile.fullPath ++ findings.diagnostics.map RouteError.file,
    ∃ directories own, tree.HasFile (directories ++ [own]) ∧ settings.HasExtension own ∧
      root.descend (directories ++ [own]) = path
  route_iff : ∀ directories own, tree.HasFile (directories ++ [own]) → settings.HasExtension own →
    (root.descend (directories ++ [own]) ∈ findings.entries.map RouteFile.fullPath ↔
      RouteFile.IsRoute directories own)
  made : ∀ entry ∈ findings.entries, RouteFile.ofPath entry.fullPath root folder = .ok entry
  failed : ∀ error ∈ findings.diagnostics, RouteFile.ofPath error.file root folder = .error error
  inside : ∀ file other, .outsideRoot file other ∉ findings.diagnostics
  entries_ordered : findings.entries.Pairwise fun a b =>
    Specificity.compare a.specificity b.specificity ≠ .gt ∧
      (a.name = b.name → tree.Before root a.fullPath b.fullPath)
  diagnostics_ordered : (findings.diagnostics.map RouteError.file).Pairwise (tree.Before root)

theorem account_ofTree (settings : RouteSettings) (root : FilePath) (folder : Folder)
    {entries : List (Bytes × Tree)} (h : (Tree.folder entries).Proper) :
    Account settings root folder (.folder entries)
      (ofTree settings root folder (.folder entries)) where
  apart _ _ hnames hothers := h.descend_inj hnames hothers
  once directories own hfile hextension := by
    have hroute := (RouteSettings.isRouteFile_descend_iff root (h.isName_of_hasFile hfile)).2
      hextension
    rw [← List.count_append, files_perm.count_eq, List.count_filter hroute]
    exact List.count_eq_one_of_mem (h.files_nodup root) (Tree.mem_files.2 ⟨_, hfile, rfl⟩)
  only path hpath := by
    obtain ⟨hmem, hroute⟩ := List.mem_filter.1 (files_perm.mem_iff.1 hpath)
    obtain ⟨names, hfile, rfl⟩ := Tree.mem_files.1 hmem
    obtain ⟨directories, own, rfl⟩ := hfile.exists_own
    exact ⟨directories, own, hfile,
      (RouteSettings.isRouteFile_descend_iff root (h.isName_of_hasFile hfile)).1 hroute, rfl⟩
  route_iff directories own hfile hextension := by
    have hnames := h.isName_of_hasFile hfile
    have hroute := (RouteSettings.isRouteFile_descend_iff root hnames).2 hextension
    have hmem : root.descend (directories ++ [own]) ∈ (Tree.folder entries).files root :=
      Tree.mem_files.2 ⟨_, hfile, rfl⟩
    rw [← RouteFile.exists_ofPath_descend_iff root folder hnames, List.mem_map]
    constructor
    · rintro ⟨entry, hentry, hpath⟩
      exact ⟨entry, hpath ▸ (mem_entries.1 hentry).2.2⟩
    · rintro ⟨entry, hok⟩
      have hpath := RouteFile.fullPath_of_ofPath hok
      exact ⟨entry, mem_entries.2 (hpath.symm ▸ ⟨hmem, hroute, hok⟩), hpath⟩
  made entry hentry := (mem_entries.1 hentry).2.2
  failed error herror := (mem_diagnostics.1 herror).2.2
  inside file other hmem := by
    obtain ⟨hfile, -, herror⟩ := mem_diagnostics.1 hmem
    obtain ⟨names, hnames, hpath⟩ := Tree.mem_files.1 hfile
    obtain ⟨directories, own, rfl⟩ := hnames.exists_own
    rw [← hpath] at herror
    exact RouteFile.ofPath_descend_ne_outsideRoot folder file other (h.isName_of_hasFile hnames)
      herror
  entries_ordered := by
    refine List.Pairwise.and ?_ (entries_pairwise settings root folder h)
    exact (Specificity.sortBy_pairwise RouteFile.specificity _).imp fun hle =>
      Specificity.le_iff_compare_ne_gt.1 hle
  diagnostics_ordered := diagnostics_pairwise settings root folder h

/-- The second tree has the files of the first one and the one at the given names. -/
def AddsFile (tree other : Tree) (added : List Bytes) : Prop :=
  ∀ names, other.HasFile names ↔ tree.HasFile names ∨ names = added

theorem addsFile_of_places {other : Tree} {before after : List (List Bytes)} {added : List Bytes}
    (hother : other.places = before ++ added :: after) (htree : tree.places = before ++ after) :
    AddsFile tree other added := by
  intro names
  rw [← Tree.mem_places, ← Tree.mem_places, hother, htree]
  simp only [List.mem_append, List.mem_cons]
  tauto

theorem entries_of_addsFile {other : Tree} {added : List Bytes} (h : tree.Proper)
    (hother : other.Proper) (hadds : AddsFile tree other added)
    (hdiagnostic : root.descend added ∈
      (ofTree settings root folder other).diagnostics.map RouteError.file) :
    (ofTree settings root folder other).entries = (ofTree settings root folder tree).entries := by
  refine entries_congr hother h fun names hentry => ?_
  rw [hadds names]
  refine or_iff_left ?_
  rintro rfl
  obtain ⟨error, herror, hpath⟩ := List.mem_map.1 hdiagnostic
  have hfailed := (mem_diagnostics.1 herror).2.2
  rw [hpath] at hfailed
  simp [entryAt, hfailed, Except.toOption] at hentry

end Findings

namespace Tree

open Findings (ofTree)

/-- Discovery accounts for the files below a folder, and one more file that it leaves out changes
no entry. -/
theorem discover_accounts (settings : RouteSettings) (root : FilePath) (folder : Folder)
    {entries : List (Bytes × Tree)} (h : (Tree.folder entries).Proper) :
    (∀ project : Tree, project.find? root = some (.folder entries) →
        project.discover settings root folder =
          .ok (ofTree settings root folder (.folder entries))) ∧
      Findings.Account settings root folder (.folder entries)
        (ofTree settings root folder (.folder entries)) ∧
      ∀ others added, (Tree.folder others).Proper →
        Findings.AddsFile (.folder entries) (.folder others) added →
        root.descend added ∈
          (ofTree settings root folder (.folder others)).diagnostics.map RouteError.file →
        (ofTree settings root folder (.folder others)).entries =
          (ofTree settings root folder (.folder entries)).entries := by
  refine ⟨fun project hfound => ?_, Findings.account_ofTree settings root folder h,
    fun others added hothers hadds hdiagnostic =>
      Findings.entries_of_addsFile h hothers hadds hdiagnostic⟩
  simp only [discover, findingsAt?, hfound]

/-- Two directories with a route file each, and a file that is none. -/
def usersProject : Tree :=
  ((empty.withFile (.ofText "api/users/[id]/index.rs".toList) []).withFile
    (.ofText "api/users/account/index.rs".toList) []).withFile
      (.ofText "api/users/README.md".toList) []

/-- The same with a directory whose name does not compile. -/
def brokenProject : Tree :=
  usersProject.withFile (.ofText "api/users/\x7b:id/index.rs".toList) []

def soundEntries : List (Bytes × Tree) :=
  [(Utf8.encode "README.md".toList, .file []),
    (Utf8.encode "[id]".toList, .folder [(Utf8.encode "index.rs".toList, .file [])]),
    (Utf8.encode "account".toList, .folder [(Utf8.encode "index.rs".toList, .file [])])]

def brokenEntry : Bytes × Tree :=
  (Utf8.encode "\x7b:id".toList, .folder [(Utf8.encode "index.rs".toList, .file [])])

def usersFolder : List (Bytes × Tree) :=
  [(Utf8.encode "users".toList, .folder soundEntries)]

def brokenFolder : List (Bytes × Tree) :=
  [(Utf8.encode "users".toList, .folder (soundEntries ++ [brokenEntry]))]

def dottedRoot : FilePath :=
  .ofText "./api/".toList

theorem discover_accounts_beside_broken_directory :
    (Tree.folder usersFolder).Proper ∧
      usersProject.discover {} dottedRoot .api =
        .ok (ofTree {} dottedRoot .api (.folder usersFolder)) ∧
      Findings.Account {} dottedRoot .api (.folder usersFolder)
        (ofTree {} dottedRoot .api (.folder usersFolder)) ∧
      (ofTree {} dottedRoot .api (.folder usersFolder)).entries.map RouteFile.name =
        ["users/account".toList, "users/[id]".toList] ∧
      brokenProject.discover {} dottedRoot .api =
        .ok (ofTree {} dottedRoot .api (.folder brokenFolder)) ∧
      (ofTree {} dottedRoot .api (.folder brokenFolder)).entries =
        (ofTree {} dottedRoot .api (.folder usersFolder)).entries := by
  have hproject : usersProject.Proper := ((proper_empty.withFile _ _).withFile _ _).withFile _ _
  have hfound : usersProject.find? dottedRoot = some (.folder usersFolder) := by cbv
  have hbroken : brokenProject.find? dottedRoot = some (.folder brokenFolder) := by cbv
  have hplaces : (Tree.folder brokenFolder).places = (Tree.folder usersFolder).places ++
      [["users", "\x7b:id", "index.rs"].map fun name => Utf8.encode name.toList] := by cbv
  have hdiagnostic : (ofTree {} dottedRoot .api (.folder brokenFolder)).diagnostics.map
      RouteError.file =
        [dottedRoot.descend (["users", "\x7b:id", "index.rs"].map fun name =>
          Utf8.encode name.toList)] := by cbv
  obtain ⟨hdiscover, haccount, hadd⟩ :=
    discover_accounts {} dottedRoot .api (hproject.find? hfound)
  have hdiscover' := (discover_accounts {} dottedRoot .api
    ((hproject.withFile _ _).find? hbroken)).1 brokenProject hbroken
  refine ⟨hproject.find? hfound, hdiscover usersProject hfound, haccount, by cbv, hdiscover',
    hadd brokenFolder _ ((hproject.withFile _ _).find? hbroken)
      (Findings.addsFile_of_places (by rw [hplaces]) (List.append_nil _).symm) ?_⟩
  rw [hdiagnostic]
  exact List.mem_singleton_self _

end Tree

end FileRoutes
