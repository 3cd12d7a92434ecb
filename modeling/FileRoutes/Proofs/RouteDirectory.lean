import FileRoutes.Proofs.BelowRoot
import FileRoutes.Proofs.Discovery
import FileRoutes.Proofs.KeptFiles
import FileRoutes.Proofs.Nesting
import FileRoutes.Proofs.Verbatim

/-! The directory of a route. Each route file that discovery finds lies in one directory below the
routes directory, and the name of its route tells which, with one exception: files right in the
routes directory share their name with those right in its subdirectory `index`. -/

namespace FileRoutes

/-- The routes directory itself and its subdirectory `index`. -/
def Twins {α : Type} (index : α) (directories others : List α) : Prop :=
  directories = [] ∧ others = [index] ∨ directories = [index] ∧ others = []

theorem twins_map_iff {α β : Type} {f : α → β} (hf : Function.Injective f) (index : α)
    (directories others : List α) :
    Twins (f index) (directories.map f) (others.map f) ↔ Twins index directories others := by
  have hsingleton : ∀ names : List α, names.map f = [f index] ↔ names = [index] := by
    intro names
    rw [← List.map_singleton, (List.map_injective_iff.2 hf).eq_iff]
  simp only [Twins, List.map_eq_nil_iff, hsingleton]

namespace Utf8

theorem encode_injective : Function.Injective encode := by
  intro text other hsame
  have hdecode := congrArg decode? hsame
  rw [decode?_encode, decode?_encode] at hdecode
  exact Option.some.inj hdecode

end Utf8

namespace RouteFile

open Text (IsSegment)

theorem nameOf_eq_iff {segments others : List Text}
    (h : ∀ segment ∈ segments, IsSegment segment) (hothers : ∀ other ∈ others, IsSegment other) :
    nameOf segments = nameOf others ↔
      segments = others ∨ Twins "index".toList segments others := by
  have hindex : Text.segments "index".toList = ["index".toList] := by cbv
  constructor
  · intro hsame
    rcases segments_nameOf h with hleft | ⟨rfl, hleft⟩ <;>
      rcases segments_nameOf hothers with hright | ⟨rfl, hright⟩
    · exact Or.inl (by rw [← hleft, hsame, hright])
    · rw [hsame, hright, hindex] at hleft
      exact Or.inr (Or.inr ⟨hleft.symm, rfl⟩)
    · rw [← hsame, hleft, hindex] at hright
      exact Or.inr (Or.inl ⟨rfl, hright.symm⟩)
    · exact Or.inl rfl
  · rintro (rfl | ⟨rfl, rfl⟩ | ⟨rfl, rfl⟩) <;> rfl

end RouteFile

namespace Forest

/-- Only a file of the same name is kept instead of another. -/
theorem name_eq_of_mem_events {settings : PageSettings} {entries : List RouteFile} {role : Role}
    {kept ignored : RouteFile}
    (h : .duplicateFile role kept ignored ∈ events settings entries) :
    kept ∈ entries ∧ ignored ∈ entries ∧ kept.name = ignored.name := by
  obtain ⟨page, -, _, -, _, others, _, hgroup, hignored, hevent⟩ := mem_events.1 h
  cases hevent
  have hmem : ∀ entry ∈ kept :: others, entry ∈ entries ∧ entry.name = page.name := by
    intro entry hentry
    rw [← hgroup, mem_filesOf, mem_routable] at hentry
    exact ⟨hentry.1.1, hentry.2.1⟩
  obtain ⟨hkept, hname⟩ := hmem kept List.mem_cons_self
  obtain ⟨hother, hsame⟩ := hmem ignored (List.mem_cons_of_mem _ hignored)
  exact ⟨hkept, hother, hname.trans hsame.symm⟩

end Forest

namespace Tree

open Findings (ofTree)

variable {settings : RouteSettings} {root : FilePath} {folder : Folder} {tree : Tree}
  {entries : List (Bytes × Tree)} {entry : RouteFile} {directories others : List Bytes}

/-- The file of an entry lies right in the directory that the names lead to. -/
def LiesIn (tree : Tree) (root : FilePath) (entry : RouteFile) (directories : List Bytes) : Prop :=
  ∃ own, tree.HasFile (directories ++ [own]) ∧
    root.descend (directories ++ [own]) = entry.fullPath

/-- A file lies in one directory. -/
theorem Proper.existsUnique_liesIn (h : (Tree.folder entries).Proper)
    (hfile : entry.fullPath ∈ (Tree.folder entries).files root) :
    ∃! directories, (Tree.folder entries).LiesIn root entry directories := by
  obtain ⟨names, hnames, hpath⟩ := mem_files.1 hfile
  obtain ⟨directories, own, rfl⟩ := hnames.exists_own
  refine ⟨directories, ⟨own, hnames, hpath⟩, fun others ⟨other, hother, hsame⟩ => ?_⟩
  have hplace := h.descend_inj hother hnames (hsame.trans hpath.symm)
  exact List.append_inj_left' hplace rfl

/-- The directory of a route file is spelled by its name. -/
theorem Proper.exists_segments (h : tree.Proper) (hlies : tree.LiesIn root entry directories)
    (hok : RouteFile.ofPath entry.fullPath root folder = .ok entry) :
    ∃ segments, (∀ segment ∈ segments, Text.IsSegment segment) ∧
      segments.map Utf8.encode = directories ∧ entry.name = RouteFile.nameOf segments := by
  obtain ⟨own, hfile, hpath⟩ := hlies
  obtain ⟨segments, hlocated⟩ := RouteFile.ofPath_eq_ok_iff.1 hok
  have hcomponents := hlocated.components
  rw [← hpath, FilePath.components_descend root (h.isName_of_hasFile hfile), List.map_append]
    at hcomponents
  have hnames := List.append_inj_left' (List.append_cancel_left hcomponents) rfl
  refine ⟨segments, hlocated.isSegment, ?_, hlocated.name⟩
  have hinj : Function.Injective FilePath.Component.name := fun _ _ => FilePath.Component.name.inj
  apply List.map_injective_iff.2 hinj
  rw [List.map_map, hnames]
  rfl

theorem Proper.name_eq_iff (h : tree.Proper) {other : RouteFile}
    (hentry : entry ∈ (ofTree settings root folder tree).entries)
    (hother : other ∈ (ofTree settings root folder tree).entries)
    (hlies : tree.LiesIn root entry directories) (hliesOther : tree.LiesIn root other others) :
    entry.name = other.name ↔
      directories = others ∨ Twins (Utf8.encode "index".toList) directories others := by
  obtain ⟨segments, hsegments, rfl, hname⟩ :=
    h.exists_segments hlies (Findings.mem_entries.1 hentry).2.2
  obtain ⟨more, hmore, rfl, hnameOther⟩ :=
    h.exists_segments hliesOther (Findings.mem_entries.1 hother).2.2
  rw [hname, hnameOther, RouteFile.nameOf_eq_iff hsegments hmore,
    twins_map_iff Utf8.encode_injective,
    (List.map_injective_iff.2 Utf8.encode_injective).eq_iff]

/-- Route files of one name lie in one directory, or one right in the routes directory and the
other right in its subdirectory `index`. No others are duplicates of each other. -/
theorem same_name_iff (settings : RouteSettings) (root : FilePath) (folder : Folder)
    {entries : List (Bytes × Tree)} (h : (Tree.folder entries).Proper) :
    (∀ project : Tree, project.find? root = some (.folder entries) →
        project.discover settings root folder =
          .ok (ofTree settings root folder (.folder entries))) ∧
      (∀ entry ∈ (ofTree settings root folder (.folder entries)).entries,
        ∃! directories, (Tree.folder entries).LiesIn root entry directories) ∧
      (∀ entry ∈ (ofTree settings root folder (.folder entries)).entries,
        ∀ other ∈ (ofTree settings root folder (.folder entries)).entries,
          ∀ directories others, (Tree.folder entries).LiesIn root entry directories →
            (Tree.folder entries).LiesIn root other others →
              (entry.name = other.name ↔
                directories = others ∨ Twins (Utf8.encode "index".toList) directories others)) ∧
      ∀ pages role kept ignored,
        .duplicateFile role kept ignored ∈
            Forest.events pages (ofTree settings root folder (.folder entries)).entries →
          ∀ directories others, (Tree.folder entries).LiesIn root kept directories →
            (Tree.folder entries).LiesIn root ignored others →
              directories = others ∨
                Twins (Utf8.encode "index".toList) directories others := by
  refine ⟨fun project hfound => ?_, fun entry hentry => ?_,
    fun entry hentry other hother directories others hlies hliesOther =>
      h.name_eq_iff hentry hother hlies hliesOther,
    fun pages role kept ignored hevent directories others hlies hliesOther => ?_⟩
  · simp only [discover, findingsAt?, hfound]
  · exact h.existsUnique_liesIn (Findings.mem_entries.1 hentry).1
  · obtain ⟨hkept, hignored, hsame⟩ := Forest.name_eq_of_mem_events hevent
    exact (h.name_eq_iff hkept hignored hlies hliesOther).1 hsame

def indexFile : Bytes × Tree :=
  (Utf8.encode "index.rs".toList, .file [])

def indexDirectory : Bytes × Tree :=
  (Utf8.encode "index".toList, .folder [indexFile])

def apiRoot : FilePath :=
  .ofText "api".toList

/-- The route file `index.rs` in a directory that compiles to the given tokens. -/
def indexRoute (name : Text) (path : String) (tokens : List Token) (pattern : Text) : RouteFile :=
  ⟨name, .api, "index.rs".toList, .ofText path.toList, tokens, some pattern⟩

/-- Both files of the directory that `indexDirectory` and `indexFile` make up. -/
def indexEntries : List (Bytes × Tree) :=
  [indexDirectory, indexFile]

theorem hasFile_indexEntries : (Tree.folder indexEntries).HasFile [Utf8.encode "index.rs".toList] :=
  .inside (List.mem_cons_of_mem _ List.mem_cons_self) .here

theorem hasFile_indexDirectory : (Tree.folder indexEntries).HasFile
    [Utf8.encode "index".toList, Utf8.encode "index.rs".toList] :=
  .inside List.mem_cons_self (.inside List.mem_cons_self .here)

def usersEntries : List (Bytes × Tree) :=
  [(Utf8.encode "users".toList, .folder indexEntries)]

def indexBelowUsers : Tree :=
  (empty.withFile (.ofText "api/users/index.rs".toList) []).withFile
    (.ofText "api/users/index/index.rs".toList) []

/-- Further down, a directory `index` is one like any other. -/
theorem same_name_iff_below_users :
    ∃ findings, indexBelowUsers.discover {} apiRoot .api = .ok findings ∧
      ∃ entry ∈ findings.entries, ∃ other ∈ findings.entries,
        entry.fullPath = .ofText "api/users/index.rs".toList ∧
          other.fullPath = .ofText "api/users/index/index.rs".toList ∧
          entry.name ≠ other.name := by
  have hfound : indexBelowUsers.find? apiRoot = some (.folder usersEntries) := by cbv
  have hproper : (Tree.folder usersEntries).Proper :=
    Proper.find? ((proper_empty.withFile _ _).withFile _ _ : indexBelowUsers.Proper) hfound
  have hentries : (ofTree {} apiRoot .api (.folder usersEntries)).entries =
      [indexRoute "users/index".toList "api/users/index/index.rs" [.literal "users".toList,
          .literal "index".toList] "users/index".toList,
        indexRoute "users".toList "api/users/index.rs" [.literal "users".toList]
          "users".toList] := by cbv
  obtain ⟨hdiscover, -, hnames, -⟩ := same_name_iff {} apiRoot .api hproper
  refine ⟨_, hdiscover _ hfound, ?_⟩
  rw [hentries] at hnames ⊢
  refine ⟨_, List.mem_cons_of_mem _ List.mem_cons_self, _, List.mem_cons_self, rfl, rfl,
    fun hsame => ?_⟩
  have hplaces := (hnames _ (List.mem_cons_of_mem _ List.mem_cons_self) _ List.mem_cons_self
    [Utf8.encode "users".toList] [Utf8.encode "users".toList, Utf8.encode "index".toList]
    ⟨_, .inside List.mem_cons_self hasFile_indexEntries, by cbv⟩
    ⟨_, .inside List.mem_cons_self hasFile_indexDirectory, by cbv⟩).1 hsame
  simp [Twins] at hplaces

/-- Files right in the routes directory and right in its subdirectory `index`. -/
def twinProject : Tree :=
  (empty.withFile (.ofText "api/index.rs".toList) []).withFile
    (.ofText "api/index/index.rs".toList) []

theorem one_name_for_two_directories :
    twinProject.find? apiRoot = some (.folder indexEntries) ∧
      ∃ findings, twinProject.discover {} apiRoot .api = .ok findings ∧
        ¬ ∀ entry ∈ findings.entries, ∀ other ∈ findings.entries, entry.name = other.name →
          ∀ directories others, (Tree.folder indexEntries).LiesIn apiRoot entry directories →
            (Tree.folder indexEntries).LiesIn apiRoot other others → directories = others := by
  have hfound : twinProject.find? apiRoot = some (.folder indexEntries) := by cbv
  have hdiscover : twinProject.discover {} apiRoot .api =
      .ok (ofTree {} apiRoot .api (.folder indexEntries)) := by
    simp only [discover, findingsAt?, hfound]
  have hentries : (ofTree {} apiRoot .api (.folder indexEntries)).entries =
      [indexRoute "index".toList "api/index/index.rs" [] [],
        indexRoute "index".toList "api/index.rs" [] []] := by cbv
  refine ⟨hfound, _, hdiscover, fun hsame => ?_⟩
  rw [hentries] at hsame
  have hequal := hsame _ List.mem_cons_self _ (List.mem_cons_of_mem _ List.mem_cons_self) rfl
    [Utf8.encode "index".toList] [] ⟨_, hasFile_indexDirectory, by cbv⟩
    ⟨_, hasFile_indexEntries, by cbv⟩
  exact List.cons_ne_nil _ _ hequal

end Tree

end FileRoutes
