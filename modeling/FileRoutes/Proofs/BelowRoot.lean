import FileRoutes.Proofs.FoundFile
import FileRoutes.Proofs.JoinedPath

/-! Paths below a directory, however both are spelled. A path makes a route file exactly if its
components are those of the directory and then names that are texts, of which those before the last
one compile together. Of several faults the one that is told is the first in the order in which the
path is looked at: where it lies, the name of the file, its directories from the outermost one, and
last the pattern. The name of the route tells the directories, but for the reserved name of the
routes directory itself. -/

namespace FileRoutes

namespace FilePath

variable {root path : FilePath} {below : List Component}

theorem componentsBelow?_eq_some_iff :
    componentsBelow? root path = some below ↔ path.components = root.components ++ below := by
  unfold componentsBelow?
  split
  · next h =>
    obtain ⟨rest, hrest⟩ := List.isPrefixOf_iff_prefix.1 h
    rw [← hrest, List.drop_left, Option.some_inj, List.append_cancel_left_eq]
  · next h =>
    refine ⟨nofun, fun hbelow => absurd ?_ h⟩
    rw [List.isPrefixOf_iff_prefix, hbelow]
    exact List.prefix_append _ _

theorem componentsBelow?_eq_none_iff :
    componentsBelow? root path = none ↔ ¬ root.components <+: path.components := by
  rw [componentsBelow?, ← List.isPrefixOf_iff_prefix]
  split <;> simp_all

/-- The components that texts stand for. -/
def textComponents (texts : List Text) : List Component :=
  texts.map fun text => .name (Utf8.encode text)

/-- What follows a directory ends in a name, or there is no file to speak of. -/
theorem unnamed_or_named (below : List Component) :
    (∀ own, below.getLast? ≠ some (.name own)) ∨
      ∃ directories own, below = directories ++ [.name own] := by
  by_cases h : ∃ own, below.getLast? = some (.name own)
  · obtain ⟨own, hown⟩ := h
    obtain ⟨directories, rfl⟩ := List.getLast?_eq_some_iff.1 hown
    exact Or.inr ⟨directories, own, rfl⟩
  · exact Or.inl fun own hown => h ⟨own, hown⟩

end FilePath

namespace RouteFile

open FilePath (Component textComponents)

variable {root path : FilePath} {folder : Folder} {entry : RouteFile} {error : RouteError}
  {directories below : List Component} {own : Bytes}

/-- Why a component is no directory of a route. -/
inductive BadDirectory (path root : FilePath) : Component → RouteError → Prop where
  | bytes {name : Bytes} (h : ∀ text, Utf8.encode text ≠ name) :
    BadDirectory path root (.name name) (.notUtf8 path)
  | kind {component : Component} (h : ∀ name, component ≠ .name name) :
    BadDirectory path root component (.outsideRoot path root)

/-- Why a path makes no route file of a directory. Each reason rules out those before it. -/
inductive Refused (path root : FilePath) : RouteError → Prop where
  | elsewhere (h : ¬ root.components <+: path.components) :
    Refused path root (.outsideRoot path root)
  | unnamed {below : List Component} (hbelow : path.components = root.components ++ below)
    (h : ∀ own, below.getLast? ≠ some (.name own)) : Refused path root (.outsideRoot path root)
  | fileBytes {directories : List Component} {own : Bytes}
    (hbelow : path.components = root.components ++ (directories ++ [.name own]))
    (h : ∀ file, Utf8.encode file ≠ own) : Refused path root (.notUtf8 path)
  | directory {before : List Text} {bad : Component} {after : List Component} {file : Text}
    {error : RouteError}
    (hbelow : path.components = root.components ++
      (textComponents before ++ bad :: after ++ [.name (Utf8.encode file)]))
    (h : BadDirectory path root bad error) : Refused path root error
  | pattern {segments : List Text} {file : Text} {fault : PatternError}
    (hbelow : path.components = root.components ++
      (textComponents segments ++ [.name (Utf8.encode file)]))
    (h : Pattern.compile (nameOf segments) = .error fault) :
    Refused path root (.pattern path fault)

/-- The path leads from the directory through the segments to the file of the entry, which is what
the name of the segments compiles to. -/
structure Located (path root : FilePath) (folder : Folder) (segments : List Text)
    (entry : RouteFile) : Prop where
  components : path.components = root.components ++
    (textComponents segments ++ [.name (Utf8.encode entry.file)])
  name : entry.name = nameOf segments
  folder : entry.folder = folder
  fullPath : entry.fullPath = path
  compiled : ∃ p, Pattern.compile entry.name = .ok p ∧ entry.tokens = p.tokens ∧
    entry.pattern? = some p.pattern

theorem decode?_eq_none_iff {bytes : Bytes} :
    Utf8.decode? bytes = none ↔ ∀ text, Utf8.encode text ≠ bytes := by
  simp only [Option.eq_none_iff_forall_ne_some, ne_eq, Utf8.decode?_eq_some_iff]

theorem directorySegment_eq_ok_iff {component : Component} {segment : Text} :
    directorySegment path root component = .ok segment ↔
      component = .name (Utf8.encode segment) := by
  cases component with
  | name bytes =>
    rw [Component.name.injEq, eq_comm (a := bytes), ← Utf8.decode?_eq_some_iff, directorySegment]
    cases Utf8.decode? bytes <;> simp
  | root | here | up => simp [directorySegment]

theorem directorySegment_eq_error_iff {component : Component} :
    directorySegment path root component = .error error ↔
      BadDirectory path root component error := by
  constructor
  · intro h
    unfold directorySegment at h
    split at h
    · split at h
      · cases h
      · next hnone =>
        obtain rfl := Except.error.inj h
        exact .bytes (decode?_eq_none_iff.1 hnone)
    · next hkind =>
      obtain rfl := Except.error.inj h
      exact .kind hkind
  · rintro (h | h)
    · rw [directorySegment, decode?_eq_none_iff.2 h]
    · cases component with
      | name bytes => exact absurd rfl (h bytes)
      | root | here | up => rfl

theorem mapM_directorySegment_eq_ok_iff {segments : List Text} :
    directories.mapM (directorySegment path root) = .ok segments ↔
      directories = textComponents segments := by
  rw [mapM_eq_ok_iff, textComponents, ← List.forall₂_eq_eq_eq, List.forall₂_map_right_iff]
  simp only [directorySegment_eq_ok_iff]

theorem ofPath_of_elsewhere (h : ¬ root.components <+: path.components) :
    ofPath path root folder = .error (.outsideRoot path root) := by
  simp only [ofPath, FilePath.componentsBelow?_eq_none_iff.2 h]

theorem ofPath_of_unnamed (hbelow : path.components = root.components ++ below)
    (h : ∀ own, below.getLast? ≠ some (.name own)) :
    ofPath path root folder = .error (.outsideRoot path root) := by
  simp only [ofPath, FilePath.componentsBelow?_eq_some_iff.2 hbelow]

theorem ofPath_of_named
    (hbelow : path.components = root.components ++ (directories ++ [.name own])) :
    ofPath path root folder =
      match Utf8.decode? own with
      | none => .error (.notUtf8 path)
      | some file => (directories.mapM (directorySegment path root)).bind fun segments =>
          (make folder (nameOf segments) file path).mapError (.pattern path) := by
  simp only [ofPath, FilePath.componentsBelow?_eq_some_iff.2 hbelow, List.getLast?_concat,
    List.dropLast_concat]
  cases Utf8.decode? own with
  | none => rfl
  | some file =>
    simp only
    cases directories.mapM (directorySegment path root) with
    | error e => rfl
    | ok segments =>
      simp only [Except.bind]
      cases make folder (nameOf segments) file path <;> rfl

/-- Where all names are texts, the pattern decides. -/
theorem ofPath_of_texts {segments : List Text} {file : Text}
    (hbelow : path.components = root.components ++
      (textComponents segments ++ [.name (Utf8.encode file)])) :
    ofPath path root folder =
      (make folder (nameOf segments) file path).mapError (.pattern path) := by
  rw [ofPath_of_named hbelow, Utf8.decode?_encode, mapM_directorySegment_eq_ok_iff.2 rfl]
  rfl

theorem ofPath_of_located {segments : List Text} (h : Located path root folder segments entry) :
    ofPath path root folder = .ok entry := by
  obtain ⟨hbelow, hname, rfl, rfl, p, hp, htokens, hpattern⟩ := h
  rw [ofPath_of_texts hbelow, mapError_eq_ok_iff, make_eq_ok_iff, ← hname]
  exact ⟨p, hp, by rw [← htokens, ← hpattern]⟩

theorem ofPath_of_refused (h : Refused path root error) :
    ofPath path root folder = .error error := by
  cases h with
  | elsewhere h => exact ofPath_of_elsewhere h
  | unnamed hbelow h => exact ofPath_of_unnamed hbelow h
  | fileBytes hbelow h => rw [ofPath_of_named hbelow, decode?_eq_none_iff.2 h]
  | @directory before bad after file _ hbelow h =>
    have hnames : (textComponents before ++ bad :: after).mapM (directorySegment path root) =
        .error error :=
      mapM_eq_error_iff.2 ⟨_, bad, after, before, rfl, mapM_directorySegment_eq_ok_iff.2 rfl,
        directorySegment_eq_error_iff.2 h⟩
    rw [ofPath_of_named hbelow, Utf8.decode?_encode, hnames]
    rfl
  | pattern hbelow h =>
    rw [ofPath_of_texts hbelow, make, h]
    rfl

/-- Behind the directory either all names are texts that compile or there is a first fault. -/
theorem located_or_refused_of_named (folder : Folder)
    (hbelow : path.components = root.components ++ (directories ++ [.name own])) :
    (∃ entry segments, Located path root folder segments entry) ∨
      ∃ error, Refused path root error := by
  cases hown : Utf8.decode? own with
  | none => exact Or.inr ⟨_, .fileBytes hbelow (decode?_eq_none_iff.1 hown)⟩
  | some file =>
    obtain rfl := Utf8.encode_of_decode? hown
    cases hnames : directories.mapM (directorySegment path root) with
    | error error =>
      obtain ⟨before, bad, after, texts, rfl, hbefore, hbad⟩ := mapM_eq_error_iff.1 hnames
      obtain rfl := mapM_directorySegment_eq_ok_iff.1 hbefore
      exact Or.inr ⟨error, .directory hbelow (directorySegment_eq_error_iff.1 hbad)⟩
    | ok segments =>
      obtain rfl := mapM_directorySegment_eq_ok_iff.1 hnames
      cases hcompile : Pattern.compile (nameOf segments) with
      | error fault => exact Or.inr ⟨_, .pattern hbelow hcompile⟩
      | ok p =>
        exact Or.inl ⟨⟨nameOf segments, folder, file, path, p.tokens, some p.pattern⟩, segments,
          hbelow, rfl, rfl, rfl, p, hcompile, rfl, rfl⟩

theorem located_or_refused (path root : FilePath) (folder : Folder) :
    (∃ entry segments, Located path root folder segments entry) ∨
      ∃ error, Refused path root error := by
  by_cases hprefix : root.components <+: path.components
  · obtain ⟨below, hbelow⟩ := hprefix
    rcases FilePath.unnamed_or_named below with hunnamed | ⟨directories, own, rfl⟩
    · exact Or.inr ⟨_, .unnamed hbelow.symm hunnamed⟩
    · exact located_or_refused_of_named folder hbelow.symm
  · exact Or.inr ⟨_, .elsewhere hprefix⟩

theorem ofPath_eq_ok_iff : ofPath path root folder = .ok entry ↔
    ∃ segments, Located path root folder segments entry := by
  refine ⟨fun h => ?_, fun ⟨_, h⟩ => ofPath_of_located h⟩
  rcases located_or_refused path root folder with ⟨found, segments, hfound⟩ | ⟨error, hrefused⟩
  · obtain rfl := Except.ok.inj ((ofPath_of_located hfound).symm.trans h)
    exact ⟨segments, hfound⟩
  · cases (ofPath_of_refused hrefused).symm.trans h

theorem ofPath_eq_error_iff :
    ofPath path root folder = .error error ↔ Refused path root error := by
  refine ⟨fun h => ?_, ofPath_of_refused⟩
  rcases located_or_refused path root folder with ⟨entry, segments, hfound⟩ | ⟨other, hrefused⟩
  · cases (ofPath_of_located hfound).symm.trans h
  · obtain rfl := Except.error.inj ((ofPath_of_refused hrefused).symm.trans h)
    exact hrefused

theorem isSegment_of_isName {segment : Text} (h : FilePath.IsName (Utf8.encode segment)) :
    Text.IsSegment segment := by
  refine ⟨fun hempty => h.ne_nil (by rw [hempty]; rfl), fun hslash => h.no_slash ?_⟩
  exact List.mem_flatMap.2 ⟨'/', hslash, by decide⟩

theorem Located.isSegment {segments : List Text} (h : Located path root folder segments entry) :
    ∀ segment ∈ segments, Text.IsSegment segment := by
  intro segment hsegment
  have hmem : .name (Utf8.encode segment) ∈ path.components := by
    rw [h.components]
    simp only [List.mem_append, textComponents, List.mem_map]
    exact Or.inr (Or.inl ⟨segment, hsegment, rfl⟩)
  exact isSegment_of_isName (FilePath.isName_of_mem_components hmem)

/-- A name tells its segments, unless it is the one for no segments. -/
theorem segments_nameOf {segments : List Text} (h : ∀ segment ∈ segments, Text.IsSegment segment) :
    Text.segments (nameOf segments) = segments ∨
      segments = [] ∧ nameOf segments = "index".toList := by
  cases segments with
  | nil => exact Or.inr ⟨rfl, rfl⟩
  | cons segment segments => exact Or.inl (Text.segments_joinSegments h (by simp))

/-- A path makes the route file of a place below the directory, or is refused for the first reason
there is. -/
theorem ofPath_settled (path root : FilePath) (folder : Folder) :
    (∀ entry, ofPath path root folder = .ok entry ↔
        ∃ segments, Located path root folder segments entry) ∧
      (∀ error, ofPath path root folder = .error error ↔ Refused path root error) ∧
      ∀ entry segments, Located path root folder segments entry →
        Text.segments entry.name = segments ∨
          segments = [] ∧ entry.name = "index".toList := by
  refine ⟨fun entry => ofPath_eq_ok_iff, fun error => ofPath_eq_error_iff,
    fun entry segments h => ?_⟩
  rw [h.name]
  exact segments_nameOf h.isSegment

def slugLayout : FilePath :=
  .ofText "/srv/.//app/blog/[slug]/layout.rsx".toList

def dottedApp : FilePath :=
  .ofText "/srv/app/.".toList

/-- Two spellings of one directory, and the path that leads out of it and back. -/
theorem ofPath_settled_below_dotted_app :
    (∃ entry segments, ofPath slugLayout dottedApp .pages = .ok entry ∧
        Located slugLayout dottedApp .pages segments entry ∧
        entry.name = "blog/[slug]".toList ∧ segments = ["blog".toList, "[slug]".toList]) ∧
      Refused (.ofText "/srv/app/../app/[id/index.rs".toList) dottedApp
        (.outsideRoot (.ofText "/srv/app/../app/[id/index.rs".toList) dottedApp) := by
  obtain ⟨hok, -, hname⟩ := ofPath_settled slugLayout dottedApp .pages
  obtain ⟨-, herror, -⟩ := ofPath_settled (.ofText "/srv/app/../app/[id/index.rs".toList) dottedApp
    .pages
  have hfound : ofPath slugLayout dottedApp .pages = .ok
      ⟨"blog/[slug]".toList, .pages, "layout.rsx".toList, slugLayout,
        Pattern.tokensOf ["blog".toList, "[slug]".toList]
          [[.text "blog".toList], [.param "slug".toList]],
        some "blog/:slug".toList⟩ := by cbv
  refine ⟨?_, (herror _).1 (by cbv)⟩
  obtain ⟨segments, h⟩ := (hok _).1 hfound
  rcases hname _ segments h with hsegments | ⟨-, hindex⟩
  · exact ⟨_, segments, hfound, h, rfl, hsegments.symm.trans (by cbv)⟩
  · exact absurd hindex (by decide)

end RouteFile

end FileRoutes
