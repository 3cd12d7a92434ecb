import FileRoutes.Proofs.CompiledName
import FileRoutes.Proofs.Utf8
import FileRoutes.Proofs.Walk

/-! What becomes of one file. Below the routes directory, however that is spelled, the components of
its path are those of the directory and the names that lead to it, so it is never outside. Then it
is a route file if the names are texts and those of the directories compile, and otherwise there is
an error that names it. Whether it counts at all is told by the end of its own name. -/

namespace FileRoutes

namespace FilePath

theorem splitName_of_not_mem {name : Bytes} (h : dot ∉ name) : splitName name = (name, none) := by
  have hall : name.reverse.takeWhile (· != dot) = name.reverse := by
    apply List.takeWhile_eq_self_iff.2
    intro b hb
    have hne : b ≠ dot := fun hdot => h (hdot ▸ List.mem_reverse.1 hb)
    simpa using hne
  simp [splitName, hall]

theorem splitName_append_dot (stem : Bytes) {extension : Bytes} (h : dot ∉ extension) :
    splitName (stem ++ dot :: extension) =
      if stem.isEmpty then (stem ++ dot :: extension, none) else (stem, some extension) := by
  have hlast : (stem ++ dot :: extension).reverse.takeWhile (· != dot) = extension.reverse := by
    rw [List.reverse_append, List.reverse_cons, List.append_assoc, List.takeWhile_append_of_pos]
    · simp
    · intro b hb
      have hne : b ≠ dot := fun hdot => h (hdot ▸ List.mem_reverse.1 hb)
      simpa using hne
  have hlength : (stem ++ dot :: extension).length - extension.length - 1 = stem.length := by
    rw [List.length_append, List.length_cons]
    omega
  simp only [splitName, hlast, List.reverse_reverse, hlength, List.take_left]

/-- The extension of a name stands behind its last dot, and something stands before the dot. -/
theorem splitName_eq_some_iff {name extension : Bytes} :
    (splitName name).2 = some extension ↔
      ∃ stem, stem ≠ [] ∧ dot ∉ extension ∧ name = stem ++ dot :: extension := by
  constructor
  · intro h
    by_cases hdot : dot ∈ name
    · obtain ⟨after, before, hsplit, hafter⟩ :=
        List.eq_append_cons_of_mem (List.mem_reverse.2 hdot)
      obtain rfl : name = before.reverse ++ dot :: after.reverse := by
        rw [← List.reverse_reverse name, hsplit]
        simp
      have hextension : dot ∉ after.reverse := fun hmem => hafter (List.mem_reverse.1 hmem)
      rw [splitName_append_dot _ hextension] at h
      split at h
      · cases h
      · next hstem =>
        obtain rfl := Option.some.inj h
        exact ⟨_, by simpa using hstem, hextension, rfl⟩
    · simp [splitName_of_not_mem hdot] at h
  · rintro ⟨stem, hstem, hextension, rfl⟩
    simp [splitName_append_dot stem hextension, hstem]

end FilePath

namespace RouteSettings

/-- The name of a file ends in one of the extensions, with something before it. -/
def HasExtension (settings : RouteSettings) (name : Bytes) : Prop :=
  ∃ stem, ∃ extension ∈ settings.extensions, stem ≠ [] ∧
    FilePath.dot ∉ Utf8.encode extension ∧ name = stem ++ FilePath.dot :: Utf8.encode extension

theorem isRouteFile_descend_iff {settings : RouteSettings} {directories : List Bytes} {own : Bytes}
    (root : FilePath) (h : ∀ name ∈ directories ++ [own], FilePath.IsName name) :
    settings.isRouteFile (root.descend (directories ++ [own])) = true ↔
      settings.HasExtension own := by
  have hfound : settings.isRouteFile (root.descend (directories ++ [own])) = true ↔
      ∃ bytes extension, (FilePath.splitName own).2 = some bytes ∧
        Utf8.decode? bytes = some extension ∧ extension ∈ settings.extensions := by
    rw [isRouteFile, FilePath.extension?, FilePath.fileName?_descend root h, Option.bind_some]
    cases (FilePath.splitName own).2 with
    | none => simp
    | some bytes => cases hdecode : Utf8.decode? bytes <;> simp [hdecode]
  rw [hfound]
  simp only [FilePath.splitName_eq_some_iff, Utf8.decode?_eq_some_iff]
  constructor
  · rintro ⟨_, extension, ⟨stem, hstem, hdot, rfl⟩, rfl, hmem⟩
    exact ⟨stem, extension, hmem, hstem, hdot, rfl⟩
  · rintro ⟨stem, extension, hmem, hstem, hdot, rfl⟩
    exact ⟨_, extension, ⟨stem, hstem, hdot, rfl⟩, rfl, hmem⟩

end RouteSettings

namespace RouteFile

variable {root path : FilePath} {folder : Folder} {entry : RouteFile} {error : RouteError}
  {directories : List Bytes} {own : Bytes}

theorem mapM_directorySegment (path root : FilePath) (directories : List Bytes) :
    (directories.map FilePath.Component.name).mapM (directorySegment path root) =
      match directories.mapM Utf8.decode? with
      | some segments => .ok segments
      | none => .error (.notUtf8 path) := by
  induction directories with
  | nil => rfl
  | cons name directories ih =>
    simp only [List.map_cons, List.mapM_cons, ih, directorySegment]
    cases Utf8.decode? name with
    | none => rfl
    | some segment => cases directories.mapM Utf8.decode? <;> rfl

theorem ofPath_descend (root : FilePath) (folder : Folder)
    (h : ∀ name ∈ directories ++ [own], FilePath.IsName name) :
    ofPath (root.descend (directories ++ [own])) root folder =
      match Utf8.decode? own, directories.mapM Utf8.decode? with
      | some file, some segments =>
        (make folder (nameOf segments) file (root.descend (directories ++ [own]))).mapError
          (.pattern (root.descend (directories ++ [own])))
      | _, _ => .error (.notUtf8 (root.descend (directories ++ [own]))) := by
  simp only [ofPath, FilePath.componentsBelow?_descend root h, List.map_append, List.map_cons,
    List.map_nil, List.getLast?_append, List.getLast?_singleton, List.dropLast_concat,
    mapM_directorySegment, Option.or]
  cases Utf8.decode? own with
  | none => rfl
  | some file =>
    cases directories.mapM Utf8.decode? with
    | none => rfl
    | some segments =>
      simp only
      cases make folder (nameOf segments) file (root.descend (directories ++ [own])) <;> rfl

theorem compile_nameOf (segments : List Text) :
    Pattern.compile (nameOf segments) = Pattern.compile (Text.joinSegments segments) := by
  cases segments with
  | nil => cbv
  | cons segment segments => rfl

/-- The names are texts, and those of the directories compile together. -/
def IsRoute (directories : List Bytes) (own : Bytes) : Prop :=
  ∃ file segments p, Utf8.encode file = own ∧ segments.map Utf8.encode = directories ∧
    Pattern.compile (Text.joinSegments segments) = .ok p

theorem exists_make_iff {name file : Text} {fullPath : FilePath} :
    (∃ entry, make folder name file fullPath = .ok entry) ↔
      ∃ p, Pattern.compile name = .ok p := by
  simp only [make_eq_ok_iff]
  exact ⟨fun ⟨_, p, hp, _⟩ => ⟨p, hp⟩, fun ⟨p, hp⟩ => ⟨_, p, hp, rfl⟩⟩

theorem mapError_eq_ok_iff {ε ε' α : Type} {f : ε → ε'} {made : Except ε α} {a : α} :
    made.mapError f = .ok a ↔ made = .ok a := by
  cases made <;> simp [Except.mapError]

theorem exists_ofPath_descend_iff (root : FilePath) (folder : Folder)
    (h : ∀ name ∈ directories ++ [own], FilePath.IsName name) :
    (∃ entry, ofPath (root.descend (directories ++ [own])) root folder = .ok entry) ↔
      IsRoute directories own := by
  rw [ofPath_descend root folder h]
  unfold IsRoute
  simp only [← Utf8.decode?_eq_some_iff, ← Utf8.mapM_decode?_eq_some_iff, ← compile_nameOf]
  cases Utf8.decode? own with
  | none => simp
  | some file =>
    cases directories.mapM Utf8.decode? with
    | none => simp
    | some segments => simp [mapError_eq_ok_iff, exists_make_iff]

theorem ofPath_descend_ne_outsideRoot (folder : Folder) (file other : FilePath)
    (h : ∀ name ∈ directories ++ [own], FilePath.IsName name) :
    ofPath (root.descend (directories ++ [own])) root folder ≠
      .error (.outsideRoot file other) := by
  rw [ofPath_descend root folder h]
  split
  · next file segments _ _ =>
    cases make folder (nameOf segments) file (root.descend (directories ++ [own])) <;>
      simp [Except.mapError]
  · simp

theorem file_of_mapM_directorySegment {below : List FilePath.Component}
    (h : below.mapM (directorySegment path root) = .error error) : error.file = path := by
  induction below with
  | nil => cases h
  | cons component below ih =>
    rw [List.mapM_cons] at h
    cases hsegment : directorySegment path root component with
    | error e =>
      rw [hsegment] at h
      obtain rfl := Except.error.inj h
      unfold directorySegment at hsegment
      split at hsegment
      · split at hsegment <;> cases hsegment
        rfl
      · cases hsegment
        rfl
    | ok segment =>
      rw [hsegment] at h
      cases hrest : below.mapM (directorySegment path root) with
      | error e =>
        rw [hrest] at h
        obtain rfl := Except.error.inj h
        exact ih hrest
      | ok segments =>
        rw [hrest] at h
        cases h

/-- A file becomes a route file of its path, or there is an error that names it. -/
theorem ofPath_cases (path root : FilePath) (folder : Folder) :
    (∃ entry name file, ofPath path root folder = .ok entry ∧
        make folder name file path = .ok entry) ∨
      ∃ error, ofPath path root folder = .error error ∧ error.file = path := by
  unfold ofPath
  split
  · exact Or.inr ⟨_, rfl, rfl⟩
  split
  · split
    · exact Or.inr ⟨_, rfl, rfl⟩
    · split
      · next herror => exact Or.inr ⟨_, rfl, file_of_mapM_directorySegment herror⟩
      · split
        · exact Or.inr ⟨_, rfl, rfl⟩
        · next hmake => exact Or.inl ⟨_, _, _, rfl, hmake⟩
  · exact Or.inr ⟨_, rfl, rfl⟩

theorem exists_make_of_ofPath (h : ofPath path root folder = .ok entry) :
    ∃ name file, make folder name file path = .ok entry := by
  rcases ofPath_cases path root folder with ⟨_, name, file, hok, hmake⟩ | ⟨_, herror, -⟩
  · obtain rfl := Except.ok.inj (hok.symm.trans h)
    exact ⟨name, file, hmake⟩
  · cases h.symm.trans herror

theorem fullPath_of_ofPath (h : ofPath path root folder = .ok entry) : entry.fullPath = path := by
  obtain ⟨name, file, hmake⟩ := exists_make_of_ofPath h
  obtain ⟨p, -, rfl⟩ := make_eq_ok_iff.1 hmake
  rfl

theorem isCompiled_of_ofPath (h : ofPath path root folder = .ok entry) : entry.IsCompiled := by
  obtain ⟨name, file, hmake⟩ := exists_make_of_ofPath h
  exact isCompiled_of_make hmake

theorem file_of_ofPath (h : ofPath path root folder = .error error) : error.file = path := by
  rcases ofPath_cases path root folder with ⟨_, _, _, hok, -⟩ | ⟨_, herror, hfile⟩
  · cases hok.symm.trans h
  · obtain rfl := Except.error.inj (herror.symm.trans h)
    exact hfile

end RouteFile

end FileRoutes
