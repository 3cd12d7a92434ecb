import FileRoutes.Project.Tree
import Mathlib

/-! Walking a tree. In a proper tree every entry has a name that can stand in a path, so the path of
a file has the components of the directory that the walk starts from and behind them the names that
lead to the file. The walk comes by each file once, in the order of these names. Trees that are
built from files are proper, and so is what is found in them. -/

namespace FileRoutes

namespace FilePath

/-- What an entry of a folder can be called. -/
structure IsName (name : Bytes) : Prop where
  ne_nil : name ≠ []
  ne_here : name ≠ [dot]
  ne_up : name ≠ [dot, dot]
  no_slash : slash ∉ name

variable {name : Bytes} {names : List Bytes}

theorem IsName.component? (h : IsName name) : component? name = some (.name name) := by
  rw [FilePath.component?, if_neg (not_or.2 ⟨h.ne_nil, h.ne_here⟩), if_neg h.ne_up]

theorem IsName.not_isAbsolute (h : IsName name) : isAbsolute ⟨name⟩ = false := by
  cases hname : name with
  | nil => rfl
  | cons b rest =>
    have hb : b ≠ slash := by
      rintro rfl
      exact h.no_slash (by simp [hname])
    simp [isAbsolute, hb]

/-- The parts behind the start of a path leave the start of its components as it is. -/
theorem head?_splitOn_append (bytes : Bytes) (parts : List Bytes) :
    (bytes.splitOn slash ++ parts).head? = (bytes.splitOn slash).head? := by
  cases hparts : bytes.splitOn slash with
  | nil => exact absurd hparts (List.splitOn_ne_nil slash bytes)
  | cons _ _ => rfl

theorem isAbsolute_append (bytes rest more : Bytes) :
    isAbsolute ⟨bytes ++ slash :: rest⟩ = isAbsolute ⟨bytes ++ slash :: more⟩ := by
  cases bytes <;> rfl

/-- The last part of a path gives its last component, if it gives any. -/
theorem components_append_part (bytes : Bytes) {part : Bytes} (h : slash ∉ part) :
    components ⟨bytes ++ slash :: part⟩ =
      components ⟨bytes ++ [slash]⟩ ++ (component? part).toList := by
  have hempty : component? [] = none := by simp [component?]
  simp only [components, isAbsolute_append bytes part [], List.splitOn_append_cons_self,
    head?_splitOn_append, List.splitOn_eq_singleton h, List.splitOn_nil, List.filterMap_append,
    List.filterMap_cons, List.filterMap_nil, hempty, List.append_nil, List.append_assoc]
  cases component? part <;> rfl

/-- A separator at the end of a path makes no difference. -/
theorem components_append_slash {bytes : Bytes} (h : bytes ≠ []) :
    components ⟨bytes ++ [slash]⟩ = components ⟨bytes⟩ := by
  have hempty : component? [] = none := by simp [component?]
  have habsolute : isAbsolute ⟨bytes ++ [slash]⟩ = isAbsolute ⟨bytes⟩ := by
    cases bytes with
    | nil => exact absurd rfl h
    | cons _ _ => rfl
  simp only [components, habsolute, List.splitOn_append_cons_self, head?_splitOn_append,
    List.splitOn_nil, List.filterMap_append, List.filterMap_cons, List.filterMap_nil, hempty,
    List.append_nil]

theorem components_join (root : FilePath) (h : IsName name) :
    (root.join ⟨name⟩).components = root.components ++ [.name name] := by
  obtain ⟨bytes⟩ := root
  have hpart := components_append_part bytes h.no_slash
  rw [h.component?, Option.toList_some] at hpart
  unfold join
  rw [if_neg (by simp [h.not_isAbsolute])]
  split
  · next hend =>
    rcases hend with rfl | hend
    · have hname : components ⟨name⟩ = [.name name] := by
        simp [components, h.not_isAbsolute, List.splitOn_eq_singleton h.no_slash, h.ne_here,
          h.component?]
      have hnone : components ⟨[]⟩ = [] := by
        simp [components, isAbsolute, component?]
      rw [List.nil_append, hname, hnone, List.nil_append]
    · obtain ⟨before, rfl⟩ := List.getLast?_eq_some_iff.1 hend
      have hpart := components_append_part before h.no_slash
      rw [h.component?, Option.toList_some] at hpart
      rw [← hpart, List.append_assoc, List.singleton_append]
  · next hend =>
    rw [hpart, components_append_slash (not_or.1 hend).1]

/-- The path that leads some names down from a directory. -/
def descend (root : FilePath) (names : List Bytes) : FilePath :=
  names.foldl (fun path name => path.join ⟨name⟩) root

theorem components_descend (root : FilePath) (h : ∀ name ∈ names, IsName name) :
    (root.descend names).components = root.components ++ names.map .name := by
  induction names generalizing root with
  | nil => simp [descend]
  | cons name names ih =>
    obtain ⟨hname, hnames⟩ := List.forall_mem_cons.1 h
    have hrest := ih (root.join ⟨name⟩) hnames
    rw [components_join root hname, List.append_assoc] at hrest
    exact hrest

theorem componentsBelow?_descend (root : FilePath) (h : ∀ name ∈ names, IsName name) :
    componentsBelow? root (root.descend names) = some (names.map .name) := by
  have hprefix : root.components.isPrefixOf (root.descend names).components = true := by
    rw [List.isPrefixOf_iff_prefix, components_descend root h]
    exact List.prefix_append _ _
  rw [componentsBelow?, if_pos hprefix, components_descend root h, List.drop_left]

theorem fileName?_descend (root : FilePath) (h : ∀ other ∈ names ++ [name], IsName other) :
    (root.descend (names ++ [name])).fileName? = some name := by
  simp [fileName?, components_descend root h]

theorem descend_inj {root : FilePath} {others : List Bytes} (h : ∀ name ∈ names, IsName name)
    (hothers : ∀ name ∈ others, IsName name) (hsame : root.descend names = root.descend others) :
    names = others := by
  have hcomponents := congrArg components hsame
  rw [components_descend root h, components_descend root hothers] at hcomponents
  exact List.map_injective_iff.2 (fun _ _ => Component.name.inj)
    (List.append_cancel_left hcomponents)

theorem slash_not_mem_of_mem_splitOn (bytes : Bytes) :
    ∀ part ∈ bytes.splitOn slash, slash ∉ part := by
  intro part hpart
  by_cases hslash : slash ∈ bytes
  · obtain ⟨first, rest, hsplit, hfirst⟩ := List.eq_append_cons_of_mem hslash
    rw [hsplit, List.splitOn_append_cons_self, List.splitOn_eq_singleton hfirst] at hpart
    rcases List.mem_cons.1 hpart with rfl | hpart
    · exact hfirst
    · exact slash_not_mem_of_mem_splitOn rest part hpart
  · rw [List.splitOn_eq_singleton hslash] at hpart
    exact List.mem_singleton.1 hpart ▸ hslash
termination_by bytes.length
decreasing_by simp [hsplit]; omega

theorem isName_of_component? {part : Bytes} (hslash : slash ∉ part)
    (h : component? part = some (.name name)) : IsName name := by
  unfold component? at h
  split at h
  · cases h
  · next hkept =>
    split at h
    · cases h
    · next hup =>
      obtain rfl := Component.name.inj (Option.some.inj h)
      exact ⟨(not_or.1 hkept).1, (not_or.1 hkept).2, hup, hslash⟩

theorem isName_of_mem_components {path : FilePath} (h : .name name ∈ path.components) :
    IsName name := by
  unfold components at h
  rcases List.mem_append.1 h with hlead | hpart
  · split at hlead
    · simp at hlead
    · split at hlead <;> simp at hlead
  · obtain ⟨part, hmem, hname⟩ := List.mem_filterMap.1 hpart
    exact isName_of_component? (slash_not_mem_of_mem_splitOn path.bytes part hmem) hname

end FilePath

namespace Tree

open FilePath (IsName)

/-- The names that lead from a tree down to one of its files. -/
inductive HasFile : Tree → List Bytes → Prop where
  | here {content : Bytes} : HasFile (.file content) []
  | inside {entries : List (Bytes × Tree)} {name : Bytes} {tree : Tree} {names : List Bytes}
    (hentry : (name, tree) ∈ entries) (h : HasFile tree names) :
    HasFile (.folder entries) (name :: names)

mutual

/-- The names that lead to the files, in the order of the walk. -/
def places : Tree → List (List Bytes)
  | .file _ => [[]]
  | .folder entries => placesIn entries

def placesIn : List (Bytes × Tree) → List (List Bytes)
  | [] => []
  | (name, tree) :: rest => (places tree).map (name :: ·) ++ placesIn rest

end

mutual

/-- All entries have names, and those of one folder have different ones, in order. -/
def Proper : Tree → Prop
  | .file _ => True
  | .folder entries => ProperEntries entries

def ProperEntries : List (Bytes × Tree) → Prop
  | [] => True
  | (name, tree) :: rest =>
    IsName name ∧ Proper tree ∧ (∀ entry ∈ rest, name < entry.1) ∧ ProperEntries rest

end

mutual

theorem files_eq (path : FilePath) (tree : Tree) :
    files path tree = (places tree).map path.descend := by
  cases tree with
  | file content => simp [files, places, FilePath.descend]
  | folder entries => rw [files, places, filesIn_eq path entries]

theorem filesIn_eq (folder : FilePath) (entries : List (Bytes × Tree)) :
    filesIn folder entries = (placesIn entries).map folder.descend := by
  cases entries with
  | nil => simp [filesIn, placesIn]
  | cons entry rest =>
    obtain ⟨name, tree⟩ := entry
    rw [filesIn, placesIn, files_eq _ tree, filesIn_eq folder rest, List.map_append, List.map_map]
    rfl

end

variable {name : Bytes} {names : List Bytes} {entries : List (Bytes × Tree)} {tree : Tree}
  {root : FilePath}

theorem hasFile_folder_iff : HasFile (.folder entries) names ↔
    ∃ entry ∈ entries, ∃ below, HasFile entry.2 below ∧ entry.1 :: below = names := by
  constructor
  · rintro (_ | ⟨hentry, h⟩)
    exact ⟨_, hentry, _, h, rfl⟩
  · rintro ⟨entry, hentry, below, h, rfl⟩
    exact .inside hentry h

mutual

/-- The walk comes by each file, and by nothing else. -/
theorem mem_places (tree : Tree) (names : List Bytes) :
    names ∈ places tree ↔ HasFile tree names := by
  cases tree with
  | file content =>
    rw [places, List.mem_singleton]
    constructor
    · rintro rfl
      exact .here
    · rintro ⟨⟩
      rfl
  | folder entries => rw [places, mem_placesIn entries, hasFile_folder_iff]

theorem mem_placesIn (entries : List (Bytes × Tree)) (names : List Bytes) :
    names ∈ placesIn entries ↔
      ∃ entry ∈ entries, ∃ below, HasFile entry.2 below ∧ entry.1 :: below = names := by
  cases entries with
  | nil => simp [placesIn]
  | cons entry rest =>
    obtain ⟨name, tree⟩ := entry
    simp only [placesIn, List.mem_append, List.mem_map, mem_places tree, mem_placesIn rest,
      List.mem_cons, exists_eq_or_imp]

end

mutual

/-- The walk takes the files in the order of the names that lead to them. -/
theorem Proper.places_pairwise (tree : Tree) (h : tree.Proper) : tree.places.Pairwise (· < ·) := by
  cases tree with
  | file content => simp [places]
  | folder entries =>
    rw [places]
    exact ProperEntries.placesIn_pairwise entries (by simpa [Proper] using h)

theorem ProperEntries.placesIn_pairwise (entries : List (Bytes × Tree))
    (h : ProperEntries entries) : (placesIn entries).Pairwise (· < ·) := by
  cases entries with
  | nil => simp [placesIn]
  | cons entry rest =>
    obtain ⟨name, tree⟩ := entry
    obtain ⟨-, htree, hless, hrest⟩ := h
    rw [placesIn]
    refine List.pairwise_append.2 ⟨?_, ProperEntries.placesIn_pairwise rest hrest, ?_⟩
    · exact List.pairwise_map.2 ((Proper.places_pairwise tree htree).imp fun hlt =>
        List.cons_lt_cons_iff.2 (Or.inr ⟨rfl, hlt⟩))
    · intro a ha b hb
      obtain ⟨below, -, rfl⟩ := List.mem_map.1 ha
      obtain ⟨entry, hentry, others, -, rfl⟩ := (mem_placesIn rest b).1 hb
      exact List.cons_lt_cons_iff.2 (Or.inl (hless entry hentry))

end

theorem properEntries_iff : ProperEntries entries ↔
    (∀ entry ∈ entries, IsName entry.1 ∧ entry.2.Proper) ∧
      (entries.map Prod.fst).Pairwise (· < ·) := by
  induction entries with
  | nil => simp [ProperEntries]
  | cons entry rest ih =>
    obtain ⟨name, tree⟩ := entry
    simp only [ProperEntries, ih, List.forall_mem_cons, List.map_cons, List.pairwise_cons,
      List.forall_mem_map]
    tauto

theorem Proper.isName_of_hasFile (h : tree.Proper) (hfile : HasFile tree names) :
    ∀ name ∈ names, IsName name := by
  induction hfile with
  | here => simp
  | inside hentry _ ih =>
    rw [Proper] at h
    obtain ⟨hname, htree⟩ := (properEntries_iff.1 h).1 _ hentry
    exact List.forall_mem_cons.2 ⟨hname, ih htree⟩

theorem Proper.places_nodup (h : tree.Proper) : tree.places.Nodup := by
  refine (places_pairwise tree h).imp ?_
  rintro names _ hlt rfl
  exact List.lt_irrefl names hlt

/-- What the walk takes of some kind of file depends on the files of this kind alone. -/
theorem Proper.filter_places_eq {other : Tree} {keep : List Bytes → Bool} (h : tree.Proper)
    (hother : other.Proper)
    (hsame : ∀ names, keep names = true → (tree.HasFile names ↔ other.HasFile names)) :
    tree.places.filter keep = other.places.filter keep := by
  refine List.Perm.eq_of_pairwise (fun a b _ _ hab hba => absurd hba (List.lt_asymm hab))
    ((places_pairwise tree h).filter keep) ((places_pairwise other hother).filter keep) ?_
  refine (List.perm_ext_iff_of_nodup (h.places_nodup.filter keep)
    (hother.places_nodup.filter keep)).2 fun names => ?_
  simp only [List.mem_filter, mem_places]
  exact and_congr_left (hsame names)

/-- On the walk from `root` the first file comes before the second one. -/
def Before (tree : Tree) (root first second : FilePath) : Prop :=
  ∃ names others, tree.HasFile names ∧ tree.HasFile others ∧ names < others ∧
    root.descend names = first ∧ root.descend others = second

theorem mem_files {path : FilePath} :
    path ∈ tree.files root ↔ ∃ names, tree.HasFile names ∧ root.descend names = path := by
  simp only [files_eq, List.mem_map, mem_places]

/-- A file below a folder has a name of its own. -/
theorem HasFile.exists_own (h : (Tree.folder entries).HasFile names) :
    ∃ directories own, names = directories ++ [own] := by
  rcases List.eq_nil_or_concat names with rfl | hnames
  · cases h
  · simpa using hnames

theorem Proper.files_pairwise (h : tree.Proper) (root : FilePath) :
    (tree.files root).Pairwise (tree.Before root) := by
  rw [files_eq]
  refine List.pairwise_map.2 ((Proper.places_pairwise tree h).imp_of_mem fun ha hb hlt => ?_)
  exact ⟨_, _, (mem_places tree _).1 ha, (mem_places tree _).1 hb, hlt, rfl, rfl⟩

theorem Proper.descend_inj (h : tree.Proper) {others : List Bytes} (hnames : tree.HasFile names)
    (hothers : tree.HasFile others) (hsame : root.descend names = root.descend others) :
    names = others :=
  FilePath.descend_inj (h.isName_of_hasFile hnames) (h.isName_of_hasFile hothers) hsame

theorem Proper.files_nodup (h : tree.Proper) (root : FilePath) : (tree.files root).Nodup := by
  rw [files_eq]
  refine List.Nodup.map_on (fun a ha b hb hsame => ?_) h.places_nodup
  exact h.descend_inj ((mem_places tree a).1 ha) ((mem_places tree b).1 hb) hsame

theorem mem_setEntry {entry : Bytes × Tree} (h : entry ∈ setEntry name tree entries) :
    entry = (name, tree) ∨ entry ∈ entries := by
  induction entries with
  | nil => simpa [setEntry] using h
  | cons first rest ih =>
    unfold setEntry at h
    split at h
    · rcases List.mem_cons.1 h with rfl | h
      · exact Or.inl rfl
      · exact Or.inr (List.mem_cons_of_mem _ h)
    · split at h
      · exact List.mem_cons.1 h
      · rcases List.mem_cons.1 h with rfl | h
        · exact Or.inr List.mem_cons_self
        · exact (ih h).imp_right (List.mem_cons_of_mem _)

theorem ProperEntries.setEntry (h : ProperEntries entries) (hname : IsName name)
    (htree : tree.Proper) : ProperEntries (setEntry name tree entries) := by
  induction entries with
  | nil => simpa [Tree.setEntry, ProperEntries] using ⟨hname, htree⟩
  | cons first rest ih =>
    obtain ⟨other, old⟩ := first
    obtain ⟨hother, hold, hless, hrest⟩ := h
    unfold Tree.setEntry
    split
    · next hsame =>
      obtain rfl : other = name := hsame
      exact ⟨hname, htree, hless, hrest⟩
    · next hne =>
      split
      · next hlt =>
        refine ⟨hname, htree, ?_, hother, hold, hless, hrest⟩
        intro entry hentry
        rcases List.mem_cons.1 hentry with rfl | hentry
        · exact hlt
        · exact List.lt_trans hlt (hless entry hentry)
      · next hnot =>
        refine ⟨hother, hold, fun entry hentry => ?_, ih hrest⟩
        rcases mem_setEntry hentry with rfl | hentry
        · exact (List.le_iff_lt_or_eq.1 (List.not_lt.1 hnot)).resolve_right hne
        · exact hless entry hentry

theorem child?_proper (h : ProperEntries entries) (hchild : child? name entries = some tree) :
    tree.Proper := by
  obtain ⟨entry, hfound, rfl⟩ := Option.map_eq_some_iff.1 hchild
  exact ((properEntries_iff.1 h).1 entry (List.mem_of_find?_eq_some hfound)).2

theorem proper_empty : empty.Proper := by
  simp [empty, Proper, ProperEntries]

/-- A tree that is put into another one at some names leaves it proper. -/
theorem Proper.insert {new : Tree} (h : tree.Proper) (hnames : ∀ name ∈ names, IsName name)
    (hnew : new.Proper) : (insert names new tree).Proper := by
  induction names generalizing tree with
  | nil => cases new <;> cases tree <;> assumption
  | cons name names ih =>
    obtain ⟨hname, hnames⟩ := List.forall_mem_cons.1 hnames
    cases tree with
    | file content => exact h
    | folder entries =>
      have hbelow : ((child? name entries).getD empty).Proper := by
        cases hchild : child? name entries with
        | none => exact proper_empty
        | some tree => exact child?_proper h hchild
      exact ProperEntries.setEntry h hname (ih hbelow hnames)

theorem isName_of_mem_names {path : FilePath} : ∀ name ∈ Tree.names path, IsName name := by
  intro name hname
  obtain ⟨component, hcomponent, hsome⟩ := List.mem_filterMap.1 hname
  cases component with
  | name bytes =>
    obtain rfl := Option.some.inj hsome
    exact FilePath.isName_of_mem_components hcomponent
  | root | here | up => cases hsome

theorem Proper.withFile (h : tree.Proper) (path : FilePath) (content : Bytes) :
    (tree.withFile path content).Proper :=
  h.insert isName_of_mem_names trivial

theorem Proper.withFolder (h : tree.Proper) (path : FilePath) : (tree.withFolder path).Proper :=
  h.insert isName_of_mem_names proper_empty

theorem follow_proper {parts : List Bytes} {above : List Tree} {found : Tree}
    (habove : ∀ outer ∈ above, outer.Proper) (h : tree.Proper)
    (hfound : follow above tree parts = some found) : found.Proper := by
  induction parts generalizing above tree with
  | nil =>
    rw [follow] at hfound
    exact Option.some.inj hfound ▸ h
  | cons part parts ih =>
    cases tree with
    | file content => simp [follow] at hfound
    | folder entries =>
      unfold follow at hfound
      split at hfound
      · exact ih habove h hfound
      split at hfound
      · split at hfound
        · exact ih (by simp) proper_empty hfound
        · obtain ⟨hparent, houter⟩ := List.forall_mem_cons.1 habove
          exact ih houter hparent hfound
      · split at hfound
        · cases hfound
        · next hchild =>
          exact ih (List.forall_mem_cons.2 ⟨h, habove⟩) (child?_proper h hchild) hfound

/-- What is found in a proper tree is proper. -/
theorem Proper.find? {path : FilePath} {found : Tree} (h : tree.Proper)
    (hfound : tree.find? path = some found) : found.Proper := by
  unfold Tree.find? at hfound
  split at hfound
  · cases hfound
  · refine follow_proper (by simp) ?_ hfound
    split
    · exact proper_empty
    · exact h

end Tree

end FileRoutes
