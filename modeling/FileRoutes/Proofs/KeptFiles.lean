import FileRoutes.Event
import FileRoutes.Proofs.Trimming
import Mathlib.Data.List.Perm.Basic

/-! What becomes of the route files. Files of one name have the same specificity, so sorting leaves
them in the order given, and a page keeps the first index and the first layout of its name. Each
later one is told of as passed over. The names of the pages part the files of a role into groups, so
over all pages the files kept and the files passed over are the files given, each as often as it
was. -/

namespace FileRoutes

def Page.file? (role : Role) (page : Page) : Option RouteFile :=
  match role with
  | .index => page.index
  | .layout => page.layout
  | .other => none

/-- The file of a role that an event says is passed over. -/
def Event.ignored? (role : Role) : Event → Option RouteFile
  | .duplicateFile told _ ignored => if told = role then some ignored else none
  | _ => none

namespace Forest

open RouteName (IsProper)

variable {settings : PageSettings} {files : List RouteFile} {name : Text} {role : Role}

/-- Groups by key, one for each key, hold every item once. -/
theorem flatMap_filter_perm {α β : Type} [DecidableEq β] (key : α → β) {keys : List β}
    (hnodup : keys.Nodup) {items : List α} (h : ∀ item ∈ items, key item ∈ keys) :
    (keys.flatMap fun k => items.filter (key · = k)).Perm items := by
  induction keys generalizing items with
  | nil =>
    have hitems : items = [] :=
      List.eq_nil_iff_forall_not_mem.2 fun item hitem => List.not_mem_nil (h item hitem)
    rw [hitems]
    exact List.Perm.refl _
  | cons first keys ih =>
    obtain ⟨hnew, hnodup⟩ := List.nodup_cons.1 hnodup
    have hothers : (keys.flatMap fun k => items.filter (key · = k)) =
        keys.flatMap fun k =>
          (items.filter fun item => !(key item = first : Bool)).filter (key · = k) := by
      refine List.flatMap_congr fun k hk => ?_
      rw [List.filter_filter]
      refine List.filter_congr fun item _ => ?_
      by_cases hkey : key item = k
      · have hne : k ≠ first := fun hsame => hnew (hsame ▸ hk)
        simp [hkey, hne]
      · simp [hkey]
    rw [List.flatMap_cons, hothers]
    refine ((ih hnodup fun item hitem => ?_).append_left _).trans (List.filter_append_perm _ items)
    obtain ⟨hitem, hother⟩ := List.mem_filter.1 hitem
    exact (List.mem_cons.1 (h item hitem)).resolve_left (by simpa using hother)

theorem mem_filesOf {entry : RouteFile} : entry ∈ filesOf settings files name role ↔
    entry ∈ files ∧ entry.name = name ∧ entry.role settings = role := by
  simp [filesOf]

theorem head?_filesOf : (filesOf settings files name role).head? =
    files.find? fun entry => entry.name = name ∧ entry.role settings = role := by
  rw [filesOf, List.head?_filter]
  congr 1
  funext entry
  simp [beq_eq_decide]

/-- The files of a name and a role come in the order given. -/
theorem filesOf_routable {entries : List RouteFile}
    (hcompiled : ∀ entry ∈ entries, entry.IsCompiled) (hrole : role ≠ .other) (name : Text) :
    filesOf settings (routable settings entries) name role =
      filesOf settings entries name role := by
  have hsplit : filesOf settings (routable settings entries) name role =
      filesOf settings (RouteFile.sorted entries) name role := by
    rw [filesOf, filesOf, routable, List.filter_filter]
    refine List.filter_congr fun entry _ => ?_
    by_cases hentry : entry.role settings = role <;> simp [hentry, hrole]
  rw [hsplit]
  refine Specificity.filter_sortBy (List.pairwise_of_forall_mem_list fun a ha b hb => ?_)
  have hspecificity : ∀ entry ∈ filesOf settings entries name role,
      entry.specificity = RouteName.specificity name := by
    intro entry hentry
    obtain ⟨hmem, hnamed, -⟩ := mem_filesOf.1 hentry
    rw [(hcompiled entry hmem).specificity_eq, hnamed]
  rw [hspecificity a ha, hspecificity b hb]
  exact Specificity.le_refl _

theorem Placed.file?_eq {page : Page} (h : Placed settings files page) (hrole : role ≠ .other) :
    page.file? role = (filesOf settings files page.name role).head? := by
  obtain ⟨used, hmade⟩ := h.made
  obtain ⟨entry, -, hpage⟩ := page_eq_some_iff.1 hmade
  rw [← hpage]
  cases role with
  | index | layout => rfl
  | other => exact absurd rfl hrole

/-- The events of a role and its files of one name. -/
def rivalEvents (role : Role) : List RouteFile → List Event
  | [] => []
  | kept :: others => others.map (.duplicateFile role kept ·)

theorem mem_rivalEvents {group : List RouteFile} {event : Event} :
    event ∈ rivalEvents role group ↔ ∃ kept others ignored, group = kept :: others ∧
      ignored ∈ others ∧ event = .duplicateFile role kept ignored := by
  cases group with
  | nil => simp [rivalEvents]
  | cons kept others => simp [rivalEvents, eq_comm]

theorem filterMap_ignored?_rivalEvents {told : Role} (group : List RouteFile) :
    (rivalEvents told group).filterMap (Event.ignored? role) =
      if told = role then group.tail else [] := by
  cases group with
  | nil => simp [rivalEvents]
  | cons kept others => split <;> simp [rivalEvents, Event.ignored?, Function.comp_def, *]

theorem events_eq (settings : PageSettings) (entries : List RouteFile) :
    events settings entries = (Page.allDescendants (build settings entries)).flatMap fun page =>
      [Role.index, Role.layout].flatMap fun role =>
        rivalEvents role (filesOf settings (routable settings entries) page.name role) := by
  refine List.flatMap_congr fun page _ => ?_
  rw [duplicates, List.map_flatMap]
  refine List.flatMap_congr fun role _ => ?_
  cases filesOf settings (routable settings entries) page.name role with
  | nil => rfl
  | cons kept others => simp [rivalEvents]

theorem mem_events {entries : List RouteFile} {event : Event} :
    event ∈ events settings entries ↔ ∃ page ∈ Page.allDescendants (build settings entries),
      ∃ role, role ≠ .other ∧ ∃ kept others ignored,
        filesOf settings (routable settings entries) page.name role = kept :: others ∧
        ignored ∈ others ∧ event = .duplicateFile role kept ignored := by
  simp only [events_eq, List.mem_flatMap, mem_rivalEvents]
  refine exists_congr fun page => and_congr_right fun _ => exists_congr fun role => ?_
  apply and_congr_left
  intro _
  cases role <;> simp

theorem filterMap_ignored?_events {entries : List RouteFile} (hrole : role ≠ .other) :
    (events settings entries).filterMap (Event.ignored? role) =
      (Page.allDescendants (build settings entries)).flatMap fun page =>
        (filesOf settings (routable settings entries) page.name role).tail := by
  rw [events_eq, List.filterMap_flatMap]
  refine List.flatMap_congr fun page _ => ?_
  simp only [List.filterMap_flatMap, filterMap_ignored?_rivalEvents]
  cases role with
  | index | layout => simp
  | other => exact absurd rfl hrole

/-- Pages of different names that keep the first files of a role, and what these are kept for. -/
theorem kept_append_ignored_perm {pages : List Page} (hnodup : (pages.map Page.name).Nodup)
    (hfile : ∀ page ∈ pages, page.file? role = (filesOf settings files page.name role).head?)
    (hnames : ∀ entry ∈ files, entry.role settings = role → entry.name ∈ pages.map Page.name) :
    (pages.filterMap (Page.file? role) ++
        pages.flatMap fun page => (filesOf settings files page.name role).tail).Perm
      (files.filter (·.role settings = role)) := by
  have hkept : pages.filterMap (Page.file? role) =
      pages.flatMap fun page => (filesOf settings files page.name role).head?.toList := by
    rw [List.filterMap_eq_flatMap_toList]
    exact List.flatMap_congr fun page hpage => by rw [hfile page hpage]
  have hgroups : (pages.flatMap fun page => (filesOf settings files page.name role).head?.toList ++
      (filesOf settings files page.name role).tail) =
      (pages.map Page.name).flatMap fun name =>
        (files.filter (·.role settings = role)).filter (·.name = name) := by
    have hwhole : ∀ group : List RouteFile, group.head?.toList ++ group.tail = group := by
      rintro (_ | _) <;> rfl
    rw [List.flatMap_map]
    refine List.flatMap_congr fun page _ => ?_
    rw [hwhole, filesOf, List.filter_filter]
    exact List.filter_congr fun entry _ => by simp [beq_eq_decide]
  rw [hkept]
  refine (List.flatMap_append_perm pages _ _).trans ?_
  rw [hgroups]
  apply flatMap_filter_perm RouteFile.name hnodup
  intro entry hentry
  obtain ⟨hentry, hrole⟩ := List.mem_filter.1 hentry
  exact hnames entry hentry (of_decide_eq_true hrole)

/-- A forest and events that account for all index and layout files: a page keeps the earliest file
of its name and role, every event tells of a file that a page of its name has another one for, and
the files kept and the files passed over are together the files given. -/
structure Accounts (settings : PageSettings) (entries : List RouteFile) (forest : List Page)
    (events : List Event) : Prop where
  once : ((Page.allDescendants forest).map Page.name).Nodup
  earliest : ∀ page ∈ Page.allDescendants forest, ∀ role, role ≠ .other → page.file? role =
    entries.find? fun entry => entry.name = page.name ∧ entry.role settings = role
  rival : ∀ event ∈ events, ∃ role kept ignored, event = .duplicateFile role kept ignored ∧
    ∃ page ∈ Page.allDescendants forest, page.name = ignored.name ∧ page.file? role = some kept
  all : ∀ role, role ≠ .other → ((Page.allDescendants forest).filterMap (Page.file? role) ++
    events.filterMap (Event.ignored? role)).Perm (entries.filter (·.role settings = role))

theorem build_accounts {entries : List RouteFile} (hproper : ∀ entry ∈ entries, IsProper entry.name)
    (hcompiled : ∀ entry ∈ entries, entry.IsCompiled) :
    Accounts settings entries (build settings entries) (events settings entries) := by
  have hnames : ∀ name ∈ names (routable settings entries), IsProper name := by
    intro name hname
    obtain ⟨entry, hentry, rfl⟩ := mem_names.1 hname
    exact hproper entry (mem_routable.1 hentry).1
  have hnests := nests_roots hnames fun entry hentry => (mem_routable.1 hentry).2
  have hfile : ∀ page ∈ Page.allDescendants (build settings entries), ∀ role, role ≠ .other →
      page.file? role = (filesOf settings entries page.name role).head? := by
    intro page hpage role hrole
    rw [(forall_placed hnames page hpage).file?_eq hrole, filesOf_routable hcompiled hrole]
  refine ⟨hnests.once, fun page hpage role hrole => ?_, fun event hevent => ?_,
    fun role hrole => ?_⟩
  · rw [hfile page hpage role hrole, head?_filesOf]
  · obtain ⟨page, hpage, role, hrole, kept, others, ignored, hgroup, hignored, rfl⟩ :=
      mem_events.1 hevent
    have hmem : ignored ∈ filesOf settings (routable settings entries) page.name role := by
      simp [hgroup, hignored]
    refine ⟨role, kept, ignored, rfl, page, hpage, (mem_filesOf.1 hmem).2.1.symm, ?_⟩
    rw [(forall_placed hnames page hpage).file?_eq hrole, hgroup, List.head?_cons]
  · rw [filterMap_ignored?_events hrole]
    simp only [filesOf_routable hcompiled hrole]
    refine kept_append_ignored_perm hnests.once (fun page hpage => hfile page hpage role hrole) ?_
    rintro entry hentry rfl
    exact (hnests.names entry.name).2 (mem_names.2 ⟨entry, mem_routable.2 ⟨hentry, hrole⟩, rfl⟩)

/-- Three index files and a layout of one route, with an index file below it in between. -/
def rivals : List RouteFile :=
  [("about", "index.rsx"), ("about/team", "index.rsx"), ("about", "index.rs"),
    ("about", "layout.rsx"), ("about", "index.html")].filterMap fun (name, file) =>
      (RouteFile.make .pages name.toList file.toList
        (.ofText s!"pages/{name}/{file}".toList)).toOption

theorem build_rivals_accounts :
    (∀ entry ∈ rivals, IsProper entry.name) ∧ (∀ entry ∈ rivals, entry.IsCompiled) ∧
      Accounts {} rivals (build {} rivals) (events {} rivals) ∧
      (events {} rivals).map Event.fields =
        [[("name", "about".toList), ("kept", "pages/about/index.rsx".toList),
            ("ignored", "pages/about/index.rs".toList)],
          [("name", "about".toList), ("kept", "pages/about/index.rsx".toList),
            ("ignored", "pages/about/index.html".toList)]] := by
  have hnames : rivals.map RouteFile.name = ["about".toList, "about/team".toList, "about".toList,
      "about".toList, "about".toList] := by cbv
  have hproper : ∀ name ∈ rivals.map RouteFile.name, IsProper name := by
    rw [hnames]
    decide
  have hentries : ∀ entry ∈ rivals, IsProper entry.name :=
    fun entry hentry => hproper _ (List.mem_map_of_mem hentry)
  have hcompiled : ∀ entry ∈ rivals, entry.IsCompiled := by
    intro entry hentry
    obtain ⟨⟨name, file⟩, -, hmade⟩ := List.mem_filterMap.1 hentry
    exact RouteFile.isCompiled_of_make (RouteFile.eq_ok_of_toOption hmade)
  exact ⟨hentries, hcompiled, build_accounts hentries hcompiled, by cbv⟩

end Forest

end FileRoutes
