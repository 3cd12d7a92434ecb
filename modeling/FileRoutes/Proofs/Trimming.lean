import FileRoutes.Proofs.CompiledName
import FileRoutes.Proofs.InputOrder

/-! What pages keep of their tokens, and the order of each level. A page drops as many tokens as the
name of its parent has, and these are the first of its own, so the pages of a line add up to the
tokens of the last name. The names of a level come in order of specificity with all their tokens.
What the pages of a level drop is the same for all of them and does not count, so the pages are in
order with the tokens that they keep. -/

namespace FileRoutes

/-- In order of specificity, no two alike. -/
def Page.Ascending (pages : List Page) : Prop :=
  pages.Pairwise fun a b => Specificity.compare a.specificity b.specificity = .lt

namespace Forest

open RouteName (isBelow IsProper)

theorem eraseDups_sublist (names : List Text) : names.eraseDups.Sublist names := by
  induction hlength : names.length using Nat.strongRecOn generalizing names with
  | ind n ih =>
    rcases names with - | ⟨name, rest⟩
    · simp
    · rw [List.eraseDups_cons]
      have hshorter := List.length_filter_le (fun other => !other == name) rest
      rw [List.length_cons] at hlength
      exact ((ih _ (by omega) _ rfl).trans List.filter_sublist).cons_cons name

/-- Files in order of specificity whose names compile. -/
structure Ordered (files : List RouteFile) : Prop where
  sorted : files.Pairwise fun a b => Specificity.le a.specificity b.specificity = true
  compiled : ∀ entry ∈ files, entry.IsCompiled

variable {settings : PageSettings} {files : List RouteFile} {parent : Option Text} {used : Nat}
  {name : Text} {page : Page}

namespace Ordered

theorem filter (h : Ordered files) (keep : RouteFile → Bool) : Ordered (files.filter keep) :=
  ⟨h.sorted.filter keep, fun entry hentry => h.compiled entry (List.mem_filter.1 hentry).1⟩

theorem routable {entries : List RouteFile} (h : ∀ entry ∈ entries, entry.IsCompiled) :
    Ordered (routable settings entries) :=
  ⟨routable_pairwise settings entries, fun entry hentry => h entry (mem_routable.1 hentry).1⟩

theorem compiles (h : Ordered files) (hname : name ∈ names files) : RouteName.Compiles name := by
  obtain ⟨entry, hentry, rfl⟩ := mem_names.1 hname
  exact (h.compiled entry hentry).compiles

/-- The names of files in order are in order, each once. -/
theorem names (h : Ordered files) : (names files).Pairwise fun a b =>
    Specificity.compare (RouteName.specificity a) (RouteName.specificity b) = .lt := by
  have hsorted : (files.map RouteFile.name).Pairwise fun a b =>
      Specificity.le (RouteName.specificity a) (RouteName.specificity b) = true := by
    refine List.pairwise_map.2 (h.sorted.imp_of_mem fun {a b} ha hb hle => ?_)
    rwa [← (h.compiled a ha).specificity_eq, ← (h.compiled b hb).specificity_eq]
  have hle := hsorted.sublist (eraseDups_sublist _)
  refine (hle.and (names_nodup files)).imp fun hab => ?_
  exact Specificity.compare_eq_lt_of_le hab.1 fun hsame => hab.2 (congrArg Specificity.name hsame)

end Ordered

theorem mem_of_source? {entry : RouteFile} (h : source? settings files name = some entry) :
    entry ∈ files ∧ entry.name = name := by
  have hmem : ∀ role, entry ∈ (filesOf settings files name role).head? →
      entry ∈ files ∧ entry.name = name := by
    intro role hrole
    have hfile := List.mem_filter.1 (List.mem_of_head? hrole)
    simp only [Bool.and_eq_true, beq_iff_eq] at hfile
    exact ⟨hfile.1, hfile.2.1⟩
  rcases Option.or_eq_some_iff.1 h with hindex | ⟨_, hlayout⟩
  · exact hmem _ hindex
  · exact hmem _ hlayout

/-- A page in terms of the tokens of its name. -/
structure PageOf (settings : PageSettings) (files : List RouteFile) (used : Nat) (name : Text)
    (page : Page) : Prop where
  named : page.name = name
  kept : page.tokens = (RouteName.tokens name).drop used
  level : page.children = (childNames files name).filterMap
    (Forest.page settings files (some name) (RouteName.tokens name).length)

theorem pageOf (h : Ordered files)
    (hpage : Forest.page settings files parent used name = some page) :
    PageOf settings files used name page := by
  obtain ⟨entry, hsource, rfl⟩ := page_eq_some_iff.1 hpage
  obtain ⟨hentry, rfl⟩ := mem_of_source? hsource
  rw [pageFrom, (h.compiled entry hentry).tokens_eq]
  exact ⟨rfl, rfl, rfl⟩

/-- Names in order whose tokens begin alike make pages in order, less these tokens. -/
theorem ascending_level (h : Ordered files) {tops : List Text} {shared : List Token}
    (htops : tops.Pairwise fun a b =>
      Specificity.compare (RouteName.specificity a) (RouteName.specificity b) = .lt)
    (hshared : ∀ top ∈ tops, shared <+: RouteName.tokens top) :
    Page.Ascending (tops.filterMap (Forest.page settings files parent shared.length)) := by
  refine List.pairwise_filterMap.2 (htops.imp_of_mem fun {a b} ha hb hlt page hpage other hother => ?_)
  have hpage := pageOf h hpage
  have hother := pageOf h hother
  obtain ⟨rest, hrest⟩ := hshared a ha
  obtain ⟨others, hothers⟩ := hshared b hb
  rw [RouteName.specificity, RouteName.specificity, ← hrest, ← hothers,
    Specificity.compare_ofTokens_append] at hlt
  rwa [Page.specificity, Page.specificity, hpage.named, hother.named, hpage.kept, hother.kept,
    ← hrest, ← hothers, List.drop_left, List.drop_left]

theorem tokens_prefix_of_mem_childNames (h : Ordered files)
    (hproper : ∀ name ∈ names files, IsProper name) {above : Text} (habove : above ∈ names files)
    (hname : name ∈ childNames files above) : RouteName.tokens above <+: RouteName.tokens name := by
  obtain ⟨hknown, hbelow⟩ := mem_names_below.1 (mem_childNames.1 hname).1
  exact RouteName.tokens_prefix_of_isBelow (hproper name hknown) hbelow (h.compiles habove)
    (h.compiles hknown)

theorem Placed.children_ascending (hplaced : Placed settings files page) (h : Ordered files)
    (hproper : ∀ name ∈ names files, IsProper name) : Page.Ascending page.children := by
  obtain ⟨used, hmade⟩ := hplaced.made
  rw [(pageOf h hmade).level]
  exact ascending_level h ((h.filter _).filter _).names fun child hchild =>
    tokens_prefix_of_mem_childNames h hproper hplaced.known hchild

/-- A child goes on with its tokens where the tokens of its parent's name end. -/
theorem Placed.child_tokens (hplaced : Placed settings files page) (h : Ordered files)
    (hproper : ∀ name ∈ names files, IsProper name) {child : Page} (hchild : child ∈ page.children) :
    RouteName.tokens page.name ++ child.tokens = RouteName.tokens child.name := by
  obtain ⟨used, hmade⟩ := hplaced.made
  rw [(pageOf h hmade).level] at hchild
  obtain ⟨name, hname, hmade⟩ := List.mem_filterMap.1 hchild
  have hpage := pageOf h hmade
  rw [hpage.kept, hpage.named]
  exact List.prefix_iff_eq_append.1 (tokens_prefix_of_mem_childNames h hproper hplaced.known hname)

/-- The pages of a line add up to the tokens of the last name. -/
theorem line_tokens (h : Ordered files) (hproper : ∀ name ∈ names files, IsProper name)
    {line : List Page}
    (hline : Page.Line ((rootNames files).filterMap (Forest.page settings files none 0)) line page) :
    Placed settings files page ∧ line.flatMap Page.tokens = RouteName.tokens page.name := by
  induction hline with
  | root hroot =>
    obtain ⟨root, -, hmade⟩ := List.mem_filterMap.1 hroot
    have hpage := pageOf h hmade
    exact ⟨(placed_root hproper hroot).1, by simp [hpage.kept, hpage.named]⟩
  | child _ hchild ih =>
    obtain ⟨hplaced, htokens⟩ := ih
    refine ⟨(placed_child hplaced hchild).1, ?_⟩
    rw [List.flatMap_append, htokens, List.flatMap_singleton]
    exact hplaced.child_tokens h hproper hchild

/-- A forest whose pages keep what their parents have not used of the tokens of their names, with
each level in order of what its pages keep. -/
structure TrimmedAscending (forest : List Page) : Prop where
  line : ∀ page ∈ Page.allDescendants forest, ∃ line, Page.Line forest line page
  tokens : ∀ line page, Page.Line forest line page →
    ∃ p, Pattern.compile page.name = .ok p ∧ line.flatMap Page.tokens = p.tokens
  roots : Page.Ascending forest
  children : ∀ page ∈ Page.allDescendants forest, Page.Ascending page.children

theorem build_trimmed_ascending {entries : List RouteFile}
    (hproper : ∀ entry ∈ entries, IsProper entry.name)
    (hcompiled : ∀ entry ∈ entries, entry.IsCompiled) :
    TrimmedAscending (build settings entries) := by
  have h : Ordered (routable settings entries) := .routable hcompiled
  have hnames : ∀ name ∈ names (routable settings entries), IsProper name := by
    intro name hname
    obtain ⟨entry, hentry, rfl⟩ := mem_names.1 hname
    exact hproper entry (mem_routable.1 hentry).1
  refine ⟨Page.exists_line, fun line page hline => ?_, ?_, fun page hpage => ?_⟩
  · obtain ⟨hplaced, htokens⟩ := line_tokens h hnames hline
    obtain ⟨p, hp⟩ := h.compiles hplaced.known
    exact ⟨p, hp, htokens.trans (RouteName.tokens_eq hp)⟩
  · exact ascending_level h (h.filter _).names fun top _ => List.nil_prefix
  · obtain ⟨line, hline⟩ := Page.exists_line page hpage
    exact (line_tokens h hnames hline).1.children_ascending h hnames

/-- Index files of routes below `index`, which has no token, and below `blog`, which has one. -/
def indented : List RouteFile :=
  ["index", "blog/[slug]/edit", "index/docs", "blog/[slug]", "blog", "blog/about"].filterMap
    fun name => (RouteFile.make .pages name.toList "index.rsx".toList
      (.ofText s!"pages/{name}/index.rsx".toList)).toOption

theorem build_indented_trimmed_ascending :
    (∀ entry ∈ indented, IsProper entry.name) ∧ (∀ entry ∈ indented, entry.IsCompiled) ∧
      TrimmedAscending (build {} indented) ∧
      (Page.allDescendants (build {} indented)).map
          (fun page => (page.name, page.tokens.map Token.source)) =
        [("blog".toList, ["blog".toList]), ("blog/about".toList, ["about".toList]),
          ("blog/[slug]".toList, ["[slug]".toList]), ("blog/[slug]/edit".toList, ["edit".toList]),
          ("index".toList, []), ("index/docs".toList, ["docs".toList])] := by
  have hnames : indented.map RouteFile.name =
      ["index".toList, "blog/[slug]/edit".toList, "index/docs".toList, "blog/[slug]".toList,
        "blog".toList, "blog/about".toList] := by cbv
  have hproper : ∀ name ∈ indented.map RouteFile.name, IsProper name := by
    rw [hnames]
    decide
  have hentries : ∀ entry ∈ indented, IsProper entry.name :=
    fun entry hentry => hproper _ (List.mem_map_of_mem hentry)
  have hcompiled : ∀ entry ∈ indented, entry.IsCompiled := by
    intro entry hentry
    obtain ⟨name, -, hentry⟩ := List.mem_filterMap.1 hentry
    generalize hmade : RouteFile.make .pages name.toList _ _ = made at hentry
    cases made with
    | error e => simp [Except.toOption] at hentry
    | ok made =>
      obtain rfl : made = entry := by simpa [Except.toOption] using hentry
      exact RouteFile.isCompiled_of_make hmade
  exact ⟨hentries, hcompiled, build_trimmed_ascending hentries hcompiled, by cbv⟩

end Forest

end FileRoutes
