import FileRoutes.Page

/-! Page trees. All pages of a forest are its roots and the children of its pages, so what holds of
the roots and goes over from pages to their children holds of all, and each page has a line of pages
from a root down to it. -/

namespace FileRoutes.Page

@[elab_as_elim]
theorem induction {motive : Page → Prop}
    (step : ∀ page : Page, (∀ child ∈ page.children, motive child) → motive page) :
    ∀ page, motive page
  | ⟨name, index, layout, tokens, parent, children⟩ =>
    step _ fun child (_ : child ∈ children) => induction step child
termination_by page => sizeOf page
decreasing_by
  have hlt : sizeOf child < sizeOf children := List.sizeOf_lt_of_mem ‹child ∈ children›
  simp only [mk.sizeOf_spec]
  omega

theorem descendants_eq (page : Page) :
    descendants page = page :: allDescendants page.children := by
  obtain ⟨name, index, layout, tokens, parent, children⟩ := page
  simp [descendants]

theorem allDescendants_cons (page : Page) (rest : List Page) :
    allDescendants (page :: rest) = descendants page ++ allDescendants rest := by
  simp [allDescendants]

theorem mem_allDescendants {forest : List Page} {page : Page} :
    page ∈ allDescendants forest ↔ ∃ root ∈ forest, page ∈ descendants root := by
  induction forest with
  | nil => simp [allDescendants]
  | cons root rest ih => simp [allDescendants_cons, ih]

theorem mem_descendants {page other : Page} :
    other ∈ descendants page ↔
      other = page ∨ ∃ child ∈ page.children, other ∈ descendants child := by
  rw [descendants_eq, List.mem_cons, mem_allDescendants]

/-- A page below another is the child of one that is it or lies below it. -/
theorem exists_above_of_mem_descendants {page other : Page} (h : other ∈ descendants page) :
    other = page ∨ ∃ above ∈ descendants page, other ∈ above.children := by
  induction page using induction with
  | step page ih =>
    rcases mem_descendants.1 h with rfl | ⟨next, hnext, h⟩
    · exact Or.inl rfl
    · apply Or.inr
      rcases ih next hnext h with rfl | ⟨above, habove, hother⟩
      · exact ⟨page, mem_descendants.2 (Or.inl rfl), hnext⟩
      · exact ⟨above, mem_descendants.2 (Or.inr ⟨next, hnext, habove⟩), hother⟩

theorem exists_above_of_mem_allDescendants {forest : List Page} {page : Page}
    (h : page ∈ allDescendants forest) :
    page ∈ forest ∨ ∃ above ∈ allDescendants forest, page ∈ above.children := by
  obtain ⟨root, hroot, h⟩ := mem_allDescendants.1 h
  rcases exists_above_of_mem_descendants h with rfl | ⟨above, habove, hpage⟩
  · exact Or.inl hroot
  · exact Or.inr ⟨above, mem_allDescendants.2 ⟨root, hroot, habove⟩, hpage⟩

/-- What holds of the roots and goes over to children holds of all pages. -/
theorem forall_mem_allDescendants {forest : List Page} {P : Page → Prop}
    (hroots : ∀ root ∈ forest, P root)
    (hchildren : ∀ page, P page → ∀ child ∈ page.children, P child) :
    ∀ page ∈ allDescendants forest, P page := by
  have hbelow : ∀ page, P page → ∀ other ∈ descendants page, P other := by
    intro page
    induction page using induction with
    | step page ih =>
      intro hpage other hother
      rcases mem_descendants.1 hother with rfl | ⟨child, hchild, hother⟩
      · exact hpage
      · exact ih child hchild (hchildren page hpage child hchild) other hother
  intro page hpage
  obtain ⟨root, hroot, hpage⟩ := mem_allDescendants.1 hpage
  exact hbelow root (hroots root hroot) page hpage

/-- The pages from a root of the forest down to a page, each a child of the one before. -/
inductive Line (forest : List Page) : List Page → Page → Prop
  | root {page : Page} (h : page ∈ forest) : Line forest [page] page
  | child {line : List Page} {above page : Page} (h : Line forest line above)
      (hpage : page ∈ above.children) : Line forest (line ++ [page]) page

theorem exists_line {forest : List Page} :
    ∀ page ∈ allDescendants forest, ∃ line, Line forest line page :=
  forall_mem_allDescendants (fun root hroot => ⟨[root], .root hroot⟩)
    fun _ ⟨line, hline⟩ child hchild => ⟨line ++ [child], .child hline hchild⟩

end FileRoutes.Page
