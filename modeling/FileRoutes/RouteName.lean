import FileRoutes.Text

/-! Route names are directory paths without a leading separator. The ancestors of a name are what
stands before each of its separators. -/

namespace FileRoutes.RouteName

/-- What stands before each separator, the longest first. -/
def beforeSlashes : Text → List Text
  | [] => []
  | c :: rest =>
    let deeper := (beforeSlashes rest).map (c :: ·)
    if c = '/' then deeper ++ [[]] else deeper

def ancestors (name : Text) : List Text :=
  beforeSlashes (Text.trimSlashes name)

/-- The name itself, then its ancestors. -/
def lineage (name : Text) : List Text :=
  match Text.trimSlashes name with
  | [] => []
  | trimmed => trimmed :: beforeSlashes trimmed

/-- Whether a name lies below another: `blog/post` lies below `blog`, `blogroll` does not. -/
def isBelow (ancestor name : Text) : Bool :=
  match Text.after? ancestor name with
  | some ('/' :: _) => true
  | _ => false

theorem mem_beforeSlashes {p name : Text} :
    p ∈ beforeSlashes name ↔ ∃ rest, name = p ++ '/' :: rest := by
  induction name generalizing p with
  | nil => simp [beforeSlashes]
  | cons c t ih =>
    constructor
    · intro h
      have hcases : (∃ q ∈ beforeSlashes t, c :: q = p) ∨ (c = '/' ∧ p = []) := by
        simp only [beforeSlashes] at h
        split at h <;> simp_all
      rcases hcases with ⟨q, hq, rfl⟩ | ⟨rfl, rfl⟩
      · obtain ⟨rest, hrest⟩ := ih.1 hq
        exact ⟨rest, by simp [hrest]⟩
      · exact ⟨t, rfl⟩
    · rintro ⟨rest, hrest⟩
      cases p with
      | nil =>
        simp only [List.nil_append, List.cons.injEq] at hrest
        simp [beforeSlashes, hrest.1]
      | cons a q =>
        simp only [List.cons_append, List.cons.injEq] at hrest
        have hq := ih.2 ⟨rest, hrest.2⟩
        simp only [beforeSlashes]
        split <;> simp [hrest.1, hq]

theorem isBelow_iff {ancestor name : Text} :
    isBelow ancestor name = true ↔ ∃ rest, name = ancestor ++ '/' :: rest := by
  unfold isBelow
  constructor
  · intro h
    split at h
    · next rest hafter => exact ⟨rest, Text.eq_append_of_after? hafter⟩
    · simp at h
  · rintro ⟨rest, rfl⟩
    simp [Text.after?_append]

theorem isBelow_trans {a b c : Text} (hab : isBelow a b = true) (hbc : isBelow b c = true) :
    isBelow a c = true := by
  obtain ⟨r, rfl⟩ := isBelow_iff.1 hab
  obtain ⟨s, rfl⟩ := isBelow_iff.1 hbc
  exact isBelow_iff.2 ⟨r ++ '/' :: s, by simp⟩

theorem isBelow_irrefl (a : Text) : isBelow a a = false := by
  refine Bool.eq_false_iff.2 fun h => ?_
  obtain ⟨rest, hrest⟩ := isBelow_iff.1 h
  have := congrArg List.length hrest
  simp at this

end FileRoutes.RouteName
