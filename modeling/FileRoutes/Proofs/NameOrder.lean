import FileRoutes.RouteName
import Mathlib.Data.List.Basic

/-! Names as paths. A name lies below another if its segments go on from those of the other, and the
names above one name are in line: of two, one is the other or lies below it. So in any class of
names each has a top one above it, which lies below none of the class. -/

namespace FileRoutes

namespace Text

theorem segments_append_slash (s t : Text) : segments (s ++ '/' :: t) = segments s ++ segments t :=
  List.splitOn_append_cons_self s t

theorem segments_ne_nil (t : Text) : segments t ≠ [] :=
  List.splitOn_ne_nil '/' t

theorem joinSegments_segments (t : Text) : joinSegments (segments t) = t :=
  List.intercalate_splitOn '/'

theorem joinSegments_append {ss ts : List Text} (hss : ss ≠ []) (hts : ts ≠ []) :
    joinSegments (ss ++ ts) = joinSegments ss ++ '/' :: joinSegments ts := by
  induction ss with
  | nil => exact absurd rfl hss
  | cons s ss ih =>
    rcases ss with - | ⟨s', ss⟩
    · rw [List.singleton_append, joinSegments, List.intercalate_cons_of_ne_nil hts]
      simp [joinSegments]
    · have hih := ih (by simp)
      simp only [joinSegments, List.cons_append, List.intercalate_cons_cons] at hih ⊢
      rw [hih]
      simp

end Text

namespace RouteName

/-- Segments joined by separators, none of them empty. -/
def IsProper (name : Text) : Prop :=
  ∀ segment ∈ Text.segments name, segment ≠ []

instance (name : Text) : Decidable (IsProper name) :=
  inferInstanceAs (Decidable (∀ segment ∈ Text.segments name, segment ≠ []))

/-- The segments of the name go on from those of the other. -/
def IsPathPrefix (above name : Text) : Prop :=
  above ≠ name ∧ Text.segments above <+: Text.segments name

/-- The nearest name above one among the names of a class. -/
def IsNearestAbove (named : Text → Prop) (name : Text) : Option Text → Prop
  | none => ∀ above, named above → ¬ IsPathPrefix above name
  | some nearest => named nearest ∧ IsPathPrefix nearest name ∧
      ∀ above, named above → IsPathPrefix above name → above.length ≤ nearest.length

theorem isBelow_iff_isPathPrefix {above name : Text} :
    isBelow above name = true ↔ IsPathPrefix above name := by
  constructor
  · intro h
    refine ⟨?_, ?_⟩
    · rintro rfl
      simp [isBelow_irrefl] at h
    · obtain ⟨rest, rfl⟩ := isBelow_iff.1 h
      rw [Text.segments_append_slash]
      exact List.prefix_append _ _
  · rintro ⟨hne, rest, hrest⟩
    have hname : Text.joinSegments (Text.segments above ++ rest) = name := by
      rw [hrest, Text.joinSegments_segments]
    have hrest' : rest ≠ [] := by
      rintro rfl
      rw [List.append_nil, Text.joinSegments_segments] at hname
      exact hne hname
    rw [Text.joinSegments_append (Text.segments_ne_nil above) hrest', Text.joinSegments_segments]
      at hname
    exact isBelow_iff.2 ⟨_, hname.symm⟩

theorem length_lt_of_isBelow {above name : Text} (h : isBelow above name = true) :
    above.length < name.length := by
  obtain ⟨rest, rfl⟩ := isBelow_iff.1 h
  rw [List.length_append, List.length_cons]
  omega

/-- The names above one name are in line. -/
theorem isBelow_trichotomy {a b name : Text} (ha : isBelow a name = true)
    (hb : isBelow b name = true) : a = b ∨ isBelow a b = true ∨ isBelow b a = true := by
  obtain ⟨r, rfl⟩ := isBelow_iff.1 ha
  obtain ⟨s, hs⟩ := isBelow_iff.1 hb
  rcases List.append_eq_append_iff.1 hs with ⟨gap, hgap, htail⟩ | ⟨gap, hgap, htail⟩
  · rcases gap with - | ⟨c, gap⟩
    · exact Or.inl (by simpa using hgap.symm)
    · rw [List.cons_append, List.cons.injEq] at htail
      obtain ⟨rfl, -⟩ := htail
      exact Or.inr (Or.inl (isBelow_iff.2 ⟨gap, hgap⟩))
  · rcases gap with - | ⟨c, gap⟩
    · exact Or.inl (by simpa using hgap)
    · rw [List.cons_append, List.cons.injEq] at htail
      obtain ⟨rfl, -⟩ := htail
      exact Or.inr (Or.inr (isBelow_iff.2 ⟨gap, hgap⟩))

/-- The name itself or one below it. -/
def AtOrBelow (above name : Text) : Prop :=
  name = above ∨ isBelow above name = true

theorem AtOrBelow.trans {a b c : Text} (hab : AtOrBelow a b) (hbc : AtOrBelow b c) :
    AtOrBelow a c := by
  rcases hab with rfl | hab
  · exact hbc
  · rcases hbc with rfl | hbc
    · exact Or.inr hab
    · exact Or.inr (isBelow_trans hab hbc)

/-- A name of the class that lies below none of it. -/
def Topmost (named : Text → Prop) (top : Text) : Prop :=
  named top ∧ ∀ above, named above → ¬ isBelow above top = true

/-- Each name of a class has a top one at or above it. -/
theorem exists_topmost {named : Text → Prop} {name : Text} (h : named name) :
    ∃ top, Topmost named top ∧ AtOrBelow top name := by
  induction hlength : name.length using Nat.strongRecOn generalizing name with
  | ind n ih =>
    by_cases habove : ∃ above, named above ∧ isBelow above name = true
    · obtain ⟨above, habove, hbelow⟩ := habove
      have hshorter := length_lt_of_isBelow hbelow
      obtain ⟨top, htop, hreach⟩ := ih above.length (by omega) habove rfl
      exact ⟨top, htop, hreach.trans (Or.inr hbelow)⟩
    · exact ⟨name, ⟨h, fun above hnamed hbelow => habove ⟨above, hnamed, hbelow⟩⟩, Or.inl rfl⟩

/-- No name has two top ones at or above it. -/
theorem Topmost.unique {named : Text → Prop} {a b name : Text} (ha : Topmost named a)
    (hb : Topmost named b) (hreachA : AtOrBelow a name) (hreachB : AtOrBelow b name) : a = b := by
  have hab := hb.2 a ha.1
  have hba := ha.2 b hb.1
  rcases hreachA with rfl | hreachA
  · rcases hreachB with rfl | hreachB
    · rfl
    · exact absurd hreachB hba
  · rcases hreachB with rfl | hreachB
    · exact absurd hreachA hab
    · rcases isBelow_trichotomy hreachA hreachB with h | h | h
      · exact h
      · exact absurd h hab
      · exact absurd h hba

theorem trimSlashes_of_isProper {name : Text} (h : IsProper name) : Text.trimSlashes name = name := by
  have hhead : name.dropWhile (· == '/') = name := by
    rcases name with - | ⟨c, name⟩
    · rfl
    · have hc : c ≠ '/' := by
        rintro rfl
        have hempty : [] ∈ Text.segments ([] ++ '/' :: name) := by
          rw [Text.segments_append_slash]
          exact List.mem_append_left _ (List.mem_singleton_self _)
        exact h [] hempty rfl
      simp [hc]
  have hlast : name.reverse.dropWhile (· == '/') = name.reverse := by
    rcases name.eq_nil_or_concat with rfl | ⟨name, c, rfl⟩
    · rfl
    · have hc : c ≠ '/' := by
        rintro rfl
        have hempty : [] ∈ Text.segments (name ++ '/' :: []) := by
          rw [Text.segments_append_slash]
          exact List.mem_append_right _ (List.mem_singleton_self _)
        rw [List.concat_eq_append] at h
        exact h [] hempty rfl
      simp [hc]
  rw [Text.trimSlashes, Text.trimEnd, hhead, hlast, List.reverse_reverse]

/-- Ancestors are found in a name without the separators at its ends. -/
theorem mem_ancestors {above name : Text} :
    above ∈ ancestors name ↔ isBelow above (Text.trimSlashes name) = true := by
  rw [ancestors, mem_beforeSlashes, isBelow_iff]

end RouteName

end FileRoutes
