import FileRoutes.Proofs.CompiledPattern
import FileRoutes.Proofs.NameOrder
import Mathlib

/-! Paths put together from segments. A path of joined segments compiles segment by segment, less a
leading `index`, so a path in two parts compiles part by part: it has the tokens of the first part
and then those of the second, and its error is that of the first part that has one. -/

namespace FileRoutes

namespace Text

/-- A directory name as a path can hold it. -/
def IsSegment (segment : Text) : Prop :=
  segment ≠ [] ∧ '/' ∉ segment

instance (segment : Text) : Decidable (IsSegment segment) :=
  inferInstanceAs (Decidable (segment ≠ [] ∧ '/' ∉ segment))

theorem segments_joinSegments {segments : List Text} (h : ∀ segment ∈ segments, IsSegment segment)
    (hne : segments ≠ []) : Text.segments (joinSegments segments) = segments :=
  List.splitOn_intercalate '/' (fun segment hsegment => (h segment hsegment).2) hne

end Text

namespace Pattern

open Text (IsSegment joinSegments)

/-- The segments without a leading `index`. -/
def withoutIndex : List Text → List Text
  | [] => []
  | first :: rest => if first = "index".toList then rest else first :: rest

variable {segments first second : List Text}

theorem withoutIndex_append (hne : first ≠ []) :
    withoutIndex (first ++ second) = withoutIndex first ++ second := by
  obtain ⟨segment, rest, rfl⟩ := List.exists_cons_of_ne_nil hne
  simp only [List.cons_append, withoutIndex]
  split <;> rfl

theorem withoutIndex_eq_self (h : segments.head? ≠ some "index".toList) :
    withoutIndex segments = segments := by
  cases segments with
  | nil => rfl
  | cons segment rest =>
    have hsegment : segment ≠ "index".toList := by simpa using h
    rw [withoutIndex, if_neg hsegment]

theorem withoutIndex_eq_nil_iff (hne : segments ≠ []) :
    withoutIndex segments = [] ↔ segments = ["index".toList] := by
  obtain ⟨segment, rest, rfl⟩ := List.exists_cons_of_ne_nil hne
  rw [withoutIndex]
  split
  · next hindex => simp [hindex]
  · next hindex => simp only [List.cons.injEq, hindex, false_and, reduceCtorEq]

theorem routeSegments_joinSegments (h : ∀ segment ∈ segments, IsSegment segment) :
    routeSegments (joinSegments segments) = withoutIndex segments := by
  cases segments with
  | nil => cbv
  | cons segment rest =>
    have hsplit := Text.segments_joinSegments h (by simp)
    have hproper : RouteName.IsProper (joinSegments (segment :: rest)) := by
      intro other hother
      rw [hsplit] at hother
      exact (h other hother).1
    have hne : segment ≠ [] := (h segment (by simp)).1
    rw [routeSegments, RouteName.trimSlashes_of_isProper hproper, hsplit]
    split
    · next heq => exact absurd (List.cons.inj heq).1 hne
    · next heq =>
      obtain ⟨rfl, rfl⟩ := List.cons.inj heq
      rfl
    · next heq => cases heq

theorem mapM_segmentToken (path : Text) (h : ∀ segment ∈ segments, segment ≠ []) :
    segments.mapM (segmentToken path) = segments.mapM Token.compile := by
  induction segments with
  | nil => rfl
  | cons segment rest ih =>
    have hsegment : segmentToken path segment = Token.compile segment := by
      simp [segmentToken, h segment (by simp)]
    rw [List.mapM_cons, List.mapM_cons, hsegment, ih fun other hother => h other (by simp [hother])]

theorem mem_of_mem_withoutIndex {segment : Text} (h : segment ∈ withoutIndex segments) :
    segment ∈ segments := by
  cases segments with
  | nil => exact h
  | cons head rest =>
    rw [withoutIndex] at h
    split at h
    · exact List.mem_cons_of_mem head h
    · exact h

/-- Joined segments compile one by one. -/
theorem compile_joinSegments (h : ∀ segment ∈ segments, IsSegment segment) :
    compile (joinSegments segments) =
      ((withoutIndex segments).mapM Token.compile).map ofTokens := by
  rw [compile_eq, routeSegments_joinSegments h, mapM_segmentToken]
  exact fun segment hsegment => (h segment (mem_of_mem_withoutIndex hsegment)).1

theorem compile_joinSegments_eq_ok_iff (h : ∀ segment ∈ segments, IsSegment segment)
    {p : Pattern} : compile (joinSegments segments) = .ok p ↔
      ∃ tokens, (withoutIndex segments).mapM Token.compile = .ok tokens ∧ p = ofTokens tokens := by
  rw [compile_joinSegments h, map_eq_ok_iff]

theorem joinPatterns_append {tokens : List Token} (hne : tokens ≠ []) (others : List Token) :
    Token.joinPatterns (tokens ++ others) =
      Token.joinPatterns tokens ++ others.flatMap Token.pattern := by
  obtain ⟨token, rest, rfl⟩ := List.exists_cons_of_ne_nil hne
  simp [Token.joinPatterns]

/-- A path in two parts compiles exactly if both parts do. It has the tokens and the pieces of both,
and if it fails, it fails as the first part does, or else as the second. -/
structure Composed (first second : List Text) : Prop where
  succeeds : (∃ r, compile (joinSegments (first ++ second)) = .ok r) ↔
    (∃ p, compile (joinSegments first) = .ok p) ∧ ∃ q, compile (joinSegments second) = .ok q
  result : ∀ p q, compile (joinSegments first) = .ok p → compile (joinSegments second) = .ok q →
    compile (joinSegments (first ++ second)) = .ok ⟨p.tokens ++ q.tokens,
      if first = ["index".toList] then q.pattern else p.pattern ++ q.tokens.flatMap Token.pattern⟩
  fails : ∀ e, compile (joinSegments (first ++ second)) = .error e ↔
    compile (joinSegments first) = .error e ∨
      (∃ p, compile (joinSegments first) = .ok p) ∧ compile (joinSegments second) = .error e

theorem ofTokens_append {tokens : List Token} (hne : first ≠ [])
    (htokens : (withoutIndex first).mapM Token.compile = .ok tokens) (others : List Token) :
    ofTokens (tokens ++ others) = ⟨tokens ++ others,
      if first = ["index".toList] then Token.joinPatterns others
      else Token.joinPatterns tokens ++ others.flatMap Token.pattern⟩ := by
  have hlength := (mapM_eq_ok_iff.1 htokens).length_eq
  by_cases hindex : first = ["index".toList]
  · rw [(withoutIndex_eq_nil_iff hne).2 hindex, List.length_nil] at hlength
    obtain rfl := List.eq_nil_of_length_eq_zero hlength.symm
    rw [if_pos hindex]
    rfl
  · have htokensNe : tokens ≠ [] := by
      rintro rfl
      exact hindex ((withoutIndex_eq_nil_iff hne).1 (List.eq_nil_of_length_eq_zero hlength))
    rw [if_neg hindex, ← joinPatterns_append htokensNe]
    rfl

/-- A path compiles in parts if it is cut in front of a segment that is not `index`. -/
theorem composed_of_segments (hne : first ≠ [])
    (h : ∀ segment ∈ first ++ second, IsSegment segment)
    (hindex : second.head? ≠ some "index".toList) : Composed first second := by
  have hfirst := compile_joinSegments fun segment hsegment =>
    h segment (List.mem_append_left second hsegment)
  have hsecond := compile_joinSegments fun segment hsegment =>
    h segment (List.mem_append_right first hsegment)
  have hwhole := compile_joinSegments h
  rw [withoutIndex_append hne, List.mapM_append] at hwhole
  rw [withoutIndex_eq_self hindex] at hsecond
  cases htokens : (withoutIndex first).mapM Token.compile with
  | error e =>
    simp only [htokens, bind, Except.bind, Except.map] at hfirst hwhole
    exact ⟨by simp [hfirst, hwhole], by simp [hfirst], by simp [hfirst, hwhole]⟩
  | ok tokens =>
    cases hothers : second.mapM Token.compile with
    | error e =>
      simp only [htokens, hothers, bind, Except.bind, Except.map] at hfirst hsecond hwhole
      exact ⟨by simp [hsecond, hwhole], by simp [hsecond], by simp [hfirst, hsecond, hwhole]⟩
    | ok others =>
      simp only [htokens, hothers, bind, Except.bind, Except.map, pure, Except.pure]
        at hfirst hsecond hwhole
      refine ⟨by simp [hfirst, hsecond, hwhole], fun p q hp hq => ?_,
        by simp [hfirst, hsecond, hwhole]⟩
      obtain rfl := Except.ok.inj (hfirst.symm.trans hp)
      obtain rfl := Except.ok.inj (hsecond.symm.trans hq)
      rw [hwhole, ofTokens_append hne htokens]
      rfl

/-- Behind a lone `index` the second part is the whole pattern, and of two faults the first is told. -/
theorem composed_behind_index :
    Composed ["index".toList] ["[[lang]]".toList, "docs".toList] ∧
      (∃ p, compile "index/[[lang]]/docs".toList = .ok p ∧ p.pattern = "{/:lang}/docs".toList) ∧
      Composed ["a[".toList] ["b]".toList] ∧
      compile "a[/b]".toList = .error (.malformed "a[".toList 1 (.unclosed '[')) := by
  have hindex : Composed ["index".toList] ["[[lang]]".toList, "docs".toList] :=
    composed_of_segments (by decide) (by decide) (by decide)
  have hfaults : Composed ["a[".toList] ["b]".toList] :=
    composed_of_segments (by decide) (by decide) (by decide)
  have hroot : compile (joinSegments ["index".toList]) = .ok ⟨[], []⟩ := by cbv
  have hdocs : compile (joinSegments ["[[lang]]".toList, "docs".toList]) = .ok (ofTokens (tokensOf
      ["[[lang]]".toList, "docs".toList]
      [[.group [.param "lang".toList]], [.text "docs".toList]])) := by cbv
  have hfault : compile (joinSegments ["a[".toList]) =
      .error (.malformed "a[".toList 1 (.unclosed '[')) := by cbv
  exact ⟨hindex, ⟨_, hindex.result _ _ hroot hdocs, by cbv⟩, hfaults,
    (hfaults.fails _).2 (Or.inl hfault)⟩

end Pattern

end FileRoutes
