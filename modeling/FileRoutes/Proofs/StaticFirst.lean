import FileRoutes.Proofs.CompiledName
import FileRoutes.Proofs.JoinedPath
import FileRoutes.Proofs.SpecificityOrder

/-! A static segment comes before any other in its place. Wherever it stands, it adds to the static
segments that decide first; a leading `index` adds nothing, but leaves the route one segment
shorter. -/

namespace FileRoutes

namespace Specificity

variable {a b : Specificity}

theorem compare_eq_lt_of_statics (h : b.statics < a.statics) : compare a b = .lt := by
  rw [compare, Nat.compare_eq_lt.2 h]
  rfl

theorem compare_eq_lt_of_length (hstatics : a.statics = b.statics) (h : a.length < b.length) :
    compare a b = .lt := by
  rw [compare, hstatics, Nat.compare_eq_eq.2 rfl, Nat.compare_eq_lt.2 h]
  rfl

variable {token other : Token}

theorem compare_eq_lt_of_static (before after : List Token) (htoken : token.isStatic = true)
    (hother : other.isStatic = false) (name otherName : Text) :
    compare (ofTokens name (before ++ token :: after))
      (ofTokens otherName (before ++ other :: after)) = .lt := by
  rw [compare_ofTokens_append]
  apply compare_eq_lt_of_statics
  simp [ofTokens, htoken, hother]

/-- A segment that is not static makes a route less specific than the same without it. -/
theorem compare_eq_lt_of_dropped (after : List Token) (hother : other.isStatic = false)
    (name otherName : Text) :
    compare (ofTokens name after) (ofTokens otherName (other :: after)) = .lt := by
  apply compare_eq_lt_of_length
  · simp [ofTokens, hother]
  · simp [ofTokens]

end Specificity

namespace Pattern

variable {segments before after : List Text} {segment : Text} {token : Token}

theorem exists_tokens_of_forall
    (h : ∀ segment ∈ segments, ∃ token, Token.compile segment = .ok token) :
    ∃ tokens, segments.mapM Token.compile = .ok tokens := by
  induction segments with
  | nil => exact ⟨[], rfl⟩
  | cons segment rest ih =>
    obtain ⟨token, htoken⟩ := h segment (by simp)
    obtain ⟨tokens, htokens⟩ := ih fun other hother => h other (by simp [hother])
    exact ⟨token :: tokens, by simp [List.mapM_cons, htoken, htokens, bind, Except.bind, pure,
      Except.pure]⟩

theorem mapM_compile_append_cons {tokens others : List Token}
    (hbefore : before.mapM Token.compile = .ok tokens) (hsegment : Token.compile segment = .ok token)
    (hafter : after.mapM Token.compile = .ok others) :
    (before ++ segment :: after).mapM Token.compile = .ok (tokens ++ token :: others) := by
  simp [List.mapM_append, List.mapM_cons, hbefore, hsegment, hafter, bind, Except.bind, pure,
    Except.pure]

theorem ne_index_of_not_static (h : Token.compile segment = .ok token)
    (hdynamic : token.isStatic = false) : segment ≠ "index".toList := by
  have hindex : (Token.compile "index".toList).map Token.isStatic = .ok true := by cbv
  rintro rfl
  rw [h, Except.map, hdynamic] at hindex
  cases hindex

/-- The tokens of two paths that differ in one segment, which is static in the first. -/
theorem exists_tokens_compare_eq_lt {literal other : Text} {otherToken : Token}
    (hcontext : ∀ segment ∈ before ++ after, ∃ token, Token.compile segment = .ok token)
    (hliteral : Token.compile literal = .ok token) (hstatic : token.isStatic = true)
    (hother : Token.compile other = .ok otherToken) (hdynamic : otherToken.isStatic = false) :
    ∃ tokens others,
      (withoutIndex (before ++ literal :: after)).mapM Token.compile = .ok tokens ∧
      (withoutIndex (before ++ other :: after)).mapM Token.compile = .ok others ∧
      ∀ name otherName,
        Specificity.compare (.ofTokens name tokens) (.ofTokens otherName others) = .lt := by
  obtain ⟨rest, hafter⟩ := exists_tokens_of_forall fun segment hsegment =>
    hcontext segment (List.mem_append_right before hsegment)
  cases before with
  | nil =>
    have hnone : ([] : List Text).mapM Token.compile = .ok [] := rfl
    have hothers := mapM_compile_append_cons hnone hother hafter
    have htokens := mapM_compile_append_cons hnone hliteral hafter
    simp only [List.nil_append, withoutIndex, if_neg (ne_index_of_not_static hother hdynamic)]
      at hothers htokens ⊢
    split
    · exact ⟨rest, _, hafter, hothers, Specificity.compare_eq_lt_of_dropped rest hdynamic⟩
    · exact ⟨_, _, htokens, hothers, Specificity.compare_eq_lt_of_static [] rest hstatic hdynamic⟩
  | cons head before =>
    obtain ⟨tokens, hbefore⟩ := exists_tokens_of_forall fun segment hsegment =>
      hcontext segment (List.mem_append_left after (mem_of_mem_withoutIndex hsegment))
    simp only [withoutIndex_append (List.cons_ne_nil head before)]
    exact ⟨_, _, mapM_compile_append_cons hbefore hliteral hafter,
      mapM_compile_append_cons hbefore hother hafter,
      Specificity.compare_eq_lt_of_static tokens rest hstatic hdynamic⟩

end Pattern

namespace RouteFile

open Text (IsSegment joinSegments)
open Pattern (withoutIndex)

/-- The route file of joined segments has their tokens, and so their specificity. -/
theorem exists_make_joinSegments {segments : List Text} {tokens : List Token}
    (h : ∀ segment ∈ segments, IsSegment segment)
    (htokens : (withoutIndex segments).mapM Token.compile = .ok tokens) (folder : Folder)
    (file : Text) (fullPath : FilePath) :
    ∃ entry, make folder (joinSegments segments) file fullPath = .ok entry ∧
      entry.specificity = .ofTokens (joinSegments segments) tokens := by
  have hcompile := (Pattern.compile_joinSegments_eq_ok_iff h).2 ⟨tokens, htokens, rfl⟩
  exact ⟨_, make_eq_ok_iff.2 ⟨_, hcompile, rfl⟩, rfl⟩

/-- Of two routes that differ in one segment, the one where it is static comes first, also where the
segment is a leading `index` that is dropped. -/
theorem static_segment_first {before after : List Text} {literal other : Text}
    {token otherToken : Token}
    (hcontext : ∀ segment ∈ before ++ after,
      IsSegment segment ∧ ∃ token, Token.compile segment = .ok token)
    (hliteral : IsSegment literal) (htoken : Token.compile literal = .ok token)
    (hstatic : token.isStatic = true) (hother : IsSegment other)
    (hotherToken : Token.compile other = .ok otherToken) (hdynamic : otherToken.isStatic = false)
    (folder otherFolder : Folder) (file otherFile : Text) (fullPath otherPath : FilePath) :
    ∃ first second,
      make folder (joinSegments (before ++ literal :: after)) file fullPath = .ok first ∧
      make otherFolder (joinSegments (before ++ other :: after)) otherFile otherPath = .ok second ∧
      Specificity.compare first.specificity second.specificity = .lt := by
  have hsegments : ∀ segment, IsSegment segment →
      ∀ member ∈ before ++ segment :: after, IsSegment member := by
    intro segment hsegment member hmember
    rcases List.mem_append.1 hmember with hmember | hmember
    · exact (hcontext member (List.mem_append_left _ hmember)).1
    · rcases List.mem_cons.1 hmember with rfl | hmember
      · exact hsegment
      · exact (hcontext member (List.mem_append_right _ hmember)).1
  obtain ⟨tokens, others, htokens, hothers, hlt⟩ := Pattern.exists_tokens_compare_eq_lt
    (fun segment hsegment => (hcontext segment hsegment).2) htoken hstatic hotherToken hdynamic
  obtain ⟨first, hfirst, hfirstKey⟩ :=
    exists_make_joinSegments (hsegments literal hliteral) htokens folder file fullPath
  obtain ⟨second, hsecond, hsecondKey⟩ :=
    exists_make_joinSegments (hsegments other hother) hothers otherFolder otherFile otherPath
  refine ⟨first, second, hfirst, hsecond, ?_⟩
  rw [hfirstKey, hsecondKey]
  exact hlt _ _

/-- The leading `index` of `index/edit` is dropped, so that it has one segment less. -/
theorem static_segment_first_of_leading_index :
    ∃ first second,
      make .pages "index/edit".toList "index.rsx".toList
        (.ofText "pages/index/edit/index.rsx".toList) = .ok first ∧
      make .api "[id]/edit".toList "index.rs".toList
        (.ofText "api/[id]/edit/index.rs".toList) = .ok second ∧
      Specificity.compare first.specificity second.specificity = .lt := by
  have hedit : ∃ token, Token.compile "edit".toList = .ok token := ⟨_, by cbv⟩
  have hcontext : ∀ segment ∈ [] ++ ["edit".toList],
      IsSegment segment ∧ ∃ token, Token.compile segment = .ok token := by
    intro segment hsegment
    obtain rfl := List.mem_singleton.1 hsegment
    exact ⟨by decide, hedit⟩
  have hindex : Token.compile "index".toList =
      .ok ⟨.static, "index".toList, "/index".toList, [.static "index".toList]⟩ := by cbv
  have hid : Token.compile "[id]".toList =
      .ok ⟨.param, "[id]".toList, "/:id".toList, [.param "id".toList .required]⟩ := by cbv
  exact static_segment_first hcontext (by decide) hindex rfl (by decide) hid rfl .pages .api
    "index.rsx".toList "index.rs".toList (.ofText "pages/index/edit/index.rsx".toList)
    (.ofText "api/[id]/edit/index.rs".toList)

end RouteFile

end FileRoutes
