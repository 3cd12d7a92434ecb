import FileRoutes.Proofs.JoinedPath
import FileRoutes.Proofs.Grammar
import FileRoutes.Proofs.SplatNotation

/-! Where faults are reported. Each lexeme comes with the rest of the text from its first character
on, and says of that character what it is: a fault reports it, and a brace of a group is it. What
is told of a text that cannot be read is a fault of a lexeme or of a brace, so its offset is that
of the character it reports. A path is refused for its leftmost segment that cannot be read; the
error points into that segment as it was read, which is as it is written unless a splat opens in
it. -/

namespace FileRoutes

namespace Text

/-- The character that begins at a byte offset, if one does. -/
def charAt? : Text → Nat → Option Char
  | [], _ => none
  | c :: _, 0 => some c
  | c :: t, n + 1 => if n + 1 < c.utf8Size then none else charAt? t (n + 1 - c.utf8Size)

theorem charAt?_width (before : Text) (c : Char) (rest : Text) :
    charAt? (before ++ c :: rest) (width before) = some c := by
  induction before with
  | nil => simp [width_nil, charAt?]
  | cons d before ih =>
    obtain ⟨n, hn⟩ : ∃ n, width (d :: before) = n + 1 :=
      Nat.exists_eq_succ_of_ne_zero (by have := d.utf8Size_pos; rw [width_cons]; omega)
    have hrest : n + 1 - d.utf8Size = width before := by rw [← hn, width_cons]; omega
    have hwide : ¬ n + 1 < d.utf8Size := by rw [← hn, width_cons]; omega
    rw [hn, List.cons_append, charAt?, if_neg hwide, hrest, ih]

/-- An offset has a character if the text in front of it ends there. -/
theorem charAt?_eq_some_iff {t : Text} {offset : Nat} {c : Char} :
    charAt? t offset = some c ↔ ∃ before rest, t = before ++ c :: rest ∧ offset = width before := by
  constructor
  · intro h
    fun_induction charAt? t offset with
    | case1 => simp at h
    | case2 d t =>
      obtain rfl := Option.some.inj h
      exact ⟨[], t, rfl, rfl⟩
    | case3 d t n _ => simp at h
    | case4 d t n hwide ih =>
      obtain ⟨before, rest, rfl, hoffset⟩ := ih h
      exact ⟨d :: before, rest, rfl, by rw [width_cons]; omega⟩
  · rintro ⟨before, rest, rfl, rfl⟩
    exact charAt?_width before c rest

/-- A text that ends another stands in it at its offset. -/
theorem charAt?_offsetIn {t here : Text} {c : Char} (hhere : here <:+ t) (hc : here.head? = some c) :
    charAt? t (offsetIn t here) = some c := by
  obtain ⟨before, rfl⟩ := hhere
  obtain ⟨rest, rfl⟩ := List.head?_eq_some_iff.1 hc
  rw [offsetIn_append, charAt?_width]

end Text

namespace Fault

/-- The character is the one that the fault reports, and of the kind that the fault is about; a
missing name is reported at its mark or bracket. -/
def Reports : Fault → Char → Prop
  | .unclosed bracket, c => c = bracket ∧ (c = '{' ∨ c = '[')
  | .unexpected found, c => c = found ∧ (c = '}' ∨ c = ']' ∨ c = '/')
  | .missingName, c => c = ':' ∨ c = '*' ∨ c = '['
  | .reserved found, c => c = found ∧ Lexeme.isReserved c = true

end Fault

namespace PatternError

/-- The error names the text, and its offset is that of the character it reports. -/
inductive PointsInto (t : Text) : PatternError → Prop where
  | malformed {offset : Nat} {fault : Fault} {c : Char} (hc : Text.charAt? t offset = some c)
      (hreports : fault.Reports c) : PointsInto t (.malformed t offset fault)

/-- An error points into the text that it names and into no other. -/
theorem PointsInto.unique {t other : Text} {e : PatternError} (h : e.PointsInto t)
    (hother : e.PointsInto other) : t = other := by
  cases h
  cases hother
  rfl

end PatternError

namespace Lexeme

/-- What a lexeme says of its first character. -/
def Begins (c : Char) : Lexeme → Prop
  | .node _ => True
  | .openGroup => c = '{'
  | .closeGroup => c = '}'
  | .fault reported => reported.Reports c

variable {separator : Bool} {c : Char} {cs : Text}

theorem begins_marked (make : Text → Node) (hmark : c = ':' ∨ c = '*') (cs : Text) :
    Begins c (marked make cs).1 := by
  unfold marked
  dsimp only
  split
  · rcases hmark with rfl | rfl
    · exact Or.inl rfl
    · exact Or.inr (Or.inl rfl)
  · trivial

theorem begins_bracketed (double : Bool) (raw : Text) : Begins '[' (bracketed double raw) := by
  rcases Grammar.bracketed_cases double raw with hfault | ⟨node, hnode⟩
  · rw [hfault]
    exact Or.inr (Or.inr rfl)
  · rw [hnode]
    trivial

theorem begins_bracket (double : Bool) (cs : Text) : Begins '[' (bracket double cs).1 := by
  unfold bracket
  split
  · exact begins_bracketed _ _
  · exact begins_bracketed _ _
  · exact ⟨rfl, Or.inr rfl⟩

theorem begins_first (separator : Bool) (c : Char) (cs : Text) :
    Begins c (first separator c cs).1 := by
  unfold first
  split
  · assumption
  split
  · assumption
  split
  · next hc => exact begins_marked _ (Or.inl hc) cs
  split
  · next hc => exact begins_marked _ (Or.inr hc) cs
  split
  · next hc =>
    subst hc
    split
    · exact begins_bracket _ _
    · exact begins_bracket _ _
  split
  · next hreserved => exact ⟨rfl, hreserved⟩
  split
  · trivial
  · next hopen hclose hcolon hstar hbracket hreserved hliteral =>
    -- What no kind of lexeme takes is a bracket that closes nothing, or a separator.
    refine ⟨rfl, Or.inr ?_⟩
    by_contra hother
    rw [not_or] at hother
    exact hliteral (isLiteral_iff.2 ⟨⟨hopen, hclose, hbracket, hother.1, hcolon, hstar⟩,
      Bool.eq_false_iff.2 hreserved, Or.inr hother.2⟩)

theorem marked_suffix (make : Text → Node) (cs : Text) : (marked make cs).2 <:+ cs := by
  unfold marked
  dsimp only
  split
  · exact List.nil_suffix
  · exact List.dropWhile_suffix _

theorem bracket_suffix (double : Bool) (cs : Text) : (bracket double cs).2 <:+ cs := by
  have hrest := List.dropWhile_suffix (l := cs) isBracketName
  unfold bracket
  split
  · next rest h =>
    rw [h] at hrest
    exact (List.suffix_cons ']' rest).trans hrest
  · next rest h =>
    rw [h] at hrest
    exact (List.suffix_append [']', ']'] rest).trans hrest
  · exact List.nil_suffix

/-- What is left behind a lexeme ends the text. -/
theorem first_suffix (separator : Bool) (c : Char) (cs : Text) :
    (first separator c cs).2 <:+ cs := by
  unfold first
  split
  · exact List.suffix_rfl
  split
  · exact List.suffix_rfl
  split
  · exact marked_suffix _ cs
  split
  · exact marked_suffix _ cs
  split
  · split
    · exact (bracket_suffix _ _).trans (List.suffix_cons _ _)
    · exact bracket_suffix _ _
  split
  · exact List.nil_suffix
  split
  · exact List.dropWhile_suffix _
  · exact List.nil_suffix

/-- Each lexeme comes with the end of the text that it begins. -/
theorem begins_of_mem_lex {t : Text} {item : Text × Lexeme} (h : item ∈ lex separator t) :
    item.1 <:+ t ∧ ∃ c ∈ item.1.head?, item.2.Begins c := by
  induction t using lex.induct separator with
  | case1 => simp [lex_nil] at h
  | case2 c cs ih =>
    rw [lex] at h
    rcases List.mem_cons.1 h with rfl | h
    · exact ⟨List.suffix_rfl, c, rfl, begins_first separator c cs⟩
    · obtain ⟨hsuffix, hbegins⟩ := ih h
      exact ⟨hsuffix.trans ((first_suffix separator c cs).trans (List.suffix_cons c cs)), hbegins⟩

end Lexeme

namespace Node

open Lexeme

variable {separator : Bool} {t : Text}

/-- A fault comes from a lexeme, from a brace that closes nothing, or from the innermost open
group. -/
theorem assemble_error {lexemes : List (Text × Lexeme)} {stack : List Frame} {nodes : List Node}
    {here : Text} {fault : Fault}
    (hlexemes : ∀ item ∈ lexemes, item.1 <:+ t ∧ ∃ c ∈ item.1.head?, item.2.Begins c)
    (hstack : ∀ frame ∈ stack, frame.1 <:+ t ∧ frame.1.head? = some '{')
    (h : assemble stack nodes lexemes = .error (here, fault)) :
    here <:+ t ∧ ∃ c ∈ here.head?, fault.Reports c := by
  fun_induction assemble stack nodes lexemes with
  | case1 nodes => cases h
  | case2 nodes opened before outer =>
    obtain ⟨rfl, rfl⟩ := Prod.mk.inj (Except.error.inj h)
    obtain ⟨hsuffix, hhead⟩ := hstack (opened, before) (by simp)
    exact ⟨hsuffix, '{', hhead, rfl, Or.inl rfl⟩
  | case3 stack nodes found fault' rest =>
    obtain ⟨rfl, rfl⟩ := Prod.mk.inj (Except.error.inj h)
    exact hlexemes (found, .fault fault') (by simp)
  | case4 stack nodes _ node rest ih =>
    exact ih (fun item hitem => hlexemes item (by simp [hitem])) hstack h
  | case5 stack nodes opened rest ih =>
    refine ih (fun item hitem => hlexemes item (by simp [hitem])) (fun frame hframe => ?_) h
    rcases List.mem_cons.1 hframe with rfl | hframe
    -- A frame keeps where its brace stands, in case the group is never closed.
    · obtain ⟨hsuffix, c, hc, rfl⟩ := hlexemes (opened, .openGroup) (by simp)
      exact ⟨hsuffix, hc⟩
    · exact hstack frame hframe
  | case6 closed rest opened before outer n ns ih =>
    exact ih (fun item hitem => hlexemes item (by simp [hitem]))
      (fun frame hframe => hstack frame (by simp [hframe])) h
  | case7 stack nodes closed rest hopen =>
    obtain ⟨rfl, rfl⟩ := Prod.mk.inj (Except.error.inj h)
    obtain ⟨hsuffix, c, hc, rfl⟩ := hlexemes (closed, .closeGroup) (by simp)
    exact ⟨hsuffix, '}', hc, rfl, Or.inl rfl⟩

theorem pointsInto_of_parse {e : PatternError} (h : parse separator t = .error e) :
    e.PointsInto t := by
  unfold parse at h
  split at h
  · cases h
  · next here fault hread =>
    obtain rfl := Except.error.inj h
    obtain ⟨hsuffix, c, hc, hreports⟩ :=
      assemble_error (fun item hitem => begins_of_mem_lex hitem) (by simp) hread
    exact .malformed (Text.charAt?_offsetIn hsuffix hc) hreports

/-- A text that cannot be read is refused with an error that names it and is located at a character
of it, the one that the error reports. -/
theorem parse_error_located {e : PatternError} (h : parse separator t = .error e) :
    ∃ before c rest fault, t = before ++ c :: rest ∧
      e = .malformed t (Text.width before) fault ∧ fault.Reports c := by
  obtain ⟨hc, hreports⟩ := pointsInto_of_parse h
  obtain ⟨before, rest, hsplit, rfl⟩ := Text.charAt?_eq_some_iff.1 hc
  exact ⟨before, _, rest, _, hsplit, rfl, hreports⟩

/-- Behind a character of two bytes, a bracket that stays open inside a group that does. -/
theorem parse_error_located_in_open_group :
    parse false "é{a[b}".toList = .error (.malformed "é{a[b}".toList 4 (.unclosed '[')) ∧
      ∃ before c rest fault, "é{a[b}".toList = before ++ c :: rest ∧
        PatternError.malformed "é{a[b}".toList 4 (.unclosed '[') =
          .malformed "é{a[b}".toList (Text.width before) fault ∧ fault.Reports c := by
  have hparse : parse false "é{a[b}".toList =
      .error (.malformed "é{a[b}".toList 4 (.unclosed '[')) := by cbv
  exact ⟨hparse, parse_error_located hparse⟩

end Node

namespace Pattern

/-- The leftmost segment that does not compile. -/
def firstRejected? (segments : List Text) : Option Text :=
  segments.find? fun segment => !(Token.compile segment).isOk

variable {path segment : Text} {e : PatternError}

theorem compile_of_segmentToken_eq_ok {token : Token} (h : segmentToken path segment = .ok token) :
    Token.compile segment = .ok token := by
  obtain ⟨nodes, hnodes, rfl⟩ := segmentToken_eq_ok_iff.1 h
  exact Token.compile_eq_ok_iff.2 ⟨nodes, hnodes.2, rfl⟩

theorem compile_of_segmentToken_eq_error (h : segmentToken path segment = .error e)
    (he : e ≠ .emptySegment path) : Token.compile segment = .error e := by
  unfold segmentToken at h
  split at h
  · exact absurd (Except.error.inj h).symm he
  · exact h

/-- A path whose error is about no empty segment fails as its leftmost rejected segment does. -/
theorem exists_firstRejected (h : compile path = .error e) (he : e ≠ .emptySegment path) :
    ∃ segment, firstRejected? (routeSegments path) = some segment ∧
      Token.compile segment = .error e := by
  have htokens : (routeSegments path).mapM (segmentToken path) = .error e := by
    rw [compile_eq] at h
    cases hmap : (routeSegments path).mapM (segmentToken path) with
    | ok tokens => rw [hmap] at h; cases h
    | error other => rw [hmap] at h; exact congrArg _ (Except.error.inj h)
  obtain ⟨before, segment, after, tokens, hsplit, hbefore, hsegment⟩ := mapM_eq_error_iff.1 htokens
  have hrejected := compile_of_segmentToken_eq_error hsegment he
  refine ⟨segment, List.find?_eq_some_iff_append.2 ⟨by rw [hrejected]; rfl, before, after, hsplit,
    fun other hother => ?_⟩, hrejected⟩
  obtain ⟨token, htoken⟩ := exists_of_mapM_eq_ok hbefore hother
  rw [compile_of_segmentToken_eq_ok htoken]
  rfl

theorem pointsInto_of_compile (h : Token.compile segment = .error e) :
    e.PointsInto (Node.normalizeSplats segment) := by
  unfold Token.compile at h
  cases hparse : Node.parse false (Node.normalizeSplats segment) with
  | ok nodes => rw [hparse] at h; cases h
  | error other =>
    rw [hparse] at h
    obtain rfl := Except.error.inj h
    exact Node.pointsInto_of_parse hparse

/-- A path that is refused, and not for an empty segment, is refused for its leftmost segment that
does not compile. The error points into that segment with its splats normalised, and into the
segment as it is written exactly if no splat opens in it. -/
theorem error_points_into_written_iff (h : compile path = .error e)
    (he : ∀ other, e ≠ .emptySegment other) :
    ∃ segment, firstRejected? (routeSegments path) = some segment ∧
      e.PointsInto (Node.normalizeSplats segment) ∧
      (e.PointsInto segment ↔ ¬ Node.splatOpening <:+: segment) := by
  obtain ⟨segment, hfirst, hsegment⟩ := exists_firstRejected h (he path)
  have hpoints := pointsInto_of_compile hsegment
  refine ⟨segment, hfirst, hpoints, ?_⟩
  rw [← Node.normalizeSplats_eq_self_iff]
  constructor
  · intro hwritten
    exact hpoints.unique hwritten
  · intro hself
    rwa [hself] at hpoints

/-- The bracket that stays open is the first fault, and no splat opens in its segment. -/
theorem error_points_into_segment_behind_index :
    ∃ e, compile "index/é{x[y}/{...z}?".toList = .error e ∧ (∀ other, e ≠ .emptySegment other) ∧
      ∃ segment, firstRejected? (routeSegments "index/é{x[y}/{...z}?".toList) = some segment ∧
        segment = "é{x[y}".toList ∧ e.PointsInto segment := by
  have herror : compile "index/é{x[y}/{...z}?".toList =
      .error (.malformed "é{x[y}".toList 4 (.unclosed '[')) := by cbv
  have hfirst : firstRejected? (routeSegments "index/é{x[y}/{...z}?".toList) =
      some "é{x[y}".toList := by cbv
  obtain ⟨segment, hsegment, -, hiff⟩ := error_points_into_written_iff herror (by simp)
  obtain rfl := Option.some.inj (hfirst.symm.trans hsegment)
  exact ⟨_, herror, by simp, _, hfirst, rfl, hiff.2 (by decide)⟩

/-- Behind a splat in braces the error names a segment that is not in the path, and its offset is
that of another character of the one that is. -/
theorem error_points_into_normalized_segment :
    ∃ e, compile "docs/{...a}?".toList = .error e ∧ (∀ other, e ≠ .emptySegment other) ∧
      firstRejected? (routeSegments "docs/{...a}?".toList) = some "{...a}?".toList ∧
      e = .malformed "{*a}?".toList 4 (.reserved '?') ∧ ¬ e.PointsInto "{...a}?".toList ∧
      Text.charAt? "{...a}?".toList 4 = some 'a' ∧ Text.charAt? "{...a}?".toList 6 = some '?' := by
  have herror : compile "docs/{...a}?".toList =
      .error (.malformed "{*a}?".toList 4 (.reserved '?')) := by cbv
  have hfirst : firstRejected? (routeSegments "docs/{...a}?".toList) =
      some "{...a}?".toList := by cbv
  refine ⟨_, herror, by simp, hfirst, rfl, fun hpoints => ?_, by decide, by decide⟩
  have hnamed : PatternError.PointsInto "{*a}?".toList
      (.malformed "{*a}?".toList 4 (.reserved '?')) := .malformed rfl ⟨rfl, by decide⟩
  exact absurd (hnamed.unique hpoints) (by decide)

end Pattern

end FileRoutes
