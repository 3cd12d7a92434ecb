import FileRoutes.Proofs.Grammar
import FileRoutes.Proofs.JoinedPath
import FileRoutes.Proofs.SplatNotation
import FileRoutes.Proofs.WholePattern

/-! Segments that are written as they are read. Without brackets, and with names that stand for
themselves, each lexeme is rendered by the text it was read from. So what was read so far and what
is still to be read make up the segment at every step, and the piece of the pattern is the segment
with its separator put in. -/

namespace FileRoutes

namespace Node

open Lexeme

/-- Each name behind a mark is free of `$` and does not start with a digit. -/
def plainNames : Text → Bool
  | [] => true
  | c :: rest =>
    let name := rest.takeWhile isNameChar
    (!isMark c || (!name.contains '$' && !ParamName.startsWithDigit name)) && plainNames rest

theorem plainNames_of_append {before t : Text} (h : plainNames (before ++ t) = true) :
    plainNames t = true := by
  induction before with
  | nil => exact h
  | cons c before ih =>
    rw [List.cons_append, plainNames, Bool.and_eq_true] at h
    exact ih h.2

theorem isIdentifier_of_plainNames {mark : Char} {rest : Text} (hmark : isMark mark = true)
    (h : plainNames (mark :: rest) = true) (hne : rest.takeWhile isNameChar ≠ []) :
    ParamName.isIdentifier (rest.takeWhile isNameChar) = true := by
  simp only [plainNames, hmark, Bool.not_true, Bool.false_or, Bool.and_eq_true, Bool.not_eq_true',
    List.contains_eq_mem, decide_eq_false_iff_not] at h
  obtain ⟨⟨hdollar, hdigit⟩, -⟩ := h
  refine ParamName.isIdentifier_iff.2 ⟨hne, fun c hc => ?_, hdigit⟩
  have hname : isNameChar c = true := List.all_eq_true.1 List.all_takeWhile c hc
  have hc' : c ≠ '$' := fun hdollar' => hdollar (hdollar' ▸ hc)
  simpa [isNameChar, ParamName.isWordChar, hc'] using hname

variable {separator : Bool} {c : Char} {cs : Text} {node : Node}

theorem render_marked {mark : Char} {make : Text → Node} (hmarks : ReadsAs.Marks mark make)
    (hmark : isMark mark = true) (hnames : plainNames (mark :: cs) = true)
    (h : (marked make cs).1 = .node node) :
    render [node] ++ (marked make cs).2 = mark :: cs := by
  unfold marked at h ⊢
  dsimp only at h ⊢
  split at h
  · cases h
  · next hne =>
    rw [if_neg hne]
    obtain rfl := Lexeme.node.inj h
    rw [ParamName.sanitize_of_isIdentifier
      (isIdentifier_of_plainNames hmark hnames (by simpa using hne)), hmarks.render, render,
      List.append_nil, List.cons_append, List.takeWhile_append_dropWhile]

/-- A lexeme without bracket is rendered by the text it was read from. -/
theorem render_first (hbracket : c ≠ '[') (hnames : plainNames (c :: cs) = true)
    (h : (first separator c cs).1 = .node node) :
    render [node] ++ (first separator c cs).2 = c :: cs := by
  by_cases hcolon : c = ':'
  · subst hcolon
    rw [ReadsAs.marks_param.first] at h ⊢
    exact render_marked ReadsAs.marks_param rfl hnames h
  by_cases hstar : c = '*'
  · subst hstar
    rw [ReadsAs.marks_wildcard.first] at h ⊢
    exact render_marked ReadsAs.marks_wildcard rfl hnames h
  unfold first at h ⊢
  simp only [hcolon, hstar, hbracket, if_false] at h ⊢
  split at h
  · cases h
  split at h
  · cases h
  split at h
  · cases h
  split at h
  · next hopen hclose hreserved hliteral =>
    obtain rfl := Lexeme.node.inj h
    simp [hopen, hclose, hreserved, hliteral, render, List.takeWhile_append_dropWhile]
  · cases h

/-- The text in front of the innermost open group's nodes. -/
def openText : List Frame → Text
  | [] => []
  | (_, before) :: outer => openText outer ++ render before ++ ['{']

/-- What was read and what is still to be read make up the whole text. -/
theorem invariant_verbatim {whole : Text} (hbracket : '[' ∉ whole)
    (hnames : plainNames whole = true) :
    Invariant separator fun stack nodes input => openText stack ++ render nodes ++ input = whole := by
  have hrest : ∀ {before c cs}, before ++ c :: cs = whole →
      c ≠ '[' ∧ plainNames (c :: cs) = true := by
    rintro before c cs rfl
    exact ⟨fun hc => hbracket (by simp [hc]), plainNames_of_append hnames⟩
  refine ⟨fun h hnode => ?_, fun h hopen => ?_, fun h hclose => ?_⟩
  · obtain ⟨hc, hplain⟩ := hrest h
    rw [render_append, ← List.append_assoc, List.append_assoc, render_first hc hplain hnode, h]
  · obtain rfl := (Grammar.Stands.first separator _ _).openGroup hopen
    simpa [openText, render, first] using h
  · obtain rfl := (Grammar.Stands.first separator _ _).closeGroup hclose
    simpa [openText, render, render_append, first] using h

theorem render_of_parse {t : Text} {nodes : List Node} (hbracket : '[' ∉ t)
    (hnames : plainNames t = true) (h : parse separator t = .ok nodes) : render nodes = t := by
  simpa [openText] using (invariant_verbatim hbracket hnames).parse (by simp [openText, render]) h

/-- The separator of a segment goes behind the brace of a group at its head. -/
theorem WellFormed.renderSegment_slashed {nodes : List Node} (h : WellFormed false nodes) :
    renderSegment nodes =
      if (render nodes).head? = some '{' then '{' :: '/' :: (render nodes).tail
      else '/' :: render nodes := by
  cases nodes with
  | nil => simp [renderSegment, render]
  | cons node rest =>
    cases node with
    | text value =>
      simp only [WellFormed] at h
      obtain ⟨c, value, rfl⟩ := List.exists_cons_of_ne_nil h.1
      have hc : c ≠ '{' := (isLiteral_iff.1 (h.2.1 c (by simp))).1.1
      simp [renderSegment, render, hc]
    | param name | wildcard name | group inner => simp [renderSegment, render]

/-- Literal text is read as one text. -/
theorem parse_of_literals {t : Text} (hne : t ≠ []) (h : ∀ c ∈ t, isLiteral separator c = true) :
    parse separator t = .ok [.text t] := by
  have hread := ReadsAs.text hne h rfl ReadsAs.nil [] (by simp [Closes]) [] []
  simp only [render, List.append_nil, List.nil_append, lex_nil] at hread
  simp only [parse, hread, assemble]

end Node

namespace Token

open Node

variable {segment : Text} {token : Token}

/-- The token of literal text. -/
def literal (segment : Text) : Token :=
  ⟨.static, segment, '/' :: segment, [.static segment]⟩

theorem compile_of_literals (hne : segment ≠ [])
    (h : ∀ c ∈ segment, Lexeme.isLiteral false c = true) :
    compile segment = .ok (literal segment) := by
  have hopen : '{' ∉ segment := fun hmem => absurd (h '{' hmem) (by decide)
  refine compile_eq_ok_iff.2 ⟨[.text segment], ?_, ?_⟩
  · rw [normalizeSplats_eq_self hopen]
    exact parse_of_literals hne h
  · simp [literal, ofNodes, Part.ofNodes, TokenKind.ofParts, renderSegment, render]

/-- Without brackets, and with plain names, the piece of the pattern is the segment as it is written
with its separator put in. -/
theorem pattern_eq_of_plainNames (h : compile segment = .ok token) (hbracket : '[' ∉ segment)
    (hnames : plainNames (normalizeSplats segment) = true) :
    token.pattern = if segment.head? = some '{' then '{' :: '/' :: (normalizeSplats segment).tail
      else '/' :: normalizeSplats segment := by
  obtain ⟨nodes, hnodes, rfl⟩ := compile_eq_ok_iff.1 h
  have hrender := render_of_parse (not_mem_normalizeSplats (by decide) hbracket) hnames hnodes
  rw [ofNodes, (wellFormed_of_parse hnodes).renderSegment_slashed, hrender, head?_normalizeSplats]

end Token

namespace Pattern

open Text (IsSegment joinSegments)

theorem joinSegments_cons (segment : Text) (segments : List Text) :
    joinSegments (segment :: segments) = segment ++ segments.flatMap ('/' :: ·) := by
  induction segments generalizing segment with
  | nil => simp [joinSegments]
  | cons next segments ih =>
    have hnext := ih next
    rw [joinSegments] at hnext ⊢
    rw [List.intercalate_cons_cons, hnext]
    simp

theorem joinPatterns_literal (segments : List Text) :
    Token.joinPatterns (segments.map Token.literal) = joinSegments segments := by
  cases segments with
  | nil => rfl
  | cons segment segments =>
    rw [joinSegments_cons]
    simp [Token.joinPatterns, Token.literal, Text.after?, List.flatMap_map]

theorem mapM_compile_of_literals {segments : List Text}
    (h : ∀ segment ∈ segments, segment ≠ [] ∧ ∀ c ∈ segment, Lexeme.isLiteral false c = true) :
    segments.mapM Token.compile = .ok (segments.map Token.literal) := by
  refine mapM_eq_ok_iff.2 (List.forall₂_map_right_iff.2 (List.forall₂_same.2 ?_))
  intro segment hsegment
  exact Token.compile_of_literals (h segment hsegment).1 (h segment hsegment).2

/-- A path of literal segments is its own pattern, with static tokens only. -/
theorem compile_of_literals {segments : List Text}
    (h : ∀ segment ∈ segments, segment ≠ [] ∧ ∀ c ∈ segment, Lexeme.isLiteral false c = true)
    (hindex : segments.head? ≠ some "index".toList) :
    compile (joinSegments segments) = .ok ⟨segments.map Token.literal, joinSegments segments⟩ := by
  have hsegments : ∀ segment ∈ segments, IsSegment segment := fun segment hsegment =>
    ⟨(h segment hsegment).1, fun hmem => absurd ((h segment hsegment).2 '/' hmem) (by decide)⟩
  refine (compile_joinSegments_eq_ok_iff hsegments).2 ⟨segments.map Token.literal, ?_, ?_⟩
  · rw [withoutIndex_eq_self hindex]
    exact mapM_compile_of_literals h
  · rw [ofTokens, joinPatterns_literal]

/-- Segments without brackets whose names are plain keep their text, and so do paths of literal
segments, whose tokens are static. -/
theorem compile_verbatim :
    (∀ segment token, Token.compile segment = .ok token → '[' ∉ segment →
        Node.plainNames (Node.normalizeSplats segment) = true →
          token.pattern =
            if segment.head? = some '{' then '{' :: '/' :: (Node.normalizeSplats segment).tail
            else '/' :: Node.normalizeSplats segment) ∧
      ∀ segments : List Text,
        (∀ segment ∈ segments, segment ≠ [] ∧ ∀ c ∈ segment, Lexeme.isLiteral false c = true) →
          segments.head? ≠ some "index".toList →
            ∃ p, compile (joinSegments segments) = .ok p ∧ p.pattern = joinSegments segments ∧
              ∀ token ∈ p.tokens, token.isStatic = true := by
  refine ⟨fun segment token h hbracket hnames =>
    Token.pattern_eq_of_plainNames h hbracket hnames, fun segments h hindex => ?_⟩
  refine ⟨_, compile_of_literals h hindex, rfl, fun token htoken => ?_⟩
  obtain ⟨segment, -, rfl⟩ := List.mem_map.1 htoken
  rfl

/-- The leading group of `{...a}b{-:c{.d}}` takes the separator in; `docs/index` is its own
pattern. -/
theorem compile_verbatim_of_nested_groups :
    (∃ token, Token.compile "{...a}b{-:c{.d}}".toList = .ok token ∧
        token.pattern = "{/*a}b{-:c{.d}}".toList) ∧
      ∃ p, compile "docs/index".toList = .ok p ∧ p.pattern = "docs/index".toList ∧
        ∀ token ∈ p.tokens, token.isStatic = true := by
  obtain ⟨hsegment, hpath⟩ := compile_verbatim
  have hcompile : Token.compile "{...a}b{-:c{.d}}".toList = .ok (Token.ofNodes
      "{...a}b{-:c{.d}}".toList [.group [.wildcard ['a']], .text ['b'],
        .group [.text ['-'], .param ['c'], .group [.text ".d".toList]]]) := by cbv
  have hnames : Node.plainNames (Node.normalizeSplats "{...a}b{-:c{.d}}".toList) = true := by cbv
  have hwritten : (if "{...a}b{-:c{.d}}".toList.head? = some '{' then
      '{' :: '/' :: (Node.normalizeSplats "{...a}b{-:c{.d}}".toList).tail
      else '/' :: Node.normalizeSplats "{...a}b{-:c{.d}}".toList) =
      "{/*a}b{-:c{.d}}".toList := by cbv
  have hjoined : joinSegments ["docs".toList, "index".toList] = "docs/index".toList := by cbv
  have hliteral : ∀ segment ∈ ["docs".toList, "index".toList],
      segment ≠ [] ∧ ∀ c ∈ segment, Lexeme.isLiteral false c = true := by
    simp [Lexeme.isLiteral, Lexeme.isReserved]
  have hdocs := hpath _ hliteral (by decide)
  rw [hjoined] at hdocs
  have hpattern := hsegment _ _ hcompile (by decide) hnames
  exact ⟨⟨_, hcompile, hpattern.trans hwritten⟩, hdocs⟩

end Pattern

end FileRoutes
