import FileRoutes.Proofs.Binding
import FileRoutes.Proofs.BracketName
import FileRoutes.Proofs.JoinedPath

/-! The names that a route binds, and the names that are written in its segments. Each lexeme with a
name adds the sanitised one, in the order of the segment, so a route declares the sanitised names
that its segments are read with, one for one. Two parameters with different names are bound under
one name exactly if their names cannot be told apart once sanitised. -/

namespace FileRoutes

namespace Lexeme

/-- What is left of a name once three dots are taken off. -/
def withoutDots (raw : Text) : Text :=
  (Text.after? ['.', '.', '.'] raw).getD raw

/-- The name behind a mark or in brackets that the text begins with. -/
def writtenName? : Text → Option Text
  | ':' :: cs => some (cs.takeWhile isNameChar)
  | '*' :: cs => some (cs.takeWhile isNameChar)
  | '[' :: '[' :: cs => some (withoutDots (cs.takeWhile isBracketName))
  | '[' :: cs => some (withoutDots (cs.takeWhile isBracketName))
  | _ => none

/-- The names of a text that is read, from the left. -/
def writtenNames (separator : Bool) (t : Text) : List Text :=
  (lex separator t).filterMap fun item => writtenName? item.1

variable {separator : Bool} {c : Char} {cs : Text} {node : Node}

theorem writtenNames_cons (separator : Bool) (c : Char) (cs : Text) :
    writtenNames separator (c :: cs) =
      (writtenName? (c :: cs)).toList ++ writtenNames separator (first separator c cs).2 := by
  rw [writtenNames, lex, List.filterMap_cons]
  cases writtenName? (c :: cs) <;> rfl

theorem names_marked {make : Text → Node} (hmake : ∀ name, Node.names [make name] = [name])
    (h : (marked make cs).1 = .node node) :
    Node.names [node] = [ParamName.sanitize (cs.takeWhile isNameChar)] := by
  unfold marked at h
  dsimp only at h
  split at h
  · cases h
  · obtain rfl := Lexeme.node.inj h
    exact hmake _

theorem names_bracketed {double : Bool} {raw : Text} (h : bracketed double raw = .node node) :
    Node.names [node] = [ParamName.sanitize (withoutDots raw)] := by
  unfold bracketed at h
  dsimp only at h
  split at h
  · cases h
  split at h
  · obtain rfl := Lexeme.node.inj h
    simp [Node.names, withoutDots]
  split at h
  · obtain rfl := Lexeme.node.inj h
    simp [Node.names, withoutDots]
  · obtain rfl := Lexeme.node.inj h
    simp [Node.names, withoutDots]

theorem names_bracket {double : Bool} (h : (bracket double cs).1 = .node node) :
    Node.names [node] = [ParamName.sanitize (withoutDots (cs.takeWhile isBracketName))] := by
  unfold bracket at h
  split at h
  · exact names_bracketed h
  · exact names_bracketed h
  · cases h

/-- A lexeme holds the sanitised name that is written, if one is. -/
theorem names_first (h : (first separator c cs).1 = .node node) :
    Node.names [node] = (writtenName? (c :: cs)).toList.map ParamName.sanitize := by
  unfold first at h
  split at h
  · cases h
  split at h
  · cases h
  split at h
  · next hc =>
    subst hc
    exact names_marked (by simp [Node.names]) h
  split at h
  · next hc =>
    subst hc
    exact names_marked (by simp [Node.names]) h
  split at h
  · next hc =>
    subst hc
    split at h
    · exact names_bracket h
    · next hdouble =>
      have hname : writtenName? ('[' :: cs) =
          some (withoutDots (cs.takeWhile isBracketName)) := by
        unfold writtenName?
        split <;> simp_all
      rw [hname]
      exact names_bracket h
  split at h
  · cases h
  split at h
  · next hcolon hstar hbracket _ _ =>
    obtain rfl := Lexeme.node.inj h
    have hname : writtenName? (c :: cs) = none := by
      unfold writtenName?
      split <;> simp_all
    simp [hname, Node.names]
  · cases h

end Lexeme

namespace Node

open Lexeme

variable {separator : Bool}

/-- The names in front of the innermost open group's nodes. -/
def openNames : List Frame → List Text
  | [] => []
  | (_, before) :: outer => openNames outer ++ names before

/-- The names that were read and those still to be read are all that are written. -/
theorem invariant_names (written : List Text) :
    Invariant separator fun stack nodes input =>
      openNames stack ++ names nodes ++ (writtenNames separator input).map ParamName.sanitize =
        written := by
  refine ⟨fun h hnode => ?_, fun h hopen => ?_, fun h hclose => ?_⟩
  · rw [writtenNames_cons, List.map_append] at h
    rw [names_append, names_first hnode, ← h]
    simp
  · obtain rfl := (Grammar.Stands.first separator _ _).openGroup hopen
    rw [writtenNames_cons] at h
    simpa [openNames, names, writtenName?] using h
  · obtain rfl := (Grammar.Stands.first separator _ _).closeGroup hclose
    rw [writtenNames_cons] at h
    simpa [openNames, names, names_append, writtenName?] using h

theorem names_of_parse {t : Text} {nodes : List Node} (h : parse separator t = .ok nodes) :
    names nodes = (writtenNames separator t).map ParamName.sanitize := by
  have hread := (invariant_names ((writtenNames separator t).map ParamName.sanitize)).parse
    (by simp [openNames, names]) h
  simpa [openNames, writtenNames, lex_nil] using hread

end Node

namespace Pattern

/-- The names in the segments of a path, as they are read with splats normalised. -/
def writtenNames (path : Text) : List Text :=
  (routeSegments path).flatMap fun segment =>
    Lexeme.writtenNames false (Node.normalizeSplats segment)

/-- A route declares the sanitised names of its segments. -/
theorem declared_of_compile {path : Text} {p : Pattern} (h : compile path = .ok p) :
    p.declared = (writtenNames path).map ParamName.sanitize := by
  obtain ⟨trees, htrees, rfl⟩ := compile_eq_ok_iff.1 h
  rw [declared_ofTokens htrees, writtenNames]
  generalize routeSegments path = segments at htrees
  clear h
  induction htrees with
  | nil => simp [Node.names]
  | cons hhead _ ih =>
    rw [List.flatten_cons, Node.names_append, ih, Node.names_of_parse hhead.2,
      List.flatMap_cons, List.map_append]

open Text (joinSegments IsSegment)
open Grammar (inBrackets)

/-- A name that can stand in brackets. -/
structure BracketName (raw : Text) : Prop where
  ne_nil : raw ≠ []
  plain : ∀ c ∈ raw, Lexeme.isBracketName c = true
  no_dots : ¬ ['.', '.', '.'] <+: raw
  no_splat : ¬ Node.splatOpening <:+: raw

-- The quantifier over the characters is checked as one over the list, not over all characters.
instance (raw : Text) : Decidable (BracketName raw) :=
  decidable_of_iff (raw ≠ [] ∧ raw.all Lexeme.isBracketName = true ∧
      ¬ ['.', '.', '.'] <+: raw ∧ ¬ Node.splatOpening <:+: raw)
    ⟨fun ⟨hne, hplain, hdots, hsplat⟩ => ⟨hne, List.all_eq_true.1 hplain, hdots, hsplat⟩,
      fun h => ⟨h.ne_nil, List.all_eq_true.2 h.plain, h.no_dots, h.no_splat⟩⟩

variable {raw : Text} {raws : List Text}

theorem BracketName.isSegment (h : BracketName raw) : IsSegment (inBrackets false raw) := by
  have hslash : '/' ∉ raw := fun hmem => absurd (h.plain '/' hmem) (by decide)
  exact ⟨by simp [inBrackets], by simp [inBrackets, Grammar.closing, hslash]⟩

/-- The token of a name in brackets. -/
def bracketToken (raw : Text) : Token :=
  ⟨.param, inBrackets false raw, '/' :: ':' :: ParamName.sanitize raw,
    [.param (ParamName.sanitize raw) .required]⟩

theorem BracketName.compile (h : BracketName raw) :
    Token.compile (inBrackets false raw) = .ok (bracketToken raw) := by
  have hforms := Token.bracketForms h.ne_nil h.plain h.no_dots
  rw [Node.normalizeSplats_eq_self_iff.2 h.no_splat] at hforms
  exact hforms.required

theorem BracketName.writtenName? (h : BracketName raw) :
    Lexeme.writtenName? (inBrackets false raw) = some raw := by
  have hstops : Lexeme.Stops Lexeme.isBracketName (Grammar.closing false) := by
    simp [Lexeme.Stops, Grammar.closing, Lexeme.isBracketName]
  have htake := Lexeme.takeWhile_append_of_stops h.plain hstops
  have hdots : Lexeme.withoutDots raw = raw := by
    rw [Lexeme.withoutDots, Text.after?_eq_none_iff.2 h.no_dots, Option.getD_none]
  obtain ⟨c, cs, rfl⟩ := List.exists_cons_of_ne_nil h.ne_nil
  have hc : c ≠ '[' := (Grammar.isBracketName_iff.1 (h.plain c (by simp))).1
  rw [inBrackets, if_neg (by decide), Lexeme.writtenName?.eq_4, htake, hdots]
  rintro rest hrest
  exact hc (List.cons.inj hrest).1

theorem BracketName.writtenNames (h : BracketName raw) :
    Lexeme.writtenNames false (Node.normalizeSplats (inBrackets false raw)) = [raw] := by
  rw [Grammar.normalizeSplats_inBrackets, Node.normalizeSplats_eq_self_iff.2 h.no_splat,
    Lexeme.writtenNames, Grammar.lex_inBrackets h.plain, List.filterMap_cons, h.writtenName?]
  rfl

/-- The path of one bracket after the other. -/
def bracketPath (raws : List Text) : Text :=
  joinSegments (raws.map (inBrackets false))

theorem routeSegments_bracketPath (h : ∀ raw ∈ raws, BracketName raw) :
    routeSegments (bracketPath raws) = raws.map (inBrackets false) := by
  rw [bracketPath, routeSegments_joinSegments, withoutIndex_eq_self]
  · cases raws <;> simp [inBrackets]
  · intro segment hsegment
    obtain ⟨raw, hraw, rfl⟩ := List.mem_map.1 hsegment
    exact (h raw hraw).isSegment

theorem writtenNames_bracketPath (h : ∀ raw ∈ raws, BracketName raw) :
    writtenNames (bracketPath raws) = raws := by
  rw [writtenNames, routeSegments_bracketPath h]
  induction raws with
  | nil => rfl
  | cons raw raws ih =>
    rw [List.map_cons, List.flatMap_cons, (h raw (by simp)).writtenNames,
      ih fun other hother => h other (by simp [hother])]
    rfl

theorem compile_bracketPath (h : ∀ raw ∈ raws, BracketName raw) :
    compile (bracketPath raws) = .ok (ofTokens (raws.map bracketToken)) := by
  have htokens : (routeSegments (bracketPath raws)).mapM (segmentToken (bracketPath raws)) =
      .ok (raws.map bracketToken) := by
    rw [routeSegments_bracketPath h]
    refine mapM_eq_ok_iff.2 (List.forall₂_map_left_iff.2 (List.forall₂_map_right_iff.2
      (List.forall₂_same.2 fun raw hraw => ?_)))
    rw [segmentToken, if_neg (by simp [inBrackets]), (h raw hraw).compile]
  rw [compile_eq, htokens]
  rfl

/-- A path of names in brackets declares them in order, each sanitised. -/
theorem declared_bracketPath (h : ∀ raw ∈ raws, BracketName raw) :
    (ofTokens (raws.map bracketToken)).declared = raws.map ParamName.sanitize := by
  rw [declared_of_compile (compile_bracketPath h), writtenNames_bracketPath h]

/-- Names that differ are the same once sanitised exactly if they are confused. A route declares the
sanitised names of its segments, so two of its parameters with different names are bound under one
name exactly if these are confused. -/
theorem names_told_apart :
    (∀ raw other, raw ≠ other ∧ ParamName.sanitize raw = ParamName.sanitize other ↔
        ParamName.Confused raw other) ∧
      ∀ path p, compile path = .ok p →
        p.declared = (writtenNames path).map ParamName.sanitize ∧
          ∀ (i j : Nat) (raw other : Text), (writtenNames path)[i]? = some raw →
            (writtenNames path)[j]? = some other → raw ≠ other →
              (p.declared[i]? = p.declared[j]? ↔ ParamName.Confused raw other) := by
  refine ⟨fun raw other => ParamName.confused_iff.symm, fun path p h => ?_⟩
  have hdeclared := declared_of_compile h
  refine ⟨hdeclared, fun i j raw other hi hj hne => ?_⟩
  rw [hdeclared, List.getElem?_map, List.getElem?_map, hi, hj, ParamName.confused_iff]
  simp [hne]

/-- Two names that are rewritten, with one masked form and different digests. -/
theorem names_told_apart_by_digest :
    ∃ p, compile "[user-id]/[user.id]".toList = .ok p ∧
      writtenNames "[user-id]/[user.id]".toList = ["user-id".toList, "user.id".toList] ∧
      "user-id".toList ≠ "user.id".toList ∧
      (p.declared[0]? = p.declared[1]? ↔
        ParamName.Confused "user-id".toList "user.id".toList) ∧
      ¬ ParamName.Confused "user-id".toList "user.id".toList := by
  have hnames : ∀ raw ∈ ["user-id".toList, "user.id".toList], BracketName raw := by
    decide
  have hpath : bracketPath ["user-id".toList, "user.id".toList] =
      "[user-id]/[user.id]".toList := by cbv
  have hcompile := compile_bracketPath hnames
  have hwritten := writtenNames_bracketPath hnames
  rw [hpath] at hcompile hwritten
  have hne : "user-id".toList ≠ "user.id".toList := by decide
  obtain ⟨hconfused, hroute⟩ := names_told_apart
  obtain ⟨-, hbound⟩ := hroute _ _ hcompile
  refine ⟨_, hcompile, hwritten, hne,
    hbound 0 1 _ _ (by rw [hwritten]; rfl) (by rw [hwritten]; rfl) hne, fun h => ?_⟩
  exact absurd ((hconfused _ _).2 h).2 (by decide +kernel)

/-- A name that stands for itself can be spelled as `user-id` is rewritten, and two names that are
rewritten can have one masked form and one digest. -/
theorem names_bound_as_one :
    "user-id".toList ≠ "user_id_a7571dde".toList ∧
      ParamName.sanitize "user-id".toList = ParamName.sanitize "user_id_a7571dde".toList ∧
      (∃ p, compile "[user-id]/[user_id_a7571dde]".toList = .ok p ∧
        p.declared = ["user_id_a7571dde".toList, "user_id_a7571dde".toList]) ∧
      "a b-c,d?e".toList ≠ "a<b%c=d e".toList ∧
      ParamName.sanitize "a b-c,d?e".toList = ParamName.sanitize "a<b%c=d e".toList := by
  have hnames : ∀ raw ∈ ["user-id".toList, "user_id_a7571dde".toList], BracketName raw := by
    decide
  have hpath : bracketPath ["user-id".toList, "user_id_a7571dde".toList] =
      "[user-id]/[user_id_a7571dde]".toList := by cbv
  have hcompile := compile_bracketPath hnames
  rw [hpath] at hcompile
  have hdeclared : (ofTokens (["user-id".toList, "user_id_a7571dde".toList].map
      bracketToken)).declared = ["user_id_a7571dde".toList, "user_id_a7571dde".toList] :=
    (declared_bracketPath hnames).trans (by decide +kernel)
  exact ⟨by decide, by decide +kernel, ⟨_, hcompile, hdeclared⟩, by decide, by decide +kernel⟩

end Pattern

end FileRoutes
