import FileRoutes.Proofs.ParsedNodes
import FileRoutes.Variant
import Mathlib.Data.List.Forall2

/-! Compiled patterns in terms of the trees of their segments. The piece of the pattern that a token
holds is the rendering of its tree with the separator put in, so reading the pieces back never
fails, and gives the trees back up to names that run on into text. -/

namespace FileRoutes

namespace Node

/-- The nodes with a separator before them. -/
def lead : List Node → List Node
  | .text value :: rest => .text ('/' :: value) :: rest
  | nodes => .text ['/'] :: nodes

/-- The nodes of a segment with its separator, which a group at the head takes in. -/
def withSeparator : List Node → List Node
  | .group inner :: rest => .group (lead inner) :: rest
  | nodes => lead nodes

theorem render_lead (nodes : List Node) : render (lead nodes) = '/' :: render nodes := by
  unfold lead
  split <;> simp [render]

theorem renderSegment_eq (nodes : List Node) :
    renderSegment nodes = render (withSeparator nodes) := by
  cases nodes with
  | nil => simp [renderSegment, withSeparator, lead, render]
  | cons node rest =>
    cases node with
    | group inner => simp [renderSegment, withSeparator, render, render_lead]
    | text value | param name | wildcard name =>
      simp [renderSegment, withSeparator, lead, render]

theorem isLiteral_true {c : Char} (h : Lexeme.isLiteral false c = true) :
    Lexeme.isLiteral true c = true := by
  obtain ⟨hbrackets, hreserved, _⟩ := Lexeme.isLiteral_iff.1 h
  exact Lexeme.isLiteral_iff.2 ⟨hbrackets, hreserved, Or.inl rfl⟩

/-- Where the separator is literal, nodes without it are well formed all the more. -/
theorem WellFormed.allow {nodes : List Node} (h : WellFormed false nodes) :
    WellFormed true nodes := by
  induction nodes using render.induct with
  | case1 => simp [WellFormed]
  | case2 value rest ih =>
    simp only [WellFormed] at h ⊢
    exact ⟨h.1, fun c hc => isLiteral_true (h.2.1 c hc), h.2.2.1, ih h.2.2.2⟩
  | case3 name rest ih | case4 name rest ih =>
    simp only [WellFormed] at h ⊢
    exact ⟨h.1, ih h.2⟩
  | case5 inner rest ihInner ihRest =>
    simp only [WellFormed] at h ⊢
    exact ⟨h.1, ihInner h.2.1, ihRest h.2.2⟩

theorem WellFormed.lead {nodes : List Node} (h : WellFormed true nodes) :
    WellFormed true (lead nodes) := by
  have hslash : Lexeme.isLiteral true '/' = true := by decide
  unfold Node.lead
  split
  · simp only [WellFormed] at h ⊢
    refine ⟨by simp, fun c hc => ?_, h.2.2⟩
    rcases List.mem_cons.1 hc with rfl | hc
    · exact hslash
    · exact h.2.1 c hc
  · next hnoText =>
    have hstart : startsWithText nodes = false := by
      unfold startsWithText
      split
      · next value rest => exact absurd rfl (hnoText value rest)
      · rfl
    simp [WellFormed, hstart, hslash, h]

theorem lead_ne_nil (nodes : List Node) : Node.lead nodes ≠ [] := by
  unfold Node.lead
  split <;> simp

theorem WellFormed.withSeparator {nodes : List Node} (h : WellFormed false nodes) :
    WellFormed true (withSeparator nodes) := by
  have hallow := h.allow
  unfold Node.withSeparator
  split
  · simp only [WellFormed] at hallow ⊢
    exact ⟨lead_ne_nil _, hallow.2.1.lead, hallow.2.2⟩
  · exact hallow.lead

theorem separated_lead (nodes : List Node) : separated (lead nodes) = separated nodes := by
  unfold Node.lead
  split <;> simp [separated]

theorem separated_withSeparator (nodes : List Node) :
    separated (withSeparator nodes) = separated nodes := by
  unfold Node.withSeparator
  split
  · simp [separated, separated_lead]
  · exact separated_lead _

theorem names_lead (nodes : List Node) : names (lead nodes) = names nodes := by
  unfold Node.lead
  split <;> simp [names]

theorem names_withSeparator (nodes : List Node) : names (withSeparator nodes) = names nodes := by
  unfold Node.withSeparator
  split
  · simp [names, names_lead]
  · exact names_lead _

theorem names_append (first second : List Node) :
    names (first ++ second) = names first ++ names second := by
  induction first using names.induct with
  | case1 => simp [names]
  | case2 _ rest ih | case3 _ rest ih | case4 _ rest ih => simp [names, ih]
  | case5 inner rest ihInner ihRest => simp [names, ihRest]

theorem names_flatten (trees : List (List Node)) : names trees.flatten = trees.flatMap names := by
  induction trees with
  | nil => simp [names]
  | cons nodes trees ih => simp [names_append, ih]

end Node

/-- The tree of a segment. -/
def ParsedSegment (segment : Text) (nodes : List Node) : Prop :=
  segment ≠ [] ∧ Node.parse false (Node.normalizeSplats segment) = .ok nodes

theorem ParsedSegment.wellFormed {segment : Text} {nodes : List Node}
    (h : ParsedSegment segment nodes) : Node.WellFormed false nodes :=
  Node.wellFormed_of_parse h.2

theorem map_eq_ok_iff {α β ε : Type} {f : α → β} {x : Except ε α} {y : β} :
    x.map f = .ok y ↔ ∃ a, x = .ok a ∧ y = f a := by
  cases x with
  | error e => simp [Except.map]
  | ok a => simp [Except.map, eq_comm]

theorem mapM_eq_ok_iff {α β ε : Type} {f : α → Except ε β} {xs : List α} {ys : List β} :
    xs.mapM f = .ok ys ↔ List.Forall₂ (fun x y => f x = .ok y) xs ys := by
  induction xs generalizing ys with
  | nil =>
    rw [List.mapM_nil, List.forall₂_nil_left_iff]
    exact ⟨fun h => (Except.ok.inj h).symm, fun h => h ▸ rfl⟩
  | cons x xs ih =>
    rw [List.mapM_cons, List.forall₂_cons_left_iff]
    constructor
    · intro h
      cases hx : f x with
      | error e => simp [hx, bind, Except.bind] at h
      | ok y =>
        cases hxs : xs.mapM f with
        | error e => simp [hx, hxs, bind, Except.bind] at h
        | ok rest =>
          simp only [hx, hxs, bind, Except.bind, pure, Except.pure, Except.ok.injEq] at h
          exact ⟨y, rest, rfl, ih.1 hxs, h.symm⟩
    · rintro ⟨y, rest, hx, hxs, rfl⟩
      rw [hx, ih.2 hxs]
      rfl

theorem exists_of_mapM_eq_ok {α β ε : Type} {f : α → Except ε β} {xs : List α} {ys : List β} {x : α}
    (h : xs.mapM f = .ok ys) (hx : x ∈ xs) : ∃ y, f x = .ok y := by
  have hpairs := mapM_eq_ok_iff.1 h
  clear h
  induction hpairs with
  | nil => simp at hx
  | @cons _ y _ _ hhead _ ih =>
    rcases List.mem_cons.1 hx with rfl | hx
    · exact ⟨y, hhead⟩
    · exact ih hx

/-- A traversal fails as its first failing member does. -/
theorem mapM_eq_error_iff {α β ε : Type} {f : α → Except ε β} {xs : List α} {e : ε} :
    xs.mapM f = .error e ↔ ∃ before x after ys, xs = before ++ x :: after ∧
      before.mapM f = .ok ys ∧ f x = .error e := by
  constructor
  · intro h
    induction xs with
    | nil => cases h
    | cons x xs ih =>
      rw [List.mapM_cons] at h
      cases hx : f x with
      | error other =>
        rw [hx] at h
        obtain rfl := Except.error.inj h
        exact ⟨[], x, xs, [], rfl, rfl, hx⟩
      | ok y =>
        cases hxs : xs.mapM f with
        | ok ys =>
          rw [hx, hxs] at h
          cases h
        | error other =>
          rw [hx, hxs] at h
          obtain rfl := Except.error.inj h
          obtain ⟨before, failing, after, ys, rfl, hbefore, hfailing⟩ := ih hxs
          refine ⟨x :: before, failing, after, y :: ys, rfl, ?_, hfailing⟩
          rw [List.mapM_cons, hx, hbefore]
          rfl
  · rintro ⟨before, x, after, ys, rfl, hbefore, hx⟩
    rw [List.mapM_append, hbefore, List.mapM_cons, hx]
    rfl

theorem Token.compile_eq_ok_iff {segment : Text} {token : Token} :
    compile segment = .ok token ↔
      ∃ nodes, Node.parse false (Node.normalizeSplats segment) = .ok nodes ∧
        token = ofNodes segment nodes :=
  map_eq_ok_iff

namespace Pattern

/-- The token of one segment of a path. -/
def segmentToken (path segment : Text) : Except PatternError Token :=
  if segment.isEmpty then .error (.emptySegment path) else Token.compile segment

theorem compile_eq (path : Text) :
    compile path = ((routeSegments path).mapM (segmentToken path)).map ofTokens := rfl

theorem segmentToken_eq_ok_iff {path segment : Text} {token : Token} :
    segmentToken path segment = .ok token ↔
      ∃ nodes, ParsedSegment segment nodes ∧ token = Token.ofNodes segment nodes := by
  by_cases hempty : segment = []
  · simp [segmentToken, hempty, ParsedSegment]
  · simp only [segmentToken, List.isEmpty_iff, hempty, if_false, Token.compile_eq_ok_iff,
      ParsedSegment, ne_eq, not_false_eq_true, true_and]

/-- The tokens of segments and their trees. -/
def tokensOf (segments : List Text) (trees : List (List Node)) : List Token :=
  List.zipWith Token.ofNodes segments trees

theorem exists_trees_iff {segments : List Text} {tokens : List Token} :
    List.Forall₂ (fun segment token => ∃ nodes, ParsedSegment segment nodes ∧
        token = Token.ofNodes segment nodes) segments tokens ↔
      ∃ trees, List.Forall₂ ParsedSegment segments trees ∧ tokens = tokensOf segments trees := by
  constructor
  · intro h
    induction h with
    | nil => exact ⟨[], .nil, rfl⟩
    | cons hhead _ ih =>
      obtain ⟨nodes, hnodes, rfl⟩ := hhead
      obtain ⟨trees, htrees, rfl⟩ := ih
      exact ⟨nodes :: trees, .cons hnodes htrees, rfl⟩
  · rintro ⟨trees, h, rfl⟩
    induction h with
    | nil => exact .nil
    | cons hhead _ ih => exact .cons ⟨_, hhead, rfl⟩ ih

/-- A path compiles if each of its segments has a tree, and then to the tokens of these. -/
theorem compile_eq_ok_iff {path : Text} {p : Pattern} :
    compile path = .ok p ↔
      ∃ trees, List.Forall₂ ParsedSegment (routeSegments path) trees ∧
        p = ofTokens (tokensOf (routeSegments path) trees) := by
  have htokens : ∀ tokens, (routeSegments path).mapM (segmentToken path) = .ok tokens ↔
      ∃ trees, List.Forall₂ ParsedSegment (routeSegments path) trees ∧
        tokens = tokensOf (routeSegments path) trees := by
    intro tokens
    simp only [mapM_eq_ok_iff, segmentToken_eq_ok_iff, exists_trees_iff]
  rw [compile_eq, map_eq_ok_iff]
  constructor
  · rintro ⟨tokens, hmap, rfl⟩
    obtain ⟨trees, htrees, rfl⟩ := (htokens tokens).1 hmap
    exact ⟨trees, htrees, rfl⟩
  · rintro ⟨trees, htrees, rfl⟩
    exact ⟨_, (htokens _).2 ⟨trees, htrees, rfl⟩, rfl⟩

/-- Reading the pieces of a compiled pattern back never fails. -/
theorem tokenNodes_ofTokens {segments : List Text} {trees : List (List Node)}
    (h : List.Forall₂ ParsedSegment segments trees) :
    (ofTokens (tokensOf segments trees)).tokenNodes =
      .ok (trees.map fun nodes => Node.readBack (Node.withSeparator nodes)) := by
  apply mapM_eq_ok_iff.2
  induction h with
  | nil => exact .nil
  | cons hhead _ ih =>
    refine .cons ?_ ih
    simp only [Token.ofNodes, Node.renderSegment_eq]
    exact Node.parse_render hhead.wellFormed.withSeparator

end Pattern

end FileRoutes
