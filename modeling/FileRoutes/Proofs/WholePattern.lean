import FileRoutes.Proofs.Boundary
import Mathlib

/-! A pattern as one token. What a router mounts is the pieces of all tokens one behind the other,
and this text can be read back as a whole. Then the texts on both sides of a seam come back as one,
and nothing else is different, since no name runs on over a seam. The choices are listed in the same
order, and their forms look alike and bind the same names, so the same ones survive. -/

namespace FileRoutes

namespace Node

/-- A text in front of nodes, as one with the text that these begin with. -/
def fuseText (value : Text) : List Node → List Node
  | .text more :: rest => .text (value ++ more) :: rest
  | rest => .text value :: rest

/-- The nodes with each run of texts made one text. -/
def fuse : List Node → List Node
  | [] => []
  | .text value :: rest => fuseText value (fuse rest)
  | .param name :: rest => .param name :: fuse rest
  | .wildcard name :: rest => .wildcard name :: fuse rest
  | .group inner :: rest => .group inner :: fuse rest

variable {nodes first rest : List Node} {value : Text}

theorem fuseText_of_no_text (h : startsWithText nodes = false) :
    fuseText value nodes = .text value :: nodes := by
  unfold fuseText
  split
  · cases h
  · rfl

theorem render_fuseText (value : Text) (nodes : List Node) :
    render (fuseText value nodes) = value ++ render nodes := by
  unfold fuseText
  split <;> simp [render]

theorem render_fuse (nodes : List Node) : render (fuse nodes) = render nodes := by
  induction nodes with
  | nil => rw [fuse]
  | cons node rest ih => cases node <;> simp [fuse, render, render_fuseText, ih]

theorem WellFormed.fuseText {separator : Bool} (h : WellFormed separator nodes) (hne : value ≠ [])
    (hvalue : ∀ c ∈ value, Lexeme.isLiteral separator c = true) :
    WellFormed separator (fuseText value nodes) := by
  unfold Node.fuseText
  split
  · simp only [WellFormed] at h ⊢
    refine ⟨by simp [hne], fun c hc => ?_, h.2.2⟩
    exact (List.mem_append.1 hc).elim (hvalue c) (h.2.1 c)
  · next hnoText =>
    have hstart : startsWithText nodes = false := by
      unfold startsWithText
      split
      · exact absurd rfl (hnoText _ _)
      · rfl
    simp only [WellFormed]
    exact ⟨hne, hvalue, hstart, h⟩

/-- Well formed nodes in front of such as are when they are fused. -/
theorem WellFormed.fuse_append {separator : Bool} (h : WellFormed separator first)
    (hrest : WellFormed separator (fuse rest)) : WellFormed separator (fuse (first ++ rest)) := by
  induction first with
  | nil => exact hrest
  | cons node first ih =>
    cases node with
    | text value =>
      simp only [WellFormed] at h
      exact (ih h.2.2.2).fuseText h.1 h.2.1
    | param name | wildcard name =>
      simp only [WellFormed] at h
      simp only [List.cons_append, fuse, WellFormed]
      exact ⟨h.1, ih h.2⟩
    | group inner =>
      simp only [WellFormed] at h
      simp only [List.cons_append, fuse, WellFormed]
      exact ⟨h.1, h.2.1, ih h.2.2⟩

theorem readBack_fuseText (value : Text) (nodes : List Node) :
    readBack (fuseText value nodes) = fuseText value (readBack nodes) := by
  cases hnodes : startsWithText nodes with
  | false =>
    have hback := startsWithText_readBack hnodes
    rw [fuseText_of_no_text hnodes, fuseText_of_no_text hback, readBack]
  | true =>
    unfold startsWithText at hnodes
    split at hnodes
    · rw [fuseText, readBack, readBack, fuseText]
    · cases hnodes

theorem continuesName_readBack (nodes : List Node) :
    continuesName (readBack nodes) = continuesName nodes := by
  cases nodes with
  | nil => rw [readBack]
  | cons node rest =>
    cases node with
    | text value => cases value <;> simp [readBack, continuesName]
    | param name | wildcard name | group inner => simp [readBack, absorb, continuesName]

/-- In front of nodes that do not continue a name, a text continues it as far as it does alone. -/
theorem continuation_fuseText (hends : continuesName nodes = false) (value : Text) :
    continuation (fuseText value nodes) = value.takeWhile Lexeme.isNameChar := by
  unfold fuseText
  split
  · next more rest =>
    have hmore : more.takeWhile Lexeme.isNameChar = [] := continuation_eq_nil hends
    rw [continuation, List.takeWhile_append, hmore, List.append_nil]
    split
    · next hall => exact (List.takeWhile_prefix _).eq_of_length hall |>.symm
    · rfl
  · rw [continuation]

theorem fuse_ofText_append (value : Text) (rest : List Node) :
    fuse (ofText value ++ rest) = if value = [] then fuse rest else fuseText value (fuse rest) := by
  unfold ofText
  split <;> simp [fuse]

theorem remainder_fuseText {separator : Bool} (h : WellFormed separator nodes)
    (hends : continuesName nodes = false) (value : Text) :
    remainder (fuseText value nodes) =
      if value.dropWhile Lexeme.isNameChar = [] then nodes
      else fuseText (value.dropWhile Lexeme.isNameChar) nodes := by
  unfold fuseText
  split
  · next more rest =>
    have hmore : more.dropWhile Lexeme.isNameChar = more := by
      have hnone : more.takeWhile Lexeme.isNameChar = [] := continuation_eq_nil hends
      simpa [hnone] using List.takeWhile_append_dropWhile (p := Lexeme.isNameChar) (l := more)
    simp only [WellFormed] at h
    rw [remainder, List.dropWhile_append, hmore]
    by_cases hall : value.dropWhile Lexeme.isNameChar = []
    · simp [hall, ofText, h.1]
    · simp [hall, ofText]
  · rw [remainder, ofText]
    split <;> simp

theorem continuesName_fuseText (c : Char) (value : Text) (nodes : List Node) :
    continuesName (fuseText (c :: value) nodes) = Lexeme.isNameChar c := by
  unfold fuseText
  split <;> rfl

theorem continuesName_fuse_withSeparator_append (nodes rest : List Node) :
    continuesName (fuse (withSeparator nodes ++ rest)) = false := by
  have hlead : continuesName (fuse (lead nodes ++ rest)) = false := by
    unfold lead
    split <;> simp [fuse, continuesName_fuseText, Lexeme.isNameChar]
  unfold withSeparator
  split
  · simp [fuse, continuesName]
  · exact hlead

/-- A seam between nodes and those behind them: these do not continue a name, and come back as
`result`. -/
structure Seam (separator : Bool) (rest result : List Node) : Prop where
  wellFormed : WellFormed separator (fuse rest)
  ends : continuesName (fuse rest) = false
  comesBack : readBack (fuse rest) = fuse result

namespace Seam

variable {separator : Bool} {result : List Node}

theorem continuesName_result (h : Seam separator rest result) :
    continuesName (fuse result) = false := by
  rw [← h.comesBack, continuesName_readBack, h.ends]

theorem wellFormed_result (h : Seam separator rest result) : WellFormed separator (fuse result) :=
  h.comesBack ▸ h.wellFormed.readBack

theorem continuesName_fuse_append (h : Seam separator rest result)
    (hstart : startsWithText nodes = false) : continuesName (fuse (nodes ++ result)) = false := by
  cases nodes with
  | nil => exact h.continuesName_result
  | cons node nodes =>
    cases node with
    | text value => cases hstart
    | param name | wildcard name | group inner => simp [fuse, continuesName]

/-- A name takes as much of nodes in front of a seam as it takes of these nodes alone. -/
theorem absorb_fuse (h : Seam separator rest result) (hnodes : WellFormed separator nodes)
    (make : Text → Node) (name : Text) :
    absorb make name (fuse (nodes ++ result)) =
      make (ParamName.sanitize (name ++ continuation nodes)) ::
        fuse (remainder nodes ++ result) := by
  cases nodes with
  | nil =>
    rw [absorb, List.nil_append, continuation_eq_nil h.continuesName_result,
      remainder_eq_self h.wellFormed_result h.continuesName_result]
    rfl
  | cons node nodes =>
    cases node with
    | text value =>
      simp only [WellFormed] at hnodes
      have hends := h.continuesName_fuse_append hnodes.2.2.1
      rw [absorb, List.cons_append, fuse, continuation_fuseText hends,
        remainder_fuseText (hnodes.2.2.2.fuse_append h.wellFormed_result) hends, remainder,
        List.append_assoc, fuse_ofText_append, continuation]
    | param other | wildcard other | group inner => simp [absorb, fuse, continuation, remainder]

/-- Nodes in front of a seam come back as they do alone. -/
theorem readBack_fuse_append (h : Seam separator rest result) {first : List Node}
    (hfirst : WellFormed separator first) :
    readBack (fuse (first ++ rest)) = fuse (readBack first ++ result) := by
  induction first with
  | nil => simpa [readBack] using h.comesBack
  | cons node first ih =>
    cases node with
    | text value =>
      simp only [WellFormed] at hfirst
      rw [List.cons_append, fuse, readBack_fuseText, ih hfirst.2.2.2, readBack, List.cons_append,
        fuse]
    | param name | wildcard name =>
      simp only [WellFormed] at hfirst
      rw [List.cons_append, fuse, readBack, ih hfirst.2, h.absorb_fuse hfirst.2.readBack, readBack,
        absorb, List.cons_append, fuse]
    | group inner =>
      simp only [WellFormed] at hfirst
      rw [List.cons_append, fuse, readBack, ih hfirst.2.2, readBack, List.cons_append, fuse]

/-- The nodes of segments, one segment behind the other, come back as the segments do. -/
theorem of_trees {trees : List (List Node)} (h : ∀ nodes ∈ trees, WellFormed false nodes) :
    Seam true (trees.map Node.withSeparator).flatten (readTrees trees).flatten := by
  induction trees with
  | nil =>
    exact ⟨by simp [fuse, WellFormed], by simp [fuse, continuesName],
      by simp [fuse, readBack, readTrees]⟩
  | cons nodes trees ih =>
    obtain ⟨hnodes, htrees⟩ := List.forall_mem_cons.1 h
    have hseam := ih htrees
    exact ⟨hnodes.withSeparator.fuse_append hseam.wellFormed,
      continuesName_fuse_withSeparator_append _ _,
      hseam.readBack_fuse_append hnodes.withSeparator⟩

end Seam

end Node

namespace Atom

/-- Forms that look alike and bind the same names: they differ at most in how text is cut. -/
structure Alike (a b : List Atom) : Prop where
  render : a.flatMap render = b.flatMap render
  shape : a.flatMap shape = b.flatMap shape
  names : a.filterMap name? = b.filterMap name?

namespace Alike

variable {a b c a' b' : List Atom}

theorem refl (a : List Atom) : Alike a a :=
  ⟨rfl, rfl, rfl⟩

theorem trans (hab : Alike a b) (hbc : Alike b c) : Alike a c :=
  ⟨hab.render.trans hbc.render, hab.shape.trans hbc.shape, hab.names.trans hbc.names⟩

theorem append (h : Alike a b) (h' : Alike a' b') : Alike (a ++ a') (b ++ b') :=
  ⟨by simp only [List.flatMap_append, h.render, h'.render],
    by simp only [List.flatMap_append, h.shape, h'.shape],
    by simp only [List.filterMap_append, h.names, h'.names]⟩

/-- One text or two that make it up. -/
theorem cut_text (value more : Text) (a : List Atom) :
    Alike (.text (value ++ more) :: a) (.text value :: .text more :: a) :=
  ⟨by simp [Atom.render], by simp [Atom.shape], by simp [name?, List.filterMap_cons]⟩

end Alike

end Atom

namespace Node

open Atom (Alike)

variable {nodes rest : List Node}

theorem pairs_alike (firsts : List (List Atom)) {seconds seconds' : List (List Atom)}
    (h : List.Forall₂ Alike seconds seconds') :
    List.Forall₂ Alike (pairs firsts seconds) (pairs firsts seconds') := by
  refine List.rel_flatMap (List.forall₂_same.2 fun a _ => rfl) ?_
  rintro a _ rfl
  exact List.rel_map (fun _ _ hab => (Alike.refl a).append hab) h

theorem choices_fuseText (value : Text) (h : List.Forall₂ Alike (choices nodes) (choices rest)) :
    List.Forall₂ Alike (choices (fuseText value nodes)) (choices (.text value :: rest)) := by
  unfold fuseText
  split
  · next more nodes =>
    simp only [choices, pairs, List.flatMap_singleton] at h ⊢
    rw [List.forall₂_map_left_iff] at h
    rw [List.forall₂_map_left_iff, List.forall₂_map_right_iff]
    exact h.imp fun a b hab =>
      (Alike.cut_text value more a).trans ((Alike.refl [.text value]).append hab)
  · rw [choices, choices]
    exact pairs_alike _ h

/-- Fused nodes have the forms of the nodes, in the same order. -/
theorem choices_fuse (nodes : List Node) :
    List.Forall₂ Alike (choices (fuse nodes)) (choices nodes) := by
  induction nodes with
  | nil => exact List.forall₂_same.2 fun a _ => Alike.refl a
  | cons node rest ih =>
    cases node with
    | text value =>
      rw [fuse]
      exact choices_fuseText value ih
    | param name | wildcard name | group inner =>
      rw [fuse, choices, choices]
      exact pairs_alike _ ih

end Node

namespace Variant.Candidate

/-- Candidates that compare alike and give the same variant. -/
structure Alike (a b : Candidate) : Prop where
  atoms : Atom.Alike a.atoms b.atoms
  shape : a.shape = b.shape
  binding : a.binding = b.binding

theorem ofAtoms_alike (declared : List Text) {a b : List Atom} (h : Atom.Alike a b) :
    Alike (ofAtoms declared a) (ofAtoms declared b) :=
  ⟨h, by simp only [ofAtoms, Variant.shape, h.shape], by simp only [ofAtoms, h.names]⟩

theorem keep_alike {kept kept' : List Candidate} {latest latest' : Candidate}
    (h : List.Forall₂ Alike kept kept') (hlatest : Alike latest latest') :
    List.Forall₂ Alike (keep kept latest) (keep kept' latest') := by
  induction h with
  | nil => exact .cons hlatest .nil
  | @cons k k' rest rest' hk hrest ih =>
    simp only [keep, hk.shape, hlatest.shape, hk.binding, hlatest.binding]
    split
    · refine .cons ?_ hrest
      split
      · exact hlatest
      · exact hk
    · exact .cons hk ih

end Variant.Candidate

namespace Variant

theorem ofAtoms_eq_of_alike {a b : List Atom} (h : Atom.Alike a b) : ofAtoms a = ofAtoms b := by
  simp only [ofAtoms, h.render, h.names]

/-- Of choices with alike forms the same ones survive. -/
theorem survivors_alike (declared : List Text) {all others : List (List Atom)}
    (h : List.Forall₂ Atom.Alike all others) :
    List.Forall₂ Candidate.Alike (survivors declared all) (survivors declared others) := by
  have hkeep : Relator.LiftFun (List.Forall₂ Candidate.Alike)
      (Relator.LiftFun Candidate.Alike (List.Forall₂ Candidate.Alike))
      Candidate.keep Candidate.keep :=
    fun _ _ hkept _ _ hlatest => Candidate.keep_alike hkept hlatest
  exact List.rel_foldl hkeep .nil
    (List.rel_map (fun _ _ hab => Candidate.ofAtoms_alike declared hab) h)

theorem map_ofAtoms_eq_of_alike {kept others : List Candidate}
    (h : List.Forall₂ Candidate.Alike kept others) :
    kept.map (fun k => ofAtoms k.atoms) = others.map fun k => ofAtoms k.atoms := by
  rw [← List.forall₂_eq_eq_eq, List.forall₂_map_left_iff, List.forall₂_map_right_iff]
  exact h.imp fun _ _ hab => ofAtoms_eq_of_alike hab.atoms

end Variant

namespace Node

theorem render_append (first second : List Node) :
    render (first ++ second) = render first ++ render second := by
  induction first with
  | nil => simp [render]
  | cons node first ih => cases node <;> simp [render, ih]

/-- A segment begins with its separator, or with a group that holds it. -/
theorem WellFormed.head_render_withSeparator {nodes : List Node} (h : WellFormed false nodes)
    (hne : nodes ≠ []) :
    (∃ t, render (Node.withSeparator nodes) = '{' :: t) ∨
      ∃ c t, c ≠ '{' ∧ render (Node.withSeparator nodes) = '/' :: c :: t := by
  obtain ⟨node, rest, rfl⟩ := List.exists_cons_of_ne_nil hne
  cases node with
  | group inner => exact Or.inl ⟨_, by rw [Node.withSeparator, render, List.cons_append]⟩
  | text value =>
    simp only [WellFormed] at h
    obtain ⟨c, value, rfl⟩ := List.exists_cons_of_ne_nil h.1
    refine Or.inr ⟨c, value ++ render rest, ?_, by simp [Node.withSeparator, Node.lead, render]⟩
    rintro rfl
    exact absurd (h.2.1 '{' (by simp)) (by decide)
  | param name =>
    exact Or.inr ⟨':', name ++ render rest, by decide, by
      simp [Node.withSeparator, Node.lead, render]⟩
  | wildcard name =>
    exact Or.inr ⟨'*', name ++ render rest, by decide, by
      simp [Node.withSeparator, Node.lead, render]⟩

end Node

namespace Pattern

open Node

variable {segments : List Text} {trees : List (List Node)}

/-- The separator that the pattern leaves out comes back where the pattern is mounted. -/
theorem routePath_ofTokens_cons {first : Token} (tokens : List Token)
    (hfirst : (∃ t, first.pattern = '{' :: t) ∨
      ∃ c t, c ≠ '{' ∧ first.pattern = '/' :: c :: t) :
    (ofTokens (first :: tokens)).routePath = (first :: tokens).flatMap (·.pattern) := by
  rcases hfirst with ⟨t, ht⟩ | ⟨c, t, hc, ht⟩
  · simp [ofTokens, routePath, Token.joinPatterns, ht, Text.after?]
  · simp only [ofTokens, routePath, Token.joinPatterns, ht, Text.after?, List.flatMap_cons,
      if_true, Option.getD_some, List.cons_append]
    split
    · next heq => cases heq
    · next heq => exact absurd (List.cons.inj heq).1 hc
    · rfl

theorem flatMap_pattern_tokensOf (h : List.Forall₂ ParsedSegment segments trees) :
    (tokensOf segments trees).flatMap (·.pattern) = render (trees.map withSeparator).flatten := by
  induction h with
  | nil => simp [tokensOf, render]
  | cons _ _ ih =>
    simp only [tokensOf, List.zipWith_cons_cons, List.flatMap_cons, List.map_cons,
      List.flatten_cons, render_append] at ih ⊢
    rw [ih, Token.ofNodes, renderSegment_eq]

theorem routePath_ofTokens (h : List.Forall₂ ParsedSegment segments trees) (hne : trees ≠ []) :
    (ofTokens (tokensOf segments trees)).routePath = render (trees.map withSeparator).flatten := by
  rw [← flatMap_pattern_tokensOf h]
  have hwell := wellFormed_trees h
  have hfilled := ne_nil_trees h
  cases h with
  | nil => exact absurd rfl hne
  | @cons segment nodes segments trees hhead htail =>
    apply routePath_ofTokens_cons
    have hstart := (hwell nodes (by simp)).head_render_withSeparator (hfilled nodes (by simp))
    rwa [Token.ofNodes, renderSegment_eq]

/-- The pattern as one token, which has the whole text that a router mounts and all parts. -/
def whole (p : Pattern) (kind : TokenKind) (source pattern : Text) : Pattern :=
  ⟨[⟨kind, source, p.routePath, p.tokens.flatMap (·.parts)⟩], pattern⟩

theorem params_whole (p : Pattern) (kind : TokenKind) (source pattern : Text) :
    (p.whole kind source pattern).params = p.params := by
  simp [params, whole, List.filterMap_flatMap]

/-- Patterns with the same parameters, and with forms that are alike in the same order, expand
alike. -/
theorem expand_eq_of_alike {p q : Pattern} {nodes others : List (List Node)}
    (hp : p.tokenNodes = .ok nodes) (hq : q.tokenNodes = .ok others) (hparams : p.params = q.params)
    (h : List.Forall₂ Atom.Alike (choices nodes.flatten) (choices others.flatten)) :
    p.expand = q.expand := by
  have hkept := Variant.survivors_alike (q.params.map Prod.fst) h
  simp only [expand, hp, hq, hparams, Except.map, h.length_eq, hkept.length_eq,
    Variant.map_ofAtoms_eq_of_alike hkept]

theorem tokenNodes_whole (h : List.Forall₂ ParsedSegment segments trees) (hne : trees ≠ [])
    (kind : TokenKind) (source pattern : Text) :
    ((ofTokens (tokensOf segments trees)).whole kind source pattern).tokenNodes =
      .ok [fuse (readTrees trees).flatten] := by
  have hseam := Seam.of_trees (wellFormed_trees h)
  have hparse : Node.parse true (ofTokens (tokensOf segments trees)).routePath =
      .ok (fuse (readTrees trees).flatten) := by
    rw [routePath_ofTokens h hne, ← render_fuse, parse_render hseam.wellFormed, hseam.comesBack]
  simp only [tokenNodes, whole, List.mapM_cons, hparse]
  rfl

/-- Where the tokens of a compiled path end makes no difference to its variants. -/
theorem expand_as_one_token {path : Text} {p : Pattern} (h : compile path = .ok p)
    (kind : TokenKind) (source pattern : Text) :
    ∃ expansion, (p.whole kind source pattern).expand = .ok expansion ∧
      p.expand = .ok expansion := by
  obtain ⟨trees, htrees, rfl⟩ := compile_eq_ok_iff.1 h
  by_cases hempty : trees = []
  · subst hempty
    rw [List.forall₂_nil_right_iff.1 htrees]
    exact ⟨⟨[⟨['/'], []⟩], 0⟩, by cbv, by cbv⟩
  · have hnodes := tokenNodes_ofTokens htrees
    have hwhole := tokenNodes_whole htrees hempty kind source pattern
    have halike : List.Forall₂ Atom.Alike (choices [fuse (readTrees trees).flatten].flatten)
        (choices (readTrees trees).flatten) := by
      rw [List.flatten_singleton]
      exact choices_fuse _
    refine ⟨_, ?_, expand_eq hnodes⟩
    rw [expand_eq_of_alike hwhole hnodes (params_whole _ kind source pattern) halike]
    exact expand_eq hnodes

/-- A text and the separator behind it become one, and of the choices one gives way. -/
theorem expand_as_one_token_of_two_optionals :
    ∃ p expansion, compile "[id]v/w/[[a]]/[[b]]".toList = .ok p ∧
      p.routePath = "/:idv/w{/:a}{/:b}".toList ∧
      (p.whole .mixed [] []).expand = .ok expansion ∧ p.expand = .ok expansion ∧
      expansion.variants.map Variant.pattern =
        ["/:idv/w".toList, "/:idv/w/:a".toList, "/:idv/w/:a/:b".toList] := by
  have hcompile : compile "[id]v/w/[[a]]/[[b]]".toList = .ok (ofTokens (tokensOf
      ["[id]v".toList, ['w'], "[[a]]".toList, "[[b]]".toList]
      [[.param "id".toList, .text ['v']], [.text ['w']], [.group [.param ['a']]],
        [.group [.param ['b']]]])) := by cbv
  obtain ⟨expansion, hwhole, hexpand⟩ := expand_as_one_token hcompile .mixed [] []
  have hlisted : (ofTokens (tokensOf ["[id]v".toList, ['w'], "[[a]]".toList, "[[b]]".toList]
      [[.param "id".toList, .text ['v']], [.text ['w']], [.group [.param ['a']]],
        [.group [.param ['b']]]])).expand = .ok
      ⟨[⟨"/:idv/w".toList, ["idv".toList]⟩, ⟨"/:idv/w/:a".toList, ["idv".toList, ['a']]⟩,
        ⟨"/:idv/w/:a/:b".toList, ["idv".toList, ['a'], ['b']]⟩], 1⟩ := by cbv
  obtain rfl := Except.ok.inj (hlisted.symm.trans hexpand)
  exact ⟨_, _, hcompile, by cbv, hwhole, hexpand, rfl⟩

end Pattern

end FileRoutes
