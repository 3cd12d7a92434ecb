import FileRoutes.Proofs.FilledAddress
import FileRoutes.Proofs.Verbatim
import FileRoutes.Specificity

/-! What a static segment is. A token is static if there is one text outside of all groups and no
name anywhere, so none of its variants has a parameter. Groups of literal text are no bar to that,
but with a group there is more than one variant: taking all groups gives more text than leaving them
out. So the segments with one variant and no parameters are those of literal text only. -/

namespace FileRoutes

namespace Part

def text? : Part → Option Text
  | .static value => some value
  | .param _ _ => none

theorem eq_of_no_param {parts : List Part} (h : parts.filterMap param? = []) :
    parts = (parts.filterMap text?).map .static := by
  induction parts with
  | nil => rfl
  | cons part parts ih =>
    cases part with
    | static value =>
      have hrest : parts.filterMap param? = [] := by simpa [param?, List.filterMap_cons] using h
      simpa [text?] using ih hrest
    | param name kind => simp [param?] at h

end Part

namespace Node

open Lexeme

def isText : Node → Bool
  | .text _ => true
  | _ => false

/-- The texts outside of all groups. -/
def texts : List Node → List Text
  | [] => []
  | .text value :: rest => value :: texts rest
  | _ :: rest => texts rest

variable {separator : Bool} {nodes : List Node} {t : Text}

theorem texts_ofNodes_grouped (nodes : List Node) :
    (Part.ofNodes true nodes).filterMap Part.text? = [] := by
  induction nodes using names.induct with
  | case1 => simp [Part.ofNodes]
  | case2 value rest ih => simp [Part.ofNodes, ih]
  | case3 name rest ih | case4 name rest ih =>
    simp [Part.ofNodes, Part.text?, List.filterMap_cons, ih]
  | case5 inner rest ihInner ihRest => simp [Part.ofNodes, ihInner, ihRest]

theorem texts_ofNodes (nodes : List Node) :
    (Part.ofNodes false nodes).filterMap Part.text? = texts nodes := by
  induction nodes with
  | nil => simp [Part.ofNodes, texts]
  | cons node rest ih =>
    cases node <;>
      simp [Part.ofNodes, Part.text?, texts, List.filterMap_cons, ih, texts_ofNodes_grouped]

/-- The token of nodes is static if they have one text outside of all groups and no name. -/
theorem isStatic_ofNodes_iff (source : Text) (nodes : List Node) :
    (Token.ofNodes source nodes).isStatic = true ↔
      (∃ value, texts nodes = [value]) ∧ names nodes = [] := by
  have hkind : (Token.ofNodes source nodes).isStatic = true ↔
      ∃ value, Part.ofNodes false nodes = [.static value] := by
    simp only [Token.isStatic, Token.ofNodes, beq_iff_eq]
    unfold TokenKind.ofParts
    split <;> simp_all
  rw [hkind, ← texts_ofNodes, ← Part.names_ofNodes false]
  constructor
  · rintro ⟨value, hparts⟩
    simp [hparts, Part.text?, Part.param?]
  · rintro ⟨⟨value, hvalue⟩, hnames⟩
    have hparts := Part.eq_of_no_param (List.map_eq_nil_iff.1 hnames)
    rw [hvalue] at hparts
    exact ⟨value, hparts⟩

theorem all_isText_iff : nodes.all isText = true ↔
    names nodes = [] ∧ nodes.any isGroup = false := by
  induction nodes with
  | nil => simp [names]
  | cons node rest ih =>
    cases node with
    | text value => simpa [names, isText, isGroup] using ih
    | param name | wildcard name | group inner => simp [names, isText, isGroup]

/-- Texts in a row would have been one. -/
theorem WellFormed.eq_of_all_isText (h : WellFormed separator nodes)
    (htext : nodes.all isText = true) : nodes = [] ∨ ∃ value, nodes = [.text value] := by
  match nodes with
  | [] => exact Or.inl rfl
  | [.text value] => exact Or.inr ⟨value, rfl⟩
  | .text value :: .text more :: rest => simp [WellFormed, startsWithText] at h
  | .text value :: .param name :: rest => simp [isText] at htext
  | .text value :: .wildcard name :: rest => simp [isText] at htext
  | .text value :: .group inner :: rest => simp [isText] at htext
  | .param name :: rest => simp [isText] at htext
  | .wildcard name :: rest => simp [isText] at htext
  | .group inner :: rest => simp [isText] at htext

/-- What is left behind a text holds the characters of the input that are not literal. -/
theorem mem_rest_of_text {c d : Char} {cs value : Text}
    (h : (first separator c cs).1 = .node (.text value)) (hmem : d ∈ c :: cs)
    (hd : isLiteral separator d = false) : d ∈ (first separator c cs).2 := by
  have hc : isLiteral separator c = true := ((sound_first separator c cs).text value h).1
  rw [first_of_isLiteral hc]
  have hcs : d ∈ cs := by
    rcases List.mem_cons.1 hmem with rfl | hcs
    · rw [hc] at hd
      cases hd
    · exact hcs
  rw [← cs.takeWhile_append_dropWhile (p := isLiteral separator), List.mem_append] at hcs
  refine hcs.resolve_left fun htake => ?_
  rw [List.all_eq_true.1 List.all_takeWhile d htake] at hd
  cases hd

/-- A character that is not literal leaves a node that is not a text, or a group still open. -/
theorem invariant_not_all_isText : Invariant separator fun stack nodes input =>
    stack ≠ [] ∨ nodes.all isText = false ∨ ∃ c ∈ input, isLiteral separator c = false := by
  refine ⟨fun {stack nodes c cs node} h hnode => ?_, fun _ _ => by simp,
    fun _ _ => by simp [isText]⟩
  rcases h with hstack | htext | ⟨d, hmem, hd⟩
  · exact Or.inl hstack
  · exact Or.inr (Or.inl (by simp [htext]))
  · cases node with
    | text value => exact Or.inr (Or.inr ⟨d, mem_rest_of_text hnode hmem hd, hd⟩)
    | param name | wildcard name | group inner => exact Or.inr (Or.inl (by simp [isText]))

/-- The segments that are read as text are those of literal characters. -/
theorem all_isText_iff_literal (h : parse separator t = .ok nodes) :
    nodes.all isText = true ↔ ∀ c ∈ t, isLiteral separator c = true := by
  constructor
  · intro htext
    by_contra hnot
    have hstart : ∃ c ∈ t, isLiteral separator c = false := by simpa using hnot
    have hread := invariant_not_all_isText.parse (Or.inr (Or.inr hstart)) h
    simp [htext] at hread
  · intro hliteral
    by_cases hne : t = []
    · subst hne
      obtain rfl : [] = nodes := by simpa [parse, lex_nil, assemble] using h
      rfl
    · obtain rfl := Except.ok.inj ((parse_of_literals hne hliteral).symm.trans h)
      rfl

/-- Only behind a brace there is something to rewrite, and a brace is not literal. -/
theorem normalizeSplats_literal_iff :
    (∀ c ∈ normalizeSplats t, isLiteral separator c = true) ↔
      ∀ c ∈ t, isLiteral separator c = true := by
  by_cases hopen : '{' ∈ t
  · have hbrace : isLiteral separator '{' = false := by cases separator <;> decide
    have hsplats := brace_mem_normalizeSplats hopen
    constructor
    · intro hall
      simpa [hbrace] using hall '{' hsplats
    · intro hall
      simpa [hbrace] using hall '{' hopen
  · rw [normalizeSplats_eq_self hopen]

/-- The characters that an atom adds to a shape, separators apart. -/
def atomWeight (atom : Atom) : Nat :=
  atom.shape.countP (· != '/')

def weight (atoms : List Atom) : Nat :=
  (atoms.map atomWeight).sum

theorem countP_shape (atoms : List Atom) :
    (Variant.shape atoms).countP (· != '/') = weight atoms := by
  rw [Variant.shape, countP_rooted rfl, List.countP_flatMap]
  rfl

/-- The form with no group taken. -/
def bareForm : List Node → List Atom
  | [] => []
  | .text value :: rest => .text value :: bareForm rest
  | .param name :: rest => .param name :: bareForm rest
  | .wildcard name :: rest => .wildcard name :: bareForm rest
  | .group _ :: rest => bareForm rest

theorem chosenForm_empty (nodes : List Node) : chosenForm nodes ∅ = bareForm nodes := by
  induction nodes with
  | nil => simp [chosenForm, bareForm]
  | cons node rest ih => cases node <;> simp [chosenForm, bareForm, ih]

theorem atomWeight_pos_of_literal {value : Text} (hne : value ≠ [])
    (h : ∀ c ∈ value, isLiteral false c = true) : 0 < atomWeight (.text value) := by
  obtain ⟨c, hc⟩ := List.exists_mem_of_ne_nil value hne
  have hslash : c ≠ '/' := by
    rintro rfl
    exact absurd (h '/' hc) (by decide)
  exact List.countP_pos_iff.2 ⟨c, hc, by simpa using hslash⟩

/-- The full form has something, and more than the bare form if there is a group. -/
structure FullFormWeighs (nodes : List Node) : Prop where
  pos : nodes ≠ [] → 0 < weight (fullForm nodes)
  bare_le : weight (bareForm nodes) ≤ weight (fullForm nodes)
  bare_lt : nodes.any isGroup = true → weight (bareForm nodes) < weight (fullForm nodes)

theorem FullFormWeighs.cons {node : Node} {atom : Atom} {rest : List Node}
    (h : FullFormWeighs rest) (hpos : 0 < atomWeight atom) (hgroup : isGroup node = false)
    (hbare : bareForm (node :: rest) = atom :: bareForm rest)
    (hfull : fullForm (node :: rest) = atom :: fullForm rest) :
    FullFormWeighs (node :: rest) := by
  refine ⟨fun _ => ?_, ?_, fun hany => ?_⟩ <;> rw [hfull]
  · simp [weight, hpos]
  · simpa [hbare, weight] using h.bare_le
  · simpa [hbare, weight] using h.bare_lt (by simpa [hgroup] using hany)

theorem WellFormed.fullFormWeighs (h : WellFormed false nodes) : FullFormWeighs nodes := by
  induction nodes using fullForm.induct with
  | case1 => exact ⟨by simp, by simp [bareForm, fullForm], by simp⟩
  | case2 value rest ih =>
    simp only [WellFormed] at h
    exact (ih h.2.2.2).cons (atomWeight_pos_of_literal h.1 h.2.1) rfl
      (by rw [bareForm]) (by rw [fullForm])
  | case3 name rest ih =>
    simp only [WellFormed] at h
    exact (ih h.2).cons (show 0 < atomWeight (.param name) from Nat.one_pos) rfl
      (by rw [bareForm]) (by rw [fullForm])
  | case4 name rest ih =>
    simp only [WellFormed] at h
    exact (ih h.2).cons (show 0 < atomWeight (.wildcard name) from Nat.one_pos) rfl
      (by rw [bareForm]) (by rw [fullForm])
  | case5 inner rest ihInner ihRest =>
    simp only [WellFormed] at h
    have hinner := (ihInner h.2.1).pos h.1
    have hrest := (ihRest h.2.2).bare_le
    have hlt : weight (bareForm (.group inner :: rest)) <
        weight (fullForm (.group inner :: rest)) := by
      simp only [bareForm, fullForm, weight, List.map_append, List.sum_append] at hinner hrest ⊢
      omega
    exact ⟨fun _ => Nat.zero_lt_of_lt hlt, hlt.le, fun _ => hlt⟩

theorem weight_lead (nodes : List Node) :
    weight (bareForm (lead nodes)) = weight (bareForm nodes) ∧
      weight (fullForm (lead nodes)) = weight (fullForm nodes) := by
  unfold lead
  split <;> simp [bareForm, fullForm, weight, atomWeight, Atom.shape]

/-- The separator of a segment weighs nothing. -/
theorem weight_withSeparator (nodes : List Node) :
    weight (bareForm (withSeparator nodes)) = weight (bareForm nodes) ∧
      weight (fullForm (withSeparator nodes)) = weight (fullForm nodes) := by
  unfold withSeparator
  split
  · next inner rest =>
    have hinner := (weight_lead inner).2
    simp only [weight] at hinner
    simp [bareForm, fullForm, weight, hinner]
  · exact weight_lead nodes

/-- If all choices have one shape there is no group: to take all of them would weigh more than to
take none. -/
theorem no_group_of_one_shape (hwf : WellFormed false nodes)
    (h : ∀ a b, IsChoice (withSeparator nodes) a → IsChoice (withSeparator nodes) b →
      Choice.shape (withSeparator nodes) a = Choice.shape (withSeparator nodes) b) :
    nodes.any isGroup = false := by
  obtain ⟨full, hfull, hform⟩ := exists_choice_fullForm (withSeparator nodes)
  have hweight := congrArg (List.countP (· != '/')) (h ∅ full (.empty _) hfull)
  rw [Choice.shape, Choice.shape, countP_shape, countP_shape, hform, chosenForm_empty,
    (weight_withSeparator nodes).1, (weight_withSeparator nodes).2] at hweight
  by_contra hgroup
  have hlt := hwf.fullFormWeighs.bare_lt (by simpa using hgroup)
  omega

theorem names_readBack_withSeparator (h : names nodes = []) :
    names (readBack (withSeparator nodes)) = [] := by
  rw [← List.length_eq_zero_iff, length_names_readBack, names_withSeparator, h, List.length_nil]

/-- A segment, read back from its piece of the pattern, binds no parameter exactly if it has no
name. -/
theorem no_params_iff (hwf : WellFormed false nodes) (declared : List Text) :
    (∀ k ∈ Choice.survivors declared (readBack (withSeparator nodes)),
        (Choice.variant (readBack (withSeparator nodes)) k).params = []) ↔ names nodes = [] := by
  constructor
  · intro h
    -- the choice of all groups has a survivor that binds as many names
    obtain ⟨all, hall, hnames⟩ := exists_choice_of_all_names (readBack (withSeparator nodes))
    obtain ⟨k, hk, hshape, -⟩ := Choice.exists_survivor hall
    have hlength := length_chosenNames_of_shape_eq hwf.withSeparator.readBack.unmarked hshape
    have hnone : chosenNames (readBack (withSeparator nodes)) k = [] := h k hk
    rw [hnone, hnames, length_names_readBack, names_withSeparator] at hlength
    exact List.length_eq_zero_iff.1 hlength.symm
  · intro h k _
    have hsublist := chosenNames_sublist (readBack (withSeparator nodes)) k
    rw [names_readBack_withSeparator h] at hsublist
    exact List.sublist_nil.1 hsublist

theorem survivors_text (declared : List Text) (value : Text) :
    Choice.survivors declared [.text value] = [Choice.join none ∅] := by
  simp [Choice.survivors, enumerate, Variant.Candidate.keepBy]

/-- It has one variant and no parameters exactly if it is text and nothing else. -/
theorem one_variant_iff (hwf : WellFormed false nodes) (declared : List Text) :
    (∃ v, (Choice.survivors declared (readBack (withSeparator nodes))).map
        (Choice.variant (readBack (withSeparator nodes))) = [v] ∧ v.params = []) ↔
      nodes.all isText = true := by
  constructor
  · rintro ⟨v, hv, hparams⟩
    obtain ⟨k, hk, rfl⟩ := List.map_eq_singleton_iff.1 hv
    have hnames : names nodes = [] :=
      (no_params_iff hwf declared).1 fun other hother => by
        rw [hk, List.mem_singleton] at hother
        rw [hother, hparams]
    have hseparated : separated (withSeparator nodes) = true := by
      apply separated_of_names_readBack
      rw [names_readBack_withSeparator hnames, names_withSeparator, hnames]
    rw [readBack_of_separated hwf.withSeparator hseparated] at hk
    refine all_isText_iff.2 ⟨hnames, no_group_of_one_shape hwf fun a b ha hb => ?_⟩
    have hrepresent := Choice.represent_survivors declared (withSeparator nodes)
    obtain ⟨first, hfirst, hfirstShape⟩ := hrepresent.complete a ha
    obtain ⟨second, hsecond, hsecondShape⟩ := hrepresent.complete b hb
    rw [hk, List.mem_singleton] at hfirst hsecond
    rw [← hfirstShape, ← hsecondShape, hfirst, hsecond]
  · intro htext
    obtain ⟨value, hvalue⟩ : ∃ value, readBack (withSeparator nodes) = [.text value] := by
      rcases hwf.eq_of_all_isText htext with rfl | ⟨value, rfl⟩ <;>
        simp [withSeparator, lead, readBack]
    rw [hvalue, survivors_text]
    exact ⟨_, rfl, by simp [Choice.variant, Variant.ofAtoms, chosenForm, Atom.name?]⟩

end Node

namespace Token

open Node

variable {segment : Text} {token : Token}

/-- The variants of a token on its own are those of its nodes, as they come back. -/
theorem expand_ofTokens_singleton {nodes : List Node} (hwf : WellFormed false nodes) :
    ∃ declared expansion, (Pattern.ofTokens [ofNodes segment nodes]).expand = .ok expansion ∧
      expansion.variants = (Choice.survivors declared (readBack (withSeparator nodes))).map
        (Choice.variant (readBack (withSeparator nodes))) := by
  have hread : Node.parse true (ofNodes segment nodes).pattern =
      .ok (readBack (withSeparator nodes)) := by
    rw [ofNodes, renderSegment_eq]
    exact parse_render hwf.withSeparator
  have hnodes : (Pattern.ofTokens [ofNodes segment nodes]).tokenNodes =
      .ok [readBack (withSeparator nodes)] := mapM_eq_ok_iff.2 (.cons hread .nil)
  refine ⟨(Pattern.ofTokens [ofNodes segment nodes]).declared, _, Pattern.expand_eq hnodes, ?_⟩
  rw [List.flatten_singleton]

/-- What the kind of a token says of the segment with these nodes, and of its expansion. -/
structure Classified (segment : Text) (token : Token) (nodes : List Node) (expansion : Expansion) :
    Prop where
  isStatic : token.isStatic = true ↔
    (∃ value, texts nodes = [value]) ∧ ∀ v ∈ expansion.variants, v.params = []
  counted : ∀ name, (Specificity.ofTokens name [token]).statics = if token.isStatic then 1 else 0
  oneVariant : (∃ v, expansion.variants = [v] ∧ v.params = []) ↔
    ∀ c ∈ segment, Lexeme.isLiteral false c = true
  isLiteral : segment ≠ [] → ((∀ c ∈ segment, Lexeme.isLiteral false c = true) ↔
    token.isStatic = true ∧ nodes.any isGroup = false)

/-- A token is static exactly if its segment has one text outside of all groups and no variant binds
a parameter. The segment is literal text exactly if there is one variant and no parameter, and that
is to say that the token is static and there is no group. -/
theorem compile_classified (h : compile segment = .ok token) :
    ∃ nodes expansion, Node.parse false (normalizeSplats segment) = .ok nodes ∧
      (Pattern.ofTokens [token]).expand = .ok expansion ∧
        Classified segment token nodes expansion := by
  obtain ⟨nodes, hnodes, rfl⟩ := compile_eq_ok_iff.1 h
  have hwf := wellFormed_of_parse hnodes
  obtain ⟨declared, expansion, hexpand, hvariants⟩ := expand_ofTokens_singleton hwf
  have hliteral : nodes.all isText = true ↔ ∀ c ∈ segment, Lexeme.isLiteral false c = true :=
    (all_isText_iff_literal hnodes).trans normalizeSplats_literal_iff
  refine ⟨nodes, expansion, hnodes, hexpand, ?_, fun name => ?_, ?_, fun hne => ?_⟩
  · rw [isStatic_ofNodes_iff, hvariants, List.forall_mem_map, no_params_iff hwf]
  · simp [Specificity.ofTokens, List.countP_cons]
  · rw [hvariants, one_variant_iff hwf, hliteral]
  · rw [← hliteral, all_isText_iff, isStatic_ofNodes_iff]
    constructor
    · rintro ⟨hnames, hgroup⟩
      obtain rfl | ⟨value, rfl⟩ := hwf.eq_of_all_isText (all_isText_iff.2 ⟨hnames, hgroup⟩)
      · exact absurd rfl (ne_nil_of_parse (normalizeSplats_ne_nil hne) hnodes)
      · exact ⟨⟨⟨value, rfl⟩, hnames⟩, hgroup⟩
    · rintro ⟨⟨-, hnames⟩, hgroup⟩
      exact ⟨hnames, hgroup⟩

/-- The groups of `v{1}{-b{2}}` hold text only. -/
theorem compile_classified_of_text_in_groups :
    ∃ token expansion, compile "v{1}{-b{2}}".toList = .ok token ∧ token.isStatic = true ∧
      (Pattern.ofTokens [token]).expand = .ok expansion ∧
        ∀ v ∈ expansion.variants, v.params = [] := by
  have hcompile : compile "v{1}{-b{2}}".toList = .ok (ofNodes "v{1}{-b{2}}".toList
      [.text ['v'], .group [.text ['1']], .group [.text "-b".toList, .group [.text ['2']]]]) := by
    cbv
  have hstatic : (ofNodes "v{1}{-b{2}}".toList [.text ['v'], .group [.text ['1']],
      .group [.text "-b".toList, .group [.text ['2']]]]).isStatic = true := by cbv
  obtain ⟨nodes, expansion, -, hexpand, hclassified⟩ := compile_classified hcompile
  exact ⟨_, expansion, hcompile, hstatic, hexpand, (hclassified.isStatic.1 hstatic).2⟩

/-- A token is static with a group of text, though its segment is not literal and it has more than
one variant. -/
theorem static_with_two_variants :
    ∃ token expansion, compile "about{x}".toList = .ok token ∧
      (Pattern.ofTokens [token]).expand = .ok expansion ∧
      expansion.variants = [⟨"/about".toList, []⟩, ⟨"/aboutx".toList, []⟩] ∧
      ¬ (token.isStatic = true ↔ ∀ c ∈ "about{x}".toList, Lexeme.isLiteral false c = true) ∧
      ¬ (token.isStatic = true ↔ ∃ v, expansion.variants = [v] ∧ v.params = []) := by
  have hcompile : compile "about{x}".toList =
      .ok (ofNodes "about{x}".toList [.text "about".toList, .group [.text ['x']]]) := by cbv
  have hstatic : (ofNodes "about{x}".toList
      [.text "about".toList, .group [.text ['x']]]).isStatic = true := by cbv
  have hexpand : (Pattern.ofTokens [ofNodes "about{x}".toList
      [.text "about".toList, .group [.text ['x']]]]).expand =
      .ok ⟨[⟨"/about".toList, []⟩, ⟨"/aboutx".toList, []⟩], 0⟩ := by cbv
  refine ⟨_, _, hcompile, hexpand, rfl, fun hiff => ?_, fun hiff => ?_⟩
  · exact absurd (hiff.1 hstatic '{' (by decide)) (by decide)
  · obtain ⟨v, hv, -⟩ := hiff.1 hstatic
    cases hv

end Token

end FileRoutes
