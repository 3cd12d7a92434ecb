import FileRoutes.Proofs.CompiledPattern
import FileRoutes.Proofs.Survivor

/-! Which parameters a variant binds. The form of a choice names parameters of its nodes only, in
their order, and always those outside of all groups. So the variants of a compiled pattern agree
with its declared parameters as long as the names come back from the pieces of the pattern as they
were declared, and only then: taking all groups binds as many parameters as are declared, and the
variant that survives for its shape binds as many. -/

namespace FileRoutes

namespace Node

/-- The names that a choice binds. -/
def chosenNames (nodes : List Node) (chosen : Choice) : List Text :=
  (chosenForm nodes chosen).filterMap Atom.name?

variable (rest inner : List Node) (chosen : Choice)

@[simp] theorem chosenNames_nil : chosenNames [] chosen = [] := by
  simp [chosenNames, chosenForm]

@[simp] theorem chosenNames_text (value : Text) :
    chosenNames (.text value :: rest) chosen = chosenNames rest chosen.later := by
  simp [chosenNames, chosenForm, List.filterMap_cons, Atom.name?]

@[simp] theorem chosenNames_param (name : Text) :
    chosenNames (.param name :: rest) chosen = name :: chosenNames rest chosen.later := by
  simp [chosenNames, chosenForm, Atom.name?]

@[simp] theorem chosenNames_wildcard (name : Text) :
    chosenNames (.wildcard name :: rest) chosen = name :: chosenNames rest chosen.later := by
  simp [chosenNames, chosenForm, Atom.name?]

@[simp] theorem chosenNames_group :
    chosenNames (.group inner :: rest) chosen =
      (if .here ∈ chosen then chosenNames inner chosen.inner else []) ++
        chosenNames rest chosen.later := by
  simp only [chosenNames, chosenForm, List.filterMap_append]
  split <;> rfl

theorem chosenNames_sublist (nodes : List Node) (chosen : Choice) :
    (chosenNames nodes chosen).Sublist (names nodes) := by
  induction nodes using names.induct generalizing chosen with
  | case1 => simp
  | case2 value rest ih => simpa [names] using ih chosen.later
  | case3 name rest ih | case4 name rest ih => simpa [names] using ih chosen.later
  | case5 inner rest ihInner ihRest =>
    rw [chosenNames_group, names]
    refine List.Sublist.append ?_ (ihRest chosen.later)
    split
    · exact ihInner chosen.inner
    · simp

/-- No choice leaves out a parameter that stands outside of all groups. -/
theorem mem_chosenNames_of_param_mem {nodes : List Node} {name : Text} (h : .param name ∈ nodes)
    (chosen : Choice) : name ∈ chosenNames nodes chosen := by
  induction nodes generalizing chosen with
  | nil => simp at h
  | cons node rest ih =>
    rcases List.mem_cons.1 h with rfl | h
    · simp
    · have hrest := ih h chosen.later
      cases node <;> simp [hrest]

/-- The form with all groups taken. -/
def fullForm : List Node → List Atom
  | [] => []
  | .text value :: rest => .text value :: fullForm rest
  | .param name :: rest => .param name :: fullForm rest
  | .wildcard name :: rest => .wildcard name :: fullForm rest
  | .group inner :: rest => fullForm inner ++ fullForm rest

theorem exists_choice_fullForm (nodes : List Node) :
    ∃ chosen, IsChoice nodes chosen ∧ chosenForm nodes chosen = fullForm nodes := by
  induction nodes using fullForm.induct with
  | case1 => exact ⟨∅, IsChoice.nil_iff.2 rfl, by simp [chosenForm, fullForm]⟩
  | case2 _ rest ih | case3 _ rest ih | case4 _ rest ih =>
    obtain ⟨chosen, hchoice, hform⟩ := ih
    refine ⟨Choice.join none chosen, (IsChoice.iff_of_no_group (by simp [groups])).2
      ⟨chosen, hchoice, rfl⟩, ?_⟩
    simp [chosenForm, fullForm, Choice.later_join, hform]
  | case5 inner rest ihInner ihRest =>
    obtain ⟨head, hhead, hheadForm⟩ := ihInner
    obtain ⟨later, hlater, hlaterForm⟩ := ihRest
    refine ⟨Choice.join (some head) later, .join (by simpa using hhead) hlater, ?_⟩
    simp [chosenForm, fullForm, Choice.later_join, Choice.inner_join, hheadForm, hlaterForm]

theorem names_fullForm (nodes : List Node) : (fullForm nodes).filterMap Atom.name? = names nodes := by
  induction nodes using fullForm.induct with
  | case1 => simp [fullForm, names]
  | case2 _ rest ih | case3 _ rest ih | case4 _ rest ih =>
    simp [fullForm, names, List.filterMap_cons, Atom.name?, ih]
  | case5 inner rest ihInner ihRest => simp [fullForm, names, ihInner, ihRest]

/-- Taking all groups binds all names. -/
theorem exists_choice_of_all_names (nodes : List Node) :
    ∃ chosen, IsChoice nodes chosen ∧ chosenNames nodes chosen = names nodes := by
  obtain ⟨chosen, hchoice, hform⟩ := exists_choice_fullForm nodes
  exact ⟨chosen, hchoice, by rw [chosenNames, hform, names_fullForm]⟩

/-- A character that a shape has in place of a name. -/
def isMark (c : Char) : Bool :=
  c == ':' || c == '*'

/-- No text holds a mark. -/
def unmarked : List Node → Bool
  | [] => true
  | .text value :: rest => value.countP isMark == 0 && unmarked rest
  | .param _ :: rest => unmarked rest
  | .wildcard _ :: rest => unmarked rest
  | .group inner :: rest => unmarked inner && unmarked rest

theorem countP_isMark_of_literal {separator : Bool} {value : Text}
    (h : ∀ c ∈ value, Lexeme.isLiteral separator c = true) : value.countP isMark = 0 := by
  apply List.countP_eq_zero.2
  intro c hc
  obtain ⟨⟨_, _, _, _, hcolon, hstar⟩, _⟩ := Lexeme.isLiteral_iff.1 (h c hc)
  simp [isMark, hcolon, hstar]

theorem WellFormed.unmarked {separator : Bool} {nodes : List Node}
    (h : WellFormed separator nodes) : unmarked nodes = true := by
  induction nodes using names.induct with
  | case1 => simp [Node.unmarked]
  | case2 value rest ih =>
    simp only [WellFormed] at h
    simp [Node.unmarked, countP_isMark_of_literal h.2.1, ih h.2.2.2]
  | case3 name rest ih | case4 name rest ih =>
    simp only [WellFormed] at h
    simp [Node.unmarked, ih h.2]
  | case5 inner rest ihInner ihRest =>
    simp only [WellFormed] at h
    simp [Node.unmarked, ihInner h.2.1, ihRest h.2.2]

theorem unmarked_append (first second : List Node) :
    unmarked (first ++ second) = (unmarked first && unmarked second) := by
  induction first with
  | nil => simp [unmarked]
  | cons node rest ih => cases node <;> simp [unmarked, ih, Bool.and_assoc]

theorem unmarked_flatten {trees : List (List Node)}
    (h : ∀ nodes ∈ trees, unmarked nodes = true) : unmarked trees.flatten = true := by
  induction trees with
  | nil => simp [unmarked]
  | cons nodes trees ih =>
    rw [List.flatten_cons, unmarked_append, h nodes (by simp), ih fun t ht => h t (by simp [ht])]
    rfl

/-- A shape shows how many names a choice binds. -/
theorem countP_isMark_chosenForm {nodes : List Node} (h : unmarked nodes = true)
    (chosen : Choice) :
    ((chosenForm nodes chosen).flatMap Atom.shape).countP isMark =
      (chosenNames nodes chosen).length := by
  induction nodes using names.induct generalizing chosen with
  | case1 => simp [chosenForm]
  | case2 value rest ih =>
    simp only [unmarked, Bool.and_eq_true, beq_iff_eq] at h
    simp [chosenForm, Atom.shape, h.1, ih h.2]
  | case3 name rest ih | case4 name rest ih =>
    rw [unmarked] at h
    simp [chosenForm, Atom.shape, isMark, ih h]
  | case5 inner rest ihInner ihRest =>
    rw [unmarked, Bool.and_eq_true] at h
    simp only [chosenForm, List.flatMap_append, List.countP_append, chosenNames_group,
      List.length_append, ihRest h.2]
    split
    · rw [ihInner h.1]
    · simp

/-- The separator that an address may lack does not count. -/
theorem countP_rooted {p : Char → Bool} (hslash : p '/' = false) (t : Text) :
    (Variant.rooted t).countP p = t.countP p := by
  unfold Variant.rooted
  split <;> simp [hslash]

theorem length_chosenNames_of_shape_eq {nodes : List Node} (h : unmarked nodes = true)
    {a b : Choice} (hshape : Choice.shape nodes a = Choice.shape nodes b) :
    (chosenNames nodes a).length = (chosenNames nodes b).length := by
  have hcount := congrArg (List.countP isMark) hshape
  have hslash : isMark '/' = false := rfl
  simpa only [Choice.shape, Variant.shape, countP_rooted hslash, countP_isMark_chosenForm h]
    using hcount

/-- The nodes of segments as they come back from the pieces of the pattern. -/
def readTrees (trees : List (List Node)) : List (List Node) :=
  trees.map fun nodes => readBack (withSeparator nodes)

theorem unmarked_readTrees {trees : List (List Node)}
    (h : ∀ nodes ∈ trees, WellFormed false nodes) :
    unmarked (readTrees trees).flatten = true := by
  apply unmarked_flatten
  intro nodes hnodes
  obtain ⟨tree, htree, rfl⟩ := List.mem_map.1 hnodes
  exact (wellFormed_of_parse (parse_render (h tree htree).withSeparator)).unmarked

theorem readTrees_of_separated {trees : List (List Node)}
    (h : ∀ nodes ∈ trees, WellFormed false nodes)
    (hseparated : ∀ nodes ∈ trees, separated nodes = true) :
    readTrees trees = trees.map withSeparator := by
  apply List.map_congr_left
  intro nodes hnodes
  apply readBack_of_separated (h nodes hnodes).withSeparator
  rw [separated_withSeparator, hseparated nodes hnodes]

theorem names_map_withSeparator (trees : List (List Node)) :
    names (trees.map withSeparator).flatten = names trees.flatten := by
  simp only [names_flatten, List.flatMap_map, names_withSeparator]

/-- If all names come back, they do so segment by segment. -/
theorem separated_of_names_readTrees {trees : List (List Node)}
    (h : names (readTrees trees).flatten = names trees.flatten) :
    ∀ nodes ∈ trees, separated nodes = true := by
  induction trees with
  | nil => simp
  | cons nodes trees ih =>
    simp only [readTrees, List.map_cons, List.flatten_cons, names_append] at h
    have hlength : (names (readBack (withSeparator nodes))).length = (names nodes).length := by
      rw [length_names_readBack, names_withSeparator]
    obtain ⟨hhead, hrest⟩ := List.append_inj h hlength
    rw [← names_withSeparator nodes] at hhead
    intro tree htree
    rcases List.mem_cons.1 htree with rfl | htree
    · rw [← separated_withSeparator]
      exact separated_of_names_readBack hhead
    · exact ih hrest tree htree

theorem param_mem_withSeparator {nodes : List Node} {name : Text} (h : .param name ∈ nodes) :
    .param name ∈ withSeparator nodes := by
  unfold withSeparator lead
  split
  · simpa using h
  · split <;> simpa using h

end Node

namespace Part

theorem names_ofNodes (grouped : Bool) (nodes : List Node) :
    ((ofNodes grouped nodes).filterMap param?).map Prod.fst = Node.names nodes := by
  induction nodes using Node.names.induct generalizing grouped with
  | case1 => simp [ofNodes, Node.names]
  | case2 value rest ih =>
    simp only [ofNodes, Node.names]
    split <;> simp [param?, List.filterMap_cons, ih]
  | case3 name rest ih | case4 name rest ih => simp [ofNodes, Node.names, param?, ih]
  | case5 inner rest ihInner ihRest => simp [ofNodes, Node.names, ihInner, ihRest]

theorem not_required_of_grouped (nodes : List Node) (name : Text) :
    .param name .required ∉ ofNodes true nodes := by
  induction nodes using Node.names.induct with
  | case1 => simp [ofNodes]
  | case2 value rest ih => simp [ofNodes, ih]
  | case3 name rest ih | case4 name rest ih => simp [ofNodes, ih]
  | case5 inner rest ihInner ihRest => simp [ofNodes, ihInner, ihRest]

/-- The required parameters are those outside of all groups. -/
theorem required_mem_ofNodes_iff {nodes : List Node} {name : Text} :
    .param name .required ∈ ofNodes false nodes ↔ .param name ∈ nodes := by
  induction nodes with
  | nil => simp [ofNodes]
  | cons node rest ih => cases node <;> simp [ofNodes, ih, not_required_of_grouped]

theorem mem_filterMap_param? {parts : List Part} {name : Text} {kind : ParamKind} :
    (name, kind) ∈ parts.filterMap param? ↔ .param name kind ∈ parts := by
  simp only [List.mem_filterMap]
  constructor
  · rintro ⟨part, hpart, heq⟩
    cases part with
    | static value => simp [param?] at heq
    | param other otherKind =>
      simp only [param?, Option.some.injEq, Prod.mk.injEq] at heq
      rwa [← heq.1, ← heq.2]
  · exact fun h => ⟨_, h, rfl⟩

end Part

/-- The parameters that a variant binds are among the declared ones, in their order, and no required
one is left out. -/
structure Variant.Agrees (v : Variant) (params : List (Text × ParamKind)) : Prop where
  sublist : v.params.Sublist (params.map Prod.fst)
  required : ∀ name, (name, .required) ∈ params → name ∈ v.params

namespace Pattern

variable {segments : List Text} {trees : List (List Node)}

theorem params_ofTokens (h : List.Forall₂ ParsedSegment segments trees) :
    (ofTokens (tokensOf segments trees)).params =
      trees.flatMap fun nodes => (Part.ofNodes false nodes).filterMap Part.param? := by
  simp only [params, ofTokens]
  induction h with
  | nil => rfl
  | cons _ _ ih =>
    simp only [tokensOf, List.zipWith_cons_cons, List.flatMap_cons] at ih ⊢
    rw [ih]
    rfl

theorem declared_ofTokens (h : List.Forall₂ ParsedSegment segments trees) :
    (ofTokens (tokensOf segments trees)).declared = Node.names trees.flatten := by
  rw [declared, params_ofTokens h, Node.names_flatten, List.map_flatMap]
  simp only [Part.names_ofNodes]

theorem required_mem_params_iff (h : List.Forall₂ ParsedSegment segments trees) {name : Text} :
    (name, .required) ∈ (ofTokens (tokensOf segments trees)).params ↔
      ∃ nodes ∈ trees, .param name ∈ nodes := by
  simp only [params_ofTokens h, List.mem_flatMap, Part.mem_filterMap_param?,
    Part.required_mem_ofNodes_iff]

theorem wellFormed_trees (h : List.Forall₂ ParsedSegment segments trees) :
    ∀ nodes ∈ trees, Node.WellFormed false nodes := by
  induction h with
  | nil => simp
  | cons hhead _ ih =>
    intro nodes hnodes
    rcases List.mem_cons.1 hnodes with rfl | hnodes
    · exact hhead.wellFormed
    · exact ih nodes hnodes

/-- Where no name runs on into text, each choice binds declared parameters in their order, and all
that are required. -/
theorem agrees_of_separated (h : List.Forall₂ ParsedSegment segments trees)
    (hseparated : ∀ nodes ∈ trees, Node.separated nodes = true) (chosen : Choice) :
    (Choice.variant (Node.readTrees trees).flatten chosen).Agrees
      (ofTokens (tokensOf segments trees)).params := by
  have hread := Node.readTrees_of_separated (wellFormed_trees h) hseparated
  have hnames : Node.names (Node.readTrees trees).flatten =
      (ofTokens (tokensOf segments trees)).declared := by
    rw [hread, Node.names_map_withSeparator, declared_ofTokens h]
  refine ⟨?_, fun name hname => ?_⟩
  · have hsublist := Node.chosenNames_sublist (Node.readTrees trees).flatten chosen
    rw [hnames] at hsublist
    exact hsublist
  · obtain ⟨nodes, hnodes, hmem⟩ := (required_mem_params_iff h).1 hname
    refine Node.mem_chosenNames_of_param_mem ?_ chosen
    rw [hread]
    exact List.mem_flatten.2 ⟨_, List.mem_map_of_mem hnodes, Node.param_mem_withSeparator hmem⟩

/-- If the survivors bind declared parameters only, the names came back as they were declared. -/
theorem separated_of_agree (h : List.Forall₂ ParsedSegment segments trees)
    (hagree : ∀ k ∈ Choice.survivors (ofTokens (tokensOf segments trees)).declared
        (Node.readTrees trees).flatten,
      (Node.chosenNames (Node.readTrees trees).flatten k).Sublist
        (ofTokens (tokensOf segments trees)).declared) :
    ∀ nodes ∈ trees, Node.separated nodes = true := by
  obtain ⟨all, hall, hallNames⟩ := Node.exists_choice_of_all_names (Node.readTrees trees).flatten
  obtain ⟨k, hk, hshape, _⟩ := Choice.exists_survivor hall
  have hunmarked := Node.unmarked_readTrees (wellFormed_trees h)
  have hlength := Node.length_chosenNames_of_shape_eq hunmarked hshape
  rw [hallNames] at hlength
  have hread : Node.chosenNames (Node.readTrees trees).flatten k =
      Node.names (Node.readTrees trees).flatten :=
    (Node.chosenNames_sublist _ k).eq_of_length hlength
  have hsublist := hagree k hk
  rw [declared_ofTokens h] at hsublist
  have hcount : (Node.names (Node.readTrees trees).flatten).length =
      (Node.names trees.flatten).length := by
    simp only [Node.readTrees, Node.names_flatten, List.flatMap_map, List.length_flatMap,
      Node.length_names_readBack, Node.names_withSeparator]
  apply Node.separated_of_names_readTrees
  rw [← hread]
  exact hsublist.eq_of_length (hlength.trans hcount)

/-- What holds of the trees of all segments holds of all trees. -/
theorem forall_parse_iff (h : List.Forall₂ ParsedSegment segments trees)
    {P : List Node → Prop} :
    (∀ segment ∈ segments, ∀ nodes,
        Node.parse false (Node.normalizeSplats segment) = .ok nodes → P nodes) ↔
      ∀ nodes ∈ trees, P nodes := by
  induction h with
  | nil => simp
  | @cons segment nodes segments trees hhead _ ih =>
    rw [List.forall_mem_cons, List.forall_mem_cons, ih, hhead.2]
    simp

/-- The variants of a compiled path agree with its declared parameters exactly if in no segment a
name runs on into the text behind it. -/
theorem variants_agree_iff {path : Text} {p : Pattern} (h : compile path = .ok p) :
    ∃ expansion, p.expand = .ok expansion ∧
      ((∀ v ∈ expansion.variants, v.Agrees p.params) ↔
        ∀ segment ∈ routeSegments path, ∀ nodes,
          Node.parse false (Node.normalizeSplats segment) = .ok nodes →
            Node.separated nodes = true) := by
  obtain ⟨trees, htrees, rfl⟩ := compile_eq_ok_iff.1 h
  refine ⟨_, expand_eq (tokenNodes_ofTokens htrees), ?_⟩
  rw [forall_parse_iff htrees]
  constructor
  · intro hagree
    apply separated_of_agree htrees
    intro k hk
    exact (hagree _ (List.mem_map_of_mem hk)).sublist
  · intro hseparated v hv
    obtain ⟨k, _, rfl⟩ := List.mem_map.1 hv
    exact agrees_of_separated htrees hseparated k

/-- No name has a dash in it, so the dash ends the name before it. -/
theorem variants_agree_before_dash :
    ∃ p expansion, compile "[[a]]/[b]-c".toList = .ok p ∧ p.expand = .ok expansion ∧
      ∀ v ∈ expansion.variants, v.Agrees p.params := by
  have hcompile : compile "[[a]]/[b]-c".toList = .ok (ofTokens (tokensOf
      ["[[a]]".toList, "[b]-c".toList]
      [[.group [.param ['a']]], [.param ['b'], .text ['-', 'c']]])) := by cbv
  have hsegments : routeSegments "[[a]]/[b]-c".toList = ["[[a]]".toList, "[b]-c".toList] := by cbv
  have hfirst : Node.parse false (Node.normalizeSplats "[[a]]".toList) =
      .ok [.group [.param ['a']]] := by cbv
  have hsecond : Node.parse false (Node.normalizeSplats "[b]-c".toList) =
      .ok [.param ['b'], .text ['-', 'c']] := by cbv
  obtain ⟨expansion, hexpand, hagree⟩ := variants_agree_iff hcompile
  refine ⟨_, expansion, hcompile, hexpand, hagree.2 fun segment hsegment nodes hnodes => ?_⟩
  rw [hsegments, List.mem_pair] at hsegment
  rcases hsegment with rfl | rfl
  · obtain rfl := Except.ok.inj (hfirst.symm.trans hnodes)
    cbv
  · obtain rfl := Except.ok.inj (hsecond.symm.trans hnodes)
    cbv

/-- The pattern of `[a]b`, where the name runs on into the text. -/
def textAfterName : Pattern :=
  ofTokens (tokensOf ["[a]b".toList] [[.param ['a'], .text ['b']]])

theorem variants_disagree_on_text_after_name :
    compile "[a]b".toList = .ok textAfterName ∧
      ∃ expansion, textAfterName.expand = .ok expansion ∧
        ∃ v ∈ expansion.variants, ¬ v.Agrees textAfterName.params := by
  have hcompile : compile "[a]b".toList = .ok textAfterName := by cbv
  have hexpand : textAfterName.expand = .ok ⟨[⟨"/:ab".toList, ["ab".toList]⟩], 0⟩ := by cbv
  have hparams : textAfterName.params = [(['a'], .required)] := by cbv
  refine ⟨hcompile, _, hexpand, _, List.mem_singleton_self _, fun hagree => ?_⟩
  have hsublist : ["ab".toList].Sublist [['a']] := by simpa [hparams] using hagree.sublist
  exact absurd hsublist (by decide)

end Pattern

end FileRoutes
