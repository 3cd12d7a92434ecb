import FileRoutes.Proofs.Expansion

/-! Which variant of a shape is kept, told by places. Pruning looks up the position of a name, which
stands for the parameter at that place as long as each name is declared once and comes back as it
was declared. Then the choice that is kept is the one whose parameters stand first. A name that is
declared again counts as its last declaration, and one that took in text behind it comes after all
others; then another choice can be kept. -/

namespace FileRoutes

namespace Node

/-- The places of the parameters that a choice binds, counted from the left over all nodes, groups
that are left out included. -/
def occurrences : Nat → List Node → Choice → List Nat
  | _, [], _ => []
  | start, .text _ :: rest, chosen => occurrences start rest chosen.later
  | start, .param _ :: rest, chosen => start :: occurrences (start + 1) rest chosen.later
  | start, .wildcard _ :: rest, chosen => start :: occurrences (start + 1) rest chosen.later
  | start, .group inner :: rest, chosen =>
    (if .here ∈ chosen then occurrences start inner chosen.inner else []) ++
      occurrences (start + (names inner).length) rest chosen.later

/-- The names of the parameters around the nodes do not count. -/
theorem names_at_occurrences_between (nodes : List Node) (chosen : Choice)
    (before after : List Text) :
    List.Forall₂ (fun i name => (before ++ names nodes ++ after)[i]? = some name)
      (occurrences before.length nodes chosen) (chosenNames nodes chosen) := by
  induction nodes using names.induct generalizing chosen before after with
  | case1 => simp [occurrences]
  | case2 value rest ih => simpa [occurrences, names] using ih chosen.later before after
  | case3 name rest ih | case4 name rest ih =>
    have hrest := ih chosen.later (before ++ [name]) after
    rw [List.length_append, List.length_singleton] at hrest
    simp only [occurrences, names, chosenNames_param, chosenNames_wildcard]
    exact .cons (by simp) (by simpa using hrest)
  | case5 inner rest ihInner ihRest =>
    have hrest := ihRest chosen.later (before ++ names inner) after
    rw [List.length_append] at hrest
    rw [occurrences, chosenNames_group, names]
    refine List.rel_append ?_ (by simpa using hrest)
    split
    · simpa using ihInner chosen.inner before (names rest ++ after)
    · exact .nil

/-- A choice binds the names at its places. -/
theorem names_at_occurrences (nodes : List Node) (chosen : Choice) :
    List.Forall₂ (fun i name => (names nodes)[i]? = some name) (occurrences 0 nodes chosen)
      (chosenNames nodes chosen) := by
  simpa using names_at_occurrences_between nodes chosen [] []

theorem chosenNames_eq_of_occurrences_eq {nodes : List Node} {a b : Choice}
    (h : occurrences 0 nodes a = occurrences 0 nodes b) :
    chosenNames nodes a = chosenNames nodes b := by
  have hunique : Relator.RightUnique fun (i : Nat) name => (names nodes)[i]? = some name :=
    fun _ _ _ hfirst hsecond => Option.some.inj (hfirst.symm.trans hsecond)
  exact List.right_unique_forall₂' hunique (names_at_occurrences nodes a)
    (h ▸ names_at_occurrences nodes b)

/-- A name as it comes back, with characters from the text behind it. -/
def ReadOn (declared read : Text) : Prop :=
  ∃ more, read = ParamName.sanitize (declared ++ more)

theorem readOn_readBack (nodes : List Node) :
    List.Forall₂ ReadOn (names nodes) (names (readBack nodes)) := by
  induction nodes using readBack.induct with
  | case1 => simp [readBack, names]
  | case2 value rest ih => simpa only [readBack, names] using ih
  | case3 name rest ih | case4 name rest ih =>
    simp only [readBack, absorb, names, names_remainder]
    exact .cons ⟨_, rfl⟩ ih
  | case5 inner rest ihInner ihRest =>
    simp only [readBack, names]
    exact List.rel_append ihInner ihRest

theorem readOn_readTrees (trees : List (List Node)) :
    List.Forall₂ ReadOn (names trees.flatten) (names (readTrees trees).flatten) := by
  induction trees with
  | nil => simp [readTrees, names]
  | cons nodes trees ih =>
    have hhead := readOn_readBack (withSeparator nodes)
    rw [names_withSeparator] at hhead
    rw [readTrees, List.map_cons, List.flatten_cons, List.flatten_cons, names_append, names_append]
    exact List.rel_append hhead ih

end Node

namespace Variant

theorem lastIndex_of_nodup {declared : List Text} {name : Text} {i : Nat}
    (hnodup : declared.Nodup) (h : declared[i]? = some name) : lastIndex declared name = i := by
  obtain ⟨hi, hname⟩ := List.getElem?_eq_some_iff.1 h
  have hother : (List.range declared.length).filter (fun j => declared[j]? == some name) =
      (List.range declared.length).filter (· == i) := by
    refine List.filter_congr fun j hj => ?_
    rw [List.mem_range] at hj
    rw [List.getElem?_eq_getElem hj, ← hname, Bool.eq_iff_iff]
    simp [hnodup.getElem_inj_iff]
  rw [lastIndex, lastIndex?, hother, List.filter_beq, List.count_range]
  simp [hi]

/-- A shape with names put in behind its marks. -/
def insertNames : List Text → Text → Text
  | _, [] => []
  | names, c :: t =>
    c :: if Node.isMark c then names.headD [] ++ insertNames names.tail t else insertNames names t

theorem insertNames_unmarked_append (names : List Text) {value : Text}
    (h : value.countP Node.isMark = 0) (t : Text) :
    insertNames names (value ++ t) = value ++ insertNames names t := by
  induction value with
  | nil => rfl
  | cons c value ih =>
    obtain ⟨hc, hvalue⟩ := List.forall_mem_cons.1 (List.countP_eq_zero.1 h)
    simp [insertNames, hc, ih (List.countP_eq_zero.2 hvalue)]

theorem insertNames_shape {atoms : List Atom}
    (h : ∀ value, .text value ∈ atoms → value.countP Node.isMark = 0) :
    insertNames (atoms.filterMap Atom.name?) (atoms.flatMap Atom.shape) =
      atoms.flatMap Atom.render := by
  induction atoms with
  | nil => rfl
  | cons atom atoms ih =>
    have hrest := ih fun value hvalue => h value (by simp [hvalue])
    cases atom with
    | text value =>
      simp [Atom.name?, Atom.render, Atom.shape, List.filterMap_cons,
        insertNames_unmarked_append _ (h value (by simp)), hrest]
    | param name | wildcard name =>
      simp [Atom.name?, Atom.render, Atom.shape, insertNames, Node.isMark, hrest]

theorem rooted_insertNames (names : List Text) (t : Text) :
    rooted (insertNames names t) = insertNames names (rooted t) := by
  rcases t with - | ⟨c, t⟩
  · simp [insertNames, rooted, Node.isMark]
  · by_cases hc : c = '/'
    · simp [hc, insertNames, rooted]
    · rw [rooted_cons_of_ne hc, insertNames, rooted_cons_of_ne hc]
      simp [insertNames, Node.isMark]

end Variant

namespace Choice

open Node

variable {nodes : List Node} {declared : List Text} {a b k : Choice}

theorem variant_eq_insertNames (h : unmarked nodes = true) (chosen : Choice) :
    variant nodes chosen = ⟨Variant.insertNames (chosenNames nodes chosen) (shape nodes chosen),
      chosenNames nodes chosen⟩ := by
  rw [shape, Variant.shape, ← Variant.rooted_insertNames, chosenNames,
    Variant.insertNames_shape fun value hvalue => countP_isMark_of_mem_chosenForm h hvalue]
  rfl

theorem variant_eq_of_occurrences_eq (h : unmarked nodes = true)
    (hshape : shape nodes a = shape nodes b)
    (hsame : occurrences 0 nodes a = occurrences 0 nodes b) :
    variant nodes a = variant nodes b := by
  rw [variant_eq_insertNames h a, variant_eq_insertNames h b, hshape,
    chosenNames_eq_of_occurrences_eq hsame]

/-- The places that a choice binds come first among the choices of its shape. -/
structure Earliest (nodes : List Node) (a : Choice) : Prop where
  isChoice : IsChoice nodes a
  le : ∀ b, IsChoice nodes b → shape nodes b = shape nodes a →
    occurrences 0 nodes a ≤ occurrences 0 nodes b

theorem exists_earliest (h : IsChoice nodes b) :
    ∃ a, Earliest nodes a ∧ shape nodes a = shape nodes b := by
  have hb : b ∈ (choiceSet nodes).filter fun a => shape nodes a = shape nodes b :=
    Finset.mem_filter.2 ⟨mem_choiceSet.2 h, rfl⟩
  obtain ⟨a, ha, hle⟩ := Finset.exists_min_image _ (occurrences 0 nodes) ⟨b, hb⟩
  obtain ⟨ha, hshape⟩ := Finset.mem_filter.1 ha
  refine ⟨a, ⟨mem_choiceSet.1 ha, fun other hother hsame => ?_⟩, hshape⟩
  exact hle other (Finset.mem_filter.2 ⟨mem_choiceSet.2 hother, hsame.trans hshape⟩)

/-- Of each shape the variant of the choice with the earliest places is listed, and no other. -/
def EarliestKept (nodes : List Node) (variants : List Variant) : Prop :=
  ∀ a, Earliest nodes a → ∀ b, IsChoice nodes b → shape nodes b = shape nodes a →
    (variant nodes b ∈ variants ↔ variant nodes b = variant nodes a)

theorem Prevails.binding_le (h : Prevails declared nodes a b) :
    binding declared nodes a ≤ binding declared nodes b := by
  rcases h with hless | ⟨hsame, -⟩
  · exact hless.le
  · exact hsame.le

theorem Prevails.antisymm (h : Prevails declared nodes a b) (hback : Prevails declared nodes b a) :
    a = b := by
  rcases h with hless | ⟨hsame, rfl | hearlier⟩
  · exact absurd hless (not_lt.2 hback.binding_le)
  · rfl
  · rcases hback with hless | ⟨-, rfl | hlater⟩
    · exact absurd hless (hsame ▸ lt_irrefl _)
    · rfl
    · exact absurd hlater hearlier.asymm

/-- A choice that prevails over all of its shape. -/
structure Wins (declared : List Text) (nodes : List Node) (k : Choice) : Prop where
  isChoice : IsChoice nodes k
  prevails : ∀ a, IsChoice nodes a → shape nodes a = shape nodes k → Prevails declared nodes k a

theorem mem_survivors_iff : k ∈ survivors declared nodes ↔ Wins declared nodes k := by
  constructor
  · intro h
    exact ⟨isChoice_of_mem_survivors h, (represent_survivors declared nodes).prevails k h⟩
  · intro h
    obtain ⟨survivor, hsurvivor, hshape, hprevails⟩ := exists_survivor h.isChoice
    have hback := h.prevails survivor (isChoice_of_mem_survivors hsurvivor) hshape
    exact hprevails.antisymm hback ▸ hsurvivor

/-- Two survivors never have one shape, so it is enough that the variant is listed. -/
theorem earliestKept_iff (h : unmarked nodes = true) :
    EarliestKept nodes ((survivors declared nodes).map (variant nodes)) ↔
      ∀ a, Earliest nodes a → ∃ k, Wins declared nodes k ∧ variant nodes k = variant nodes a := by
  simp only [EarliestKept, ← mem_survivors_iff, ← List.mem_map]
  refine forall₂_congr fun a ha => ⟨fun hkept => (hkept a ha.isChoice rfl).2 rfl,
    fun hlisted b _ hshape => ⟨fun hmem => ?_, fun hsame => hsame ▸ hlisted⟩⟩
  obtain ⟨k, hk, hka⟩ := List.mem_map.1 hlisted
  obtain ⟨other, hother, hotherb⟩ := List.mem_map.1 hmem
  have hsame : other = k := by
    refine List.inj_on_of_nodup_map survivors_shapes_nodup hother hk ?_
    rw [shape_eq_of_variant_eq h hotherb, hshape, shape_eq_of_variant_eq h hka]
  rw [← hotherb, hsame, hka]

theorem earliestKept_of_not_pruned (h : unmarked nodes = true)
    (hall : (choiceSet nodes).card ≤ (survivors declared nodes).length) :
    EarliestKept nodes ((survivors declared nodes).map (variant nodes)) := by
  refine (earliestKept_iff h).2 fun a ha => ?_
  obtain ⟨k, hk, hshape, -⟩ := exists_survivor ha.isChoice
  exact ⟨k, mem_survivors_iff.1 hk,
    congrArg _ (eq_of_shape_eq hall (isChoice_of_mem_survivors hk) ha.isChoice hshape)⟩

/-- If each name is declared once, its position is its place. -/
theorem binding_eq_occurrences (hnodup : (names nodes).Nodup) (a : Choice) :
    binding (names nodes) nodes a = occurrences 0 nodes a := by
  have hsame : List.Forall₂ (· = ·) (occurrences 0 nodes a)
      ((chosenNames nodes a).map (Variant.lastIndex (names nodes))) :=
    List.forall₂_map_right_iff.2 ((names_at_occurrences nodes a).imp fun _ _ hname =>
      (Variant.lastIndex_of_nodup hnodup hname).symm)
  rw [List.forall₂_eq_eq_eq] at hsame
  exact hsame.symm

theorem earliestKept_of_nodup (h : unmarked nodes = true) (hnodup : (names nodes).Nodup) :
    EarliestKept nodes ((survivors (names nodes) nodes).map (variant nodes)) := by
  refine (earliestKept_iff h).2 fun a ha => ?_
  obtain ⟨k, hk, hshape, hprevails⟩ : ∃ k ∈ survivors (names nodes) nodes,
      shape nodes k = shape nodes a ∧ Prevails (names nodes) nodes k a :=
    exists_survivor ha.isChoice
  -- the survivor binds no later than the earliest choice, and so the same places
  have hle := hprevails.binding_le
  rw [binding_eq_occurrences hnodup, binding_eq_occurrences hnodup] at hle
  have hsame := le_antisymm hle (ha.le k (isChoice_of_mem_survivors hk) hshape)
  exact ⟨k, mem_survivors_iff.1 hk, variant_eq_of_occurrences_eq h hshape hsame⟩

end Choice

namespace Pattern

open Choice (Earliest EarliestKept)

/-- The variants of a compiled path are those of the choices that bind the earliest places exactly
if each of these has the variant of a choice that prevails over all of its shape. So they are if no
choice gives way, or if no name is declared twice and all come back as they were declared. -/
theorem earliest_binding_kept_iff {path : Text} {p : Pattern} (h : compile path = .ok p) :
    ∃ nodes expansion, p.tokenNodes = .ok nodes ∧ p.expand = .ok expansion ∧
      List.Forall₂ Node.ReadOn p.declared (Node.names nodes.flatten) ∧
      (∀ b, IsChoice nodes.flatten b → ∃ a, Earliest nodes.flatten a ∧
        Choice.shape nodes.flatten a = Choice.shape nodes.flatten b) ∧
      (EarliestKept nodes.flatten expansion.variants ↔
        ∀ a, Earliest nodes.flatten a → ∃ k, Choice.Wins p.declared nodes.flatten k ∧
          Choice.variant nodes.flatten k = Choice.variant nodes.flatten a) ∧
      (expansion.pruned = 0 → EarliestKept nodes.flatten expansion.variants) ∧
      (Node.names nodes.flatten = p.declared → p.declared.Nodup →
        EarliestKept nodes.flatten expansion.variants) := by
  obtain ⟨trees, htrees, rfl⟩ := compile_eq_ok_iff.1 h
  have hnodes := tokenNodes_ofTokens htrees
  have hunmarked : Node.unmarked (Node.readTrees trees).flatten = true :=
    Node.unmarked_readTrees (wellFormed_trees htrees)
  refine ⟨_, _, hnodes, expand_eq hnodes, ?_, fun b hb => Choice.exists_earliest hb,
    Choice.earliestKept_iff hunmarked, fun hpruned => ?_, fun hnames hnodup => ?_⟩
  · rw [declared_ofTokens htrees]
    exact Node.readOn_readTrees trees
  · exact Choice.earliestKept_of_not_pruned hunmarked (Nat.sub_eq_zero_iff_le.1 hpruned)
  · rw [← hnames] at hnodup ⊢
    exact Choice.earliestKept_of_nodup hunmarked hnodup

/-- Of the two choices of one optional parameter, the one that takes the first is kept. -/
theorem earliest_binding_kept_of_two_optionals :
    compile "[[a]]/[[b]]".toList = .ok twoOptionals ∧ ∃ nodes expansion,
      twoOptionals.tokenNodes = .ok nodes ∧ twoOptionals.expand = .ok expansion ∧
        expansion.variants.map Variant.pattern = ["/".toList, "/:a".toList, "/:a/:b".toList] ∧
        EarliestKept nodes.flatten expansion.variants := by
  have hcompile : compile "[[a]]/[[b]]".toList = .ok twoOptionals := by cbv
  have hnodes : twoOptionals.tokenNodes =
      .ok [[.group [.text ['/'], .param ['a']]], [.group [.text ['/'], .param ['b']]]] := by cbv
  have hexpand : twoOptionals.expand = .ok
      ⟨[⟨"/".toList, []⟩, ⟨"/:a".toList, [['a']]⟩, ⟨"/:a/:b".toList, [['a'], ['b']]⟩], 1⟩ := by cbv
  have hdeclared : twoOptionals.declared = [['a'], ['b']] := by cbv
  obtain ⟨nodes, expansion, hread, hlisted, -, -, -, -, hkept⟩ :=
    earliest_binding_kept_iff hcompile
  obtain rfl := Except.ok.inj (hnodes.symm.trans hread)
  obtain rfl := Except.ok.inj (hexpand.symm.trans hlisted)
  rw [hdeclared] at hkept
  exact ⟨hcompile, _, _, hnodes, hexpand, rfl, hkept (by cbv) (by decide)⟩

/-- The pattern of `[[a]]/[[b]]/[[a]]`. -/
def declaredAgain : Pattern :=
  ofTokens (tokensOf ["[[a]]".toList, "[[b]]".toList, "[[a]]".toList]
    [[.group [.param ['a']]], [.group [.param ['b']]], [.group [.param ['a']]]])

/-- Its nodes, as they come back. -/
def declaredAgainNodes : List (List Node) :=
  [[.group [.text ['/'], .param ['a']]], [.group [.text ['/'], .param ['b']]],
    [.group [.text ['/'], .param ['a']]]]

/-- No list of one place comes before that of the first. -/
theorem earliest_first_optional : Earliest declaredAgainNodes.flatten {.here} := by
  have hplaces : Node.occurrences 0 declaredAgainNodes.flatten {.here} = [0] := by
    simp [Node.occurrences, declaredAgainNodes]
  refine ⟨⟨by simp [declaredAgainNodes, Node.groups], by simp [GroupPlace.enclosing?]⟩,
    fun b _ hshape => ?_⟩
  have hlength := Node.length_chosenNames_of_shape_eq (by cbv) hshape
  rw [← (Node.names_at_occurrences _ _).length_eq, ← (Node.names_at_occurrences _ _).length_eq,
    hplaces] at hlength
  obtain ⟨place, hplace⟩ := List.length_eq_one_iff.1 hlength
  rw [hplaces, hplace]
  rcases place.eq_zero_or_pos with rfl | hpos
  · exact le_rfl
  · exact (List.cons_lt_cons_iff.2 (Or.inl hpos)).le

/-- The name `a` counts as its last declaration, so `b` is taken to stand before it. -/
theorem last_declaration_counts :
    compile "[[a]]/[[b]]/[[a]]".toList = .ok declaredAgain ∧ ∃ nodes expansion,
      declaredAgain.tokenNodes = .ok nodes ∧ declaredAgain.expand = .ok expansion ∧
        expansion.variants.map Variant.pattern =
          ["/".toList, "/:b".toList, "/:b/:a".toList, "/:a/:b/:a".toList] ∧
        ¬ EarliestKept nodes.flatten expansion.variants := by
  have hcompile : compile "[[a]]/[[b]]/[[a]]".toList = .ok declaredAgain := by cbv
  have hnodes : declaredAgain.tokenNodes = .ok declaredAgainNodes := by cbv
  have hexpand : declaredAgain.expand = .ok
      ⟨[⟨"/".toList, []⟩, ⟨"/:b".toList, [['b']]⟩, ⟨"/:b/:a".toList, [['b'], ['a']]⟩,
        ⟨"/:a/:b/:a".toList, [['a'], ['b'], ['a']]⟩], 4⟩ := by cbv
  have hfirst : Choice.variant declaredAgainNodes.flatten {.here} = ⟨"/:a".toList, [['a']]⟩ := by
    simp [Choice.variant, Variant.ofAtoms, Node.chosenForm, declaredAgainNodes, Variant.rooted,
      Atom.render, Atom.name?, List.filterMap_cons]
  refine ⟨hcompile, _, _, hnodes, hexpand, rfl, fun hkept => ?_⟩
  have hlisted := (hkept {.here} earliest_first_optional {.here}
    earliest_first_optional.isChoice rfl).2 rfl
  rw [hfirst] at hlisted
  exact absurd hlisted (by decide)

end Pattern

end FileRoutes
