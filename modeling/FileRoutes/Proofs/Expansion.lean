import FileRoutes.Proofs.Pieces

/-! Expansion of compiled patterns. It never fails, as the pieces of a compiled pattern always read
back. Its variants come in the order in which their shapes turn up among all choices: a choice that
replaces another takes its place, and so gets in front of choices that were enumerated before it. A
choice is always enumerated before the same choice with one more group, but its variant comes first
only if its shape turns up first too. -/

namespace FileRoutes

namespace Variant.Candidate

variable {ι : Type} {candidate : ι → Candidate} {earlier : ι → ι → Prop} {seen kept : List ι}
  {latest : ι} {s t : String}

/-- Something of the first shape was seen before all of the second one. -/
def SeenBefore (candidate : ι → Candidate) (earlier : ι → ι → Prop) (seen : List ι)
    (s t : String) : Prop :=
  ∃ first ∈ seen, (candidate first).shape = s ∧
    ∀ other ∈ seen, (candidate other).shape = t → earlier first other

theorem SeenBefore.append (h : SeenBefore candidate earlier seen s t)
    (hlatest : ∀ s ∈ seen, earlier s latest) :
    SeenBefore candidate earlier (seen ++ [latest]) s t := by
  obtain ⟨first, hfirst, hshape, hbefore⟩ := h
  refine ⟨first, by simp [hfirst], hshape, fun other hother hsame => ?_⟩
  rcases List.mem_append.1 hother with hother | hother
  · exact hbefore other hother hsame
  · exact List.mem_singleton.1 hother ▸ hlatest first hfirst

/-- A step leaves the kept shapes in the order in which they were seen. -/
theorem Survive.seenBefore_step (h : Survive candidate earlier seen kept)
    (hlatest : ∀ s ∈ seen, earlier s latest)
    (horder : (kept.map fun k => (candidate k).shape).Pairwise (SeenBefore candidate earlier seen)) :
    ((keepBy candidate kept latest).map fun k => (candidate k).shape).Pairwise
      (SeenBefore candidate earlier (seen ++ [latest])) := by
  have hkept := horder.imp fun hbefore => hbefore.append hlatest
  rw [shapes_keepBy]
  split
  · exact hkept
  · next hnew =>
    refine List.pairwise_append.2 ⟨hkept, List.pairwise_singleton _ _, fun s hs t ht => ?_⟩
    obtain ⟨first, hfirst, rfl⟩ := List.mem_map.1 hs
    obtain rfl := List.mem_singleton.1 ht
    have hseen := h.subset first hfirst
    refine ⟨first, by simp [hseen], rfl, fun other hother hsame => ?_⟩
    rcases List.mem_append.1 hother with hother | hother
    · -- nothing of the shape of the latest was seen before
      obtain ⟨k, hk, hshape, -⟩ := h.prevail other hother
      exact absurd (List.mem_map.2 ⟨k, hk, hshape.trans hsame⟩) hnew
    · exact List.mem_singleton.1 hother ▸ hlatest first hseen

theorem seenBefore_foldl_keepBy {todo : List ι} (htodo : todo.Pairwise earlier) :
    ((todo.foldl (keepBy candidate) []).map fun k => (candidate k).shape).Pairwise
      (SeenBefore candidate earlier todo) := by
  have hrun : Survive candidate earlier todo (todo.foldl (keepBy candidate) []) ∧
      ((todo.foldl (keepBy candidate) []).map fun k => (candidate k).shape).Pairwise
        (SeenBefore candidate earlier todo) := by
    refine keepBy_induction (P := fun seen kept => Survive candidate earlier seen kept ∧
      (kept.map fun k => (candidate k).shape).Pairwise (SeenBefore candidate earlier seen))
      ⟨.all .nil, .nil⟩ (fun seen kept latest h hlatest => ?_) htodo
    exact ⟨h.1.step hlatest, h.1.seenBefore_step hlatest h.2⟩
  exact hrun.2

end Variant.Candidate

namespace Choice

/-- Some choice of the shape of the first comes before all choices of the shape of the second. -/
def ShapeEarlier (nodes : List Node) (a b : Choice) : Prop :=
  ∃ first, IsChoice nodes first ∧ shape nodes first = shape nodes a ∧
    ∀ other, IsChoice nodes other → shape nodes other = shape nodes b → Earlier nodes first other

variable {nodes : List Node} {a b a' b' : Choice}

theorem ShapeEarlier.asymm (h : ShapeEarlier nodes a b) : ¬ ShapeEarlier nodes b a := by
  rintro ⟨firstB, hfirstB, hshapeB, hbeforeB⟩
  obtain ⟨firstA, hfirstA, hshapeA, hbeforeA⟩ := h
  exact (hbeforeA firstB hfirstB hshapeB).asymm (hbeforeB firstA hfirstA hshapeA)

theorem ShapeEarlier.congr (h : ShapeEarlier nodes a b) (ha : shape nodes a = shape nodes a')
    (hb : shape nodes b = shape nodes b') : ShapeEarlier nodes a' b' := by
  rw [ShapeEarlier, ← ha, ← hb]
  exact h

/-- Survivors come in the order in which their shapes turn up. -/
theorem survivors_pairwise (declared : List Text) (nodes : List Node) :
    (survivors declared nodes).Pairwise (ShapeEarlier nodes) := by
  have horder : ((survivors declared nodes).map fun k =>
      (candidate declared nodes k).shape).Pairwise (Variant.Candidate.SeenBefore
        (candidate declared nodes) (Earlier nodes) (Node.enumerate nodes)) :=
    Variant.Candidate.seenBefore_foldl_keepBy (Node.enumerate_pairwise nodes)
  refine (List.pairwise_map.1 horder).imp fun {a b} hbefore => ?_
  obtain ⟨first, hfirst, hshape, hbefore⟩ := hbefore
  refine ⟨first, Node.mem_enumerate.1 hfirst, (shape_candidate_eq_iff declared nodes _ _).1 hshape,
    fun other hother hsame => ?_⟩
  exact hbefore other (Node.mem_enumerate.2 hother)
    ((shape_candidate_eq_iff declared nodes _ _).2 hsame)

end Choice

namespace Variant

/-- The text of a pattern less its names: behind each mark as many characters are left out as the
next name has. The number is how many are still to be left out. -/
def eraseNames : List Text → Nat → Text → Text
  | _, _, [] => []
  | names, skip + 1, _ :: t => eraseNames names skip t
  | names, 0, c :: t =>
    c :: if Node.isMark c then eraseNames names.tail (names.headD []).length t
      else eraseNames names 0 t

theorem eraseNames_length_append (names : List Text) (name t : Text) :
    eraseNames names name.length (name ++ t) = eraseNames names 0 t := by
  induction name with
  | nil => rfl
  | cons c name ih => simpa [eraseNames] using ih

theorem eraseNames_unmarked_append (names : List Text) {value : Text}
    (h : value.countP Node.isMark = 0) (t : Text) :
    eraseNames names 0 (value ++ t) = value ++ eraseNames names 0 t := by
  induction value with
  | nil => rfl
  | cons c value ih =>
    obtain ⟨hc, hvalue⟩ := List.forall_mem_cons.1 (List.countP_eq_zero.1 h)
    simp [eraseNames, hc, ih (List.countP_eq_zero.2 hvalue)]

theorem eraseNames_render {atoms : List Atom}
    (h : ∀ value, .text value ∈ atoms → value.countP Node.isMark = 0) :
    eraseNames (atoms.filterMap Atom.name?) 0 (atoms.flatMap Atom.render) =
      atoms.flatMap Atom.shape := by
  induction atoms with
  | nil => rfl
  | cons atom atoms ih =>
    have hrest := ih fun value hvalue => h value (by simp [hvalue])
    cases atom with
    | text value =>
      simp [Atom.name?, Atom.render, Atom.shape, List.filterMap_cons,
        eraseNames_unmarked_append _ (h value (by simp)), hrest]
    | param name | wildcard name =>
      simp [Atom.name?, Atom.render, Atom.shape, eraseNames, Node.isMark,
        eraseNames_length_append, hrest]

theorem rooted_cons_of_ne {c : Char} (hc : c ≠ '/') (t : Text) :
    rooted (c :: t) = '/' :: c :: t := by
  unfold rooted
  split
  · next heq => exact absurd (List.cons.inj heq).1 hc
  · rfl

theorem rooted_eraseNames (names : List Text) (t : Text) :
    rooted (eraseNames names 0 t) = eraseNames names 0 (rooted t) := by
  rcases t with - | ⟨c, t⟩
  · simp [eraseNames, rooted, Node.isMark]
  · by_cases hc : c = '/'
    · simp [hc, eraseNames, rooted]
    · rw [rooted_cons_of_ne hc, eraseNames, rooted_cons_of_ne hc]
      simp [eraseNames, Node.isMark]

end Variant

theorem Node.countP_isMark_of_mem_chosenForm {nodes : List Node} (h : unmarked nodes = true)
    {chosen : Choice} {value : Text} (hvalue : .text value ∈ chosenForm nodes chosen) :
    value.countP isMark = 0 := by
  induction nodes using names.induct generalizing chosen with
  | case1 => simp [chosenForm] at hvalue
  | case2 text rest ih =>
    simp only [unmarked, Bool.and_eq_true, beq_iff_eq] at h
    rw [chosenForm, List.mem_cons, Atom.text.injEq] at hvalue
    rcases hvalue with rfl | hvalue
    · exact h.1
    · exact ih h.2 hvalue
  | case3 name rest ih | case4 name rest ih =>
    rw [unmarked] at h
    exact ih h (by simpa [chosenForm] using hvalue)
  | case5 inner rest ihInner ihRest =>
    rw [unmarked, Bool.and_eq_true] at h
    rw [chosenForm, List.mem_append] at hvalue
    rcases hvalue with hvalue | hvalue
    · split at hvalue
      · exact ihInner h.1 hvalue
      · simp at hvalue
    · exact ihRest h.2 hvalue

namespace Choice

variable {nodes : List Node} {a b : Choice}

/-- A variant tells the shape of its choice. -/
theorem shape_eq_eraseNames (h : Node.unmarked nodes = true) (chosen : Choice) :
    shape nodes chosen =
      Variant.eraseNames (variant nodes chosen).params 0 (variant nodes chosen).pattern := by
  rw [shape, Variant.shape, variant, Variant.ofAtoms, ← Variant.rooted_eraseNames,
    Variant.eraseNames_render fun value hvalue => Node.countP_isMark_of_mem_chosenForm h hvalue]

theorem shape_eq_of_variant_eq (h : Node.unmarked nodes = true)
    (hvariant : variant nodes a = variant nodes b) : shape nodes a = shape nodes b := by
  rw [shape_eq_eraseNames h, shape_eq_eraseNames h, hvariant]

theorem shapeEarlier_of_idxOf_variant_lt (h : Node.unmarked nodes = true) {kept : List Choice}
    (hkept : kept.Pairwise (ShapeEarlier nodes))
    (ha : variant nodes a ∈ kept.map (variant nodes))
    (hb : variant nodes b ∈ kept.map (variant nodes))
    (hlt : (kept.map (variant nodes)).idxOf (variant nodes a) <
      (kept.map (variant nodes)).idxOf (variant nodes b)) : ShapeEarlier nodes a b := by
  have hlengthA := List.idxOf_lt_length_of_mem ha
  have hlengthB := List.idxOf_lt_length_of_mem hb
  have hvariantA := List.getElem_idxOf hlengthA
  have hvariantB := List.getElem_idxOf hlengthB
  rw [List.getElem_map] at hvariantA hvariantB
  rw [List.length_map] at hlengthA hlengthB
  -- the choices kept at the two places have the shapes of the given ones
  have hbefore := List.pairwise_iff_getElem.1 hkept _ _ hlengthA hlengthB hlt
  exact hbefore.congr (shape_eq_of_variant_eq h hvariantA) (shape_eq_of_variant_eq h hvariantB)

/-- Of two variants, the one whose shape turns up first comes first. -/
theorem idxOf_variant_lt_iff (h : Node.unmarked nodes = true) {kept : List Choice}
    (hkept : kept.Pairwise (ShapeEarlier nodes))
    (ha : variant nodes a ∈ kept.map (variant nodes))
    (hb : variant nodes b ∈ kept.map (variant nodes)) :
    (kept.map (variant nodes)).idxOf (variant nodes a) <
        (kept.map (variant nodes)).idxOf (variant nodes b) ↔ ShapeEarlier nodes a b := by
  refine ⟨shapeEarlier_of_idxOf_variant_lt h hkept ha hb, fun hab => ?_⟩
  rcases lt_trichotomy ((kept.map (variant nodes)).idxOf (variant nodes a))
    ((kept.map (variant nodes)).idxOf (variant nodes b)) with hlt | heq | hgt
  · exact hlt
  · have hshape := shape_eq_of_variant_eq h ((List.idxOf_inj ha).1 heq)
    exact absurd hab (hab.congr hshape hshape.symm).asymm
  · exact absurd hab (shapeEarlier_of_idxOf_variant_lt h hkept hb ha hgt).asymm

/-- A choice and the same choice with one more group, which both have a variant among those given,
not the same one. -/
structure OneGroupMore (nodes : List Node) (variants : List Variant) (a b : Choice) : Prop where
  less : IsChoice nodes a
  more : IsChoice nodes b
  group : ∃ place ∉ a, b = insert place a
  lessListed : variant nodes a ∈ variants
  moreListed : variant nodes b ∈ variants
  apart : variant nodes a ≠ variant nodes b

/-- A choice comes before the same choice with one more group. -/
theorem OneGroupMore.earlier {variants : List Variant} (h : OneGroupMore nodes variants a b) :
    Earlier nodes a b := by
  obtain ⟨place, hplace, rfl⟩ := h.group
  obtain ⟨before, after, hsplit, hbefore⟩ :=
    List.eq_append_cons_of_mem (h.more.subset place (Finset.mem_insert_self place a))
  refine ⟨before, place, after, hsplit, hplace, Finset.mem_insert_self place a,
    fun other hother => ?_⟩
  have hne : other ≠ place := fun hsame => hbefore (hsame ▸ hother)
  simp [hne]

/-- The variant of a choice comes before that of the same choice with one more group. -/
def LeastSpecificFirst (nodes : List Node) (variants : List Variant) : Prop :=
  ∀ a b, OneGroupMore nodes variants a b →
    variants.idxOf (variant nodes a) < variants.idxOf (variant nodes b)

/-- If no choice gives way to another, each has a shape of its own. -/
theorem eq_of_shape_eq {declared : List Text}
    (h : (Node.choiceSet nodes).card ≤ (survivors declared nodes).length)
    (ha : IsChoice nodes a) (hb : IsChoice nodes b) (hshape : shape nodes a = shape nodes b) :
    a = b := by
  have hall : (survivors declared nodes).toFinset = Node.choiceSet nodes := by
    apply Finset.eq_of_subset_of_card_le
    · intro chosen hchosen
      exact Node.mem_choiceSet.2 (isChoice_of_mem_survivors (List.mem_toFinset.1 hchosen))
    · rwa [List.toFinset_card_of_nodup (survivors_shapes_nodup.of_map _)]
  have hmem : ∀ chosen, IsChoice nodes chosen → chosen ∈ survivors declared nodes := by
    intro chosen hchosen
    rw [← List.mem_toFinset, hall]
    exact Node.mem_choiceSet.2 hchosen
  exact List.inj_on_of_nodup_map survivors_shapes_nodup (hmem a ha) (hmem b hb) hshape

theorem OneGroupMore.shapeEarlier_of_not_pruned {variants : List Variant} {declared : List Text}
    (h : OneGroupMore nodes variants a b)
    (hall : (Node.choiceSet nodes).card ≤ (survivors declared nodes).length) :
    ShapeEarlier nodes a b := by
  refine ⟨a, h.less, rfl, fun other hother hshape => ?_⟩
  rw [eq_of_shape_eq hall hother h.more hshape]
  exact h.earlier

theorem leastSpecificFirst_iff (h : Node.unmarked nodes = true) {kept : List Choice}
    (hkept : kept.Pairwise (ShapeEarlier nodes)) :
    LeastSpecificFirst nodes (kept.map (variant nodes)) ↔
      ∀ a b, OneGroupMore nodes (kept.map (variant nodes)) a b → ShapeEarlier nodes a b :=
  forall₂_congr fun _ _ => forall_congr' fun hmore =>
    idxOf_variant_lt_iff h hkept hmore.lessListed hmore.moreListed

end Choice

namespace Pattern

open Choice (OneGroupMore ShapeEarlier LeastSpecificFirst)

/-- The pieces of a compiled pattern always read back, and each choice is listed or gives way. -/
theorem expand_of_compile {path : Text} {p : Pattern} (h : compile path = .ok p) :
    ∃ nodes expansion, p.tokenNodes = .ok nodes ∧ (∀ tree ∈ nodes, Node.WellFormed true tree) ∧
      p.expand = .ok expansion ∧ expansion.variants ≠ [] ∧
      expansion.variants.length + expansion.pruned = (Node.choiceSet nodes.flatten).card := by
  obtain ⟨trees, htrees, rfl⟩ := compile_eq_ok_iff.1 h
  have hnodes := tokenNodes_ofTokens htrees
  refine ⟨_, _, hnodes, fun tree htree => ?_, expand_eq hnodes, ?_, ?_⟩
  · obtain ⟨source, hsource, rfl⟩ := List.mem_map.1 htree
    exact (wellFormed_trees htrees source hsource).withSeparator.readBack
  · obtain ⟨k, hk, -⟩ := Choice.exists_survivor (IsChoice.empty _)
    exact List.ne_nil_of_mem (List.mem_map_of_mem hk)
  · rw [List.length_map]
    exact Nat.add_sub_cancel' (Choice.length_survivors_le _ _)

/-- A name that runs on into text, a group in a group, a group before text and an optional splat. -/
theorem expand_of_every_kind_of_node :
    ∃ p nodes expansion, compile "[id]v/{a{:b}}c/[[...rest]]".toList = .ok p ∧
      p.tokenNodes = .ok nodes ∧ (∀ tree ∈ nodes, Node.WellFormed true tree) ∧
      p.expand = .ok expansion ∧ expansion.variants ≠ [] ∧
      expansion.variants.length + expansion.pruned = (Node.choiceSet nodes.flatten).card := by
  have hcompile : compile "[id]v/{a{:b}}c/[[...rest]]".toList = .ok (ofTokens (tokensOf
      ["[id]v".toList, "{a{:b}}c".toList, "[[...rest]]".toList]
      [[.param "id".toList, .text ['v']],
        [.group [.text ['a'], .group [.param ['b']]], .text ['c']],
        [.group [.wildcard "rest".toList]]])) := by cbv
  obtain ⟨nodes, expansion, h⟩ := expand_of_compile hcompile
  exact ⟨_, nodes, expansion, hcompile, h⟩

/-- The variants of a compiled path come least specific first exactly if, of any two choices that
differ by one group and are both listed, the shape of the smaller turns up first. So they do if no
choice gives way. -/
theorem least_specific_first_iff {path : Text} {p : Pattern} (h : compile path = .ok p) :
    ∃ nodes expansion, p.tokenNodes = .ok nodes ∧ p.expand = .ok expansion ∧
      (LeastSpecificFirst nodes.flatten expansion.variants ↔
        ∀ a b, OneGroupMore nodes.flatten expansion.variants a b →
          ShapeEarlier nodes.flatten a b) ∧
      (expansion.pruned = 0 → LeastSpecificFirst nodes.flatten expansion.variants) := by
  obtain ⟨trees, htrees, rfl⟩ := compile_eq_ok_iff.1 h
  have hnodes := tokenNodes_ofTokens htrees
  have hunmarked : Node.unmarked (Node.readTrees trees).flatten = true :=
    Node.unmarked_readTrees (wellFormed_trees htrees)
  have horder := Choice.survivors_pairwise (ofTokens (tokensOf (routeSegments path) trees)).declared
    (Node.readTrees trees).flatten
  have hiff : LeastSpecificFirst (Node.readTrees trees).flatten _ ↔ _ :=
    Choice.leastSpecificFirst_iff hunmarked horder
  refine ⟨_, _, hnodes, expand_eq hnodes, hiff, fun hpruned => hiff.2 fun a b hmore => ?_⟩
  exact hmore.shapeEarlier_of_not_pruned (Nat.sub_eq_zero_iff_le.1 hpruned)

theorem least_specific_first_of_locale :
    ∃ p nodes expansion, compile "{:lang-}docs/[[...rest]]".toList = .ok p ∧
      p.tokenNodes = .ok nodes ∧ p.expand = .ok expansion ∧
      expansion.variants.map Variant.pattern = ["/docs".toList, "/docs/*rest".toList,
        "/:lang-docs".toList, "/:lang-docs/*rest".toList] ∧
      LeastSpecificFirst nodes.flatten expansion.variants := by
  have hcompile : compile "{:lang-}docs/[[...rest]]".toList = .ok (ofTokens (tokensOf
      ["{:lang-}docs".toList, "[[...rest]]".toList]
      [[.group [.param "lang".toList, .text ['-']], .text "docs".toList],
        [.group [.wildcard "rest".toList]]])) := by cbv
  obtain ⟨nodes, expansion, hnodes, hexpand, -, hfirst⟩ := least_specific_first_iff hcompile
  have hlisted : (ofTokens (tokensOf ["{:lang-}docs".toList, "[[...rest]]".toList]
      [[.group [.param "lang".toList, .text ['-']], .text "docs".toList],
        [.group [.wildcard "rest".toList]]])).expand = .ok
      ⟨[⟨"/docs".toList, []⟩, ⟨"/docs/*rest".toList, ["rest".toList]⟩,
        ⟨"/:lang-docs".toList, ["lang".toList]⟩,
        ⟨"/:lang-docs/*rest".toList, ["lang".toList, "rest".toList]⟩], 0⟩ := by cbv
  obtain rfl := Except.ok.inj (hlisted.symm.trans hexpand)
  exact ⟨_, nodes, _, hcompile, hnodes, hexpand, rfl, hfirst rfl⟩

/-- The pattern of `{:a}{:b-}{-}`, where the first and the last group give the shape of the one
between them. -/
def overtaking : Pattern :=
  ofTokens (tokensOf ["{:a}{:b-}{-}".toList]
    [[.group [.param ['a']], .group [.param ['b'], .text ['-']], .group [.text ['-']]]])

/-- Its nodes, as they come back. -/
def overtakingNodes : List Node :=
  [.group [.text ['/'], .param ['a']], .group [.param ['b'], .text ['-']], .group [.text ['-']]]

/-- `/:a-` takes the place of `/:b-`, which was listed before `/:a`. -/
theorem more_specific_overtakes :
    compile "{:a}{:b-}{-}".toList = .ok overtaking ∧
      ∃ nodes expansion, overtaking.tokenNodes = .ok nodes ∧ overtaking.expand = .ok expansion ∧
        expansion.variants.map Variant.pattern =
          ["/".toList, "/-".toList, "/:a-".toList, "/:b--".toList, "/:a".toList, "/:a:b-".toList,
            "/:a:b--".toList] ∧
        ¬ LeastSpecificFirst nodes.flatten expansion.variants := by
  have hcompile : compile "{:a}{:b-}{-}".toList = .ok overtaking := by cbv
  have hnodes : overtaking.tokenNodes = .ok [overtakingNodes] := by cbv
  have hexpand : overtaking.expand = .ok
      ⟨[⟨"/".toList, []⟩, ⟨"/-".toList, []⟩, ⟨"/:a-".toList, [['a']]⟩, ⟨"/:b--".toList, [['b']]⟩,
        ⟨"/:a".toList, [['a']]⟩, ⟨"/:a:b-".toList, [['a'], ['b']]⟩,
        ⟨"/:a:b--".toList, [['a'], ['b']]⟩], 1⟩ := by cbv
  have hless : Choice.variant overtakingNodes {.here} = ⟨"/:a".toList, [['a']]⟩ := by
    simp [Choice.variant, Variant.ofAtoms, Node.chosenForm, overtakingNodes, Variant.rooted,
      Atom.render, Atom.name?, List.filterMap_cons]
  have hmore : Choice.variant overtakingNodes {.beyond (.beyond .here), .here} =
      ⟨"/:a-".toList, [['a']]⟩ := by
    simp [Choice.variant, Variant.ofAtoms, Node.chosenForm, overtakingNodes, Variant.rooted,
      Atom.render, Atom.name?, List.filterMap_cons]
  refine ⟨hcompile, _, _, hnodes, hexpand, rfl, fun hfirst => ?_⟩
  rw [List.flatten_singleton] at hfirst
  have hbefore := hfirst {.here} {.beyond (.beyond .here), .here}
    { less := ⟨by simp [overtakingNodes, Node.groups], by simp [GroupPlace.enclosing?]⟩
      more := ⟨by simp [overtakingNodes, Node.groups], by simp [GroupPlace.enclosing?]⟩
      group := ⟨.beyond (.beyond .here), by simp, rfl⟩
      lessListed := by rw [hless]; decide
      moreListed := by rw [hmore]; decide
      apart := by rw [hless, hmore]; decide }
  rw [hless, hmore] at hbefore
  exact absurd hbefore (by decide)

end Pattern

end FileRoutes
