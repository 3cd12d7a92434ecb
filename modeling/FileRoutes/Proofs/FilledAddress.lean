import FileRoutes.Proofs.Boundary
import FileRoutes.Proofs.Grammar
import Mathlib

/-! Whether the address of a variant has empty segments. Reading an address from the left it is
enough to know where the last separator stands, and names do not matter for that. A segment can
leave nothing but its separator behind if it opens with a group and both this group and what follows
it are made of groups only. Next to another segment that is an empty segment, on its own it is the
root. -/

namespace FileRoutes

namespace Text

/-- The address is the root, or it starts with a separator, and none of its separators stands before
another or at the end. -/
def NoEmptySegments (address : Text) : Prop :=
  address.head? = some '/' ∧
    (address = ['/'] ∨ ¬ ['/', '/'] <:+: address ∧ address.getLast? ≠ some '/')

instance (address : Text) : Decidable address.NoEmptySegments :=
  inferInstanceAs (Decidable (_ ∧ _))

end Text

/-- What is known of an address that is read up to some place: nothing is read, or the separator of
the root, or the last character is in a segment or a separator, or there was an empty segment. -/
inductive Scan where
  | start
  | root
  | inside
  | separator
  | empty
deriving DecidableEq, Repr

namespace Scan

def step (scan : Scan) (c : Char) : Scan :=
  match scan with
  | .empty => .empty
  | .start => if c = '/' then .root else .inside
  | .inside => if c = '/' then .separator else .inside
  | .root | .separator => if c = '/' then .empty else .inside

def read (scan : Scan) (t : Text) : Scan :=
  t.foldl step scan

/-- An address may end here. -/
def fits : Scan → Bool
  | .start | .root | .inside => true
  | .separator | .empty => false

/-- What was read when the scan is at this place. -/
def Describes : Scan → Text → Prop
  | .start, t => t = []
  | .root, t => t = ['/']
  | .inside, t => t ≠ [] ∧ t.getLast? ≠ some '/' ∧ ¬ ['/', '/'] <:+: t
  | .separator, t => t ≠ [] ∧ t ≠ ['/'] ∧ t.getLast? = some '/' ∧ ¬ ['/', '/'] <:+: t
  | .empty, t => ['/', '/'] <:+: t

theorem doubled_concat_iff {t : Text} {c : Char} :
    ['/', '/'] <:+: t ++ [c] ↔ ['/', '/'] <:+: t ∨ t.getLast? = some '/' ∧ c = '/' := by
  have hsuffix : ['/', '/'] <:+ t ++ [c] ↔ t.getLast? = some '/' ∧ c = '/' := by
    rw [List.suffix_concat_iff, ← List.singleton_suffix_iff_getLast?_eq_some]
    constructor
    · rintro (hnil | ⟨before, hsplit, hbefore⟩)
      · cases hnil
      · have hlengths : ['/'] ++ ['/'] = before ++ [c] := hsplit
        obtain ⟨rfl, hc⟩ := List.append_inj' hlengths rfl
        exact ⟨hbefore, (List.singleton_inj.1 hc).symm⟩
    · rintro ⟨hbefore, rfl⟩
      exact Or.inr ⟨['/'], rfl, hbefore⟩
  rw [List.infix_concat_iff, hsuffix, or_comm]

theorem describes_step {scan : Scan} {t : Text} (h : scan.Describes t) (c : Char) :
    (scan.step c).Describes (t ++ [c]) := by
  cases scan with
  | start =>
    obtain rfl : t = [] := h
    by_cases hc : c = '/' <;> simp [step, Describes, List.infix_cons_iff, hc]
  | root =>
    obtain rfl : t = ['/'] := h
    rcases eq_or_ne c '/' with rfl | hc
    · simp [step, Describes]
    · simp [step, Describes, List.infix_cons_iff, hc, Ne.symm hc]
  | inside | separator =>
    by_cases hc : c = '/' <;> simp_all [step, Describes, doubled_concat_iff]
  | empty => exact doubled_concat_iff.2 (Or.inl h)

theorem describes_read (t : Text) : (start.read t).Describes t := by
  induction t using List.reverseRecOn with
  | nil => rfl
  | append_singleton t c ih =>
    rw [read, List.foldl_append]
    exact describes_step ih c

theorem noEmptySegments_iff {t : Text} (h : t.head? = some '/') :
    t.NoEmptySegments ↔ (start.read t).fits = true := by
  have hread := describes_read t
  have hroot : ¬ ['/', '/'] <:+: ['/'] := fun hdoubled => by simpa using hdoubled.length_le
  cases hscan : start.read t with
  | start | root | inside | separator => simp_all [Text.NoEmptySegments, Describes, fits]
  | empty =>
    rw [hscan] at hread
    have hne : t ≠ ['/'] := by
      rintro rfl
      exact hroot hread
    have hdoubled : ['/', '/'] <:+: t := hread
    simp [Text.NoEmptySegments, fits, hne, hdoubled]

variable {scan : Scan} {t text : Text}

theorem read_append (scan : Scan) (s t : Text) : scan.read (s ++ t) = (scan.read s).read t :=
  List.foldl_append

@[simp] theorem read_nil (scan : Scan) : scan.read [] = scan := rfl

@[simp] theorem read_cons (scan : Scan) (c : Char) (t : Text) :
    scan.read (c :: t) = (scan.step c).read t := rfl

theorem read_empty (t : Text) : empty.read t = .empty := by
  induction t with
  | nil => rfl
  | cons c t ih => exact ih

theorem step_of_ne {c : Char} (hc : c ≠ '/') :
    scan.step c = if scan = .empty then .empty else .inside := by
  cases scan <;> simp [step, hc]

/-- Text of a segment leads into the segment, from wherever it starts. -/
theorem read_text (hslash : '/' ∉ text) (hne : text ≠ []) :
    scan.read text = if scan = .empty then .empty else .inside := by
  induction text generalizing scan with
  | nil => exact absurd rfl hne
  | cons c text ih =>
    rw [List.mem_cons, not_or] at hslash
    rw [read_cons, step_of_ne (Ne.symm hslash.1)]
    cases text with
    | nil => rfl
    | cons d text =>
      rw [ih hslash.2 (by simp)]
      split <;> simp

/-- The first separator of an address may be missing. -/
theorem fits_read_rooted (t : Text) :
    (start.read (Variant.rooted t)).fits = (start.read t).fits := by
  unfold Variant.rooted
  split
  · rfl
  · next hslash =>
    cases t with
    | nil => rfl
    | cons c t =>
      have hc : c ≠ '/' := by
        rintro rfl
        exact hslash t rfl
      simp [step, hc]

/-- A name leads no further than the mark in front of it. -/
theorem read_render {atom : Atom} (h : ∀ name ∈ atom.name?, '/' ∉ name) :
    scan.read atom.render = scan.read atom.shape := by
  cases atom with
  | text value => rfl
  | param name | wildcard name =>
    have hname : '/' ∉ name := h name rfl
    rw [Atom.render, Atom.shape, read_cons, read_cons, step_of_ne (by decide), read_nil]
    by_cases hne : name = []
    · rw [hne, read_nil]
    · rw [read_text hname hne]
      split <;> simp

theorem read_flatMap_render {atoms : List Atom}
    (h : ∀ name ∈ atoms.filterMap Atom.name?, '/' ∉ name) :
    scan.read (atoms.flatMap Atom.render) = scan.read (atoms.flatMap Atom.shape) := by
  induction atoms generalizing scan with
  | nil => rfl
  | cons atom atoms ih =>
    have hatom : ∀ name ∈ atom.name?, '/' ∉ name := fun name hname =>
      h name (List.mem_filterMap.2 ⟨atom, by simp, hname⟩)
    have hatoms : ∀ name ∈ atoms.filterMap Atom.name?, '/' ∉ name := by
      intro name hname
      obtain ⟨other, hother, hsome⟩ := List.mem_filterMap.1 hname
      exact h name (List.mem_filterMap.2 ⟨other, by simp [hother], hsome⟩)
    rw [List.flatMap_cons, List.flatMap_cons, read_append, read_append, read_render hatom,
      ih hatoms]

/-- A second separator right behind the first is an empty segment. -/
theorem step_step_separator (scan : Scan) : (scan.step '/').step '/' = .empty := by
  cases scan <;> rfl

/-- Reading is at the start of an address, or inside a segment. -/
def IsOpen (scan : Scan) : Prop :=
  scan = .start ∨ scan = .inside

theorem IsOpen.read_text (h : scan.IsOpen) (hslash : '/' ∉ text) : (scan.read text).IsOpen := by
  by_cases hne : text = []
  · rwa [hne, read_nil]
  · rw [Scan.read_text hslash hne]
    rcases h with rfl | rfl <;> exact Or.inr rfl

end Scan

namespace Node

/-- What a segment adds to an address is text, behind a separator or not, but no separator alone. -/
def Filled (piece : Text) : Prop :=
  '/' ∉ piece ∨ ∃ text, text ≠ [] ∧ '/' ∉ text ∧ piece = '/' :: text

theorem Filled.read {piece : Text} (h : Filled piece) {scan : Scan} (hscan : scan.IsOpen) :
    (scan.read piece).IsOpen := by
  rcases h with hslash | ⟨text, hne, hslash, rfl⟩
  · exact hscan.read_text hslash
  · rw [Scan.read_cons, Scan.read_text hslash hne]
    rcases hscan with rfl | rfl <;> exact Or.inr rfl

theorem isOpen_read_flatten {pieces : List Text} (h : ∀ piece ∈ pieces, Filled piece)
    {scan : Scan} (hscan : scan.IsOpen) : (scan.read pieces.flatten).IsOpen := by
  induction pieces generalizing scan with
  | nil => exact hscan
  | cons piece pieces ih =>
    rw [List.flatten_cons, Scan.read_append]
    exact ih (fun p hp => h p (by simp [hp])) ((h piece (by simp)).read hscan)

def isGroup : Node → Bool
  | .group _ => true
  | _ => false

/-- The segment opens with a group, and there is nothing but groups in this group and behind it. -/
def isHollow : List Node → Bool
  | .group inner :: rest => inner.all isGroup && rest.all isGroup
  | _ => false

variable {nodes : List Node} {separator : Bool}

theorem all_isGroup_readBack (nodes : List Node) :
    (readBack nodes).all isGroup = nodes.all isGroup := by
  induction nodes using readBack.induct with
  | case1 => rw [readBack]
  | case2 value rest ih => simp [readBack, isGroup]
  | case3 name rest ih | case4 name rest ih => simp [readBack, absorb, isGroup]
  | case5 inner rest ihInner ihRest => simp [readBack, isGroup, ihRest]

theorem isHollow_readBack (nodes : List Node) : isHollow (readBack nodes) = isHollow nodes := by
  cases nodes with
  | nil => rw [readBack]
  | cons node rest =>
    cases node with
    | group inner => simp only [readBack, isHollow, all_isGroup_readBack]
    | text value | param name | wildcard name => simp [readBack, absorb, isHollow]

theorem formText_empty_of_all_isGroup (h : nodes.all isGroup = true) : formText nodes ∅ = [] := by
  induction nodes with
  | nil => exact formText_nil ∅
  | cons node rest ih =>
    rw [List.all_cons, Bool.and_eq_true] at h
    cases node with
    | group inner => rw [formText_group, if_neg (by simp), Choice.later_empty, ih h.2, List.nil_append]
    | text value | param name | wildcard name => cases h.1

/-- What stands outside of all groups is in every form. -/
theorem WellFormed.formText_ne_nil (h : WellFormed separator nodes)
    (hgroups : nodes.all isGroup = false) (chosen : Choice) : formText nodes chosen ≠ [] := by
  induction nodes generalizing chosen with
  | nil => cases hgroups
  | cons node rest ih =>
    cases node with
    | text value =>
      simp only [WellFormed] at h
      simp [h.1]
    | param name | wildcard name => simp
    | group inner =>
      simp only [WellFormed] at h
      simp [ih h.2.2 (by simpa [isGroup] using hgroups)]

/-- A segment that is not hollow never leaves a separator alone. -/
theorem WellFormed.filled (h : WellFormed false nodes) (hne : nodes ≠ [])
    (hfull : isHollow nodes = false) (chosen : Choice) :
    Filled (formText (Node.withSeparator nodes) chosen) := by
  unfold Node.withSeparator
  split
  · next inner rest =>
    have hslash := h.slash_not_mem_formText
    simp only [WellFormed] at h
    rw [formText_group]
    split
    · obtain ⟨other, hlead⟩ := exists_formText_lead inner chosen.inner
      refine Or.inr ⟨formText inner other ++ formText rest chosen.later, ?_, ?_, by simp [hlead]⟩
      · rw [isHollow, Bool.and_eq_false_iff] at hfull
        rw [ne_eq, List.append_eq_nil_iff, not_and_or]
        exact hfull.imp (fun hinner => h.2.1.formText_ne_nil hinner other)
          fun hrest => h.2.2.formText_ne_nil hrest _
      · rw [List.mem_append]
        exact not_or.2 ⟨h.2.1.slash_not_mem_formText other, h.2.2.slash_not_mem_formText _⟩
    · exact Or.inl (h.2.2.slash_not_mem_formText _)
  · next hgroup =>
    obtain ⟨other, hlead⟩ := exists_formText_lead nodes chosen
    refine Or.inr ⟨formText nodes other, h.formText_ne_nil ?_ other,
      h.slash_not_mem_formText other, hlead⟩
    obtain ⟨node, rest, rfl⟩ := List.exists_cons_of_ne_nil hne
    cases node with
    | group inner => exact absurd rfl (hgroup inner rest)
    | text value | param name | wildcard name => rfl

/-- Each segment can put its separator, and as little as it can behind it. If it is hollow that is
nothing. -/
theorem WellFormed.exists_least_piece (h : WellFormed false nodes) :
    ∃ chosen text, IsChoice (Node.withSeparator nodes) chosen ∧ '/' ∉ text ∧
      formText (Node.withSeparator nodes) chosen = '/' :: text ∧
        (isHollow nodes = true → text = []) := by
  unfold Node.withSeparator
  split
  · next inner rest =>
    simp only [WellFormed] at h
    obtain ⟨other, hother, hlead⟩ := exists_choice_lead (.empty inner)
    refine ⟨Choice.join (some other) ∅, formText inner ∅ ++ formText rest ∅,
      .join (by simpa using hother) (.empty _), ?_, ?_, fun hhollow => ?_⟩
    · rw [List.mem_append]
      exact not_or.2 ⟨h.2.1.slash_not_mem_formText ∅, h.2.2.slash_not_mem_formText ∅⟩
    · rw [formText_group_join, Option.elim_some, hlead, List.cons_append]
    · rw [isHollow, Bool.and_eq_true] at hhollow
      rw [formText_empty_of_all_isGroup hhollow.1, formText_empty_of_all_isGroup hhollow.2,
        List.append_nil]
  · next hgroup =>
    obtain ⟨other, hother, hlead⟩ := exists_choice_lead (.empty nodes)
    refine ⟨other, formText nodes ∅, hother, h.slash_not_mem_formText ∅, hlead, fun hhollow => ?_⟩
    unfold isHollow at hhollow
    split at hhollow
    · exact absurd rfl (hgroup _ _)
    · cases hhollow

/-- A separator alone shows as soon as there is another segment before or behind it. -/
theorem fits_read_separator_alone {before after : List Text}
    (h : ∀ piece ∈ before ++ after, ∃ text, '/' ∉ text ∧ piece = '/' :: text)
    (hne : before ++ after ≠ []) :
    (Scan.start.read (before ++ ['/'] :: after).flatten).fits = false := by
  rw [List.flatten_append, List.flatten_cons, Scan.read_append, Scan.read_append]
  cases after with
  | cons next after =>
    obtain ⟨text, -, rfl⟩ := h next (by simp)
    rw [List.flatten_cons, List.cons_append, Scan.read_cons, Scan.read_cons, Scan.read_nil,
      Scan.step_step_separator, Scan.read_empty]
    rfl
  | nil =>
    rw [List.append_nil] at h hne
    obtain ⟨init, last, rfl⟩ := (List.eq_nil_or_concat before).resolve_left hne
    obtain ⟨text, hslash, rfl⟩ := h last (by simp)
    rw [List.concat_eq_append, List.flatten_append, Scan.read_append, List.flatten_singleton,
      List.flatten_nil, Scan.read_nil, Scan.read_cons, Scan.read_cons, Scan.read_nil]
    by_cases htext : text = []
    · rw [htext, Scan.read_nil, Scan.step_step_separator]
      rfl
    · rw [Scan.read_text hslash htext]
      split <;> rfl

variable {trees : List (List Node)}

/-- Without hollow segments no form has an empty segment. -/
theorem fits_read_of_not_hollow (h : ∀ tree ∈ trees, WellFormed false tree ∧ tree ≠ [])
    (hfull : ∀ tree ∈ trees, isHollow tree = false) (chosen : Choice) :
    (Scan.start.read (formText (readTrees trees).flatten chosen)).fits = true := by
  rw [← flatten_pieces, readTrees_eq]
  have hfilled : ∀ piece ∈ pieces (trees.map fun tree => withSeparator (readBack tree)) chosen,
      Filled piece := by
    intro piece hpiece
    obtain ⟨_, hmem, other, rfl⟩ := mem_pieces hpiece
    obtain ⟨tree, htree, rfl⟩ := List.mem_map.1 hmem
    obtain ⟨hwf, hne⟩ := h tree htree
    exact hwf.readBack.filled (readBack_ne_nil hne) (by rw [isHollow_readBack, hfull tree htree])
      other
  rcases isOpen_read_flatten hfilled (Or.inl rfl) with hread | hread <;> rw [hread] <;> rfl

/-- Nor has one that is all of the path. -/
theorem fits_read_of_length_le_one (h : ∀ tree ∈ trees, WellFormed false tree)
    (hlength : trees.length ≤ 1) (chosen : Choice) :
    (Scan.start.read (formText (readTrees trees).flatten chosen)).fits = true := by
  rw [readTrees_eq]
  match trees, hlength with
  | [], _ =>
    rw [List.map_nil, List.flatten_nil, formText_nil]
    rfl
  | [tree], _ =>
    obtain ⟨text, hslash, hpiece⟩ := (h tree (by simp)).readBack.piece_cases chosen
    rw [List.map_singleton, List.flatten_singleton]
    by_cases htext : text = []
    · rcases hpiece with hpiece | ⟨hpiece, -⟩ <;> rw [hpiece, htext] <;> rfl
    · rcases hpiece with hpiece | ⟨hpiece, -⟩
      · rw [hpiece, Scan.read_cons, Scan.read_text hslash htext]
        rfl
      · rw [hpiece, Scan.read_text hslash htext]
        rfl

/-- A hollow segment among others leaves an empty segment in some form. -/
theorem exists_not_fits_of_hollow (h : ∀ tree ∈ trees, WellFormed false tree)
    (hlength : 1 < trees.length) {hollow : List Node} (hmem : hollow ∈ trees)
    (hhollow : isHollow hollow = true) :
    ∃ chosen, IsChoice (readTrees trees).flatten chosen ∧
      (Scan.start.read (formText (readTrees trees).flatten chosen)).fits = false := by
  have hpiece : ∀ tree, ∃ chosen text, WellFormed false tree →
      IsChoice (withSeparator (readBack tree)) chosen ∧ '/' ∉ text ∧
        formText (withSeparator (readBack tree)) chosen = '/' :: text ∧
          (isHollow tree = true → text = []) := by
    intro tree
    by_cases htree : WellFormed false tree
    · obtain ⟨chosen, text, hleast⟩ := htree.readBack.exists_least_piece
      rw [isHollow_readBack] at hleast
      exact ⟨chosen, text, fun _ => hleast⟩
    · exact ⟨∅, [], fun hwf => absurd hwf htree⟩
  choose pick text hpick using hpiece
  obtain ⟨chosen, hchosen, hpieces⟩ := exists_choice_of_pieces fun tree htree =>
    (hpick tree (h tree htree)).1
  obtain ⟨before, after, rfl⟩ := List.append_of_mem hmem
  let piece tree := formText (withSeparator (readBack tree)) (pick tree)
  have halone : piece hollow = ['/'] := by
    obtain ⟨-, -, hleast, hnothing⟩ := hpick hollow (h hollow (by simp))
    rw [hnothing hhollow] at hleast
    exact hleast
  refine ⟨chosen, by rwa [readTrees_eq], ?_⟩
  have hsplit : pieces (readTrees (before ++ hollow :: after)) chosen =
      before.map piece ++ ['/'] :: after.map piece := by
    rw [readTrees_eq, hpieces, ← halone]
    simp [piece]
  rw [← flatten_pieces, hsplit]
  apply fits_read_separator_alone
  · intro other hother
    rw [← List.map_append] at hother
    obtain ⟨tree, htree, rfl⟩ := List.mem_map.1 hother
    obtain ⟨-, hslash, hleast, -⟩ := hpick tree (h tree (by
      rcases List.mem_append.1 htree with htree | htree <;> simp [htree]))
    exact ⟨text tree, hslash, hleast⟩
  · intro hnone
    have hcount := congrArg List.length hnone
    simp only [List.length_append, List.length_map, List.length_cons, List.length_nil]
      at hcount hlength
    omega

end Node

namespace Choice

open Node

variable {nodes : List Node} {a b : Choice}

theorem noEmptySegments_variant_iff : (variant nodes a).pattern.NoEmptySegments ↔
    (Scan.start.read (formText nodes a)).fits = true := by
  have hrooted : (variant nodes a).pattern = Variant.rooted (formText nodes a) := rfl
  have hhead : (Variant.rooted (formText nodes a)).head? = some '/' := by
    unfold Variant.rooted
    split
    · next hslash => rw [hslash, List.head?_cons]
    · rfl
  rw [hrooted, Scan.noEmptySegments_iff hhead, Scan.fits_read_rooted]

/-- Forms of one shape have empty segments alike. -/
theorem noEmptySegments_congr (h : ∀ name ∈ names nodes, '/' ∉ name)
    (hshape : shape nodes a = shape nodes b) :
    (variant nodes a).pattern.NoEmptySegments ↔ (variant nodes b).pattern.NoEmptySegments := by
  have hread : ∀ chosen, (Scan.start.read (formText nodes chosen)).fits =
      (Scan.start.read (shape nodes chosen)).fits := by
    intro chosen
    have hnames : ∀ name ∈ chosenNames nodes chosen, '/' ∉ name := fun name hname =>
      h name ((chosenNames_sublist nodes chosen).subset hname)
    rw [formText, Scan.read_flatMap_render hnames, shape, Variant.shape, Scan.fits_read_rooted]
  rw [noEmptySegments_variant_iff, noEmptySegments_variant_iff, hread, hread, hshape]

end Choice

namespace Pattern

open Node

theorem slash_not_mem_names_readTrees {trees : List (List Node)}
    (h : ∀ tree ∈ trees, WellFormed false tree) :
    ∀ name ∈ names (readTrees trees).flatten, '/' ∉ name := by
  intro name hname
  rw [names_flatten, List.mem_flatMap] at hname
  obtain ⟨_, hmem, hname⟩ := hname
  obtain ⟨tree, htree, rfl⟩ := List.mem_map.1 hmem
  exact slash_not_mem_of_isIdentifier
    ((h tree htree).withSeparator.readBack.isIdentifier_of_mem_names hname)

/-- The variants of a compiled path have no empty segments exactly if the path is one segment at
most or none of its segments is hollow. -/
theorem no_empty_segments_iff {path : Text} {p : Pattern} (h : compile path = .ok p) :
    ∃ expansion, p.expand = .ok expansion ∧
      ((∀ v ∈ expansion.variants, v.pattern.NoEmptySegments) ↔
        (routeSegments path).length ≤ 1 ∨ ∀ segment ∈ routeSegments path, ∀ tree,
          Node.parse false (Node.normalizeSplats segment) = .ok tree → isHollow tree = false) := by
  obtain ⟨trees, htrees, rfl⟩ := compile_eq_ok_iff.1 h
  have hwf := wellFormed_trees htrees
  refine ⟨_, expand_eq (tokenNodes_ofTokens htrees), ?_⟩
  rw [forall_parse_iff htrees, htrees.length_eq, List.forall_mem_map]
  change (∀ k ∈ Choice.survivors _ (readTrees trees).flatten,
    (Choice.variant (readTrees trees).flatten k).pattern.NoEmptySegments) ↔ _
  constructor
  · intro hclean
    by_contra hnot
    obtain ⟨hlength, hfull⟩ := not_or.1 hnot
    obtain ⟨hollow, hmem, hhollow⟩ : ∃ tree ∈ trees, isHollow tree = true := by simpa using hfull
    obtain ⟨chosen, hchosen, hfits⟩ :=
      exists_not_fits_of_hollow hwf (not_le.1 hlength) hmem hhollow
    obtain ⟨k, hk, hshape, -⟩ := Choice.exists_survivor hchosen
    have hempty := (Choice.noEmptySegments_congr (slash_not_mem_names_readTrees hwf) hshape).1
      (hclean k hk)
    rw [Choice.noEmptySegments_variant_iff, hfits] at hempty
    cases hempty
  · intro hfull k _
    rw [Choice.noEmptySegments_variant_iff]
    rcases hfull with hlength | hfull
    · exact fits_read_of_length_le_one hwf hlength k
    · exact fits_read_of_not_hollow
        (fun tree htree => ⟨hwf tree htree, ne_nil_trees htrees tree htree⟩)
        hfull k

/-- A group of text and a group, whose separator never stands alone. -/
theorem no_empty_segments_behind_group :
    ∃ p expansion, compile "docs/{v{2}}".toList = .ok p ∧ p.expand = .ok expansion ∧
      ∀ v ∈ expansion.variants, v.pattern.NoEmptySegments := by
  have hcompile : compile "docs/{v{2}}".toList = .ok (ofTokens (tokensOf
      ["docs".toList, "{v{2}}".toList]
      [[.text "docs".toList], [.group [.text ['v'], .group [.text ['2']]]]])) := by cbv
  have hsegments : routeSegments "docs/{v{2}}".toList = ["docs".toList, "{v{2}}".toList] := by cbv
  have hfirst : Node.parse false (Node.normalizeSplats "docs".toList) =
      .ok [.text "docs".toList] := by cbv
  have hsecond : Node.parse false (Node.normalizeSplats "{v{2}}".toList) =
      .ok [.group [.text ['v'], .group [.text ['2']]]] := by cbv
  obtain ⟨expansion, hexpand, hclean⟩ := no_empty_segments_iff hcompile
  refine ⟨_, expansion, hcompile, hexpand, hclean.2 (Or.inr fun segment hsegment tree htree => ?_)⟩
  rw [hsegments, List.mem_pair] at hsegment
  rcases hsegment with rfl | rfl
  · obtain rfl := Except.ok.inj (hfirst.symm.trans htree)
    rfl
  · obtain rfl := Except.ok.inj (hsecond.symm.trans htree)
    rfl

/-- The pattern of `x/{{a}}`. -/
def groupInGroup : Pattern :=
  ofTokens (tokensOf [['x'], "{{a}}".toList] [[.text ['x']], [.group [.group [.text ['a']]]]])

/-- The outer group without the inner one is a separator alone. -/
theorem separator_alone_in_group :
    compile "x/{{a}}".toList = .ok groupInGroup ∧
      groupInGroup.expand = .ok ⟨[⟨"/x".toList, []⟩, ⟨"/x/".toList, []⟩, ⟨"/x/a".toList, []⟩], 0⟩ ∧
      ¬ Text.NoEmptySegments "/x/".toList := by
  have hcompile : compile "x/{{a}}".toList = .ok groupInGroup := by cbv
  have hexpand : groupInGroup.expand =
      .ok ⟨[⟨"/x".toList, []⟩, ⟨"/x/".toList, []⟩, ⟨"/x/a".toList, []⟩], 0⟩ := by cbv
  exact ⟨hcompile, hexpand, by decide⟩

end Pattern

end FileRoutes
