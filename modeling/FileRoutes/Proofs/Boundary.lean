import FileRoutes.Proofs.NameOrder
import FileRoutes.Proofs.Pieces
import FileRoutes.Proofs.SplatNotation
import Mathlib

/-! Whether the boundaries of directory segments are boundaries in the address of a variant. They
are as long as each piece with text but the first has its separator. A segment sheds its separator
if it opens with a group and goes on behind it, and then its text can run together with the text of
a segment before. -/

namespace FileRoutes

namespace Text

/-- The segments of an address that hold text. -/
def filledSegments (t : Text) : List Text :=
  (segments t).filter (· ≠ [])

theorem filledSegments_append_slash (s t : Text) :
    filledSegments (s ++ '/' :: t) = filledSegments s ++ filledSegments t := by
  rw [filledSegments, segments_append_slash, List.filter_append]
  rfl

theorem filledSegments_cons_slash (t : Text) : filledSegments ('/' :: t) = filledSegments t :=
  filledSegments_append_slash [] t

theorem filledSegments_of_not_mem {t : Text} (h : '/' ∉ t) :
    filledSegments t = [t].filter (· ≠ []) := by
  rw [filledSegments, segments, List.splitOn_eq_singleton h]

end Text

namespace Variant

open Node

/-- The address is made of the pieces, and keeps the boundaries between them: two that hold text
have a separator between their texts, so that their texts are the segments of the address. -/
structure KeepsBoundaries (address : Text) (pieces : List Text) : Prop where
  address_eq : address = rooted pieces.flatten
  apart : ∀ before first between second after,
    pieces = before ++ first :: (between ++ second :: after) →
      pieceText first ≠ [] → pieceText second ≠ [] →
        '/' ∈ between.flatten ++ pieceSeparator second
  segments : Text.filledSegments address = (pieces.map pieceText).filter (· ≠ [])

theorem filledSegments_rooted (t : Text) :
    Text.filledSegments (rooted t) = Text.filledSegments t := by
  unfold rooted
  split
  · rfl
  · exact Text.filledSegments_cons_slash t

/-- A piece that is empty or has its separator. -/
def Separated (piece : Text) : Prop :=
  piece = [] ∨ ∃ text, '/' ∉ text ∧ piece = '/' :: text

/-- The text in front of separated pieces ends where the first separator stands. -/
theorem filledSegments_append_flatten {t : Text} (ht : '/' ∉ t) {pieces : List Text}
    (h : ∀ piece ∈ pieces, Separated piece) :
    Text.filledSegments (t ++ pieces.flatten) =
      (t :: pieces.map pieceText).filter (· ≠ []) := by
  induction pieces generalizing t with
  | nil => simpa using Text.filledSegments_of_not_mem ht
  | cons piece pieces ih =>
    have hrest : ∀ piece ∈ pieces, Separated piece := fun p hp => h p (by simp [hp])
    rcases h piece (by simp) with rfl | ⟨text, htext, rfl⟩
    · simpa [pieceText, List.filter_cons] using ih ht hrest
    · rw [List.flatten_cons, List.cons_append, Text.filledSegments_append_slash,
        Text.filledSegments_of_not_mem ht, ih htext hrest, List.map_cons,
        pieceText_cons_of_not_mem htext, ← List.filter_append]
      rfl

theorem keepsBoundaries_of_separated {first : Text} {pieces : List Text}
    (hfirst : ∃ text, '/' ∉ text ∧ (first = '/' :: text ∨ first = text))
    (h : ∀ piece ∈ pieces, Separated piece) :
    KeepsBoundaries (rooted (first :: pieces).flatten) (first :: pieces) := by
  refine ⟨rfl, fun before earlier between later after hsplit _ hlater => ?_, ?_⟩
  · have hmem : later ∈ pieces := by
      cases before with
      | nil =>
        rw [List.nil_append, List.cons.injEq] at hsplit
        simp [hsplit.2]
      | cons _ before =>
        rw [List.cons_append, List.cons.injEq] at hsplit
        simp [hsplit.2]
    rcases h later hmem with rfl | ⟨text, _, rfl⟩
    · simp [pieceText] at hlater
    · simp [pieceSeparator]
  · obtain ⟨text, htext, hfirst⟩ := hfirst
    have hrest := filledSegments_append_flatten htext h
    rw [filledSegments_rooted, List.flatten_cons, List.map_cons]
    rcases hfirst with rfl | rfl
    · rw [List.cons_append, Text.filledSegments_cons_slash, hrest, pieceText_cons_of_not_mem htext]
    · rw [hrest, pieceText_of_not_mem htext]

end Variant

namespace Node

variable {trees : List (List Node)}

theorem readTrees_eq (trees : List (List Node)) :
    readTrees trees = trees.map fun nodes => withSeparator (readBack nodes) := by
  simp only [readTrees, readBack_withSeparator]

theorem mem_pieces {piece : Text} {chosen : Choice} (h : piece ∈ pieces trees chosen) :
    ∃ nodes ∈ trees, ∃ other, piece = formText nodes other := by
  induction trees generalizing chosen with
  | nil => simp [pieces] at h
  | cons nodes trees ih =>
    rcases List.mem_cons.1 h with rfl | h
    · exact ⟨nodes, by simp, chosen, rfl⟩
    · obtain ⟨tree, htree, other, rfl⟩ := ih h
      exact ⟨tree, by simp [htree], other, rfl⟩

theorem WellFormed.separated_piece {nodes : List Node} (h : WellFormed false nodes)
    (hkept : shedsSeparator nodes = false) (chosen : Choice) :
    Variant.Separated (formText (Node.withSeparator nodes) chosen) := by
  obtain ⟨text, htext, hpiece | ⟨hpiece, hbare⟩⟩ := h.piece_cases chosen
  · exact Or.inr ⟨text, htext, hpiece⟩
  · exact Or.inl (hpiece.trans (hbare hkept))

/-- If only the first segment may shed its separator, no boundary is lost. -/
theorem keepsBoundaries_of_not_sheds (h : ∀ nodes ∈ trees, WellFormed false nodes)
    (hkept : ∀ nodes ∈ trees.tail, shedsSeparator nodes = false) (chosen : Choice) :
    Variant.KeepsBoundaries (Variant.rooted (pieces (readTrees trees) chosen).flatten)
      (pieces (readTrees trees) chosen) := by
  rw [readTrees_eq]
  cases trees with
  | nil =>
    have hroot : Text.filledSegments ['/'] = [] := by decide
    exact ⟨rfl, by simp [pieces], by simpa [pieces, Variant.rooted] using hroot⟩
  | cons nodes trees =>
    refine Variant.keepsBoundaries_of_separated ?_ fun piece hpiece => ?_
    · obtain ⟨text, htext, hpiece⟩ := (h nodes (by simp)).readBack.piece_cases chosen
      exact ⟨text, htext, hpiece.imp_right And.left⟩
    · obtain ⟨_, hmem, other, rfl⟩ := mem_pieces hpiece
      obtain ⟨tree, htree, rfl⟩ := List.mem_map.1 hmem
      refine (h tree (by simp [htree])).readBack.separated_piece ?_ other
      rw [shedsSeparator_readBack]
      exact hkept tree htree

theorem exists_split_of_mem_tail {α : Type} {xs : List α} {x : α} (h : x ∈ xs.tail) :
    ∃ before last after, xs = before ++ last :: x :: after := by
  induction xs with
  | nil => simp at h
  | cons first xs ih =>
    cases xs with
    | nil => simp at h
    | cons second xs =>
      rcases List.mem_cons.1 h with rfl | h
      · exact ⟨[], first, xs, rfl⟩
      · obtain ⟨before, last, after, hsplit⟩ := ih h
        exact ⟨first :: before, last, after, congrArg (first :: ·) hsplit⟩

/-- A later segment that sheds its separator can hold its text bare, right behind the text of the
segment before. -/
theorem not_sheds_of_keepsBoundaries (h : ∀ nodes ∈ trees, WellFormed false nodes ∧ nodes ≠ [])
    (hkeeps : ∀ chosen, IsChoice (readTrees trees).flatten chosen →
      Variant.KeepsBoundaries (Variant.rooted (pieces (readTrees trees) chosen).flatten)
        (pieces (readTrees trees) chosen)) :
    ∀ nodes ∈ trees.tail, shedsSeparator nodes = false := by
  -- Choose each segment on its own, to hold text, and to hold it bare if it sheds its separator.
  have hpiece : ∀ nodes, ∃ chosen, WellFormed false nodes → nodes ≠ [] →
      IsChoice (withSeparator (readBack nodes)) chosen ∧
        pieceText (formText (withSeparator (readBack nodes)) chosen) ≠ [] ∧
          (shedsSeparator nodes = true → '/' ∉ formText (withSeparator (readBack nodes)) chosen) := by
    intro nodes
    by_cases hnodes : WellFormed false nodes ∧ nodes ≠ []
    · obtain ⟨chosen, hchosen⟩ := hnodes.1.readBack.exists_piece (readBack_ne_nil hnodes.2)
      rw [shedsSeparator_readBack] at hchosen
      exact ⟨chosen, fun _ _ => hchosen⟩
    · exact ⟨∅, fun hwf hne => absurd ⟨hwf, hne⟩ hnodes⟩
  choose pick hpick using hpiece
  obtain ⟨chosen, hchosen, hpieces⟩ := exists_choice_of_pieces fun nodes hnodes =>
    (hpick nodes (h nodes hnodes).1 (h nodes hnodes).2).1
  rw [readTrees_eq] at hkeeps
  have hapart := (hkeeps chosen hchosen).apart
  intro bare hbare
  obtain ⟨before, last, after, rfl⟩ := exists_split_of_mem_tail hbare
  obtain ⟨hlast, hlastNe⟩ := h last (by simp)
  obtain ⟨hbare, hbareNe⟩ := h bare (by simp)
  by_contra hsheds
  let piece nodes := formText (withSeparator (readBack nodes)) (pick nodes)
  have hsplit : pieces ((before ++ last :: bare :: after).map fun nodes =>
        withSeparator (readBack nodes)) chosen =
      before.map piece ++ piece last :: ([] ++ piece bare :: after.map piece) := by
    rw [hpieces]
    simp [piece]
  have hslash := hapart _ _ _ _ _ hsplit (hpick last hlast hlastNe).2.1
    (hpick bare hbare hbareNe).2.1
  rw [List.flatten_nil, List.nil_append] at hslash
  exact (hpick bare hbare hbareNe).2.2 (by simpa using hsheds)
    ((List.takeWhile_prefix _).subset hslash)

end Node

namespace Pattern

open Node

theorem ne_nil_trees {segments : List Text} {trees : List (List Node)}
    (h : List.Forall₂ ParsedSegment segments trees) : ∀ nodes ∈ trees, nodes ≠ [] := by
  induction h with
  | nil => simp
  | cons hhead _ ih =>
    intro nodes hnodes
    rcases List.mem_cons.1 hnodes with rfl | hnodes
    · exact ne_nil_of_parse (Node.normalizeSplats_ne_nil hhead.1) hhead.2
    · exact ih nodes hnodes

/-- All variants of a compiled path keep the boundaries of its segments exactly if no segment but
the first opens with a group and goes on behind it. -/
theorem boundaries_kept_iff {path : Text} {p : Pattern} (h : compile path = .ok p) :
    ∃ nodes, p.tokenNodes = .ok nodes ∧
      ((∀ chosen, IsChoice nodes.flatten chosen →
          Variant.KeepsBoundaries (Choice.variant nodes.flatten chosen).pattern
            (pieces nodes chosen)) ↔
        ∀ segment ∈ (routeSegments path).tail, ∀ tree,
          Node.parse false (Node.normalizeSplats segment) = .ok tree →
            shedsSeparator tree = false) := by
  obtain ⟨trees, htrees, rfl⟩ := compile_eq_ok_iff.1 h
  refine ⟨_, tokenNodes_ofTokens htrees, ?_⟩
  have hpattern : ∀ chosen, (Choice.variant (readTrees trees).flatten chosen).pattern =
      Variant.rooted (pieces (readTrees trees) chosen).flatten := by
    intro chosen
    rw [flatten_pieces]
    rfl
  have htail : List.Forall₂ ParsedSegment (routeSegments path).tail trees.tail := by
    simpa using List.forall₂_drop 1 htrees
  rw [forall_parse_iff htail]
  change (∀ chosen, IsChoice (readTrees trees).flatten chosen → Variant.KeepsBoundaries
    (Choice.variant (readTrees trees).flatten chosen).pattern (pieces (readTrees trees) chosen)) ↔ _
  simp only [hpattern]
  constructor
  · exact not_sheds_of_keepsBoundaries fun nodes hnodes =>
      ⟨wellFormed_trees htrees nodes hnodes, ne_nil_trees htrees nodes hnodes⟩
  · intro hkept chosen _
    exact keepsBoundaries_of_not_sheds (wellFormed_trees htrees) hkept chosen

/-- The first segment of `{a}b/[[c]]/d{e}` has nothing to run together with. -/
theorem boundaries_kept_behind_leading_group :
    ∃ p nodes, compile "{a}b/[[c]]/d{e}".toList = .ok p ∧ p.tokenNodes = .ok nodes ∧
      ∀ chosen, IsChoice nodes.flatten chosen →
        Variant.KeepsBoundaries (Choice.variant nodes.flatten chosen).pattern
          (pieces nodes chosen) := by
  have hcompile : compile "{a}b/[[c]]/d{e}".toList = .ok (ofTokens (tokensOf
      ["{a}b".toList, "[[c]]".toList, "d{e}".toList]
      [[.group [.text ['a']], .text ['b']], [.group [.param ['c']]],
        [.text ['d'], .group [.text ['e']]]])) := by cbv
  have htail : (routeSegments "{a}b/[[c]]/d{e}".toList).tail =
      ["[[c]]".toList, "d{e}".toList] := by cbv
  have hsecond : Node.parse false (Node.normalizeSplats "[[c]]".toList) =
      .ok [.group [.param ['c']]] := by cbv
  have hthird : Node.parse false (Node.normalizeSplats "d{e}".toList) =
      .ok [.text ['d'], .group [.text ['e']]] := by cbv
  obtain ⟨nodes, hnodes, hkept⟩ := boundaries_kept_iff hcompile
  refine ⟨_, nodes, hcompile, hnodes, hkept.2 fun segment hsegment tree htree => ?_⟩
  rw [htail, List.mem_pair] at hsegment
  rcases hsegment with rfl | rfl
  · obtain rfl := Except.ok.inj (hsecond.symm.trans htree)
    rfl
  · obtain rfl := Except.ok.inj (hthird.symm.trans htree)
    rfl

/-- The pattern of `a/{b}c`, whose second segment sheds its separator. -/
def groupBeforeText : Pattern :=
  ofTokens (tokensOf ["a".toList, "{b}c".toList] [[.text ['a']], [.group [.text ['b']], .text ['c']]])

theorem boundary_lost_behind_group :
    compile "a/{b}c".toList = .ok groupBeforeText ∧
      ∃ nodes chosen, groupBeforeText.tokenNodes = .ok nodes ∧ IsChoice nodes.flatten chosen ∧
        pieces nodes chosen = ["/a".toList, "c".toList] ∧
        (Choice.variant nodes.flatten chosen).pattern = "/ac".toList ∧
        ¬ Variant.KeepsBoundaries (Choice.variant nodes.flatten chosen).pattern
          (pieces nodes chosen) := by
  have hcompile : compile "a/{b}c".toList = .ok groupBeforeText := by cbv
  have hnodes : groupBeforeText.tokenNodes =
      .ok [[.text "/a".toList], [.group [.text "/b".toList], .text ['c']]] := by cbv
  have hpieces : pieces [[.text "/a".toList], [.group [.text "/b".toList], .text ['c']]] ∅ =
      ["/a".toList, "c".toList] := by
    simp [pieces, Choice.beyond, Choice.later]
  refine ⟨hcompile, _, ∅, hnodes, .empty _, hpieces, ?_, fun hkept => ?_⟩
  · rw [Choice.variant, Variant.ofAtoms, ← formText, ← flatten_pieces, hpieces]
    rfl
  · have hslash := hkept.apart [] "/a".toList [] "c".toList [] hpieces (by decide) (by decide)
    exact absurd hslash (by decide)

end Pattern

end FileRoutes
