import FileRoutes.Proofs.Binding

/-! The forms of a pattern segment by segment. A choice of all segments is a choice of each, and the
form it gives is their forms one behind the other. The piece that a segment adds to a form is its
own text behind a separator. Only a segment that opens with a group can lack the separator: if the
group is left out and the segment goes on behind it, the text of the segment is bare. -/

namespace FileRoutes

namespace Choice

/-- What is chosen beyond the first `n` nodes. -/
def beyond : Nat → Choice → Choice
  | 0, chosen => chosen
  | n + 1, chosen => beyond n chosen.later

end Choice

namespace IsChoice

open Node

theorem empty (nodes : List Node) : IsChoice nodes ∅ :=
  ⟨by simp, by simp⟩

/-- Choices of nodes and of those behind them are one choice of all. -/
theorem append {first second : List Node} {a b : Choice} (ha : IsChoice first a)
    (hb : IsChoice second b) :
    ∃ chosen, IsChoice (first ++ second) chosen ∧ chosenForm first chosen = chosenForm first a ∧
      chosen.beyond first.length = b := by
  induction first generalizing a with
  | nil => exact ⟨b, hb, by simp [chosenForm], rfl⟩
  | cons node rest ih =>
    cases node with
    | text _ | param _ | wildcard _ =>
      obtain ⟨later, hlater, rfl⟩ : ∃ later, IsChoice rest later ∧ Choice.join none later = a :=
        (iff_of_no_group (by simp [groups])).1 ha
      obtain ⟨chosen, hchosen, hform, hbeyond⟩ := ih hlater
      refine ⟨Choice.join none chosen,
        (iff_of_no_group (by simp [groups])).2 ⟨chosen, hchosen, rfl⟩, ?_, ?_⟩
      · simp [chosenForm, Choice.later_join, hform]
      · simpa [Choice.beyond, Choice.later_join] using hbeyond
    | group inner =>
      obtain ⟨head, later, hhead, hlater, rfl⟩ := group_iff.1 ha
      obtain ⟨chosen, hchosen, hform, hbeyond⟩ := ih hlater
      refine ⟨Choice.join head chosen, .join hhead hchosen, ?_, ?_⟩
      · rw [chosenForm_group_join, chosenForm_group_join, hform]
      · simpa [Choice.beyond, Choice.later_join] using hbeyond

end IsChoice

namespace Node

theorem chosenForm_append (first second : List Node) (chosen : Choice) :
    chosenForm (first ++ second) chosen =
      chosenForm first chosen ++ chosenForm second (chosen.beyond first.length) := by
  induction first generalizing chosen with
  | nil => simp [chosenForm, Choice.beyond]
  | cons node rest ih => cases node <;> simp [chosenForm, Choice.beyond, ih]

/-- The text of the form that a choice gives. -/
def formText (nodes : List Node) (chosen : Choice) : Text :=
  (chosenForm nodes chosen).flatMap Atom.render

/-- What each segment adds to the form of a choice. -/
def pieces : List (List Node) → Choice → List Text
  | [], _ => []
  | nodes :: trees, chosen => formText nodes chosen :: pieces trees (chosen.beyond nodes.length)

theorem flatten_pieces (trees : List (List Node)) (chosen : Choice) :
    (pieces trees chosen).flatten = formText trees.flatten chosen := by
  induction trees generalizing chosen with
  | nil => simp [pieces, formText, chosenForm]
  | cons nodes trees ih => simp [pieces, ih, formText, chosenForm_append]

theorem exists_choice_of_pieces {ι : Type} {segments : List ι} {tree : ι → List Node}
    {choose : ι → Choice} (h : ∀ segment ∈ segments, IsChoice (tree segment) (choose segment)) :
    ∃ chosen, IsChoice (segments.map tree).flatten chosen ∧
      pieces (segments.map tree) chosen =
        segments.map fun segment => formText (tree segment) (choose segment) := by
  induction segments with
  | nil => exact ⟨∅, .empty _, rfl⟩
  | cons segment segments ih =>
    obtain ⟨later, hlater, hpieces⟩ := ih fun other hother => h other (by simp [hother])
    obtain ⟨chosen, hchosen, hform, hbeyond⟩ := (h segment (by simp)).append hlater
    exact ⟨chosen, hchosen, by simp [pieces, formText, hform, hbeyond, hpieces]⟩

variable (rest inner : List Node) (chosen : Choice)

@[simp] theorem formText_nil : formText [] chosen = [] := by
  simp [formText, chosenForm]

@[simp] theorem formText_text (value : Text) :
    formText (.text value :: rest) chosen = value ++ formText rest chosen.later := by
  simp [formText, chosenForm, Atom.render]

@[simp] theorem formText_param (name : Text) :
    formText (.param name :: rest) chosen = ':' :: name ++ formText rest chosen.later := by
  simp [formText, chosenForm, Atom.render]

@[simp] theorem formText_wildcard (name : Text) :
    formText (.wildcard name :: rest) chosen = '*' :: name ++ formText rest chosen.later := by
  simp [formText, chosenForm, Atom.render]

@[simp] theorem formText_group :
    formText (.group inner :: rest) chosen =
      (if .here ∈ chosen then formText inner chosen.inner else []) ++
        formText rest chosen.later := by
  simp only [formText, chosenForm, List.flatMap_append]
  split <;> rfl

theorem formText_group_join (head : Option Choice) (later : Choice) :
    formText (.group inner :: rest) (Choice.join head later) =
      head.elim [] (formText inner) ++ formText rest later := by
  rw [formText, chosenForm_group_join, List.flatMap_append]
  cases head <;> rfl

variable {rest inner chosen} {nodes : List Node}

theorem slash_not_mem_of_isIdentifier {name : Text} (h : ParamName.isIdentifier name = true) :
    '/' ∉ name := by
  intro hmem
  have hword := (ParamName.isIdentifier_iff.1 h).2.1 '/' hmem
  exact absurd hword (by decide)

theorem WellFormed.slash_not_mem_formText (h : WellFormed false nodes) (chosen : Choice) :
    '/' ∉ formText nodes chosen := by
  induction nodes using names.induct generalizing chosen with
  | case1 => simp
  | case2 value rest ih =>
    simp only [WellFormed] at h
    have hvalue : '/' ∉ value := by
      intro hmem
      exact absurd (h.2.1 '/' hmem) (by decide)
    simp [hvalue, ih h.2.2.2]
  | case3 name rest ih | case4 name rest ih =>
    simp only [WellFormed] at h
    simp [slash_not_mem_of_isIdentifier h.1, ih h.2]
  | case5 inner rest ihInner ihRest =>
    simp only [WellFormed] at h
    rw [formText_group, List.mem_append]
    refine not_or.2 ⟨?_, ihRest h.2.2 _⟩
    split
    · exact ihInner h.2.1 _
    · simp

theorem WellFormed.exists_formText_ne_nil {separator : Bool} (h : WellFormed separator nodes)
    (hne : nodes ≠ []) : ∃ chosen, IsChoice nodes chosen ∧ formText nodes chosen ≠ [] := by
  induction nodes using names.induct with
  | case1 => exact absurd rfl hne
  | case2 value rest ih =>
    simp only [WellFormed] at h
    exact ⟨∅, .empty _, by simp [h.1]⟩
  | case3 name rest ih | case4 name rest ih => exact ⟨∅, .empty _, by simp⟩
  | case5 inner rest ihInner ihRest =>
    simp only [WellFormed] at h
    obtain ⟨chosen, hchosen, htext⟩ := ihInner h.2.1 h.1
    refine ⟨Choice.join (some chosen) ∅, .join (by simpa using hchosen) (.empty _), ?_⟩
    rw [formText_group_join]
    simp [htext]

/-- The separator in front of nodes is in front of each form. -/
theorem exists_formText_lead (nodes : List Node) (chosen : Choice) :
    ∃ other, formText (lead nodes) chosen = '/' :: formText nodes other := by
  unfold lead
  split
  · exact ⟨chosen, by simp⟩
  · exact ⟨chosen.later, by simp⟩

theorem exists_choice_lead (h : IsChoice nodes chosen) :
    ∃ other, IsChoice (lead nodes) other ∧
      formText (lead nodes) other = '/' :: formText nodes chosen := by
  unfold lead
  split
  · refine ⟨chosen, ⟨fun place hplace => ?_, h.closed⟩, by simp⟩
    simpa [groups] using h.subset place hplace
  · exact ⟨Choice.join none chosen, (IsChoice.iff_of_no_group (by simp [groups])).2
      ⟨chosen, h, rfl⟩, by simp [Choice.later_join]⟩

/-- The segment opens with a group and goes on behind it. Its separator is left out with the
group. -/
def shedsSeparator : List Node → Bool
  | .group _ :: _ :: _ => true
  | _ => false

/-- A piece is a text behind a separator; if the separator is shed, the text alone. -/
theorem WellFormed.piece_cases (h : WellFormed false nodes) (chosen : Choice) :
    ∃ text, '/' ∉ text ∧ (formText (Node.withSeparator nodes) chosen = '/' :: text ∨
      formText (Node.withSeparator nodes) chosen = text ∧
        (shedsSeparator nodes = false → text = [])) := by
  unfold Node.withSeparator
  split
  · next inner rest =>
    simp only [WellFormed] at h
    have hrest := h.2.2.slash_not_mem_formText chosen.later
    rw [formText_group]
    split
    · obtain ⟨other, hlead⟩ := exists_formText_lead inner chosen.inner
      refine ⟨formText inner other ++ formText rest chosen.later, ?_, Or.inl (by simp [hlead])⟩
      rw [List.mem_append]
      exact not_or.2 ⟨h.2.1.slash_not_mem_formText other, hrest⟩
    · refine ⟨formText rest chosen.later, hrest, Or.inr ⟨rfl, fun hkept => ?_⟩⟩
      cases rest with
      | nil => simp
      | cons node rest => simp [shedsSeparator] at hkept
  · obtain ⟨other, hlead⟩ := exists_formText_lead nodes chosen
    exact ⟨_, h.slash_not_mem_formText other, Or.inl hlead⟩

/-- What a piece holds behind its separator. -/
def pieceText (piece : Text) : Text :=
  piece.dropWhile (· == '/')

def pieceSeparator (piece : Text) : Text :=
  piece.takeWhile (· == '/')

theorem pieceText_of_not_mem {text : Text} (h : '/' ∉ text) : pieceText text = text := by
  cases text with
  | nil => rfl
  | cons c text =>
    have hc : c ≠ '/' := by
      rintro rfl
      exact h (by simp)
    simp [pieceText, hc]

theorem pieceText_cons_of_not_mem {text : Text} (h : '/' ∉ text) :
    pieceText ('/' :: text) = text := by
  simpa [pieceText] using pieceText_of_not_mem h

/-- Each segment can hold text in a form, and one that sheds its separator can hold it bare. -/
theorem WellFormed.exists_piece (h : WellFormed false nodes) (hne : nodes ≠ []) :
    ∃ chosen, IsChoice (Node.withSeparator nodes) chosen ∧
      pieceText (formText (Node.withSeparator nodes) chosen) ≠ [] ∧
        (shedsSeparator nodes = true → '/' ∉ formText (Node.withSeparator nodes) chosen) := by
  unfold Node.withSeparator
  split
  · next inner rest =>
    simp only [WellFormed] at h
    cases rest with
    | nil =>
      obtain ⟨chosen, hchosen, htext⟩ := h.2.1.exists_formText_ne_nil h.1
      obtain ⟨other, hother, hlead⟩ := exists_choice_lead hchosen
      refine ⟨Choice.join (some other) ∅, .join (by simpa using hother) (.empty _), ?_,
        by simp [shedsSeparator]⟩
      rw [formText_group_join, Option.elim_some, hlead, formText_nil, List.append_nil,
        pieceText_cons_of_not_mem (h.2.1.slash_not_mem_formText chosen)]
      exact htext
    | cons node rest =>
      obtain ⟨later, hlater, htext⟩ := h.2.2.exists_formText_ne_nil (by simp)
      have hslash := h.2.2.slash_not_mem_formText later
      refine ⟨Choice.join none later, .join (by simp) hlater, ?_⟩
      rw [formText_group_join, Option.elim_none, List.nil_append, pieceText_of_not_mem hslash]
      exact ⟨htext, fun _ => hslash⟩
  · next hgroup =>
    obtain ⟨chosen, hchosen, htext⟩ := h.exists_formText_ne_nil hne
    obtain ⟨other, hother, hlead⟩ := exists_choice_lead hchosen
    refine ⟨other, hother, ?_, fun hsheds => ?_⟩
    · rwa [hlead, pieceText_cons_of_not_mem (h.slash_not_mem_formText chosen)]
    · unfold shedsSeparator at hsheds
      split at hsheds
      · exact absurd rfl (hgroup _ _)
      · cases hsheds

/-- The separator in front of nodes comes back in front of what comes back of them. -/
theorem readBack_lead (nodes : List Node) : readBack (lead nodes) = lead (readBack nodes) := by
  cases nodes with
  | nil => simp [lead, readBack]
  | cons node rest => cases node <;> simp [lead, readBack, absorb]

theorem readBack_withSeparator (nodes : List Node) :
    readBack (Node.withSeparator nodes) = Node.withSeparator (readBack nodes) := by
  cases nodes with
  | nil => simp [Node.withSeparator, lead, readBack]
  | cons node rest =>
    cases node with
    | group inner => simp [Node.withSeparator, readBack, readBack_lead]
    | text value => simpa [Node.withSeparator, readBack] using readBack_lead (.text value :: rest)
    | param name =>
      simpa [Node.withSeparator, readBack, absorb] using readBack_lead (.param name :: rest)
    | wildcard name =>
      simpa [Node.withSeparator, readBack, absorb] using readBack_lead (.wildcard name :: rest)

theorem WellFormed.readBack {separator : Bool} (h : WellFormed separator nodes) :
    WellFormed separator (Node.readBack nodes) :=
  wellFormed_of_parse (parse_render h)

theorem shedsSeparator_readBack (nodes : List Node) :
    shedsSeparator (readBack nodes) = shedsSeparator nodes := by
  cases nodes with
  | nil => rw [readBack]
  | cons node rest =>
    cases node with
    | group inner =>
      cases hrest : readBack rest with
      | nil =>
        have hnil : rest = [] := by
          by_contra hne
          exact readBack_ne_nil hne hrest
        subst hnil
        simp [readBack, shedsSeparator]
      | cons next more =>
        cases rest with
        | nil => simp [readBack] at hrest
        | cons _ _ => simp [readBack, hrest, shedsSeparator]
    | text value | param name | wildcard name => simp [readBack, absorb, shedsSeparator]

end Node

end FileRoutes
