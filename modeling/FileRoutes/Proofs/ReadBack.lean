import FileRoutes.Pattern
import FileRoutes.Proofs.Identifier
import Mathlib

/-! Reading back what rendering writes. Well formed nodes come back as they were, but for a name that
runs on into literal text: reading takes as much of the text into the name as may stand in one. The
proof follows the nodes; what is read of them does not depend on the open groups or on what was
read before, as long as the rest of the input closes a group or is empty. -/

namespace FileRoutes

namespace Lexeme

/-- The text does not begin with a character of the class. -/
def Stops (p : Char → Bool) (t : Text) : Prop :=
  ∀ c ∈ t.head?, p c = false

theorem takeWhile_append_of_stops {p : Char → Bool} {s t : Text} (hs : ∀ c ∈ s, p c = true)
    (ht : Stops p t) : (s ++ t).takeWhile p = s := by
  rw [List.takeWhile_append_of_pos hs]
  cases t with
  | nil => simp
  | cons c t => simp [ht c rfl]

theorem dropWhile_append_of_stops {p : Char → Bool} {s t : Text} (hs : ∀ c ∈ s, p c = true)
    (ht : Stops p t) : (s ++ t).dropWhile p = t := by
  rw [List.dropWhile_append_of_pos hs]
  cases t with
  | nil => rfl
  | cons c t => simp [ht c rfl]

theorem stops_dropWhile (p : Char → Bool) (t : Text) : Stops p (t.dropWhile p) := by
  intro c hc
  have hhead := List.head?_dropWhile_not p t
  rw [Option.mem_def.1 hc] at hhead
  exact hhead

theorem stops_append {p : Char → Bool} {s t : Text} (hs : Stops p s) (ht : s = [] → Stops p t) :
    Stops p (s ++ t) := by
  cases s with
  | nil => exact ht rfl
  | cons c s => exact hs

theorem lex_nil (separator : Bool) : lex separator [] = [] := by
  rw [lex]

/-- A name is read up to the first character that may not stand in one. -/
theorem lex_marked {separator : Bool} {mark : Char} {make : Text → Node}
    (hmark : ∀ cs, first separator mark cs = marked make cs) {name more : Text} (hne : name ≠ [])
    (hname : ∀ c ∈ name, isNameChar c = true) (hmore : Stops isNameChar more) :
    lex separator (mark :: (name ++ more)) =
      (mark :: (name ++ more), .node (make (ParamName.sanitize name))) :: lex separator more := by
  rw [lex, hmark, marked, takeWhile_append_of_stops hname hmore,
    dropWhile_append_of_stops hname hmore]
  simp [hne]

theorem isLiteral_iff {separator : Bool} {c : Char} :
    isLiteral separator c = true ↔
      (c ≠ '{' ∧ c ≠ '}' ∧ c ≠ '[' ∧ c ≠ ']' ∧ c ≠ ':' ∧ c ≠ '*') ∧ isReserved c = false ∧
        (separator = true ∨ c ≠ '/') := by
  simp [isLiteral, and_assoc]

theorem first_of_isLiteral {separator : Bool} {c : Char} (h : isLiteral separator c = true)
    (cs : Text) :
    first separator c cs =
      (.node (.text (c :: cs.takeWhile (isLiteral separator))),
        cs.dropWhile (isLiteral separator)) := by
  obtain ⟨⟨h1, h2, h3, _, h5, h6⟩, hreserved, _⟩ := isLiteral_iff.1 h
  simp [first, h, h1, h2, h3, h5, h6, hreserved]

theorem lex_text {separator : Bool} {t more : Text} (hne : t ≠ [])
    (ht : ∀ c ∈ t, isLiteral separator c = true) (hmore : Stops (isLiteral separator) more) :
    lex separator (t ++ more) = (t ++ more, .node (.text t)) :: lex separator more := by
  obtain ⟨c, cs, rfl⟩ := List.exists_cons_of_ne_nil hne
  have hcs : ∀ d ∈ cs, isLiteral separator d = true := fun d hd => ht d (by simp [hd])
  rw [List.cons_append, lex, first_of_isLiteral (ht c (by simp)),
    takeWhile_append_of_stops hcs hmore, dropWhile_append_of_stops hcs hmore]

theorem lex_openGroup (separator : Bool) (cs : Text) :
    lex separator ('{' :: cs) = ('{' :: cs, .openGroup) :: lex separator cs := by
  rw [lex]
  simp [first]

theorem lex_closeGroup (separator : Bool) (cs : Text) :
    lex separator ('}' :: cs) = ('}' :: cs, .closeGroup) :: lex separator cs := by
  rw [lex]
  simp [first]

/-- Characters that end both literal text and a name. -/
theorem stops_of_head {p : Char → Bool} {t : Text} (hp : [':', '*', '{', '}'].any p = false)
    (ht : ∀ c ∈ t.head?, c ∈ [':', '*', '{', '}']) : Stops p t := by
  intro c hc
  have hnot := List.any_eq_false.1 hp c (ht c hc)
  exact Bool.eq_false_iff.2 hnot

theorem isNameChar_of_isWordChar {c : Char} (h : ParamName.isWordChar c = true) :
    isNameChar c = true := by
  simp only [ParamName.isWordChar, isNameChar, Bool.or_eq_true] at h ⊢
  exact Or.inl h

end Lexeme

namespace Node

open Lexeme

def startsWithText : List Node → Bool
  | .text _ :: _ => true
  | _ => false

/-- Nodes that reading can return: no empty texts or groups, no two texts in a row, only characters
that are literal where they stand, and only identifiers for names. -/
def WellFormed (separator : Bool) : List Node → Prop
  | [] => True
  | .text value :: rest =>
    value ≠ [] ∧ (∀ c ∈ value, isLiteral separator c = true) ∧ startsWithText rest = false ∧
      WellFormed separator rest
  | .param name :: rest => ParamName.isIdentifier name = true ∧ WellFormed separator rest
  | .wildcard name :: rest => ParamName.isIdentifier name = true ∧ WellFormed separator rest
  | .group inner :: rest => inner ≠ [] ∧ WellFormed separator inner ∧ WellFormed separator rest

/-- The nodes go on with a character that a name before them would take in. -/
def continuesName : List Node → Bool
  | .text (c :: _) :: _ => isNameChar c
  | _ => false

/-- No name runs on into the text behind it. -/
def separated : List Node → Bool
  | [] => true
  | .text _ :: rest => separated rest
  | .param _ :: rest => !continuesName rest && separated rest
  | .wildcard _ :: rest => !continuesName rest && separated rest
  | .group inner :: rest => separated inner && separated rest

/-- A node of a text, if there is any. -/
def ofText (value : Text) : List Node :=
  if value = [] then [] else [.text value]

/-- The characters at the head of the nodes that continue a name. -/
def continuation : List Node → Text
  | .text value :: _ => value.takeWhile isNameChar
  | _ => []

/-- The nodes less their continuation of a name. -/
def remainder : List Node → List Node
  | .text value :: rest => ofText (value.dropWhile isNameChar) ++ rest
  | nodes => nodes

/-- A named node in front of others, which takes the characters that continue its name. -/
def absorb (make : Text → Node) (name : Text) (nodes : List Node) : List Node :=
  make (ParamName.sanitize (name ++ continuation nodes)) :: remainder nodes

/-- What reading makes of the rendered nodes. -/
def readBack : List Node → List Node
  | [] => []
  | .text value :: rest => .text value :: readBack rest
  | .param name :: rest => absorb .param name (readBack rest)
  | .wildcard name :: rest => absorb .wildcard name (readBack rest)
  | .group inner :: rest => .group (readBack inner) :: readBack rest

/-- The rest of an input ends here, or goes on behind a group that it closes. -/
def Closes (tail : Text) : Prop :=
  ∀ c ∈ tail.head?, c = '}'

theorem render_head {nodes : List Node} {tail : Text} (hnodes : startsWithText nodes = false)
    (htail : Closes tail) : ∀ c ∈ (render nodes ++ tail).head?, c ∈ [':', '*', '{', '}'] := by
  intro c hc
  cases nodes with
  | nil => simp [htail c (by simpa [render] using hc)]
  | cons node rest =>
    cases node with
    | text value => simp [startsWithText] at hnodes
    | param name | wildcard name | group inner =>
      simp only [render, List.cons_append, List.head?_cons, Option.mem_some_iff] at hc
      simp [← hc]

theorem stops_name {nodes : List Node} {tail : Text} (hnodes : startsWithText nodes = false)
    (htail : Closes tail) : Stops isNameChar (render nodes ++ tail) :=
  stops_of_head (by decide) (render_head hnodes htail)

theorem stops_literal {separator : Bool} {nodes : List Node} {tail : Text}
    (hnodes : startsWithText nodes = false) (htail : Closes tail) :
    Stops (isLiteral separator) (render nodes ++ tail) :=
  stops_of_head (by cases separator <;> decide) (render_head hnodes htail)

/-- The rendered nodes are read as `result`, whatever was read before. -/
def ReadsAs (separator : Bool) (nodes result : List Node) : Prop :=
  ∀ tail, Closes tail → ∀ stack before,
    assemble stack before (lex separator (render nodes ++ tail)) =
      assemble stack (before ++ result) (lex separator tail)

namespace ReadsAs

variable {separator : Bool} {rest result : List Node}

theorem nil : ReadsAs separator [] [] := by
  intro tail _ stack before
  simp [render]

theorem text {value : Text} (hne : value ≠ []) (hvalue : ∀ c ∈ value, isLiteral separator c = true)
    (hrest : startsWithText rest = false) (h : ReadsAs separator rest result) :
    ReadsAs separator (.text value :: rest) (.text value :: result) := by
  intro tail htail stack before
  rw [render, List.append_assoc, lex_text hne hvalue (stops_literal hrest htail), assemble,
    h tail htail]
  simp

theorem group {inner innerResult : List Node} (hinner : ReadsAs separator inner innerResult)
    (hne : innerResult ≠ []) (h : ReadsAs separator rest result) :
    ReadsAs separator (.group inner :: rest) (.group innerResult :: result) := by
  intro tail htail stack before
  obtain ⟨node, nodes, rfl⟩ := List.exists_cons_of_ne_nil hne
  have hsplit : render (.group inner :: rest) ++ tail =
      '{' :: (render inner ++ '}' :: (render rest ++ tail)) := by
    simp [render]
  rw [hsplit, lex_openGroup, assemble, hinner _ (by simp [Closes]), lex_closeGroup,
    List.nil_append, assemble, h tail htail]
  simp

/-- A sort of node that has a name, and the character that its rendering begins with. -/
structure Marks (mark : Char) (make : Text → Node) : Prop where
  first : ∀ separator cs, Lexeme.first separator mark cs = marked make cs
  render : ∀ name nodes, render (make name :: nodes) = mark :: (name ++ render nodes)

theorem marks_param : Marks ':' .param :=
  ⟨fun separator cs => by simp [Lexeme.first], fun name nodes => by simp [Node.render]⟩

theorem marks_wildcard : Marks '*' .wildcard :=
  ⟨fun separator cs => by simp [Lexeme.first], fun name nodes => by simp [Node.render]⟩

variable {mark : Char} {make : Text → Node} {name : Text}

theorem isNameChar_of_mem (hname : ParamName.isIdentifier name = true) :
    ∀ c ∈ name, isNameChar c = true := fun c hc =>
  isNameChar_of_isWordChar ((ParamName.isIdentifier_iff.1 hname).2.1 c hc)

theorem named (hmarks : Marks mark make) (hname : ParamName.isIdentifier name = true)
    (hrest : startsWithText rest = false) (h : ReadsAs separator rest result) :
    ReadsAs separator (make name :: rest) (make (ParamName.sanitize name) :: result) := by
  intro tail htail stack before
  rw [hmarks.render, List.cons_append, List.append_assoc,
    lex_marked (hmarks.first separator) (ParamName.isIdentifier_iff.1 hname).1
      (isNameChar_of_mem hname) (stops_name hrest htail), assemble, h tail htail]
  simp

/-- What is left of a text, in front of nodes that do not begin with a text, is a text again. -/
theorem ofText {value : Text} (hvalue : ∀ c ∈ value, isLiteral separator c = true)
    (hrest : startsWithText rest = false) (h : ReadsAs separator rest result) (tail : Text)
    (htail : Closes tail) (stack : List Frame) (before : List Node) :
    assemble stack before (lex separator (value ++ (render rest ++ tail))) =
      assemble stack (before ++ (Node.ofText value ++ result)) (lex separator tail) := by
  by_cases hne : value = []
  · subst hne
    simpa [Node.ofText] using h tail htail stack before
  · have htext := text hne hvalue hrest h tail htail stack before
    rw [render, List.append_assoc] at htext
    simpa [Node.ofText, hne] using htext

/-- A name takes the characters of the text that may stand in a name, and leaves the others. -/
theorem named_text (hmarks : Marks mark make) (hname : ParamName.isIdentifier name = true)
    {value : Text} (hvalue : ∀ c ∈ value, isLiteral separator c = true)
    (hrest : startsWithText rest = false) (h : ReadsAs separator rest result) :
    ReadsAs separator (make name :: .text value :: rest)
      (absorb make name (.text value :: result)) := by
  intro tail htail stack before
  have hsplit : name ++ render (.text value :: rest) ++ tail =
      (name ++ value.takeWhile isNameChar) ++
        (value.dropWhile isNameChar ++ (render rest ++ tail)) := by
    rw [render, List.append_assoc, List.append_assoc, List.append_assoc, ← List.append_assoc
      (value.takeWhile isNameChar), List.takeWhile_append_dropWhile]
  have hne : name ++ value.takeWhile isNameChar ≠ [] := by
    simp [(ParamName.isIdentifier_iff.1 hname).1]
  have hall : ∀ c ∈ name ++ value.takeWhile isNameChar, isNameChar c = true := by
    intro c hc
    rcases List.mem_append.1 hc with hc | hc
    · exact isNameChar_of_mem hname c hc
    · exact List.all_eq_true.1 List.all_takeWhile c hc
  have hstops : Stops isNameChar (value.dropWhile isNameChar ++ (render rest ++ tail)) :=
    stops_append (stops_dropWhile _ _) fun _ => stops_name hrest htail
  have hleft : ∀ c ∈ value.dropWhile isNameChar, isLiteral separator c = true := fun c hc =>
    hvalue c ((List.dropWhile_suffix _).subset hc)
  rw [hmarks.render, List.cons_append, hsplit, lex_marked (hmarks.first separator) hne hall hstops,
    assemble, ofText hleft hrest h tail htail]
  simp [absorb, continuation, remainder]

end ReadsAs

variable {separator : Bool}

theorem readBack_ne_nil {nodes : List Node} (h : nodes ≠ []) : readBack nodes ≠ [] := by
  obtain ⟨node, rest, rfl⟩ := List.exists_cons_of_ne_nil h
  cases node <;> simp [readBack, absorb]

theorem absorb_of_no_text {make : Text → Node} {name : Text} {nodes : List Node}
    (h : startsWithText nodes = false) :
    absorb make name nodes = make (ParamName.sanitize name) :: nodes := by
  unfold absorb continuation remainder
  split
  · simp [startsWithText] at h
  · simp

theorem startsWithText_readBack {nodes : List Node} (h : startsWithText nodes = false) :
    startsWithText (readBack nodes) = false := by
  cases nodes with
  | nil => simp [readBack, startsWithText]
  | cons node rest =>
    cases node with
    | text value => simp [startsWithText] at h
    | param name | wildcard name | group inner => simp [readBack, absorb, startsWithText]

theorem ReadsAs.absorbed {mark : Char} {make : Text → Node} {name : Text} {rest : List Node}
    (hmarks : ReadsAs.Marks mark make) (hname : ParamName.isIdentifier name = true)
    (h : WellFormed separator rest)
    (ih : ∀ nodes, sizeOf nodes ≤ sizeOf rest → WellFormed separator nodes →
      ReadsAs separator nodes (readBack nodes)) :
    ReadsAs separator (make name :: rest) (absorb make name (readBack rest)) := by
  cases hrest : startsWithText rest with
  | false =>
    rw [absorb_of_no_text (startsWithText_readBack hrest)]
    exact .named hmarks hname hrest (ih rest (Nat.le_refl _) h)
  | true =>
    match rest, hrest with
    | .text value :: rest, _ =>
      simp only [WellFormed] at h
      obtain ⟨_, hvalue, hrest, h⟩ := h
      rw [readBack]
      exact .named_text hmarks hname hvalue hrest (ih rest (by simp) h)

/-- Well formed nodes are read as what their rendering holds. -/
theorem readsAs_readBack (nodes : List Node) (h : WellFormed separator nodes) :
    ReadsAs separator nodes (readBack nodes) := by
  match nodes with
  | [] =>
    rw [readBack]
    exact .nil
  | .text value :: rest =>
    simp only [WellFormed] at h
    obtain ⟨hne, hvalue, hrest, h⟩ := h
    rw [readBack]
    exact .text hne hvalue hrest (readsAs_readBack rest h)
  | .param name :: rest =>
    simp only [WellFormed] at h
    rw [readBack]
    exact .absorbed ReadsAs.marks_param h.1 h.2 fun nodes _ hnodes => readsAs_readBack nodes hnodes
  | .wildcard name :: rest =>
    simp only [WellFormed] at h
    rw [readBack]
    exact .absorbed ReadsAs.marks_wildcard h.1 h.2 fun nodes _ hnodes =>
      readsAs_readBack nodes hnodes
  | .group inner :: rest =>
    simp only [WellFormed] at h
    obtain ⟨hne, hinner, h⟩ := h
    rw [readBack]
    exact .group (readsAs_readBack inner hinner) (readBack_ne_nil hne) (readsAs_readBack rest h)
termination_by sizeOf nodes

theorem parse_render {nodes : List Node} (h : WellFormed separator nodes) :
    parse separator (render nodes) = .ok (readBack nodes) := by
  have hread := readsAs_readBack nodes h [] (by simp [Closes]) [] []
  rw [List.append_nil, List.nil_append, lex_nil] at hread
  simp only [parse, hread, assemble]

theorem continuation_readBack (nodes : List Node) :
    continuation (readBack nodes) = continuation nodes := by
  cases nodes with
  | nil => rw [readBack]
  | cons node rest => cases node <;> simp [readBack, absorb, continuation]

theorem continuation_eq_nil {nodes : List Node} (h : continuesName nodes = false) :
    continuation nodes = [] := by
  unfold continuation
  split
  · next value _ =>
    cases value with
    | nil => rfl
    | cons c cs =>
      have hc : isNameChar c = false := by simpa [continuesName] using h
      simp [hc]
  · rfl

theorem remainder_eq_self {nodes : List Node} (hnodes : WellFormed separator nodes)
    (h : continuesName nodes = false) : remainder nodes = nodes := by
  unfold remainder
  split
  · next value rest =>
    simp only [WellFormed] at hnodes
    obtain ⟨c, cs, rfl⟩ := List.exists_cons_of_ne_nil hnodes.1
    have hc : isNameChar c = false := by simpa [continuesName] using h
    simp [ofText, hc]
  · rfl

theorem absorb_of_not_continuesName {make : Text → Node} {name : Text} {nodes : List Node}
    (hname : ParamName.isIdentifier name = true) (hnodes : WellFormed separator nodes)
    (h : continuesName nodes = false) : absorb make name nodes = make name :: nodes := by
  rw [absorb, continuation_eq_nil h, remainder_eq_self hnodes h, List.append_nil,
    ParamName.sanitize_of_isIdentifier hname]

/-- Where no name runs on into text, the nodes come back as they were. -/
theorem readBack_of_separated {nodes : List Node} (h : WellFormed separator nodes)
    (hseparated : separated nodes = true) : readBack nodes = nodes := by
  induction nodes using readBack.induct with
  | case1 => rw [readBack]
  | case2 value rest ih =>
    simp only [WellFormed, separated] at h hseparated
    rw [readBack, ih h.2.2.2 hseparated]
  | case3 name rest ih | case4 name rest ih =>
    simp only [WellFormed, separated, Bool.and_eq_true, Bool.not_eq_true'] at h hseparated
    rw [readBack, ih h.2 hseparated.2, absorb_of_not_continuesName h.1 h.2 hseparated.1]
  | case5 inner rest ihInner ihRest =>
    simp only [WellFormed, separated, Bool.and_eq_true] at h hseparated
    rw [readBack, ihInner h.2.1 hseparated.1, ihRest h.2.2 hseparated.2]

/-- The names from the left, also those inside groups. -/
def names : List Node → List Text
  | [] => []
  | .text _ :: rest => names rest
  | .param name :: rest => name :: names rest
  | .wildcard name :: rest => name :: names rest
  | .group inner :: rest => names inner ++ names rest

theorem names_remainder (nodes : List Node) : names (remainder nodes) = names nodes := by
  unfold remainder
  split
  · next value rest =>
    unfold ofText
    split <;> simp [names]
  · rfl

theorem length_names_readBack (nodes : List Node) :
    (names (readBack nodes)).length = (names nodes).length := by
  induction nodes using readBack.induct with
  | case1 => rw [readBack]
  | case2 value rest ih => simp only [readBack, names, ih]
  | case3 name rest ih | case4 name rest ih =>
    simp only [readBack, absorb, names, names_remainder, List.length_cons, ih]
  | case5 inner rest ihInner ihRest =>
    simp only [readBack, names, List.length_append, ihInner, ihRest]

/-- A name that runs on into text comes back longer. -/
theorem continuation_eq_nil_of_sanitize_eq {name : Text} {nodes : List Node}
    (h : ParamName.sanitize (name ++ continuation nodes) = name) : continuation nodes = [] := by
  have hlength := ParamName.length_le_length_sanitize (name ++ continuation nodes)
  rw [h, List.length_append] at hlength
  exact List.eq_nil_of_length_eq_zero (by omega)

theorem not_continuesName_of_continuation {nodes : List Node} (h : continuation nodes = []) :
    continuesName nodes = false := by
  unfold continuesName
  split
  · next c cs rest => simpa [continuation, List.takeWhile_cons] using h
  · rfl

/-- Nodes whose names come back as they were are separated. -/
theorem separated_of_names_readBack {nodes : List Node}
    (h : names (readBack nodes) = names nodes) : separated nodes = true := by
  induction nodes using readBack.induct with
  | case1 => rw [separated]
  | case2 value rest ih =>
    rw [readBack, names, names] at h
    rw [separated, ih h]
  | case3 name rest ih | case4 name rest ih =>
    rw [readBack, absorb, names, names, names_remainder, List.cons.injEq] at h
    rw [separated, ih h.2, Bool.and_true, Bool.not_eq_true']
    apply not_continuesName_of_continuation
    rw [← continuation_readBack]
    exact continuation_eq_nil_of_sanitize_eq h.1
  | case5 inner rest ihInner ihRest =>
    rw [readBack, names, names] at h
    obtain ⟨hinner, hrest⟩ := List.append_inj h (length_names_readBack inner)
    rw [separated, ihInner hinner, ihRest hrest, Bool.and_true]

/-- Reading undoes rendering exactly if no name runs on into the text behind it. -/
theorem parse_render_eq_iff_separated {nodes : List Node} (h : WellFormed separator nodes) :
    parse separator (render nodes) = .ok nodes ↔ separated nodes = true := by
  rw [parse_render h, Except.ok.injEq]
  constructor
  · intro hsame
    exact separated_of_names_readBack (congrArg names hsame)
  · exact readBack_of_separated h

/-- In `/a{:b-c{*d}}e` each name ends before a character that no name holds. -/
def endedNames : List Node :=
  [.text "/a".toList, .group [.param ['b'], .text "-c".toList, .group [.wildcard ['d']]],
    .text ['e']]

/-- In `{:a}{*bc}` the name of the wildcard `b` runs on into the text `c`. -/
def runningName : List Node :=
  [.group [.param ['a']], .group [.wildcard ['b'], .text ['c']]]

theorem parse_render_ended_running :
    parse true "/a{:b-c{*d}}e".toList = .ok endedNames ∧
      parse true "{:a}{*bc}".toList ≠ .ok runningName := by
  have hended : WellFormed true endedNames := by
    simp [endedNames, WellFormed, startsWithText, ParamName.isIdentifier, ParamName.isWordChar,
      ParamName.startsWithDigit, isLiteral, isReserved]
  have hrunning : WellFormed true runningName := by
    simp [runningName, WellFormed, startsWithText, ParamName.isIdentifier, ParamName.isWordChar,
      ParamName.startsWithDigit, isLiteral, isReserved]
  have hendedText : render endedNames = "/a{:b-c{*d}}e".toList := by cbv
  have hrunningText : render runningName = "{:a}{*bc}".toList := by cbv
  have hseparated : separated endedNames = true := by cbv
  have hjoined : separated runningName = false := by cbv
  refine ⟨hendedText ▸ (parse_render_eq_iff_separated hended).2 hseparated, fun hsame => ?_⟩
  rw [← hrunningText, parse_render_eq_iff_separated hrunning, hjoined] at hsame
  exact absurd hsame (by decide)

end Node

end FileRoutes
