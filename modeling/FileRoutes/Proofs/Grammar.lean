import FileRoutes.Proofs.ParsedNodes
import Mathlib

/-! The grammar of segments. A segment is a sequence of items: literal characters, names behind a
mark or between brackets, and groups of items between braces. Reading accepts the texts of the
grammar and no others. What is left to read is a sequence of items up to the brace that closes the
innermost open group, then one up to the next brace, and so on outwards; the lexemes are shown one
by one to keep this, and to fail where it does not hold. -/

namespace FileRoutes

namespace Grammar

/-- Characters that do not stand for themselves. -/
def special : List Char :=
  ['{', '}', '[', ']', ':', '*', '(', ')', '?', '+', '!', '\\']

/-- What may stand between brackets. Three dots need a name behind them. -/
structure BracketText (raw : Text) : Prop where
  ne_nil : raw ≠ []
  ne_dots : raw ≠ ['.', '.', '.']
  plain : ∀ c ∈ raw, c ≠ '[' ∧ c ≠ ']' ∧ c ≠ '/'

inductive Item (separator : Bool) : Text → Prop where
  | literal {c : Char} (hspecial : c ∉ special) (hseparator : separator = true ∨ c ≠ '/') :
      Item separator [c]
  | marked {mark : Char} {name : Text} (hmark : mark = ':' ∨ mark = '*') (hne : name ≠ [])
      (hname : ∀ c ∈ name, c.isAlphanum = true ∨ c = '_' ∨ c = '$') : Item separator (mark :: name)
  | bracket {raw : Text} (hraw : BracketText raw) : Item separator ('[' :: (raw ++ [']']))
  | doubleBracket {raw : Text} (hraw : BracketText raw) :
      Item separator ('[' :: '[' :: (raw ++ [']', ']']))
  | group {items : List Text} (hne : items ≠ []) (hitems : ∀ item ∈ items, Item separator item) :
      Item separator ('{' :: (items.flatten ++ ['}']))

def Items (separator : Bool) (t : Text) : Prop :=
  ∃ items : List Text, (∀ item ∈ items, Item separator item) ∧ t = items.flatten

/-- The text goes on inside `depth` open groups and closes them all. A group that is `fresh` holds
nothing yet, so that an item has to come before its brace. -/
def Completes (separator : Bool) : (depth : Nat) → (fresh : Bool) → Text → Prop
  | 0, _, t => Items separator t
  | depth + 1, fresh, t =>
    ∃ inner rest, t = inner ++ '}' :: rest ∧ Items separator inner ∧
      (fresh = true → inner ≠ []) ∧ Completes separator depth false rest

variable {separator fresh : Bool} {depth : Nat} {c : Char} {cs : Text}

open Lexeme

theorem isLiteral_iff_not_special :
    isLiteral separator c = true ↔ c ∉ special ∧ (separator = true ∨ c ≠ '/') := by
  simp [isLiteral, isReserved, special, and_assoc]

theorem isNameChar_iff : isNameChar c = true ↔ c.isAlphanum = true ∨ c = '_' ∨ c = '$' := by
  simp [isNameChar, or_assoc]

theorem isBracketName_iff : isBracketName c = true ↔ c ≠ '[' ∧ c ≠ ']' ∧ c ≠ '/' := by
  simp [isBracketName, and_assoc]

theorem isLiteral_of_isNameChar (h : isNameChar c = true) : isLiteral separator c = true := by
  have hspecial : ∀ d ∈ special, isNameChar d = false := by simp [special, isNameChar]
  refine isLiteral_iff_not_special.2 ⟨fun hmem => ?_, Or.inr ?_⟩
  · simp [hspecial c hmem] at h
  · rintro rfl
    exact absurd h (by decide)

namespace Item

theorem ne_nil {item : Text} (h : Item separator item) : item ≠ [] := by
  cases h <;> simp

theorem of_isLiteral (h : isLiteral separator c = true) : Item separator [c] :=
  .literal (isLiteral_iff_not_special.1 h).1 (isLiteral_iff_not_special.1 h).2

/-- A literal character at the head is an item of its own. -/
theorem eq_singleton {item rest : Text} (h : Item separator item)
    (hc : isLiteral separator c = true) (hsplit : c :: cs = item ++ rest) : item = [c] := by
  have hspecial := (isLiteral_iff_not_special.1 hc).1
  cases h with
  | literal => simp_all
  | marked hmark =>
    obtain rfl : c = _ := (List.cons.inj hsplit).1
    rcases hmark with rfl | rfl <;> simp [special] at hspecial
  | bracket | doubleBracket | group =>
    obtain rfl : c = _ := (List.cons.inj hsplit).1
    simp [special] at hspecial

theorem head_ne_closing {item rest : Text} (h : Item separator item) :
    '}' :: cs ≠ item ++ rest := by
  intro hsplit
  cases h with
  | literal hspecial =>
    obtain rfl : '}' = _ := (List.cons.inj hsplit).1
    simp [special] at hspecial
  | marked hmark =>
    obtain rfl : '}' = _ := (List.cons.inj hsplit).1
    simp at hmark
  | bracket | doubleBracket | group => simp at hsplit

end Item

namespace Items

theorem nil : Items separator [] :=
  ⟨[], by simp, rfl⟩

theorem singleton {item : Text} (h : Item separator item) : Items separator item :=
  ⟨[item], by simpa using h, by simp⟩

theorem append {s t : Text} (hs : Items separator s) (ht : Items separator t) :
    Items separator (s ++ t) := by
  obtain ⟨first, hfirst, rfl⟩ := hs
  obtain ⟨second, hsecond, rfl⟩ := ht
  refine ⟨first ++ second, fun item hitem => ?_, by simp⟩
  rcases List.mem_append.1 hitem with hitem | hitem
  · exact hfirst item hitem
  · exact hsecond item hitem

theorem uncons {t : Text} (h : Items separator t) (hne : t ≠ []) :
    ∃ item rest, Item separator item ∧ t = item ++ rest ∧ Items separator rest := by
  obtain ⟨items, hitems, rfl⟩ := h
  cases items with
  | nil => simp at hne
  | cons item items =>
    exact ⟨item, items.flatten, hitems item (by simp), rfl, items,
      fun other hother => hitems other (by simp [hother]), rfl⟩

theorem of_literals {t : Text} (h : ∀ c ∈ t, isLiteral separator c = true) : Items separator t := by
  induction t with
  | nil => exact nil
  | cons c t ih =>
    exact (singleton (.of_isLiteral (h c (by simp)))).append (ih fun d hd => h d (by simp [hd]))

theorem group {inner : Text} (h : Items separator inner) (hne : inner ≠ []) :
    Items separator ('{' :: (inner ++ ['}'])) := by
  obtain ⟨items, hitems, rfl⟩ := h
  exact singleton (.group (fun hnil => hne (by simp [hnil])) hitems)

end Items

namespace Completes

theorem append {piece rest : Text} (hpiece : Items separator piece) (hne : piece ≠ [])
    (h : Completes separator depth false rest) :
    Completes separator depth fresh (piece ++ rest) := by
  cases depth with
  | zero => exact hpiece.append h
  | succ depth =>
    obtain ⟨inner, rest, rfl, hinner, _, hrest⟩ := h
    exact ⟨piece ++ inner, rest, by simp, hpiece.append hinner, by simp [hne], hrest⟩

theorem uncons (h : Completes separator depth fresh (c :: cs)) (hc : c ≠ '}') :
    ∃ item rest, Item separator item ∧ c :: cs = item ++ rest ∧
      Completes separator depth false rest := by
  cases depth with
  | zero => exact Items.uncons h (by simp)
  | succ depth =>
    obtain ⟨inner, rest, hsplit, hinner, _, hrest⟩ := h
    have hne : inner ≠ [] := by
      rintro rfl
      exact hc (List.cons.inj hsplit).1
    obtain ⟨item, later, hitem, rfl, hlater⟩ := hinner.uncons hne
    exact ⟨item, later ++ '}' :: rest, hitem, by simpa using hsplit, later, rest, rfl, hlater,
      by simp, hrest⟩

theorem nil_iff : Completes separator depth fresh [] ↔ depth = 0 := by
  cases depth with
  | zero => simp [Completes, Items.nil]
  | succ depth => simp [Completes]

theorem closing_iff :
    Completes separator depth fresh ('}' :: cs) ↔
      ∃ outer, depth = outer + 1 ∧ fresh = false ∧ Completes separator outer false cs := by
  cases depth with
  | zero =>
    simp only [Completes, Nat.right_eq_add, Nat.add_eq_zero_iff]
    refine ⟨fun h => ?_, by simp⟩
    obtain ⟨item, rest, hitem, hsplit, _⟩ := h.uncons (by simp)
    exact absurd hsplit hitem.head_ne_closing
  | succ depth =>
    constructor
    · rintro ⟨inner, rest, hsplit, hinner, hfresh, hrest⟩
      by_cases hne : inner = []
      · subst hne
        obtain rfl := (List.cons.inj hsplit).2
        exact ⟨depth, rfl, by simpa using hfresh, hrest⟩
      · obtain ⟨item, later, hitem, rfl, _⟩ := hinner.uncons hne
        rw [List.append_assoc] at hsplit
        exact absurd hsplit hitem.head_ne_closing
    · rintro ⟨outer, houter, rfl, h⟩
      obtain rfl := Nat.succ.inj houter
      exact ⟨[], cs, rfl, .nil, by simp, h⟩

theorem opening_iff :
    Completes separator depth fresh ('{' :: cs) ↔ Completes separator (depth + 1) true cs := by
  constructor
  · intro h
    obtain ⟨item, rest, hitem, hsplit, hrest⟩ := h.uncons (by decide)
    cases hitem with
    | literal hspecial =>
      obtain rfl : '{' = _ := (List.cons.inj hsplit).1
      simp [special] at hspecial
    | marked hmark =>
      obtain rfl : '{' = _ := (List.cons.inj hsplit).1
      simp at hmark
    | bracket | doubleBracket => simp at hsplit
    | @group items hne hitems =>
      obtain ⟨item, items, rfl⟩ := List.exists_cons_of_ne_nil hne
      refine ⟨(item :: items).flatten, rest, by simpa using hsplit, ⟨_, hitems, rfl⟩, fun _ => ?_,
        hrest⟩
      simp [(hitems item (by simp)).ne_nil]
  · rintro ⟨inner, rest, rfl, hinner, hne, hrest⟩
    simpa using append (hinner.group (hne rfl)) (by simp) hrest

/-- Literal characters may be left out at the head. -/
theorem of_literals {more t : Text} (hmore : ∀ c ∈ more, isLiteral separator c = true)
    (h : Completes separator depth false (more ++ t)) : Completes separator depth false t := by
  induction more with
  | nil => exact h
  | cons c more ih =>
    have hc := hmore c (by simp)
    have hclosing : c ≠ '}' := (isLiteral_iff.1 hc).1.2.1
    obtain ⟨item, rest, hitem, hsplit, hrest⟩ := h.uncons hclosing
    obtain rfl := hitem.eq_singleton hc hsplit
    obtain rfl : more ++ t = rest := (List.cons.inj hsplit).2
    exact ih (fun d hd => hmore d (by simp [hd])) hrest

end Completes

theorem bracketed_cases (double : Bool) (raw : Text) :
    bracketed double raw = .fault .missingName ∨ ∃ node, bracketed double raw = .node node := by
  unfold bracketed
  dsimp only
  split
  · exact Or.inl rfl
  · right
    split
    · exact ⟨_, rfl⟩
    · split <;> exact ⟨_, rfl⟩

/-- A bracket is a node if a name is left once three dots are taken off. -/
theorem bracketed_eq_node_iff {double : Bool} {raw : Text} :
    (∃ node, bracketed double raw = .node node) ↔ raw ≠ [] ∧ raw ≠ ['.', '.', '.'] := by
  have hnode : (∃ node, bracketed double raw = .node node) ↔
      (Text.after? ['.', '.', '.'] raw).getD raw ≠ [] := by
    simp only [bracketed, List.isEmpty_iff, ne_eq]
    split
    · next hempty => simp [hempty]
    · next hne =>
      simp only [hne, not_false_eq_true, iff_true]
      split
      · exact ⟨_, rfl⟩
      · split <;> exact ⟨_, rfl⟩
  rw [hnode]
  cases hafter : Text.after? ['.', '.', '.'] raw with
  | none =>
    have hdots : raw ≠ ['.', '.', '.'] := by
      rintro rfl
      simp [Text.after?] at hafter
    simp [hdots]
  | some name =>
    rw [Text.eq_append_of_after? hafter]
    simp

/-- The brackets that close a name. -/
def closing (double : Bool) : Text :=
  if double then [']', ']'] else [']']

/-- What stands in closed brackets is read up to them. -/
theorem bracket_append_closing {inner : Text} (h : ∀ c ∈ inner, isBracketName c = true)
    (double : Bool) (rest : Text) :
    Lexeme.bracket double (inner ++ (closing double ++ rest)) = (bracketed double inner, rest) := by
  have hstops : Stops isBracketName (closing double ++ rest) := by
    cases double <;> simp [Stops, closing, isBracketName]
  unfold Lexeme.bracket
  rw [takeWhile_append_of_stops h hstops, dropWhile_append_of_stops h hstops]
  cases double <;> simp [closing]

theorem BracketText.read {raw : Text} (h : BracketText raw) (double : Bool) (rest : Text) :
    ∃ node, Lexeme.bracket double (raw ++ (closing double ++ rest)) = (.node node, rest) := by
  have hraw : ∀ c ∈ raw, isBracketName c = true := fun c hc => isBracketName_iff.2 (h.plain c hc)
  obtain ⟨node, hnode⟩ : ∃ node, bracketed double raw = .node node :=
    bracketed_eq_node_iff.2 ⟨h.ne_nil, h.ne_dots⟩
  exact ⟨node, by rw [bracket_append_closing hraw, hnode]⟩

/-- Each item but a group is read as a node, which takes at most literal characters more. -/
theorem Item.read {item rest : Text} (h : Item separator item) (hopen : c ≠ '{')
    (hsplit : c :: cs = item ++ rest) :
    ∃ node more, (first separator c cs).1 = .node node ∧
      rest = more ++ (first separator c cs).2 ∧ ∀ c ∈ more, isLiteral separator c = true := by
  cases h with
  | literal hspecial hseparator =>
    obtain ⟨rfl, rfl⟩ := List.cons.inj hsplit
    rw [first_of_isLiteral (isLiteral_iff_not_special.2 ⟨hspecial, hseparator⟩)]
    exact ⟨_, cs.takeWhile (isLiteral separator), rfl, List.takeWhile_append_dropWhile.symm,
      List.all_eq_true.1 List.all_takeWhile⟩
  | @marked mark name hmark hne hname =>
    rw [List.cons_append, List.cons.injEq] at hsplit
    obtain ⟨rfl, rfl⟩ := hsplit
    have hname : ∀ d ∈ name, isNameChar d = true := fun d hd => isNameChar_iff.2 (hname d hd)
    obtain ⟨make, hmarks⟩ : ∃ make, Node.ReadsAs.Marks c make := by
      rcases hmark with rfl | rfl
      · exact ⟨_, Node.ReadsAs.marks_param⟩
      · exact ⟨_, Node.ReadsAs.marks_wildcard⟩
    rw [hmarks.first, Lexeme.marked, List.takeWhile_append_of_pos hname,
      List.dropWhile_append_of_pos hname, if_neg (by simp [hne])]
    refine ⟨_, rest.takeWhile isNameChar, rfl, List.takeWhile_append_dropWhile.symm,
      fun d hd => ?_⟩
    exact isLiteral_of_isNameChar (List.all_eq_true.1 List.all_takeWhile d hd)
  | @bracket raw hraw =>
    rw [List.cons_append, List.cons.injEq] at hsplit
    obtain ⟨rfl, rfl⟩ := hsplit
    obtain ⟨node, hnode⟩ := hraw.read false rest
    obtain ⟨d, raw, rfl⟩ := List.exists_cons_of_ne_nil hraw.ne_nil
    have hd : d ≠ '[' := (hraw.plain d (by simp)).1
    have hfirst : first separator '[' ((d :: raw ++ [']']) ++ rest) = (.node node, rest) := by
      rw [← hnode]
      simp [first, closing, hd]
    rw [hfirst]
    exact ⟨node, [], rfl, rfl, by simp⟩
  | @doubleBracket raw hraw =>
    rw [List.cons_append, List.cons.injEq] at hsplit
    obtain ⟨rfl, rfl⟩ := hsplit
    obtain ⟨node, hnode⟩ := hraw.read true rest
    have hfirst : first separator '[' ('[' :: (raw ++ [']', ']']) ++ rest) = (.node node, rest) := by
      rw [← hnode]
      simp [first, closing]
    rw [hfirst]
    exact ⟨node, [], rfl, rfl, by simp⟩
  | group => exact absurd (List.cons.inj hsplit).1 hopen

/-- A lexeme that is a node stands for items. -/
structure Stands (separator : Bool) (c : Char) (cs : Text) (read : Lexeme × Text) : Prop where
  items : ∀ node, read.1 = .node node →
    ∃ piece, piece ≠ [] ∧ Items separator piece ∧ c :: cs = piece ++ read.2
  openGroup : read.1 = .openGroup → c = '{'
  closeGroup : read.1 = .closeGroup → c = '}'

namespace Stands

theorem fault (fault : Fault) (rest : Text) : Stands separator c cs (.fault fault, rest) :=
  ⟨by simp, by simp, by simp⟩

theorem node {node : Node} {item rest : Text} (h : Item separator item)
    (hsplit : c :: cs = item ++ rest) : Stands separator c cs (.node node, rest) :=
  ⟨fun _ _ => ⟨item, h.ne_nil, .singleton h, hsplit⟩, by simp, by simp⟩

theorem marked (make : Text → Node) (hmark : c = ':' ∨ c = '*') :
    Stands separator c cs (Lexeme.marked make cs) := by
  unfold Lexeme.marked
  dsimp only
  split
  · exact fault _ _
  · next hne =>
    refine node (.marked hmark (by simpa using hne) fun d hd => ?_)
      (congrArg (c :: ·) List.takeWhile_append_dropWhile.symm)
    exact isNameChar_iff.1 (List.all_eq_true.1 List.all_takeWhile d hd)

theorem bracketed {double : Bool} {raw rest : Text} (hraw : ∀ d ∈ raw, isBracketName d = true)
    (hitem : BracketText raw → ∃ item, Item separator item ∧ c :: cs = item ++ rest) :
    Stands separator c cs (Lexeme.bracketed double raw, rest) := by
  rcases bracketed_cases double raw with hread | ⟨_, hread⟩
  · rw [hread]
    exact fault _ _
  · obtain ⟨hne, hdots⟩ := bracketed_eq_node_iff.1 ⟨_, hread⟩
    obtain ⟨item, hitem, hsplit⟩ := hitem
      ⟨hne, hdots, fun d hd => isBracketName_iff.1 (hraw d hd)⟩
    rw [hread]
    exact node hitem hsplit

theorem bracket (cs : Text) : Stands separator '[' cs (Lexeme.bracket false cs) := by
  unfold Lexeme.bracket
  split
  · next rest hrest =>
    refine bracketed (List.all_eq_true.1 List.all_takeWhile) fun htext => ⟨_, .bracket htext, ?_⟩
    simp [← hrest]
  · simp_all
  · exact fault _ _

theorem doubleBracket (inner : Text) :
    Stands separator '[' ('[' :: inner) (Lexeme.bracket true inner) := by
  unfold Lexeme.bracket
  split
  · simp_all
  · next rest hrest =>
    refine bracketed (List.all_eq_true.1 List.all_takeWhile) fun htext =>
      ⟨_, .doubleBracket htext, ?_⟩
    simp [← hrest]
  · exact fault _ _

theorem first (separator : Bool) (c : Char) (cs : Text) :
    Stands separator c cs (Lexeme.first separator c cs) := by
  unfold Lexeme.first
  split
  · next hc => exact ⟨by simp, by simp [hc], by simp⟩
  split
  · next hc => exact ⟨by simp, by simp, by simp [hc]⟩
  split
  · next hc => exact marked _ (.inl hc)
  split
  · next hc => exact marked _ (.inr hc)
  split
  · next hc =>
    subst hc
    split
    · exact doubleBracket _
    · exact bracket _
  split
  · exact fault _ _
  split
  · next hc =>
    refine ⟨fun _ _ => ⟨c :: cs.takeWhile (isLiteral separator), by simp, ?_, ?_⟩, by simp, by simp⟩
    · refine .of_literals fun d hd => ?_
      rcases List.mem_cons.1 hd with rfl | hd
      · exact hc
      · exact List.all_eq_true.1 List.all_takeWhile d hd
    · exact congrArg (c :: ·) List.takeWhile_append_dropWhile.symm
  · exact fault _ _

end Stands

/-- Where no brace comes next, the text can be completed if a node comes next and the text behind
it can. -/
theorem completes_cons_iff (hopen : c ≠ '{') (hclose : c ≠ '}') :
    Completes separator depth fresh (c :: cs) ↔
      ∃ node, (first separator c cs).1 = .node node ∧
        Completes separator depth false (first separator c cs).2 := by
  constructor
  · intro h
    -- The lexeme can be longer than the item, by literal characters that are items of their own.
    obtain ⟨item, rest, hitem, hsplit, hrest⟩ := h.uncons hclose
    obtain ⟨node, more, hnode, rfl, hmore⟩ := hitem.read hopen hsplit
    exact ⟨node, hnode, hrest.of_literals hmore⟩
  · rintro ⟨node, hnode, h⟩
    obtain ⟨piece, hne, hpiece, hsplit⟩ := (Stands.first separator c cs).items node hnode
    rw [hsplit]
    exact .append hpiece hne h

/-- Reading succeeds on the texts that close all open groups. -/
theorem assemble_ok_iff {t : Text} {stack : List Node.Frame} {nodes : List Node} :
    (∃ result, Node.assemble stack nodes (lex separator t) = .ok result) ↔
      Completes separator stack.length nodes.isEmpty t := by
  have hnonempty : ∀ (before : List Node) (last : Node), (before ++ [last]).isEmpty = false := by
    simp [List.isEmpty_eq_false_iff]
  -- On the lexemes: a brace goes one group in or out, anything else is a node or a fault.
  induction t using lex.induct separator generalizing stack nodes with
  | case1 =>
    rw [lex_nil, Completes.nil_iff]
    cases stack <;> simp [Node.assemble]
  | case2 c cs ih =>
    by_cases hopen : c = '{'
    · subst hopen
      have hfirst : first separator '{' cs = (.openGroup, cs) := by simp [first]
      rw [lex_openGroup, Node.assemble, Completes.opening_iff]
      rw [hfirst] at ih
      exact ih
    by_cases hclose : c = '}'
    · subst hclose
      have hfirst : first separator '}' cs = (.closeGroup, cs) := by simp [first]
      rw [lex_closeGroup, Completes.closing_iff]
      rw [hfirst] at ih
      cases stack with
      | nil => simp [Node.assemble]
      | cons frame stack =>
        cases nodes with
        | nil => simp [Node.assemble]
        | cons n ns => simp [Node.assemble, ih, hnonempty]
    have hstands := Stands.first separator c cs
    rw [lex, completes_cons_iff hopen hclose]
    cases hfirst : (first separator c cs).1 with
    | fault fault => simp [Node.assemble]
    | node node => simp [Node.assemble, ih, hnonempty]
    | openGroup => exact absurd (hstands.openGroup hfirst) hopen
    | closeGroup => exact absurd (hstands.closeGroup hfirst) hclose

end Grammar

namespace Node

variable {separator : Bool}

theorem parse_isOk_iff {t : Text} :
    (∃ nodes, parse separator t = .ok nodes) ↔ Grammar.Items separator t := by
  have hread : (∃ nodes, assemble [] [] (Lexeme.lex separator t) = .ok nodes) ↔
      Grammar.Items separator t := Grammar.assemble_ok_iff
  rw [← hread, parse]
  cases assemble [] [] (Lexeme.lex separator t) <;> simp

theorem WellFormed.isIdentifier_of_mem_names {nodes : List Node} (h : WellFormed separator nodes)
    {name : Text} (hname : name ∈ names nodes) : ParamName.isIdentifier name = true := by
  induction nodes using names.induct with
  | case1 => simp [names] at hname
  | case2 value rest ih =>
    simp only [WellFormed, names] at h hname
    exact ih h.2.2.2 hname
  | case3 other rest ih | case4 other rest ih =>
    simp only [WellFormed, names, List.mem_cons] at h hname
    rcases hname with rfl | hname
    · exact h.1
    · exact ih h.2 hname
  | case5 inner rest ihInner ihRest =>
    simp only [WellFormed, names, List.mem_append] at h hname
    rcases hname with hname | hname
    · exact ihInner h.2.1 hname
    · exact ihRest h.2.2 hname

/-- Reading accepts exactly the texts of the grammar. What it returns has no empty texts or groups,
no two texts in a row, and only names that stand for themselves. -/
theorem parse_accepts_grammar (separator : Bool) (t : Text) :
    ((∃ nodes, parse separator t = .ok nodes) ↔ Grammar.Items separator t) ∧
      ∀ nodes, parse separator t = .ok nodes → WellFormed separator nodes ∧
        ∀ name ∈ names nodes, ParamName.sanitize name = name := by
  refine ⟨parse_isOk_iff, fun nodes hparse => ?_⟩
  have hwellFormed := wellFormed_of_parse hparse
  exact ⟨hwellFormed, fun name hname =>
    ParamName.sanitize_of_isIdentifier (hwellFormed.isIdentifier_of_mem_names hname)⟩

/-- A group of nothing is not in the grammar, a group of a mark and a bracket is. -/
theorem parse_accepts_nested_not_empty_group :
    ∃ nodes, parse false "a{:b[[c]]}".toList = .ok nodes ∧
      Grammar.Items false "a{:b[[c]]}".toList ∧ WellFormed false nodes ∧
      (∀ name ∈ names nodes, ParamName.sanitize name = name) ∧
      ¬ Grammar.Items false "a{}".toList := by
  have hparse : parse false "a{:b[[c]]}".toList =
      .ok [.text ['a'], .group [.param ['b'], .group [.param ['c']]]] := by cbv
  have hempty : parse false "a{}".toList =
      .error (.malformed "a{}".toList 2 (.unexpected '}')) := by cbv
  obtain ⟨haccepts, hnormal⟩ := parse_accepts_grammar false "a{:b[[c]]}".toList
  obtain ⟨hwellFormed, hnames⟩ := hnormal _ hparse
  refine ⟨_, hparse, haccepts.1 ⟨_, hparse⟩, hwellFormed, hnames, fun hitems => ?_⟩
  obtain ⟨nodes, hnodes⟩ := (parse_accepts_grammar false "a{}".toList).1.2 hitems
  rw [hempty] at hnodes
  cases hnodes

end Node

end FileRoutes
