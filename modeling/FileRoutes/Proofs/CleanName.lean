import FileRoutes.Proofs.ReadBack

/-! Clean parameter names. Sanitising takes every name to a clean one and leaves the clean ones, and
no others, as they are, so a second time changes nothing. A clean name ends where reading a name
ends, so behind its mark it is read back as it stands. -/

namespace FileRoutes

namespace Node

open Lexeme

variable {mark : Char} {make : Text → Node} {name : Text}

/-- An identifier behind its mark is read as one node of that name. -/
theorem parse_mark (hmarks : ReadsAs.Marks mark make) (hname : ParamName.isIdentifier name = true)
    (separator : Bool) : parse separator (mark :: name) = .ok [make name] := by
  have hnamed : ReadsAs separator [make name] [make (ParamName.sanitize name)] :=
    .named hmarks hname rfl .nil
  have hread := hnamed [] (by simp [Closes]) [] []
  rw [hmarks.render, render, List.append_nil, List.append_nil, lex_nil,
    ParamName.sanitize_of_isIdentifier hname] at hread
  simp only [parse, hread, assemble, List.nil_append]

end Node

namespace ParamName

def IsDigit (c : Char) : Prop :=
  '0' ≤ c ∧ c ≤ '9'

def IsLetter (c : Char) : Prop :=
  'a' ≤ c ∧ c ≤ 'z' ∨ 'A' ≤ c ∧ c ≤ 'Z'

/-- At least one letter, digit or `_`, and nothing else; no digit in front. -/
structure Clean (name : Text) : Prop where
  nonempty : name ≠ []
  word : ∀ c ∈ name, IsLetter c ∨ IsDigit c ∨ c = '_'
  front : ∀ c ∈ name.head?, ¬ IsDigit c

theorem isDigit_iff {c : Char} : c.isDigit = true ↔ IsDigit c := by
  simp [Char.isDigit, IsDigit, Char.le_def]

theorem isWordChar_iff {c : Char} : isWordChar c = true ↔ IsLetter c ∨ IsDigit c ∨ c = '_' := by
  have hletter : c.isAlpha = true ↔ IsLetter c := by
    simp [Char.isAlpha, Char.isUpper, Char.isLower, IsLetter, Char.le_def, or_comm]
  simp only [isWordChar, Char.isAlphanum, Bool.or_eq_true, beq_iff_eq, hletter, isDigit_iff,
    or_assoc]

theorem startsWithDigit_eq_false_iff {name : Text} :
    startsWithDigit name = false ↔ ∀ c ∈ name.head?, ¬ IsDigit c := by
  cases name with
  | nil => simp [startsWithDigit]
  | cons c cs => simp [startsWithDigit, ← isDigit_iff]

theorem clean_iff {name : Text} : Clean name ↔ isIdentifier name = true := by
  rw [isIdentifier_iff, startsWithDigit_eq_false_iff]
  simp only [isWordChar_iff]
  exact ⟨fun h => ⟨h.nonempty, h.word, h.front⟩, fun ⟨hne, hword, hfront⟩ => ⟨hne, hword, hfront⟩⟩

theorem sanitize_eq_self_iff {raw : Text} : sanitize raw = raw ↔ Clean raw := by
  rw [clean_iff]
  constructor
  · intro h
    rw [← h]
    exact isIdentifier_sanitize raw
  · exact sanitize_of_isIdentifier

/-- Sanitised names are clean, the clean names are those that stay as they are, and a sanitised name
is read back behind the mark of a parameter or a wildcard. -/
theorem sanitize_settles (raw : Text) :
    Clean (sanitize raw) ∧ (sanitize raw = raw ↔ Clean raw) ∧
      sanitize (sanitize raw) = sanitize raw ∧
      ∀ separator, Node.parse separator (':' :: sanitize raw) = .ok [.param (sanitize raw)] ∧
        Node.parse separator ('*' :: sanitize raw) = .ok [.wildcard (sanitize raw)] := by
  have hclean : Clean (sanitize raw) := clean_iff.2 (isIdentifier_sanitize raw)
  refine ⟨hclean, sanitize_eq_self_iff, sanitize_eq_self_iff.2 hclean, fun separator => ?_⟩
  have hname := clean_iff.1 hclean
  exact ⟨Node.parse_mark Node.ReadsAs.marks_param hname separator,
    Node.parse_mark Node.ReadsAs.marks_wildcard hname separator⟩

example : sanitize [] = "_e3b0c442".toList := by decide +kernel

end ParamName

end FileRoutes
