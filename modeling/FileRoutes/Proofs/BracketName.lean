import FileRoutes.Proofs.CompiledPattern
import FileRoutes.Proofs.Confusion
import FileRoutes.Proofs.Grammar
import FileRoutes.Proofs.SplatNotation

/-! Names in brackets. A name between single brackets is a required parameter, between double
brackets an optional one, and behind three dots a wildcard. The name is read once the splats of the
segment are normalised, those in the name too; so it is the name as it is written exactly if no
splat opens in it. -/

namespace FileRoutes

namespace Grammar

open Lexeme

/-- A text between single or double brackets. -/
def inBrackets (double : Bool) (inner : Text) : Text :=
  if double then '[' :: '[' :: (inner ++ closing true) else '[' :: (inner ++ closing false)

variable {separator double : Bool} {inner raw : Text}

theorem normalizeSplats_inBrackets (double : Bool) (inner : Text) :
    Node.normalizeSplats (inBrackets double inner) =
      inBrackets double (Node.normalizeSplats inner) := by
  cases double <;>
    simp [inBrackets, closing, Node.normalizeSplats, Node.normalizeSplats_append_cons]

theorem lex_inBrackets (h : ∀ c ∈ inner, isBracketName c = true) (double : Bool) :
    lex separator (inBrackets double inner) =
      [(inBrackets double inner, bracketed double inner)] := by
  have hread := bracket_append_closing h double []
  rw [List.append_nil] at hread
  cases double with
  | true => simp [inBrackets, lex, first, hread]
  | false =>
    have hfirst : first separator '[' (inner ++ closing false) = (bracketed false inner, []) := by
      rw [← hread]
      simp only [first, Char.reduceEq, if_false, if_true]
      split
      · next rest hopens =>
        -- A bracket right behind the first would be one of the name, or the one that closes it.
        cases inner with
        | nil => simp [closing] at hopens
        | cons c inner =>
          obtain rfl := (List.cons.inj hopens).1
          exact absurd (h '[' (by simp)) (by decide)
      · rfl
    simp [inBrackets, lex, hfirst]

theorem parse_inBrackets {node : Node} (h : ∀ c ∈ inner, isBracketName c = true)
    (hnode : bracketed double inner = .node node) :
    Node.parse separator (inBrackets double inner) = .ok [node] := by
  simp [Node.parse, lex_inBrackets h, hnode, Node.assemble]

theorem bracketed_of_no_dots (hne : raw ≠ []) (hdots : Text.after? ['.', '.', '.'] raw = none) :
    bracketed double raw = .node (if double then .group [.param (ParamName.sanitize raw)]
      else .param (ParamName.sanitize raw)) := by
  cases double <;> simp [bracketed, hdots, hne]

theorem bracketed_dots_append (hne : raw ≠ []) :
    bracketed double (['.', '.', '.'] ++ raw) =
      .node (.group [.wildcard (ParamName.sanitize raw)]) := by
  have hafter := Text.after?_append ['.', '.', '.'] raw
  simp only [bracketed, hafter, Option.getD_some, List.isEmpty_iff, hne, if_false,
    Option.isSome_some, if_true]

end Grammar

namespace Text

theorem after?_eq_none_iff {start t : Text} : after? start t = none ↔ ¬ start <+: t := by
  constructor
  · rintro h ⟨rest, rfl⟩
    rw [after?_append] at h
    cases h
  · intro h
    cases hafter : after? start t with
    | none => rfl
    | some rest => exact absurd ⟨rest, (eq_append_of_after? hafter).symm⟩ h

end Text

namespace ParamName

open Node (normalizeSplats splatOpening)

theorem startsWithDigit_congr {raw other : Text} (h : raw.head? = other.head?) :
    startsWithDigit raw = startsWithDigit other := by
  cases raw <;> cases other <;> simp_all [startsWithDigit]

theorem isIdentifier_of_brace_mem {raw : Text} (h : '{' ∈ raw) : isIdentifier raw = false := by
  refine Bool.eq_false_iff.2 fun hraw => ?_
  exact absurd ((isIdentifier_iff.1 hraw).2.1 '{' h) (by decide)

/-- Normalising a splat shortens the name and with it the masked name, and so is never lost. -/
theorem sanitize_normalizeSplats_eq_iff {raw : Text} :
    sanitize (normalizeSplats raw) = sanitize raw ↔ ¬ splatOpening <:+: raw := by
  constructor
  · intro h hopens
    have hbrace : '{' ∈ raw := hopens.subset (by simp [splatOpening])
    have hshorter := Node.length_normalizeSplats_lt hopens
    have hdigit : startsWithDigit (normalizeSplats raw) = startsWithDigit raw :=
      startsWithDigit_congr (Node.head?_normalizeSplats raw)
    rw [sanitize_of_not_isIdentifier (isIdentifier_of_brace_mem hbrace),
      sanitize_of_not_isIdentifier
        (isIdentifier_of_brace_mem (Node.brace_mem_normalizeSplats hbrace))] at h
    have hmasked := congrArg List.length (rewritten_eq_iff.1 h).1
    rw [length_masked, length_masked, hdigit] at hmasked
    omega
  · intro h
    rw [Node.normalizeSplats_eq_self_iff.2 h]

end ParamName

namespace Token

open Lexeme (isBracketName)
open Node (normalizeSplats splatOpening)
open Grammar (inBrackets)

/-- The four forms of a bracket around `raw` compile to one parameter of the name. -/
structure BracketForms (raw name : Text) : Prop where
  required : compile (inBrackets false raw) =
    .ok ⟨.param, inBrackets false raw, '/' :: ':' :: name, [.param name .required]⟩
  optional : compile (inBrackets true raw) =
    .ok ⟨.param, inBrackets true raw, '{' :: '/' :: ':' :: (name ++ ['}']), [.param name .optional]⟩
  splat : ∀ double, compile (inBrackets double (['.', '.', '.'] ++ raw)) =
    .ok ⟨.param, inBrackets double (['.', '.', '.'] ++ raw), '{' :: '/' :: '*' :: (name ++ ['}']),
      [.param name .splat]⟩

variable {double : Bool} {inner raw name : Text}

theorem compile_inBrackets {node : Node} (h : ∀ c ∈ inner, isBracketName c = true)
    (hnode : Lexeme.bracketed double (normalizeSplats inner) = .node node) :
    compile (inBrackets double inner) = .ok (ofNodes (inBrackets double inner) [node]) := by
  refine compile_eq_ok_iff.2 ⟨[node], ?_, rfl⟩
  rw [Grammar.normalizeSplats_inBrackets]
  exact Grammar.parse_inBrackets (Node.forall_mem_normalizeSplats (by decide) h) hnode

/-- All forms have the name that is read once splats are normalised. -/
theorem bracketForms (hne : raw ≠ []) (h : ∀ c ∈ raw, isBracketName c = true)
    (hdots : ¬ ['.', '.', '.'] <+: raw) :
    BracketForms raw (ParamName.sanitize (normalizeSplats raw)) := by
  have hne' := Node.normalizeSplats_ne_nil hne
  have hdots' : Text.after? ['.', '.', '.'] (normalizeSplats raw) = none := by
    rw [Node.after?_normalizeSplats (by decide), Text.after?_eq_none_iff.2 hdots]
    rfl
  have hsplat : normalizeSplats (['.', '.', '.'] ++ raw) =
      ['.', '.', '.'] ++ normalizeSplats raw := by
    simp [normalizeSplats]
  refine ⟨?_, ?_, fun double => ?_⟩
  · rw [compile_inBrackets h (Grammar.bracketed_of_no_dots hne' hdots')]
    simp [ofNodes, Part.ofNodes, TokenKind.ofParts, Node.renderSegment, Node.render]
  · rw [compile_inBrackets h (Grammar.bracketed_of_no_dots hne' hdots')]
    simp [ofNodes, Part.ofNodes, TokenKind.ofParts, Node.renderSegment, Node.render]
  · have hinner : ∀ c ∈ ['.', '.', '.'] ++ raw, isBracketName c = true := by
      have hdot : isBracketName '.' = true := by decide
      simp_all
    have hnode : Lexeme.bracketed double (normalizeSplats (['.', '.', '.'] ++ raw)) =
        .node (.group [.wildcard (ParamName.sanitize (normalizeSplats raw))]) := by
      rw [hsplat, Grammar.bracketed_dots_append hne']
    rw [compile_inBrackets hinner hnode]
    simp [ofNodes, Part.ofNodes, TokenKind.ofParts, Node.renderSegment, Node.render]

theorem BracketForms.unique {other : Text} (h : BracketForms raw name)
    (hother : BracketForms raw other) : name = other := by
  have htoken := Except.ok.inj (h.required.symm.trans hother.required)
  simpa using congrArg Token.pattern htoken

/-- Any name can stand in brackets. All four forms have one name, the sanitised one of the text with
its splats normalised, which is that of the text itself exactly if no splat opens in it. -/
theorem bracket_forms_iff (hne : raw ≠ []) (hplain : ∀ c ∈ raw, c ≠ '[' ∧ c ≠ ']' ∧ c ≠ '/')
    (hdots : ¬ ['.', '.', '.'] <+: raw) :
    BracketForms raw (ParamName.sanitize (normalizeSplats raw)) ∧
      (BracketForms raw (ParamName.sanitize raw) ↔ ¬ splatOpening <:+: raw) := by
  have hforms := bracketForms hne (fun c hc => Grammar.isBracketName_iff.2 (hplain c hc)) hdots
  refine ⟨hforms, ?_⟩
  rw [← ParamName.sanitize_normalizeSplats_eq_iff]
  constructor
  · intro hraw
    exact hforms.unique hraw
  · intro heq
    rwa [heq] at hforms

/-- A name with marks, a group and reserved characters in it. -/
theorem bracket_forms_of_special_name :
    BracketForms "é:b*{c}?".toList (ParamName.sanitize "é:b*{c}?".toList) ∧
      "é:b*{c}?".toList ≠ [] ∧ (∀ c ∈ "é:b*{c}?".toList, c ≠ '[' ∧ c ≠ ']' ∧ c ≠ '/') ∧
      ¬ ['.', '.', '.'] <+: "é:b*{c}?".toList ∧ ¬ splatOpening <:+: "é:b*{c}?".toList := by
  have hplain : ∀ c ∈ "é:b*{c}?".toList, c ≠ '[' ∧ c ≠ ']' ∧ c ≠ '/' := by
    simp
  have hne : "é:b*{c}?".toList ≠ [] := by decide
  obtain ⟨-, hiff⟩ := bracket_forms_iff hne hplain (by decide)
  exact ⟨hiff.2 (by decide), hne, hplain, by decide, by decide⟩

/-- A splat that opens in a name is normalised before the name is sanitised. -/
theorem bracket_name_with_splat_normalized :
    ∃ token, compile "[a{...b}]".toList = .ok token ∧
      token.parts = [.param "a__b__de517323".toList .required] ∧
      ParamName.sanitize "a{...b}".toList = "a____b__72f5151f".toList ∧
      ¬ BracketForms "a{...b}".toList (ParamName.sanitize "a{...b}".toList) := by
  have hname : ParamName.sanitize (normalizeSplats "a{...b}".toList) = "a__b__de517323".toList := by
    decide +kernel
  have hraw : ParamName.sanitize "a{...b}".toList = "a____b__72f5151f".toList := by
    decide +kernel
  have hne : "a{...b}".toList ≠ [] := by decide
  have hforms := bracketForms hne (by simp [isBracketName]) (by decide)
  rw [hname] at hforms
  refine ⟨_, hforms.required, rfl, hraw, fun hother => ?_⟩
  have heq := hforms.unique hother
  rw [hraw] at heq
  exact absurd heq (by decide)

end Token

end FileRoutes
