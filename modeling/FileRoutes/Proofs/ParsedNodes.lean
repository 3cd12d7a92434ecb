import FileRoutes.Proofs.ReadBack

/-! What reading returns is well formed, and is something if there was something to read. Both are
properties that each lexeme keeps. The one for well-formedness is that the nodes read so far, also
those before the groups still open, are well formed, and that behind a text the input goes on with a
character that is not literal. -/

namespace FileRoutes

namespace Lexeme

/-- What the lexeme that begins with `c` and the input behind it look like. -/
structure Sound (separator : Bool) (c : Char) (read : Lexeme × Text) : Prop where
  node : ∀ node, read.1 = .node node → Node.WellFormed separator [node]
  text : ∀ value, read.1 = .node (.text value) →
    isLiteral separator c = true ∧ Stops (isLiteral separator) read.2

variable (separator : Bool) (c : Char)

theorem sound_marked {make : Text → Node}
    (hmake : ∀ name, ParamName.isIdentifier name = true → Node.WellFormed separator [make name])
    (hnoText : ∀ name value, make name ≠ .text value) (cs : Text) :
    Sound separator c (marked make cs) := by
  unfold marked
  dsimp only
  split
  · exact ⟨by simp, by simp⟩
  · refine ⟨fun node hnode => ?_, fun value hvalue => ?_⟩
    · cases hnode
      exact hmake _ (ParamName.isIdentifier_sanitize _)
    · exact absurd (Lexeme.node.inj hvalue) (hnoText _ _)

theorem sound_bracketed (double : Bool) (raw rest : Text) :
    Sound separator c (bracketed double raw, rest) := by
  have hname := ParamName.isIdentifier_sanitize
  unfold bracketed
  dsimp only
  split
  · exact ⟨by simp, by simp⟩
  split
  · exact ⟨by simp [Node.WellFormed, hname], by simp⟩
  split
  · exact ⟨by simp [Node.WellFormed, hname], by simp⟩
  · exact ⟨by simp [Node.WellFormed, hname], by simp⟩

theorem sound_bracket (double : Bool) (cs : Text) : Sound separator c (bracket double cs) := by
  unfold bracket
  split
  · exact sound_bracketed separator c false _ _
  · exact sound_bracketed separator c true _ _
  · exact ⟨by simp, by simp⟩

theorem sound_first (cs : Text) : Sound separator c (first separator c cs) := by
  unfold first
  split
  · exact ⟨by simp, by simp⟩
  split
  · exact ⟨by simp, by simp⟩
  split
  · exact sound_marked separator c (fun name hname => by simp [Node.WellFormed, hname]) (by simp) cs
  split
  · exact sound_marked separator c (fun name hname => by simp [Node.WellFormed, hname]) (by simp) cs
  split
  · split
    · exact sound_bracket separator c true _
    · exact sound_bracket separator c false _
  split
  · exact ⟨by simp, by simp⟩
  split
  · next hc =>
    refine ⟨fun node hnode => ?_, fun value _ => ⟨hc, stops_dropWhile _ _⟩⟩
    cases hnode
    have hcs : ∀ d ∈ cs.takeWhile (isLiteral separator), isLiteral separator d = true :=
      List.all_eq_true.1 List.all_takeWhile
    simpa [Node.WellFormed, Node.startsWithText, hc] using hcs
  · exact ⟨by simp, by simp⟩

end Lexeme

namespace Node

open Lexeme

variable {separator : Bool}

def endsWithText (nodes : List Node) : Bool :=
  match nodes.getLast? with
  | some (.text _) => true
  | _ => false

theorem wellFormed_append_singleton {nodes : List Node} {node : Node}
    (h : WellFormed separator nodes) (hnode : WellFormed separator [node])
    (hjoin : endsWithText nodes = true → startsWithText [node] = false) :
    WellFormed separator (nodes ++ [node]) := by
  induction nodes with
  | nil => exact hnode
  | cons head rest ih =>
    have hjoin' : endsWithText rest = true → startsWithText [node] = false := by
      intro hends
      apply hjoin
      cases rest with
      | nil => simp [endsWithText] at hends
      | cons next rest => simpa [endsWithText] using hends
    cases head with
    | text value =>
      simp only [WellFormed, List.cons_append] at h ⊢
      refine ⟨h.1, h.2.1, ?_, ih h.2.2.2 hjoin'⟩
      cases rest with
      | nil => exact hjoin (by simp [endsWithText])
      | cons next rest => cases next <;> simp_all [startsWithText]
    | param name | wildcard name =>
      simp only [WellFormed, List.cons_append] at h ⊢
      exact ⟨h.1, ih h.2 hjoin'⟩
    | group inner =>
      simp only [WellFormed, List.cons_append] at h ⊢
      exact ⟨h.1, h.2.1, ih h.2.2 hjoin'⟩

/-- A property of the open groups, the nodes read so far and the rest of the input, which each
lexeme keeps. -/
structure Invariant (separator : Bool) (P : List Frame → List Node → Text → Prop) : Prop where
  node : ∀ {stack nodes c cs node}, P stack nodes (c :: cs) →
    (first separator c cs).1 = .node node → P stack (nodes ++ [node]) (first separator c cs).2
  openGroup : ∀ {stack nodes c cs}, P stack nodes (c :: cs) →
    (first separator c cs).1 = .openGroup →
    P ((c :: cs, nodes) :: stack) [] (first separator c cs).2
  closeGroup : ∀ {opened before stack n ns c cs}, P ((opened, before) :: stack) (n :: ns) (c :: cs) →
    (first separator c cs).1 = .closeGroup →
    P stack (before ++ [.group (n :: ns)]) (first separator c cs).2

/-- What each lexeme keeps holds of the result. -/
theorem Invariant.result {P : List Frame → List Node → Text → Prop} (hP : Invariant separator P)
    {stack : List Frame} {nodes result : List Node} {input : Text} (h : P stack nodes input)
    (hresult : assemble stack nodes (lex separator input) = .ok result) : P [] result [] := by
  induction input using lex.induct separator generalizing stack nodes with
  | case1 =>
    cases stack with
    | nil =>
      simp only [lex_nil, assemble, Except.ok.injEq] at hresult
      exact hresult ▸ h
    | cons frame stack => simp [lex_nil, assemble] at hresult
  | case2 c cs ih =>
    rw [lex] at hresult
    cases hfirst : (first separator c cs).1 with
    | fault fault => simp [hfirst, assemble] at hresult
    | node node =>
      simp only [hfirst, assemble] at hresult
      exact ih (hP.node h hfirst) hresult
    | openGroup =>
      simp only [hfirst, assemble] at hresult
      exact ih (hP.openGroup h hfirst) hresult
    | closeGroup =>
      cases stack with
      | nil => simp [hfirst, assemble] at hresult
      | cons frame stack =>
        cases nodes with
        | nil => simp [hfirst, assemble] at hresult
        | cons n ns =>
          simp only [hfirst, assemble] at hresult
          exact ih (hP.closeGroup h hfirst) hresult

/-- A property that each lexeme keeps, and that holds of the whole segment, holds of its nodes. -/
theorem Invariant.parse {P : List Frame → List Node → Text → Prop} (hP : Invariant separator P)
    {segment : Text} {nodes : List Node} (h : P [] [] segment)
    (hparse : parse separator segment = .ok nodes) : P [] nodes [] := by
  unfold Node.parse at hparse
  split at hparse
  · next hread => exact Except.ok.inj hparse ▸ hP.result h hread
  · cases hparse

/-- The state of reading: what was read so far, before the open groups and behind them, and what
is still to be read. -/
structure Reading (separator : Bool) (stack : List Frame) (nodes : List Node) (input : Text) :
    Prop where
  wellFormed : WellFormed separator nodes
  frames : ∀ frame ∈ stack, WellFormed separator frame.2
  stops : endsWithText nodes = true → Stops (isLiteral separator) input

namespace Reading

variable {stack : List Frame} {nodes : List Node} {c : Char} {cs : Text}

theorem node (h : Reading separator stack nodes (c :: cs)) {node : Node}
    (hnode : (first separator c cs).1 = .node node) :
    Reading separator stack (nodes ++ [node]) (first separator c cs).2 := by
  have hsound := sound_first separator c cs
  refine ⟨wellFormed_append_singleton h.wellFormed (hsound.node node hnode) fun hends => ?_, h.frames,
    fun hends => ?_⟩
  · cases node with
    | text value =>
      have hstop := h.stops hends c rfl
      rw [(hsound.text value hnode).1] at hstop
      simp at hstop
    | param name | wildcard name | group inner => rfl
  · cases node with
    | text value => exact (hsound.text value hnode).2
    | param name | wildcard name | group inner => simp [endsWithText] at hends

theorem openGroup (h : Reading separator stack nodes (c :: cs)) (here input : Text) :
    Reading separator ((here, nodes) :: stack) [] input := by
  refine ⟨by simp [WellFormed], fun frame hframe => ?_, by simp [endsWithText]⟩
  rcases List.mem_cons.1 hframe with rfl | hframe
  · exact h.wellFormed
  · exact h.frames frame hframe

theorem closeGroup {opened : Text} {before : List Node} {n : Node} {ns : List Node}
    (h : Reading separator ((opened, before) :: stack) (n :: ns) (c :: cs)) (input : Text) :
    Reading separator stack (before ++ [.group (n :: ns)]) input := by
  have hbefore : WellFormed separator before := h.frames (opened, before) (by simp)
  have hgroup : WellFormed separator [.group (n :: ns)] := by
    simpa [WellFormed] using h.wellFormed
  refine ⟨wellFormed_append_singleton hbefore hgroup fun _ => rfl, fun frame hframe => ?_,
    by simp [endsWithText]⟩
  exact h.frames frame (by simp [hframe])

theorem invariant : Invariant separator (Reading separator) :=
  ⟨fun h hnode => h.node hnode, fun h _ => h.openGroup _ _, fun h _ => h.closeGroup _⟩

end Reading

theorem wellFormed_of_parse {segment : Text} {nodes : List Node}
    (h : parse separator segment = .ok nodes) : WellFormed separator nodes := by
  have hstart : Reading separator [] [] segment :=
    ⟨by simp [WellFormed], by simp, by simp [endsWithText]⟩
  exact (Reading.invariant.parse hstart h).wellFormed

/-- Something comes of what was read, of an open group, and of what is still to be read. -/
theorem ne_nil_of_parse {segment : Text} {nodes : List Node} (hsegment : segment ≠ [])
    (h : parse separator segment = .ok nodes) : nodes ≠ [] := by
  have hinvariant : Invariant separator fun stack nodes input =>
      stack ≠ [] ∨ nodes ≠ [] ∨ input ≠ [] := ⟨by simp, by simp, by simp⟩
  simpa using hinvariant.parse (by simp [hsegment]) h

end Node

end FileRoutes
