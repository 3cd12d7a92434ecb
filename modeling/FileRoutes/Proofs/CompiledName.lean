import FileRoutes.Proofs.CompiledPattern
import FileRoutes.Proofs.NameOrder
import FileRoutes.RouteFile

/-! The tokens of a name. Tokens come segment by segment, and of two names in line both or none lose a
leading `index`, so the tokens of a name begin with those of each name above it. -/

namespace FileRoutes

namespace Pattern

/-- A token that a segment compiles to. -/
def IsTokenOf (segment : Text) (token : Token) : Prop :=
  ∃ nodes, ParsedSegment segment nodes ∧ token = Token.ofNodes segment nodes

theorem rightUnique_isTokenOf : Relator.RightUnique IsTokenOf := by
  rintro segment token other ⟨nodes, hnodes, rfl⟩ ⟨others, hothers, rfl⟩
  rw [Except.ok.inj (hnodes.2.symm.trans hothers.2)]

theorem isTokenOf_tokens {path : Text} {p : Pattern} (h : compile path = .ok p) :
    List.Forall₂ IsTokenOf (routeSegments path) p.tokens := by
  obtain ⟨trees, htrees, rfl⟩ := compile_eq_ok_iff.1 h
  exact exists_trees_iff.2 ⟨trees, htrees, rfl⟩

/-- Tokens of segments in front of others are in front of the tokens of all. -/
theorem tokens_prefix_of_segments_append {above name : Text} {rest : List Text} {p q : Pattern}
    (hsegments : routeSegments name = routeSegments above ++ rest) (hp : compile above = .ok p)
    (hq : compile name = .ok q) : p.tokens <+: q.tokens := by
  have htake := List.forall₂_take (routeSegments above).length (isTokenOf_tokens hq)
  rw [hsegments, List.take_left] at htake
  rw [List.right_unique_forall₂' rightUnique_isTokenOf (isTokenOf_tokens hp) htake]
  exact List.take_prefix _ _

end Pattern

namespace RouteName

theorem isProper_append_slash {above rest : Text} :
    IsProper (above ++ '/' :: rest) ↔ IsProper above ∧ IsProper rest := by
  simp only [IsProper, Text.segments_append_slash, List.mem_append, or_imp, forall_and]

theorem routeSegments_append_slash {above rest : Text} (h : IsProper (above ++ '/' :: rest)) :
    Pattern.routeSegments (above ++ '/' :: rest) =
      Pattern.routeSegments above ++ Text.segments rest := by
  have habove := (isProper_append_slash.1 h).1
  rw [Pattern.routeSegments, Pattern.routeSegments, trimSlashes_of_isProper h,
    trimSlashes_of_isProper habove, Text.segments_append_slash]
  cases hsegments : Text.segments above with
  | nil => exact absurd hsegments (Text.segments_ne_nil above)
  | cons first more =>
    have hfirst : first ≠ [] := habove first (by simp [hsegments])
    obtain ⟨c, cs, rfl⟩ := List.exists_cons_of_ne_nil hfirst
    simp only [List.cons_append]
    split <;> rfl

/-- The tokens that a name compiles to; none, if it does not compile. -/
def tokens (name : Text) : List Token :=
  match Pattern.compile name with
  | .ok p => p.tokens
  | .error _ => []

def specificity (name : Text) : Specificity :=
  .ofTokens name (tokens name)

theorem tokens_eq {name : Text} {p : Pattern} (h : Pattern.compile name = .ok p) :
    tokens name = p.tokens := by
  simp only [tokens, h]

/-- The name compiles. -/
def Compiles (name : Text) : Prop :=
  ∃ p, Pattern.compile name = .ok p

theorem tokens_prefix_of_isBelow {above name : Text} (hproper : IsProper name)
    (hbelow : isBelow above name = true) (habove : Compiles above) (hname : Compiles name) :
    tokens above <+: tokens name := by
  obtain ⟨p, hp⟩ := habove
  obtain ⟨q, hq⟩ := hname
  obtain ⟨rest, rfl⟩ := isBelow_iff.1 hbelow
  rw [tokens_eq hp, tokens_eq hq]
  exact Pattern.tokens_prefix_of_segments_append (routeSegments_append_slash hproper) hp hq

end RouteName

namespace RouteFile

/-- The name of the file compiles, to the tokens that the file has. -/
def IsCompiled (entry : RouteFile) : Prop :=
  ∃ p, Pattern.compile entry.name = .ok p ∧ entry.tokens = p.tokens

theorem make_eq_ok_iff {folder : Folder} {name file : Text} {fullPath : FilePath}
    {entry : RouteFile} : make folder name file fullPath = .ok entry ↔
      ∃ p, Pattern.compile name = .ok p ∧
        entry = ⟨name, folder, file, fullPath, p.tokens, some p.pattern⟩ :=
  map_eq_ok_iff

theorem isCompiled_of_make {folder : Folder} {name file : Text} {fullPath : FilePath}
    {entry : RouteFile} (h : make folder name file fullPath = .ok entry) : entry.IsCompiled := by
  obtain ⟨p, hp, rfl⟩ := make_eq_ok_iff.1 h
  exact ⟨p, hp, rfl⟩

theorem name_of_make {folder : Folder} {name file : Text} {fullPath : FilePath}
    {entry : RouteFile} (h : make folder name file fullPath = .ok entry) : entry.name = name := by
  obtain ⟨p, -, rfl⟩ := make_eq_ok_iff.1 h
  rfl

theorem eq_ok_of_toOption {ε α : Type} {made : Except ε α} {a : α} (h : made.toOption = some a) :
    made = .ok a := by
  cases made with
  | error e => simp [Except.toOption] at h
  | ok b => simpa [Except.toOption] using h

namespace IsCompiled

variable {entry : RouteFile}

theorem compiles (h : entry.IsCompiled) : RouteName.Compiles entry.name :=
  h.imp fun _ hp => hp.1

theorem tokens_eq (h : entry.IsCompiled) : entry.tokens = RouteName.tokens entry.name := by
  obtain ⟨p, hp, htokens⟩ := h
  rw [htokens, RouteName.tokens_eq hp]

theorem specificity_eq (h : entry.IsCompiled) :
    entry.specificity = RouteName.specificity entry.name := by
  rw [RouteFile.specificity, RouteName.specificity, h.tokens_eq]

end IsCompiled

end RouteFile

end FileRoutes
