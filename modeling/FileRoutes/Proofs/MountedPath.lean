import FileRoutes.Proofs.CompiledName
import FileRoutes.Proofs.WholePattern

/-! The path at which a compiled pattern is mounted. Each piece of the pattern starts with its
separator or with a group that does. The pattern drops the separator of a plain first piece, and
what is left then starts neither with a group nor with nothing, so mounting puts this separator back
and no other. -/

namespace FileRoutes

namespace Token

/-- A piece starts with its separator, or with a group that starts with it. -/
def IsLed (token : Token) : Prop :=
  ['/'] <+: token.pattern ∨ ['{', '/'] <+: token.pattern

theorem isLed_ofNodes (source : Text) (nodes : List Node) : (ofNodes source nodes).IsLed := by
  simp only [IsLed, ofNodes]
  unfold Node.renderSegment
  split
  · exact Or.inr ⟨_, rfl⟩
  · exact Or.inl ⟨_, rfl⟩

/-- The pieces put together are empty only if there are none, as the separator that the first one
loses has something behind it. -/
theorem joinPatterns_ne_nil {first : Token} (tokens : List Token)
    (hfirst : (∃ t, first.pattern = '{' :: t) ∨
      ∃ c t, c ≠ '{' ∧ first.pattern = '/' :: c :: t) :
    joinPatterns (first :: tokens) ≠ [] := by
  rcases hfirst with ⟨t, ht⟩ | ⟨c, t, -, ht⟩ <;> simp [joinPatterns, ht, Text.after?]

end Token

namespace Pattern

theorem IsTokenOf.isLed {segment : Text} {token : Token} (h : IsTokenOf segment token) :
    token.IsLed := by
  obtain ⟨nodes, -, rfl⟩ := h
  exact Token.isLed_ofNodes segment nodes

theorem IsTokenOf.head_pattern {segment : Text} {token : Token} (h : IsTokenOf segment token) :
    (∃ t, token.pattern = '{' :: t) ∨ ∃ c t, c ≠ '{' ∧ token.pattern = '/' :: c :: t := by
  obtain ⟨nodes, hnodes, rfl⟩ := h
  have hne : nodes ≠ [] := Node.ne_nil_of_parse (Node.normalizeSplats_ne_nil hnodes.1) hnodes.2
  rw [Token.ofNodes, Node.renderSegment_eq]
  exact hnodes.wellFormed.head_render_withSeparator hne

/-- A pattern is mounted at its pieces, each with its separator. -/
structure Mounted (p : Pattern) : Prop where
  routePath : p.routePath = if p.tokens = [] then ['/'] else p.tokens.flatMap Token.pattern
  led : ∀ token ∈ p.tokens, token.IsLed
  empty_iff : p.pattern = [] ↔ p.tokens = []

theorem mounted_ofTokens {segments : List Text} {tokens : List Token}
    (h : List.Forall₂ IsTokenOf segments tokens) : (ofTokens tokens).Mounted := by
  have hled : ∀ token ∈ tokens, token.IsLed :=
    ((List.forall₂_and_left _ _).1 (h.flip.imp fun _ _ hof => ⟨IsTokenOf.isLed hof, hof⟩)).1
  cases h with
  | nil => exact ⟨rfl, hled, by simp [ofTokens, Token.joinPatterns]⟩
  | @cons _ first _ rest hfirst _ =>
    refine ⟨?_, hled, ?_⟩
    · rw [routePath_ofTokens_cons rest hfirst.head_pattern]
      simp [ofTokens]
    · have hne := Token.joinPatterns_ne_nil rest hfirst.head_pattern
      simp [ofTokens, hne]

/-- A compiled pattern is mounted at the concatenation of its pieces. -/
theorem mounted_of_compile {path : Text} {p : Pattern} (h : compile path = .ok p) : p.Mounted := by
  have htokens := isTokenOf_tokens h
  obtain ⟨_, -, rfl⟩ := compile_eq_ok_iff.1 h
  exact mounted_ofTokens htokens

/-- Behind a dropped `index` the first piece is a group, and keeps its separator. -/
theorem mounted_behind_index :
    ∃ p, compile "index/[[lang]]v/about".toList = .ok p ∧ p.Mounted ∧
      p.pattern = "{/:lang}v/about".toList ∧ p.routePath = "{/:lang}v/about".toList := by
  have hcompile : compile "index/[[lang]]v/about".toList = .ok (ofTokens (tokensOf
      ["[[lang]]v".toList, "about".toList]
      [[.group [.param "lang".toList], .text ['v']], [.text "about".toList]])) := by cbv
  exact ⟨_, hcompile, mounted_of_compile hcompile, by cbv, by cbv⟩

end Pattern

end FileRoutes
