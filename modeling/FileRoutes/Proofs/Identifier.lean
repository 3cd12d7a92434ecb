import FileRoutes.ParamName

/-! Sanitised parameter names are identifiers, and identifiers stand for themselves. Whatever the
raw name holds, its masked form holds word characters only, and the piece of the digest adds
hexadecimal digits. -/

namespace FileRoutes

namespace Digest

theorem isWordChar_hexDigit {n : Nat} (h : n < 16) : ParamName.isWordChar (hexDigit n) = true := by
  have hall : ∀ m : Fin 16, ParamName.isWordChar (hexDigit m.val) = true := by decide
  exact hall ⟨n, h⟩

theorem isWordChar_of_mem_short {t : Text} {c : Char} (h : c ∈ short t) :
    ParamName.isWordChar c = true := by
  simp only [short, hex, List.mem_flatMap, List.mem_map] at h
  obtain ⟨w, _, i, _, rfl⟩ := h
  exact isWordChar_hexDigit (Nat.mod_lt _ (by omega))

end Digest

namespace ParamName

theorem isIdentifier_iff {name : Text} :
    isIdentifier name = true ↔
      name ≠ [] ∧ (∀ c ∈ name, isWordChar c = true) ∧ startsWithDigit name = false := by
  simp [isIdentifier, and_assoc]

theorem isWordChar_underscore : isWordChar '_' = true := by decide

theorem isWordChar_of_mem_masked {raw : Text} {c : Char} (h : c ∈ masked raw) :
    isWordChar c = true := by
  have hmap : ∀ c ∈ raw.map fun c => if isWordChar c then c else '_', isWordChar c = true := by
    intro c hc
    obtain ⟨d, _, rfl⟩ := List.mem_map.1 hc
    split
    · assumption
    · exact isWordChar_underscore
  unfold masked at h
  dsimp only at h
  split at h
  · rcases List.mem_cons.1 h with rfl | h
    · exact isWordChar_underscore
    · exact hmap c h
  · exact hmap c h

/-- A masked name that starts with a digit was opened by `_`. -/
theorem startsWithDigit_masked_append (raw more : Text) :
    startsWithDigit (masked raw ++ '_' :: more) = false := by
  cases raw with
  | nil => rfl
  | cons c cs =>
    by_cases hdigit : c.isDigit = true
    · simp [masked, startsWithDigit, hdigit]
    · simp only [masked, startsWithDigit, hdigit, List.map_cons, Bool.false_eq_true, if_false,
        List.cons_append]
      split
      · simpa using hdigit
      · rfl

theorem isIdentifier_sanitize (raw : Text) : isIdentifier (sanitize raw) = true := by
  unfold sanitize
  split
  · assumption
  · refine isIdentifier_iff.2 ⟨by simp, fun c hc => ?_, startsWithDigit_masked_append raw _⟩
    simp only [List.mem_append, List.mem_cons] at hc
    rcases hc with hmasked | rfl | hdigest
    · exact isWordChar_of_mem_masked hmasked
    · exact isWordChar_underscore
    · exact Digest.isWordChar_of_mem_short hdigest

theorem sanitize_of_isIdentifier {name : Text} (h : isIdentifier name = true) :
    sanitize name = name := by
  simp [sanitize, h]

theorem length_masked (raw : Text) :
    (masked raw).length = raw.length + if startsWithDigit raw then 1 else 0 := by
  unfold masked
  dsimp only
  split <;> simp

/-- Sanitising never shortens a name. -/
theorem length_le_length_sanitize (raw : Text) : raw.length ≤ (sanitize raw).length := by
  have hmasked := length_masked raw
  unfold sanitize
  split
  · exact Nat.le_refl _
  · rw [List.length_append, hmasked]
    omega

end ParamName

end FileRoutes
