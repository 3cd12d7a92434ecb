import FileRoutes.Proofs.Identifier

/-! Which names are the same once they are sanitised. A name that is rewritten ends in eight digits
of its digest, so two of them are the same exactly if both their masked forms and their digests
are; and a name that stands for itself can be spelled as another is rewritten. -/

namespace FileRoutes

namespace Digest

theorem length_foldl {α : Type} {f : List Word → α → List Word}
    (hf : ∀ state x, (f state x).length = state.length) (state : List Word) (xs : List α) :
    (xs.foldl f state).length = state.length := by
  induction xs generalizing state with
  | nil => rfl
  | cons x xs ih => rw [List.foldl_cons, ih, hf]

theorem length_round (state : List Word) (kw : Word × Word) :
    (round state kw).length = state.length := by
  unfold round
  split <;> rfl

theorem length_compress (state block : List Word) :
    (compress state block).length = state.length := by
  rw [compress, List.length_zipWith, length_foldl length_round, Nat.min_self]

theorem length_sha256 (message : Bytes) : (sha256 message).length = 8 :=
  length_foldl length_compress initial _

theorem length_short (t : Text) : (short t).length = 8 := by
  obtain ⟨w, hw⟩ : ∃ w, (sha256 (Utf8.encode t)).take 1 = [w] := by
    rw [← List.length_eq_one_iff, List.length_take, length_sha256]
    rfl
  rw [short, hw]
  simp [hex]

end Digest

namespace ParamName

/-- The masked name with its digest. -/
def rewritten (raw : Text) : Text :=
  masked raw ++ '_' :: Digest.short raw

/-- Two names that differ as they are written and not once they are sanitised. -/
inductive Confused (raw other : Text) : Prop where
  | spelled (hraw : isIdentifier raw = true) (hother : isIdentifier other = false)
      (heq : raw = rewritten other)
  | respelled (hraw : isIdentifier raw = false) (hother : isIdentifier other = true)
      (heq : rewritten raw = other)
  | digest (hne : raw ≠ other) (hraw : isIdentifier raw = false)
      (hother : isIdentifier other = false) (hmasked : masked raw = masked other)
      (hdigest : Digest.short raw = Digest.short other)

variable {raw other : Text}

theorem sanitize_of_not_isIdentifier (h : isIdentifier raw = false) :
    sanitize raw = rewritten raw := by
  simp [sanitize, rewritten, h]

theorem rewritten_eq_iff :
    rewritten raw = rewritten other ↔
      masked raw = masked other ∧ Digest.short raw = Digest.short other := by
  constructor
  · intro h
    have hlength : ('_' :: Digest.short raw).length = ('_' :: Digest.short other).length := by
      simp [Digest.length_short]
    obtain ⟨hmasked, hdigest⟩ := List.append_inj' h hlength
    exact ⟨hmasked, (List.cons.inj hdigest).2⟩
  · rintro ⟨hmasked, hdigest⟩
    rw [rewritten, rewritten, hmasked, hdigest]

theorem Confused.ne (h : Confused raw other) : raw ≠ other := by
  rintro rfl
  cases h with
  | spelled hraw hother => simp [hraw] at hother
  | respelled hraw hother => simp [hraw] at hother
  | digest hne => exact hne rfl

theorem Confused.sanitize_eq (h : Confused raw other) : sanitize raw = sanitize other := by
  cases h with
  | spelled hraw hother heq =>
    rw [sanitize_of_isIdentifier hraw, sanitize_of_not_isIdentifier hother, heq]
  | respelled hraw hother heq =>
    rw [sanitize_of_not_isIdentifier hraw, sanitize_of_isIdentifier hother, heq]
  | digest _ hraw hother hmasked hdigest =>
    rw [sanitize_of_not_isIdentifier hraw, sanitize_of_not_isIdentifier hother,
      rewritten_eq_iff.2 ⟨hmasked, hdigest⟩]

theorem confused_of_sanitize_eq (hne : raw ≠ other) (h : sanitize raw = sanitize other) :
    Confused raw other := by
  cases hraw : isIdentifier raw with
  | true =>
    rw [sanitize_of_isIdentifier hraw] at h
    cases hother : isIdentifier other with
    | true => exact absurd (h.trans (sanitize_of_isIdentifier hother)) hne
    | false => exact .spelled hraw hother (h.trans (sanitize_of_not_isIdentifier hother))
  | false =>
    rw [sanitize_of_not_isIdentifier hraw] at h
    cases hother : isIdentifier other with
    | true => exact .respelled hraw hother (h.trans (sanitize_of_isIdentifier hother))
    | false =>
      rw [sanitize_of_not_isIdentifier hother] at h
      obtain ⟨hmasked, hdigest⟩ := rewritten_eq_iff.1 h
      exact .digest hne hraw hother hmasked hdigest

theorem confused_iff : Confused raw other ↔ raw ≠ other ∧ sanitize raw = sanitize other :=
  ⟨fun h => ⟨h.ne, h.sanitize_eq⟩, fun h => confused_of_sanitize_eq h.1 h.2⟩

end ParamName

end FileRoutes
