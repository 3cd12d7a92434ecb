import FileRoutes.Segment.Parser
import Mathlib.Data.List.Infix

/-! Splats in brace notation. Each `{...` is written as `{*`, wherever it stands, and nothing else
changes; so a text is left as it is exactly if no splat opens in it. -/

namespace FileRoutes

namespace Node

/-- How a splat opens in brace notation. -/
def splatOpening : Text :=
  ['{', '.', '.', '.']

variable {c : Char} {s t : Text}

theorem normalizeSplats_ne_nil (h : t ≠ []) : normalizeSplats t ≠ [] := by
  unfold normalizeSplats
  split
  · simp
  · simp
  · exact absurd rfl h

theorem head?_normalizeSplats (t : Text) : (normalizeSplats t).head? = t.head? := by
  unfold normalizeSplats
  split <;> rfl

theorem forall_mem_normalizeSplats {p : Char → Prop} (hstar : p '*') (h : ∀ d ∈ t, p d) :
    ∀ d ∈ normalizeSplats t, p d := by
  fun_induction normalizeSplats t with
  | case1 rest ih => simp_all
  | case2 d rest _ ih => simp_all
  | case3 => exact h

theorem not_mem_normalizeSplats (hstar : c ≠ '*') (h : c ∉ t) : c ∉ normalizeSplats t := by
  have hother : ∀ d ∈ t, d ≠ c := fun d hd heq => h (heq ▸ hd)
  exact fun hmem => forall_mem_normalizeSplats hstar.symm hother c hmem rfl

theorem brace_mem_normalizeSplats (h : '{' ∈ t) : '{' ∈ normalizeSplats t := by
  fun_induction normalizeSplats t with
  | case1 rest ih => exact List.mem_cons_self
  | case2 c rest _ ih =>
    rcases List.mem_cons.1 h with rfl | h
    · exact List.mem_cons_self
    · exact List.mem_cons_of_mem c (ih h)
  | case3 => simp at h

theorem length_normalizeSplats_le (t : Text) : (normalizeSplats t).length ≤ t.length := by
  fun_induction normalizeSplats t with
  | case1 rest ih => simp only [List.length_cons]; omega
  | case2 c rest _ ih => simpa using ih
  | case3 => exact Nat.le_refl _

theorem length_normalizeSplats_lt (h : splatOpening <:+: t) :
    (normalizeSplats t).length < t.length := by
  fun_induction normalizeSplats t with
  | case1 rest ih =>
    have hrest := length_normalizeSplats_le rest
    simp only [List.length_cons]
    omega
  | case2 c rest hhead ih =>
    rcases List.infix_cons_iff.1 h with ⟨more, hmore⟩ | hrest
    · obtain ⟨hc, hrest⟩ := List.cons.inj hmore
      exact (hhead more hc.symm hrest.symm).elim
    · simpa using ih hrest
  | case3 => simp [splatOpening] at h

theorem normalizeSplats_eq_self_iff : normalizeSplats t = t ↔ ¬ splatOpening <:+: t := by
  constructor
  · intro heq hopens
    exact absurd (congrArg List.length heq) (length_normalizeSplats_lt hopens).ne
  · intro h
    fun_induction normalizeSplats t with
    | case1 rest ih => exact absurd (List.prefix_append splatOpening rest).isInfix h
    | case2 c rest _ ih => rw [ih fun hrest => h (List.infix_cons hrest)]
    | case3 => rfl

theorem normalizeSplats_eq_self (h : '{' ∉ t) : normalizeSplats t = t :=
  normalizeSplats_eq_self_iff.2 fun hopens => h (hopens.subset (by simp [splatOpening]))

/-- No splat opens across a character that is no dot. -/
theorem normalizeSplats_append_cons (hc : c ≠ '.') (s t : Text) :
    normalizeSplats (s ++ c :: t) = normalizeSplats s ++ normalizeSplats (c :: t) := by
  fun_induction normalizeSplats s with
  | case1 rest ih => simp [normalizeSplats, ih]
  | case2 d rest hhead ih =>
    have hhead' : ∀ more, d = '{' → rest ++ c :: t = '.' :: '.' :: '.' :: more → False := by
      intro more hd hrest
      rcases rest with _ | ⟨d₁, _ | ⟨d₂, _ | ⟨d₃, rest⟩⟩⟩ <;> simp_all
    rw [List.cons_append, normalizeSplats.eq_2 _ _ hhead', ih, List.cons_append]
  | case3 => rfl

/-- What follows a start without braces is normalised for itself. -/
theorem after?_normalizeSplats {start : Text} (h : '{' ∉ start) (t : Text) :
    Text.after? start (normalizeSplats t) = (Text.after? start t).map normalizeSplats := by
  induction start generalizing t with
  | nil => rfl
  | cons a start ih =>
    have ha : a ≠ '{' := fun heq => h (by simp [heq])
    have hstart : '{' ∉ start := fun hmem => h (by simp [hmem])
    unfold normalizeSplats
    split
    · simp [Text.after?, ha]
    · simp only [Text.after?]
      split
      · exact ih hstart _
      · rfl
    · rfl

end Node

end FileRoutes
