import FileRoutes.Specificity
import Mathlib.Data.List.Basic

/-! Specificity as an order. Any two specificities compare, and those that compare equal are equal,
so routes in order of specificity have their specificities in an order that does not depend on how
the routes were given. Sorting leaves what is in order already as it is, routes of equal specificity
above all. Tokens that two routes have in common at the front do not count. -/

namespace FileRoutes.Specificity

def compareStatics (a b : Specificity) : Ordering :=
  Ord.compare b.statics a.statics

instance : Std.TransCmp compareStatics :=
  @Std.TransCmp.opposite _ (compareOn statics) _

instance : Std.TransCmp compare :=
  inferInstanceAs (Std.TransCmp
    (compareLex compareStatics (compareLex (compareOn length) (compareOn name))))

instance : Std.LawfulEqCmp compare where
  eq_of_compare {a b} h := by
    obtain ⟨statics, length, name⟩ := a
    obtain ⟨statics', length', name'⟩ := b
    simp only [compare, Ordering.then_eq_eq, Std.LawfulEqCmp.compare_eq_iff_eq] at h
    obtain ⟨rfl, rfl, rfl⟩ := h
    rfl

variable {a b c : Specificity}

theorem le_trans (hab : le a b = true) (hbc : le b c = true) : le a c = true :=
  Std.TransCmp.isLE_trans hab hbc

theorem le_total (a b : Specificity) : (le a b || le b a) = true := by
  have hswap : compare a b = (compare b a).swap := Std.OrientedCmp.eq_swap
  rw [le, le, hswap]
  cases compare b a <;> rfl

theorem le_antisymm (hab : le a b = true) (hba : le b a = true) : a = b := by
  have heq : compare a b = .eq := Std.OrientedCmp.isLE_antisymm hab hba
  exact Std.LawfulEqCmp.eq_of_compare heq

theorem le_refl (a : Specificity) : le a a = true := by
  simpa using le_total a a

theorem le_iff_compare_ne_gt : le a b = true ↔ compare a b ≠ .gt := by
  rw [le, Ordering.isLE_iff_ne_gt]

theorem compare_eq_lt_of_le (hle : le a b = true) (hne : a ≠ b) : compare a b = .lt := by
  cases hcompare : compare a b with
  | lt => rfl
  | eq => exact absurd (Std.LawfulEqCmp.eq_of_compare hcompare) hne
  | gt => simp [le, hcompare] at hle

variable {α : Type} {key : α → Specificity}

theorem sortBy_pairwise (key : α → Specificity) (items : List α) :
    (sortBy key items).Pairwise fun a b => le (key a) (key b) = true := by
  apply List.pairwise_mergeSort
  · exact fun _ _ _ => le_trans
  · exact fun _ _ => le_total _ _

theorem sortBy_perm (key : α → Specificity) (items : List α) : (sortBy key items).Perm items :=
  List.mergeSort_perm items _

theorem sortBy_map {β : Type} (f : α → β) (key : β → Specificity) (items : List α) :
    sortBy key (items.map f) = (sortBy (key ∘ f) items).map f := by
  rw [sortBy, sortBy, List.map_mergeSort]
  exact fun _ _ _ _ => rfl

/-- Items in order that are the same but for their places have the same keys in their places. -/
theorem map_key_eq_of_perm {items others : List α}
    (hitems : items.Pairwise fun a b => le (key a) (key b) = true)
    (hothers : others.Pairwise fun a b => le (key a) (key b) = true) (h : items.Perm others) :
    items.map key = others.map key :=
  List.Perm.eq_of_pairwise (fun _ _ _ _ => le_antisymm) (List.pairwise_map.2 hitems)
    (List.pairwise_map.2 hothers) (h.map key)

/-- Sorting leaves what is in order already as it is. -/
theorem filter_sortBy {items : List α} {keep : α → Bool}
    (h : (items.filter keep).Pairwise fun a b => le (key a) (key b) = true) :
    (sortBy key items).filter keep = items.filter keep := by
  have hsublist : (items.filter keep).Sublist (sortBy key items) := by
    apply List.sublist_mergeSort _ _ h List.filter_sublist
    · exact fun _ _ _ => le_trans
    · exact fun _ _ => le_total _ _
  have hkept := hsublist.filter keep
  rw [List.filter_eq_self.2 fun item hitem => (List.mem_filter.1 hitem).2] at hkept
  have hlength := ((sortBy_perm key items).filter keep).length_eq
  exact (hkept.eq_of_length hlength.symm).symm

variable {items others : List α}

theorem le_of_mem_cons {first item : α}
    (h : (first :: items).Pairwise fun a b => le (key a) (key b) = true)
    (hitem : item ∈ first :: items) : le (key first) (key item) = true := by
  rcases List.mem_cons.1 hitem with rfl | hitem
  · exact le_refl _
  · exact List.rel_of_pairwise_cons h hitem

theorem mem_iff_of_filter_key_eq
    (h : ∀ s, (items.filter fun item => key item = s) = others.filter fun item => key item = s)
    (item : α) : item ∈ items ↔ item ∈ others := by
  have hkey := congrArg (item ∈ ·) (h (key item))
  simpa using hkey

/-- Items in order are determined by what they have of each specificity. -/
theorem eq_of_filter_key_eq (key : α → Specificity)
    (hitems : items.Pairwise fun a b => le (key a) (key b) = true)
    (hothers : others.Pairwise fun a b => le (key a) (key b) = true)
    (h : ∀ s, (items.filter fun item => key item = s) = others.filter fun item => key item = s) :
    items = others := by
  have hmem := mem_iff_of_filter_key_eq h
  induction items generalizing others with
  | nil => simpa [List.eq_nil_iff_forall_not_mem, eq_comm] using hmem
  | cons first rest ih =>
    obtain ⟨other, more, rfl⟩ := List.exists_cons_of_ne_nil
      (List.ne_nil_of_mem ((hmem first).1 List.mem_cons_self))
    have hkey : key first = key other :=
      le_antisymm (le_of_mem_cons hitems ((hmem other).2 List.mem_cons_self))
        (le_of_mem_cons hothers ((hmem first).1 List.mem_cons_self))
    -- both lists start with the first item of this specificity
    have hfirst := h (key first)
    simp only [List.filter_cons, hkey, decide_true, if_true, List.cons.injEq] at hfirst
    obtain ⟨rfl, -⟩ := hfirst
    have hrest : ∀ s, (rest.filter fun item => key item = s) =
        more.filter fun item => key item = s := by
      intro s
      have hs := h s
      simp only [List.filter_cons] at hs
      split at hs
      · exact (List.cons.inj hs).2
      · exact hs
    rw [ih hitems.of_cons hothers.of_cons hrest (mem_iff_of_filter_key_eq hrest)]

theorem compare_ofTokens_append (used tokens others : List Token) (name other : Text) :
    compare (ofTokens name (used ++ tokens)) (ofTokens other (used ++ others)) =
      compare (ofTokens name tokens) (ofTokens other others) := by
  simp [compare, ofTokens, Nat.compare_eq_ite_lt]

end FileRoutes.Specificity
