import FileRoutes.Middleware.Mount
import FileRoutes.Proofs.SpecificityOrder
import Mathlib

/-! The order of a route table. Endpoints are arranged in order of specificity, those of equal
specificity as they were given, and this leaves one arrangement only. The table holds the mounts of
the endpoints as they are arranged, each endpoint's made without a look at the others. Endpoints of
different names never have the same specificity, so with different names the arrangement is a
strict one and the order given does not count. -/

namespace FileRoutes

variable {F : Type}

namespace Endpoint

/-- In order of specificity, no two alike. -/
def Ascending (endpoints : List (Endpoint F)) : Prop :=
  endpoints.Pairwise fun a b => Specificity.compare a.specificity b.specificity = .lt

/-- The given endpoints in order of specificity, those that compare equal as they were given. -/
structure Arranged (given ordered : List (Endpoint F)) : Prop where
  perm : ordered.Perm given
  ascending : ordered.Pairwise fun a b => Specificity.compare a.specificity b.specificity ≠ .gt
  ties : ∀ s, (ordered.filter fun e => Specificity.compare e.specificity s = .eq) =
    given.filter fun e => Specificity.compare e.specificity s = .eq

def NamedApart (endpoints : List (Endpoint F)) : Prop :=
  (endpoints.map (·.file.name)).Nodup

variable {given ordered other : List (Endpoint F)}

theorem arranged_sorted (given : List (Endpoint F)) : Arranged given (sorted given) := by
  refine ⟨Specificity.sortBy_perm _ given, ?_, fun s => ?_⟩
  · exact (Specificity.sortBy_pairwise specificity given).imp Specificity.le_iff_compare_ne_gt.1
  · apply Specificity.filter_sortBy
    have hkey : ∀ e ∈ given.filter fun e => Specificity.compare e.specificity s = .eq,
        e.specificity = s := by
      simp [Std.LawfulEqCmp.compare_eq_iff_eq]
    refine List.pairwise_of_forall_mem_list fun a ha b hb => ?_
    rw [hkey a ha, hkey b hb]
    exact Specificity.le_refl s

theorem Arranged.unique (h : Arranged given ordered) (hother : Arranged given other) :
    ordered = other := by
  apply Specificity.eq_of_filter_key_eq specificity
  · exact h.ascending.imp Specificity.le_iff_compare_ne_gt.2
  · exact hother.ascending.imp Specificity.le_iff_compare_ne_gt.2
  · intro s
    simpa only [Std.LawfulEqCmp.compare_eq_iff_eq] using (h.ties s).trans (hother.ties s).symm

theorem NamedApart.perm (h : NamedApart given) (hperm : given.Perm ordered) :
    NamedApart ordered :=
  (hperm.map _).nodup_iff.1 h

theorem Arranged.strict (h : Arranged given ordered) (hnames : NamedApart given) :
    Ascending ordered := by
  have hapart := List.pairwise_map.1 (hnames.perm h.perm.symm)
  refine (h.ascending.and hapart).imp fun {a b} hab => ?_
  apply Specificity.compare_eq_lt_of_le (Specificity.le_iff_compare_ne_gt.2 hab.1)
  exact fun hsame => hab.2 (congrArg Specificity.name hsame)

/-- A strict order of endpoints is their arrangement. -/
theorem arranged_iff_of_namedApart (hnames : NamedApart given) :
    Arranged given ordered ↔ ordered.Perm given ∧ Ascending ordered := by
  refine ⟨fun h => ⟨h.perm, h.strict hnames⟩, fun ⟨hperm, hascending⟩ => ?_⟩
  have hsorted := arranged_sorted given
  have hsame : ordered = sorted given := by
    apply List.Perm.eq_of_pairwise _ hascending (hsorted.strict hnames)
      (hperm.trans hsorted.perm.symm)
    intro a b _ _ hab hba
    exact absurd hba (Std.OrientedCmp.not_lt_of_lt hab)
  rw [hsame]
  exact hsorted

end Endpoint

namespace SharedMiddleware

open Endpoint

/-- A route table holds the mounts of its endpoints in the one arrangement that these have. If their
names are all different, it is their one strict order, and the order given does not count. -/
theorem table_arranged (shared : SharedMiddleware F) (endpoints : List (Endpoint F)) :
    (∃! ordered, Arranged endpoints ordered) ∧
      (∀ ordered, Arranged endpoints ordered →
        shared.table endpoints = ordered.flatMap shared.mounts) ∧
      (NamedApart endpoints →
        (∀ ordered, Arranged endpoints ordered ↔ ordered.Perm endpoints ∧ Ascending ordered) ∧
        ∀ given, given.Perm endpoints → shared.table given = shared.table endpoints) := by
  have hsorted := arranged_sorted endpoints
  have htable : ∀ ordered, Arranged endpoints ordered →
      shared.table endpoints = ordered.flatMap shared.mounts := by
    intro ordered h
    rw [table, hsorted.unique h]
  refine ⟨⟨_, hsorted, fun other h => h.unique hsorted⟩, htable, fun hnames => ⟨?_, ?_⟩⟩
  · exact fun ordered => arranged_iff_of_namedApart hnames
  · intro given hperm
    have hgiven := arranged_sorted given
    have hstrict := hgiven.strict (hnames.perm hperm.symm)
    exact (htable _ ((arranged_iff_of_namedApart hnames).2
      ⟨hgiven.perm.trans hperm, hstrict⟩)).symm

/-- A route with a parameter before two routes that are more and less specific. -/
def users : List (Endpoint Text) :=
  ["users/[id]", "users/account", "index"].filterMap fun name =>
    (RouteFile.make .api name.toList "index.rs".toList
      (.ofText s!"api/{name}/index.rs".toList)).toOption.map fun file =>
        { file, declarations := [.handler ⟨.get, [name.toList]⟩] }

theorem table_users_arranged :
    NamedApart users ∧ users.reverse.Perm users ∧
      (∃ ordered, Arranged users ordered ∧ Ascending ordered ∧
        ({} : SharedMiddleware Text).table users = ordered.flatMap (mounts {}) ∧
        ordered.map (·.file.name) =
          ["users/account".toList, "users/[id]".toList, "index".toList]) ∧
      ({} : SharedMiddleware Text).table users.reverse =
        ({} : SharedMiddleware Text).table users := by
  have hnames : users.map (·.file.name) =
      ["users/[id]".toList, "users/account".toList, "index".toList] := by cbv
  have happart : NamedApart users := by
    rw [NamedApart, hnames]
    decide
  have hperm := List.reverse_perm users
  obtain ⟨⟨ordered, hordered, hunique⟩, htable, hstrict⟩ := table_arranged {} users
  have hsorted : (sorted users).map (·.file.name) =
      ["users/account".toList, "users/[id]".toList, "index".toList] := by cbv
  refine ⟨happart, hperm, ⟨ordered, hordered, ?_, htable ordered hordered, ?_⟩,
    (hstrict happart).2 _ hperm⟩
  · exact (((hstrict happart).1 ordered).1 hordered).2
  · rw [← hunique _ (arranged_sorted users), hsorted]

end SharedMiddleware

end FileRoutes
