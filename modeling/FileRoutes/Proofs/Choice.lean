import FileRoutes.Variant
import Mathlib.Data.Finset.Powerset
import Mathlib.Data.Finset.Card

/-! Choices as sets. A choice is a set of groups that holds, with each of its groups, the group
around it. The forms that are listed for some nodes are those of all choices, each listed once, and
a choice comes before another if it leaves out the leftmost group in which they differ. -/

namespace FileRoutes

/-- Where a group stands among nodes: at their head, inside the group at their head, or beyond the
head. -/
inductive GroupPlace where
  | here
  | inside (place : GroupPlace)
  | beyond (place : GroupPlace)
deriving DecidableEq, Repr

namespace GroupPlace

/-- The group right around a group. -/
def enclosing? : GroupPlace → Option GroupPlace
  | .here => none
  | .inside place => some (place.enclosing?.elim .here .inside)
  | .beyond place => place.enclosing?.map .beyond

def inside? : GroupPlace → Option GroupPlace
  | .inside place => some place
  | _ => none

def beyond? : GroupPlace → Option GroupPlace
  | .beyond place => some place
  | _ => none

theorem enclosing?_sizeOf_lt {place outer : GroupPlace} (h : place.enclosing? = some outer) :
    sizeOf outer < sizeOf place := by
  induction place generalizing outer with
  | here => simp [enclosing?] at h
  | inside place ih =>
    cases hplace : place.enclosing? with
    | none =>
      simp only [enclosing?, hplace, Option.elim_none, Option.some.injEq] at h
      subst h
      cases place <;> simp +arith
    | some middle =>
      simp only [enclosing?, hplace, Option.elim_some, Option.some.injEq] at h
      subst h
      simpa using ih hplace
  | beyond place ih =>
    simp only [enclosing?, Option.map_eq_some_iff] at h
    obtain ⟨middle, hmiddle, rfl⟩ := h
    simpa using ih hmiddle

theorem inside?_eq_some {place inner : GroupPlace} :
    place.inside? = some inner ↔ place = .inside inner := by
  cases place <;> simp [inside?]

theorem beyond?_eq_some {place later : GroupPlace} :
    place.beyond? = some later ↔ place = .beyond later := by
  cases place <;> simp [beyond?]

end GroupPlace

abbrev Choice := Finset GroupPlace

namespace Choice

/-- What is chosen inside the group at the head. -/
def inner (chosen : Choice) : Choice :=
  chosen.filterMap GroupPlace.inside? fun _ _ _ ha hb =>
    (GroupPlace.inside?_eq_some.1 ha).trans (GroupPlace.inside?_eq_some.1 hb).symm

/-- What is chosen beyond the head. -/
def later (chosen : Choice) : Choice :=
  chosen.filterMap GroupPlace.beyond? fun _ _ _ ha hb =>
    (GroupPlace.beyond?_eq_some.1 ha).trans (GroupPlace.beyond?_eq_some.1 hb).symm

/-- The choice from what is chosen at the head, if the group there is taken at all, and beyond. -/
def join (head : Option Choice) (later : Choice) : Choice :=
  head.elim ∅ (fun inner => insert .here (inner.image .inside)) ∪ later.image .beyond

variable {chosen later : Choice} {head : Option Choice} {place : GroupPlace}

@[simp] theorem mem_inner : place ∈ chosen.inner ↔ .inside place ∈ chosen := by
  simp [inner, GroupPlace.inside?_eq_some]

@[simp] theorem mem_later : place ∈ chosen.later ↔ .beyond place ∈ chosen := by
  simp [Choice.later, GroupPlace.beyond?_eq_some]

@[simp] theorem here_mem_join : .here ∈ join head later ↔ head.isSome = true := by
  cases head <;> simp [join]

@[simp] theorem inside_mem_join :
    .inside place ∈ join head later ↔ ∃ inner ∈ head, place ∈ inner := by
  cases head <;> simp [join]

@[simp] theorem beyond_mem_join : .beyond place ∈ join head later ↔ place ∈ later := by
  cases head <;> simp [join]

@[simp] theorem later_empty : Choice.later ∅ = ∅ := by
  ext place
  simp

theorem inner_join (inner later : Choice) : (join (some inner) later).inner = inner := by
  ext place
  simp

theorem later_join (head : Option Choice) (later : Choice) : (join head later).later = later := by
  ext place
  simp

end Choice

namespace Node

/-- The groups of the nodes from the left, each before those inside it. -/
def groups : List Node → List GroupPlace
  | [] => []
  | .text _ :: rest => (groups rest).map .beyond
  | .param _ :: rest => (groups rest).map .beyond
  | .wildcard _ :: rest => (groups rest).map .beyond
  | .group inner :: rest => .here :: (groups inner).map .inside ++ (groups rest).map .beyond

/-- The form of the nodes that takes the chosen groups and leaves out the others. -/
def chosenForm : List Node → Choice → List Atom
  | [], _ => []
  | .text value :: rest, chosen => .text value :: chosenForm rest chosen.later
  | .param name :: rest, chosen => .param name :: chosenForm rest chosen.later
  | .wildcard name :: rest, chosen => .wildcard name :: chosenForm rest chosen.later
  | .group inner :: rest, chosen =>
    (if .here ∈ chosen then chosenForm inner chosen.inner else []) ++ chosenForm rest chosen.later

end Node

/-- A set of groups of the nodes that holds, with each group, the one around it. -/
structure IsChoice (nodes : List Node) (chosen : Choice) : Prop where
  subset : ∀ place ∈ chosen, place ∈ Node.groups nodes
  closed : ∀ place ∈ chosen, ∀ outer ∈ place.enclosing?, outer ∈ chosen

instance (nodes : List Node) (chosen : Choice) : Decidable (IsChoice nodes chosen) :=
  decidable_of_iff
    ((∀ place ∈ chosen, place ∈ Node.groups nodes) ∧
      ∀ place ∈ chosen, ∀ outer ∈ place.enclosing?, outer ∈ chosen)
    ⟨fun h => ⟨h.1, h.2⟩, fun h => ⟨h.subset, h.closed⟩⟩

/-- All choices of the nodes. -/
def Node.choiceSet (nodes : List Node) : Finset Choice :=
  (groups nodes).toFinset.powerset.filter (IsChoice nodes)

/-- Of the groups in which two choices differ, the leftmost is left out by the first choice. -/
def Choice.Earlier (nodes : List Node) (a b : Choice) : Prop :=
  ∃ before place after, Node.groups nodes = before ++ place :: after ∧
    place ∉ a ∧ place ∈ b ∧ ∀ other ∈ before, other ∈ a ↔ other ∈ b

namespace Node

/-- All choices, those without the group at the head first. -/
def enumerate : List Node → List Choice
  | [] => [∅]
  | .text _ :: rest => (enumerate rest).map (Choice.join none)
  | .param _ :: rest => (enumerate rest).map (Choice.join none)
  | .wildcard _ :: rest => (enumerate rest).map (Choice.join none)
  | .group inner :: rest =>
    (none :: (enumerate inner).map some).flatMap fun head =>
      (enumerate rest).map (Choice.join head)

theorem chosenForm_group_join (inner rest : List Node) (head : Option Choice) (later : Choice) :
    chosenForm (.group inner :: rest) (Choice.join head later) =
      head.elim [] (chosenForm inner) ++ chosenForm rest later := by
  cases head with
  | none => simp [chosenForm, Choice.later_join]
  | some chosen => simp [chosenForm, Choice.later_join, Choice.inner_join]

/-- The forms are listed as the choices are. -/
theorem choices_eq (nodes : List Node) : choices nodes = (enumerate nodes).map (chosenForm nodes) := by
  induction nodes using enumerate.induct with
  | case1 => simp [choices, enumerate, chosenForm]
  | case2 _ rest ih | case3 _ rest ih | case4 _ rest ih =>
    simp [choices, pairs, enumerate, ih, chosenForm, Choice.later_join, Function.comp_def]
  | case5 inner rest ihRest ihInner =>
    simp only [choices, pairs, enumerate, ihInner, ihRest, List.map_flatMap, List.map_map,
      Function.comp_def, chosenForm_group_join, List.flatMap_cons, List.flatMap_map,
      List.map_append, Option.elim_none, Option.elim_some]

end Node

namespace IsChoice

open Node

theorem nil_iff {chosen : Choice} : IsChoice [] chosen ↔ chosen = ∅ := by
  constructor
  · intro h
    apply Finset.eq_empty_of_forall_notMem
    intro place hplace
    simpa [groups] using h.subset place hplace
  · rintro rfl
    exact ⟨by simp, by simp⟩

/-- What is chosen beyond the head is a choice of the nodes there. -/
theorem later {nodes rest : List Node} {chosen : Choice}
    (hrest : ∀ place, .beyond place ∈ groups nodes → place ∈ groups rest)
    (h : IsChoice nodes chosen) : IsChoice rest chosen.later := by
  refine ⟨fun place hplace => ?_, fun place hplace outer houter => ?_⟩
  · exact hrest place (h.subset _ (Choice.mem_later.1 hplace))
  · exact Choice.mem_later.2 (h.closed _ (Choice.mem_later.1 hplace) _
      (by simp [GroupPlace.enclosing?, Option.mem_def.1 houter]))

theorem closed_join {head : Option Choice} {later : Choice}
    (hhead : ∀ choice ∈ head, ∀ place ∈ choice, ∀ outer ∈ place.enclosing?, outer ∈ choice)
    (hlater : ∀ place ∈ later, ∀ outer ∈ place.enclosing?, outer ∈ later) :
    ∀ place ∈ Choice.join head later, ∀ outer ∈ place.enclosing?,
      outer ∈ Choice.join head later := by
  intro place hplace outer houter
  cases place with
  | here => simp [GroupPlace.enclosing?] at houter
  | inside place =>
    obtain ⟨choice, hchoice, hmem⟩ := Choice.inside_mem_join.1 hplace
    cases hplace' : place.enclosing? with
    | none =>
      obtain rfl : .here = outer := by simpa [GroupPlace.enclosing?, hplace'] using houter
      exact Choice.here_mem_join.2 (Option.isSome_of_mem hchoice)
    | some middle =>
      obtain rfl : .inside middle = outer := by
        simpa [GroupPlace.enclosing?, hplace'] using houter
      exact Choice.inside_mem_join.2
        ⟨choice, hchoice, hhead choice hchoice place hmem middle hplace'⟩
  | beyond place =>
    simp only [GroupPlace.enclosing?, Option.mem_map] at houter
    obtain ⟨middle, hmiddle, rfl⟩ := houter
    exact Choice.beyond_mem_join.2
      (hlater place (Choice.beyond_mem_join.1 hplace) middle hmiddle)

/-- Without a group at the head all is chosen beyond it. -/
theorem iff_of_no_group {nodes rest : List Node} {chosen : Choice}
    (hgroups : groups nodes = (groups rest).map .beyond) :
    IsChoice nodes chosen ↔ ∃ later, IsChoice rest later ∧ Choice.join none later = chosen := by
  constructor
  · intro h
    refine ⟨chosen.later, later (by simp [hgroups]) h, ?_⟩
    ext place
    have hbeyond : place ∈ chosen → ∃ later, .beyond later = place := by
      intro hplace
      have hgroup := h.subset place hplace
      simp only [hgroups, List.mem_map] at hgroup
      exact hgroup.imp fun _ h => h.2
    cases place <;> simp_all
  · rintro ⟨later, h, rfl⟩
    refine ⟨fun place hplace => ?_, closed_join (by simp) h.closed⟩
    cases place with
    | here => simp at hplace
    | inside place => simp at hplace
    | beyond place => simpa [hgroups] using h.subset place (by simpa using hplace)

/-- Nothing is chosen inside a group that is left out. -/
theorem here_mem_of_inside_mem {nodes : List Node} {chosen : Choice} (h : IsChoice nodes chosen) :
    ∀ place : GroupPlace, .inside place ∈ chosen → .here ∈ chosen := by
  intro place hplace
  cases hplace' : place.enclosing? with
  | none => exact h.closed _ hplace _ (by simp [GroupPlace.enclosing?, hplace'])
  | some outer =>
    have houter : .inside outer ∈ chosen :=
      h.closed _ hplace _ (by simp [GroupPlace.enclosing?, hplace'])
    exact here_mem_of_inside_mem h outer houter
termination_by place => sizeOf place
decreasing_by exact GroupPlace.enclosing?_sizeOf_lt hplace'

theorem inner {inner rest : List Node} {chosen : Choice}
    (h : IsChoice (.group inner :: rest) chosen) : IsChoice inner chosen.inner := by
  refine ⟨fun place hplace => ?_, fun place hplace outer houter => ?_⟩
  · simpa [groups] using h.subset _ (Choice.mem_inner.1 hplace)
  · exact Choice.mem_inner.2 (h.closed _ (Choice.mem_inner.1 hplace) _
      (by simp [GroupPlace.enclosing?, Option.mem_def.1 houter]))

theorem join {inner rest : List Node} {head : Option Choice} {later : Choice}
    (hhead : ∀ choice ∈ head, IsChoice inner choice) (hlater : IsChoice rest later) :
    IsChoice (.group inner :: rest) (Choice.join head later) := by
  refine ⟨fun place hplace => ?_,
    closed_join (fun choice hchoice => (hhead choice hchoice).closed) hlater.closed⟩
  cases place with
  | here => simp [groups]
  | inside place =>
    obtain ⟨choice, hchoice, hmem⟩ := Choice.inside_mem_join.1 hplace
    simpa [groups] using (hhead choice hchoice).subset place hmem
  | beyond place => simpa [groups] using hlater.subset place (Choice.beyond_mem_join.1 hplace)

/-- With a group at the head, a choice leaves it out or takes it with a choice of its nodes. -/
theorem group_iff {inner rest : List Node} {chosen : Choice} :
    IsChoice (.group inner :: rest) chosen ↔
      ∃ head later, (∀ choice ∈ head, IsChoice inner choice) ∧ IsChoice rest later ∧
        Choice.join head later = chosen := by
  constructor
  · intro h
    by_cases hhere : .here ∈ chosen
    · refine ⟨some chosen.inner, chosen.later, by simpa using h.inner,
        later (by simp [groups]) h, ?_⟩
      ext place
      cases place <;> simp [hhere]
    · refine ⟨none, chosen.later, by simp, later (by simp [groups]) h, ?_⟩
      have hinside : ∀ place : GroupPlace, .inside place ∉ chosen := fun place hplace =>
        hhere (h.here_mem_of_inside_mem place hplace)
      ext place
      cases place <;> simp [hhere, hinside]
  · rintro ⟨head, later, hhead, hlater, rfl⟩
    exact join hhead hlater

end IsChoice

namespace Choice.Earlier

open Node

variable {inner rest : List Node} {a b : Choice}

theorem irrefl {nodes : List Node} : ¬ Choice.Earlier nodes a a := by
  rintro ⟨_, place, _, _, hout, hin, _⟩
  exact hout hin

theorem asymm {nodes : List Node} (h : Choice.Earlier nodes a b) : ¬ Choice.Earlier nodes b a := by
  rintro ⟨before', place', after', hsplit', hout', hin', hsame'⟩
  obtain ⟨before, place, after, hsplit, hout, hin, hsame⟩ := h
  -- the one of the two groups that stands further left is one in which the choices agree
  rcases List.append_eq_append_iff.1 (hsplit.symm.trans hsplit') with
    ⟨between, hbefore, hplace⟩ | ⟨between, hbefore, hplace⟩
  · rcases between with - | ⟨next, between⟩
    · obtain rfl : place = place' := (List.cons.inj hplace).1
      exact hout' hin
    · obtain rfl : place = next := (List.cons.inj hplace).1
      exact hout ((hsame' place (by simp [hbefore])).1 hin)
  · rcases between with - | ⟨next, between⟩
    · obtain rfl : place' = place := (List.cons.inj hplace).1
      exact hout' hin
    · obtain rfl : place' = next := (List.cons.inj hplace).1
      exact hout' ((hsame place' (by simp [hbefore])).1 hin')

/-- Choices that agree at the head compare as they do beyond it. -/
theorem join_later {nodes : List Node} (heads : List GroupPlace) (head : Option Choice)
    (hgroups : groups nodes = heads ++ (groups rest).map .beyond)
    (hheads : ∀ place, .beyond place ∉ heads) (h : Choice.Earlier rest a b) :
    Choice.Earlier nodes (join head a) (join head b) := by
  obtain ⟨before, place, after, hsplit, hout, hin, hsame⟩ := h
  refine ⟨heads ++ before.map .beyond, .beyond place, after.map .beyond, ?_, by simpa using hout,
    by simpa using hin, fun other hother => ?_⟩
  · simp [hgroups, hsplit]
  · rcases List.mem_append.1 hother with hhead | hbeyond
    · cases other with
      | here => simp
      | inside other => simp
      | beyond other => exact absurd hhead (hheads other)
    · obtain ⟨other, hmem, rfl⟩ := List.mem_map.1 hbeyond
      simpa using hsame other hmem

theorem join_inner (laterA laterB : Choice) (h : Choice.Earlier inner a b) :
    Choice.Earlier (.group inner :: rest) (join (some a) laterA) (join (some b) laterB) := by
  obtain ⟨before, place, after, hsplit, hout, hin, hsame⟩ := h
  refine ⟨.here :: before.map .inside, .inside place,
    after.map .inside ++ (groups rest).map .beyond, by simp [groups, hsplit], by simpa using hout,
    by simpa using hin, fun other hother => ?_⟩
  rcases List.mem_cons.1 hother with rfl | hinside
  · simp
  · obtain ⟨other, hmem, rfl⟩ := List.mem_map.1 hinside
    simpa using hsame other hmem

/-- Leaving out the group at the head comes first. -/
theorem join_none (laterA laterB : Choice) :
    Choice.Earlier (.group inner :: rest) (join none laterA) (join (some b) laterB) :=
  ⟨[], .here, (groups inner).map .inside ++ (groups rest).map .beyond, by simp [groups], by simp,
    by simp, by simp⟩

end Choice.Earlier

namespace Node

theorem mem_enumerate {nodes : List Node} {chosen : Choice} :
    chosen ∈ enumerate nodes ↔ IsChoice nodes chosen := by
  induction nodes using enumerate.induct generalizing chosen with
  | case1 => simp [enumerate, IsChoice.nil_iff]
  | case2 _ rest ih | case3 _ rest ih | case4 _ rest ih =>
    simp only [enumerate, List.mem_map, ih]
    exact (IsChoice.iff_of_no_group (by simp [groups])).symm
  | case5 inner rest ihRest ihInner =>
    simp only [enumerate, List.mem_flatMap, List.mem_map, List.mem_cons, ihRest, ihInner,
      IsChoice.group_iff]
    apply exists_congr
    intro head
    cases head <;> simp

theorem enumerate_pairwise (nodes : List Node) :
    (enumerate nodes).Pairwise (Choice.Earlier nodes) := by
  induction nodes using enumerate.induct with
  | case1 => simp [enumerate]
  | case2 _ rest ih | case3 _ rest ih | case4 _ rest ih =>
    rw [enumerate, List.pairwise_map]
    refine ih.imp fun h => ?_
    exact Choice.Earlier.join_later [] none (by simp [groups]) (by simp) h
  | case5 inner rest ihRest ihInner =>
    rw [enumerate, List.pairwise_flatMap]
    refine ⟨fun head _ => ?_, ?_⟩
    · refine List.pairwise_map.2 (ihRest.imp fun h => ?_)
      exact Choice.Earlier.join_later (.here :: (groups inner).map .inside) head
        (by simp [groups]) (by simp) h
    · refine List.pairwise_cons.2 ⟨?_, List.pairwise_map.2 (ihInner.imp fun h => ?_)⟩
      · rintro head hhead chosenA hA chosenB hB
        obtain ⟨choice, _, rfl⟩ := List.mem_map.1 hhead
        obtain ⟨laterA, _, rfl⟩ := List.mem_map.1 hA
        obtain ⟨laterB, _, rfl⟩ := List.mem_map.1 hB
        exact Choice.Earlier.join_none laterA laterB
      · rintro chosenA hA chosenB hB
        obtain ⟨laterA, _, rfl⟩ := List.mem_map.1 hA
        obtain ⟨laterB, _, rfl⟩ := List.mem_map.1 hB
        exact Choice.Earlier.join_inner laterA laterB h

theorem enumerate_nodup (nodes : List Node) : (enumerate nodes).Nodup :=
  (enumerate_pairwise nodes).imp fun {a b} h (heq : a = b) => Choice.Earlier.irrefl (heq ▸ h)

theorem mem_choiceSet {nodes : List Node} {chosen : Choice} :
    chosen ∈ choiceSet nodes ↔ IsChoice nodes chosen := by
  simp only [choiceSet, Finset.mem_filter, Finset.mem_powerset, and_iff_right_iff_imp]
  exact fun h place hplace => List.mem_toFinset.2 (h.subset place hplace)

/-- There are as many forms as choices. -/
theorem length_choices (nodes : List Node) : (choices nodes).length = (choiceSet nodes).card := by
  have hset : choiceSet nodes = (enumerate nodes).toFinset := by
    ext chosen
    rw [mem_choiceSet, List.mem_toFinset, mem_enumerate]
  rw [choices_eq, List.length_map, hset, List.toFinset_card_of_nodup (enumerate_nodup nodes)]

end Node

end FileRoutes
