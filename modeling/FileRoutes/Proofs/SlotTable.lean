import FileRoutes.Middleware.Stack
import Mathlib.Data.List.Induction

/-! A middleware stack is a table of slots. The leading slots hold their last declaration. Behind
them the remaining declarations are read once from the left: one without a slot takes a new place,
and one of a slot that has a place already replaces what the place holds. The stack finds the places
and what fills them by separate scans; the invariant that joins the two readings is that the table
of a list is its holders, each replaced by its winner. -/

namespace FileRoutes

variable {F : Type}

namespace SlotTable

/-- The last item of each leading slot that has one. -/
def leading (items : List (StackItem F)) : List (StackItem F) :=
  LeadingSlot.all.filterMap fun slot => (items.filter (·.hasSlot slot.name)).getLast?

/-- Replaces the item of that slot, or takes a new place. -/
def fill (name : Text) (item : StackItem F) : List (StackItem F) → List (StackItem F)
  | [] => [item]
  | held :: rest => if held.hasSlot name then item :: rest else held :: fill name item rest

def place (table : List (StackItem F)) (item : StackItem F) : List (StackItem F) :=
  match item.slot? with
  | none => table ++ [item]
  | some slot => if slot.isLeading then table else fill slot.name item table

end SlotTable

namespace StackItem

/-- The names of the slots of the items. -/
def slotNames (items : List (StackItem F)) : List Text :=
  items.filterMap fun item => item.slot?.map Slot.name

theorem hasSlot_of_slot? {item : StackItem F} {slot : Slot} (h : item.slot? = some slot)
    (name : Text) : item.hasSlot name = (slot.name == name) := by
  simp [hasSlot, h]

theorem hasSlot_of_slot?_none {item : StackItem F} (h : item.slot? = none) (name : Text) :
    item.hasSlot name = false := by
  simp [hasSlot, h]

theorem hasSlot_iff {item : StackItem F} {name : Text} :
    item.hasSlot name = true ↔ ∃ slot, item.slot? = some slot ∧ slot.name = name := by
  simp [hasSlot, Option.any_eq_true]

theorem mem_slotNames {items : List (StackItem F)} {name : Text} :
    name ∈ slotNames items ↔ ∃ item ∈ items, item.hasSlot name = true := by
  simp [slotNames, hasSlot_iff, Option.map_eq_some_iff]

theorem last?_eq_getLast? (items : List (StackItem F)) (name : Text) :
    last? items name = (items.filter (·.hasSlot name)).getLast? := by
  simp [last?, findLast?, List.getLast?_filter]

theorem last?_append (xs ys : List (StackItem F)) (name : Text) :
    last? (xs ++ ys) name = (last? ys name).or (last? xs name) := by
  simp [last?, findLast?, List.find?_append]

theorem hasSlot_of_last? {items : List (StackItem F)} {name : Text} {found : StackItem F}
    (h : last? items name = some found) : found.hasSlot name = true := by
  simpa using List.find?_some h

theorem winner_of_slot? {item : StackItem F} {slot : Slot} (h : item.slot? = some slot)
    (items : List (StackItem F)) :
    winner items item = (last? items slot.name).getD item := by
  simp [winner, h]

theorem winner_of_slot?_none {item : StackItem F} (h : item.slot? = none)
    (items : List (StackItem F)) : winner items item = item := by
  simp [winner, h]

/-- The winners of the items before do not count where the later items have the slot. -/
theorem winner_append_of_hasSlot {ys : List (StackItem F)} {item : StackItem F} {name : Text}
    (xs : List (StackItem F)) (hitem : item.hasSlot name = true) (hname : name ∈ slotNames ys) :
    winner (xs ++ ys) item = winner ys item := by
  obtain ⟨slot, hslot, rfl⟩ := hasSlot_iff.1 hitem
  obtain ⟨last, hlast⟩ : ∃ last, last? ys slot.name = some last := by
    obtain ⟨y, hy, hyslot⟩ := mem_slotNames.1 hname
    apply Option.isSome_iff_exists.1
    simp only [last?, findLast?, List.find?_isSome]
    exact ⟨y, List.mem_reverse.2 hy, hyslot⟩
  rw [winner_of_slot? hslot, winner_of_slot? hslot, last?_append, hlast]
  rfl

theorem holders_congr {c d : List Text} (h : ∀ name, name ∈ c ↔ name ∈ d)
    (items : List (StackItem F)) : holders c items = holders d items := by
  induction items generalizing c d with
  | nil => rfl
  | cons item rest ih =>
    unfold holders
    cases item.slot? with
    | none => simp only [ih h]
    | some slot =>
      have hcons : ∀ name, name ∈ slot.name :: c ↔ name ∈ slot.name :: d := by
        simp [h]
      simp only [List.contains_iff_mem, h slot.name, ih h, ih hcons]

theorem holders_append (claimed : List Text) (xs ys : List (StackItem F)) :
    holders claimed (xs ++ ys) =
      holders claimed xs ++ holders (claimed ++ slotNames xs) ys := by
  induction xs generalizing claimed with
  | nil => simp [holders, slotNames]
  | cons item rest ih =>
    simp only [List.cons_append, holders]
    cases hslot : item.slot? with
    | none => simp [ih, slotNames, hslot]
    | some slot =>
      have hnames : slotNames (item :: rest) = slot.name :: slotNames rest := by
        simp [slotNames, hslot]
      by_cases hclaimed : slot.name ∈ claimed
      · simp only [List.contains_iff_mem, hclaimed, if_true, ih, hnames]
        congr 1
        exact holders_congr (by grind) ys
      · simp only [List.contains_iff_mem, hclaimed, if_false, ih, hnames, List.cons_append]
        congr 2
        exact holders_congr (by grind) ys

theorem mem_of_mem_holders {claimed : List Text} {items : List (StackItem F)} {item : StackItem F}
    (h : item ∈ holders claimed items) :
    item ∈ items ∧ ∀ name ∈ claimed, item.hasSlot name = false := by
  induction items generalizing claimed with
  | nil => simp [holders] at h
  | cons head rest ih =>
    unfold holders at h
    cases hslot : head.slot? with
    | none =>
      simp only [hslot, List.mem_cons] at h
      rcases h with rfl | h
      · exact ⟨by simp, fun name _ => hasSlot_of_slot?_none hslot name⟩
      · exact ⟨by simp [(ih h).1], (ih h).2⟩
    | some slot =>
      simp only [hslot, List.contains_iff_mem] at h
      split at h
      · exact ⟨by simp [(ih h).1], (ih h).2⟩
      · next hfree =>
        rcases List.mem_cons.1 h with rfl | h
        · refine ⟨by simp, fun name hname => ?_⟩
          rw [hasSlot_of_slot? hslot]
          exact beq_false_of_ne fun heq => hfree (heq ▸ hname)
        · exact ⟨by simp [(ih h).1], fun name hname => (ih h).2 name (by simp [hname])⟩

/-- Each slot that is not claimed has a holder. -/
theorem mem_slotNames_holders {claimed : List Text} {items : List (StackItem F)} {name : Text}
    (hname : name ∉ claimed) :
    name ∈ slotNames (holders claimed items) ↔ name ∈ slotNames items := by
  refine ⟨fun h => ?_, fun h => ?_⟩
  · obtain ⟨item, hitem, hslot⟩ := mem_slotNames.1 h
    exact mem_slotNames.2 ⟨item, (mem_of_mem_holders hitem).1, hslot⟩
  · induction items generalizing claimed with
    | nil => simp [slotNames] at h
    | cons item rest ih =>
      have hcases : item.hasSlot name = true ∨ name ∈ slotNames rest := by
        simpa [mem_slotNames] using h
      unfold holders
      cases hslot : item.slot? with
      | none =>
        have hrest := hcases.resolve_left (by simp [hasSlot_of_slot?_none hslot])
        simpa [slotNames, hslot] using ih hname hrest
      | some slot =>
        rw [hasSlot_of_slot? hslot, beq_iff_eq] at hcases
        simp only [List.contains_iff_mem]
        split
        · next hclaimed =>
          exact ih hname (hcases.resolve_left fun heq => hname (heq ▸ hclaimed))
        · by_cases heq : slot.name = name
          · simp [slotNames, hslot, heq]
          · have hfree : name ∉ slot.name :: claimed := by simp [hname, Ne.symm heq]
            have hrest := ih hfree (hcases.resolve_left heq)
            simpa [slotNames, hslot] using Or.inr hrest

end StackItem

namespace SlotTable

open StackItem

variable {items : List (StackItem F)} {item held : StackItem F}

end SlotTable

namespace SharedMiddleware

open StackItem

theorem slotNames_globalItems (shared : SharedMiddleware F) :
    slotNames shared.globalItems = (shared.global.filterMap (·.slot?)).map (·.name) := by
  simp [slotNames, globalItems, List.filterMap_map, List.map_filterMap, Function.comp_def,
    StackItem.slot?]

/-- The global part and the route part are the places of one list, the declarations of both. -/
theorem globalPart_append_routePart (shared : SharedMiddleware F) (endpoint : Endpoint F) :
    shared.globalPart endpoint ++ shared.routePart endpoint =
      (holders LeadingSlot.names (shared.globalItems ++ endpoint.items)).map
        (winner (shared.globalItems ++ endpoint.items)) := by
  rw [holders_append, List.map_append, globalPart, routePart, slotNames_globalItems]
  congr 1
  apply List.map_congr_left
  intro item hitem
  cases hslot : item.slot? with
  | none => rw [winner_of_slot?_none hslot, winner_of_slot?_none hslot]
  | some slot =>
    have hname : item.hasSlot slot.name = true := hasSlot_iff.2 ⟨slot, hslot, rfl⟩
    have hmem : slot.name ∈ slotNames endpoint.items :=
      mem_slotNames.2 ⟨item, (mem_of_mem_holders hitem).1, hname⟩
    exact (winner_append_of_hasSlot shared.globalItems hname hmem).symm

end SharedMiddleware

end FileRoutes
