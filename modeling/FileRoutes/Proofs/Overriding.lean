import FileRoutes.Proofs.SlotTable
import Mathlib

/-! What becomes of each middleware that is declared for a route. The stack takes all of it but what
a later declaration of the same slot overrides, with one exception: of the core middleware it takes
the leading slots only. So nothing is lost as long as each core middleware has a leading slot, or a
slot that some other middleware of the route takes over. -/

namespace FileRoutes

variable {F : Type}

namespace Endpoint

/-- What wraps the route and then its own middleware. -/
def middleware (endpoint : Endpoint F) : List (Middleware F) :=
  endpoint.wrappers ++ endpoint.declarations.filterMap Declaration.middleware?

def middlewareItems (endpoint : Endpoint F) : List (StackItem F) :=
  endpoint.middleware.map (.middleware .route)

theorem filter_not_isHandler_items (endpoint : Endpoint F) :
    endpoint.items.filter (fun item => !item.isHandler) = endpoint.middlewareItems := by
  have hwrappers : ∀ wrappers : List (Middleware F),
      (wrappers.map (StackItem.middleware .route)).filter (fun item => !item.isHandler) =
        wrappers.map (.middleware .route) := by
    intro wrappers
    refine List.filter_eq_self.2 fun item hitem => ?_
    obtain ⟨m, _, rfl⟩ := List.mem_map.1 hitem
    rfl
  have hdeclarations : ∀ declarations : List (Declaration F),
      (declarations.map StackItem.ofDeclaration).filter (fun item => !item.isHandler) =
        (declarations.filterMap Declaration.middleware?).map (.middleware .route) := by
    intro declarations
    induction declarations with
    | nil => rfl
    | cons declaration declarations ih =>
      cases declaration with
      | middleware m => exact congrArg (StackItem.middleware .route m :: ·) ih
      | handler h => exact ih
  rw [items, List.filter_append, hwrappers, hdeclarations, middlewareItems, middleware,
    List.map_append]

end Endpoint

namespace StackItem

variable {items : List (StackItem F)} {item : StackItem F} {name : Text}

theorem last?_filter_not_isHandler (items : List (StackItem F)) (name : Text) :
    last? (items.filter fun item => !item.isHandler) name = last? items name := by
  rw [last?_eq_getLast?, last?_eq_getLast?, List.filter_filter]
  congr 2
  funext item
  cases item with
  | middleware origin m => simp [isHandler]
  | handler h => simp [isHandler, hasSlot, slot?]

/-- The last item of a slot is the one that none behind it overrides. -/
theorem last?_eq_some_iff : last? items name = some item ↔
    item.hasSlot name = true ∧ ∃ before after, items = before ++ item :: after ∧
      ∀ later ∈ after, later.hasSlot name = false := by
  rw [last?, findLast?, List.find?_eq_some_iff_append]
  refine and_congr_right fun _ => ⟨?_, ?_⟩
  · rintro ⟨after, before, hsplit, hafter⟩
    refine ⟨before.reverse, after.reverse, ?_, by simpa using hafter⟩
    simpa using congrArg List.reverse hsplit
  · rintro ⟨before, after, rfl, hafter⟩
    exact ⟨after.reverse, before.reverse, by simp, by simpa using hafter⟩

theorem mem_of_last? (h : last? items name = some item) : item ∈ items :=
  List.mem_reverse.1 (List.mem_of_find?_eq_some h)

theorem mem_slotNames_of_last? (h : last? items name = some item) : name ∈ slotNames items :=
  mem_slotNames.2 ⟨item, mem_of_last? h, hasSlot_of_last? h⟩

theorem exists_last? (h : name ∈ slotNames items) : ∃ last, last? items name = some last := by
  obtain ⟨item, hitem, hslot⟩ := mem_slotNames.1 h
  apply Option.isSome_iff_exists.1
  simp only [last?, findLast?, List.find?_isSome]
  exact ⟨item, List.mem_reverse.2 hitem, hslot⟩

theorem winner_mem (hitem : item ∈ items) : winner items item ∈ items := by
  cases hslot : item.slot? with
  | none => rwa [winner_of_slot?_none hslot]
  | some slot =>
    obtain ⟨last, hlast⟩ := exists_last?
      (mem_slotNames.2 ⟨item, hitem, hasSlot_iff.2 ⟨slot, hslot, rfl⟩⟩)
    rw [winner_of_slot? hslot, hlast]
    exact mem_of_last? hlast

/-- Items without a slot hold their places, whatever is claimed. -/
theorem filter_unslotted_sublist (claimed : List Text) (all items : List (StackItem F)) :
    (items.filter fun item => item.slot?.isNone).Sublist
      ((holders claimed items).map (winner all)) := by
  induction items generalizing claimed with
  | nil => simp
  | cons item items ih =>
    unfold holders
    cases hslot : item.slot? with
    | none =>
      rw [List.filter_cons_of_pos (by simp [hslot]), List.map_cons, winner_of_slot?_none hslot]
      exact (ih claimed).cons_cons item
    | some slot =>
      rw [List.filter_cons_of_neg (by simp [hslot])]
      dsimp only
      split
      · exact ih claimed
      · exact (ih _).cons _

end StackItem

/-- All that is declared is in the stack: what has no slot in its order and as often as it is
declared, and what has a slot unless another one of its slot is declared behind it. -/
structure KeepsAll (declared stack : List (StackItem F)) : Prop where
  unslotted : (declared.filter fun item => item.slot?.isNone).Sublist stack
  slotted : ∀ before item after, declared = before ++ item :: after → ∀ slot ∈ item.slot?,
    item ∈ stack ∨ ∃ later ∈ after, later.hasSlot slot.name = true

namespace SharedMiddleware

open StackItem

variable (shared : SharedMiddleware F) (endpoint : Endpoint F)

/-- The middleware of a route, from what is overridden first to what overrides all else. -/
def declared : List (StackItem F) :=
  shared.coreItems ++ shared.globalItems ++ endpoint.middlewareItems

/-- The middleware behind the core. -/
def declaredLater : List (StackItem F) :=
  shared.globalItems ++ endpoint.middlewareItems

theorem last?_declaredLater (name : Text) :
    last? (shared.declaredLater endpoint) name =
      last? (shared.globalItems ++ endpoint.items) name := by
  rw [declaredLater, last?_append, last?_append, ← endpoint.filter_not_isHandler_items,
    last?_filter_not_isHandler]

theorem last?_declared (name : Text) :
    last? (shared.declared endpoint) name =
      last? (shared.coreItems ++ shared.globalItems ++ endpoint.items) name := by
  rw [declared, last?_append, ← endpoint.filter_not_isHandler_items, last?_filter_not_isHandler,
    ← last?_append]

variable {shared endpoint} {item : StackItem F} {name : Text}

/-- The last one of a leading slot is in the stack. -/
theorem mem_stack_of_leading (hname : name ∈ LeadingSlot.names)
    (hlast : last? (shared.declared endpoint) name = some item) : item ∈ shared.stack endpoint := by
  rw [last?_declared] at hlast
  have hleading : item ∈ shared.leadingPart endpoint := List.mem_filterMap.2 ⟨name, hname, hlast⟩
  rw [stack, List.append_assoc]
  exact List.mem_append_left _ hleading

/-- So is the last one of any other slot, if it stands behind the core. -/
theorem mem_stack_of_custom (hname : name ∉ LeadingSlot.names)
    (hlast : last? (shared.declaredLater endpoint) name = some item) :
    item ∈ shared.stack endpoint := by
  rw [last?_declaredLater] at hlast
  obtain ⟨held, hheld, hname⟩ := mem_slotNames.1
    ((mem_slotNames_holders hname).2 (mem_slotNames_of_last? hlast))
  obtain ⟨slot, hslot, rfl⟩ := hasSlot_iff.1 hname
  rw [stack, List.append_assoc, globalPart_append_routePart]
  refine List.mem_append_right _ (List.mem_map.2 ⟨held, hheld, ?_⟩)
  rw [winner_of_slot? hslot, hlast, Option.getD_some]

theorem filter_unslotted_declaredLater_sublist :
    ((shared.declaredLater endpoint).filter fun item => item.slot?.isNone).Sublist
      (shared.stack endpoint) := by
  have hitems : (shared.declaredLater endpoint).Sublist (shared.globalItems ++ endpoint.items) := by
    rw [declaredLater, ← endpoint.filter_not_isHandler_items]
    exact List.filter_sublist.append_left _
  rw [stack, List.append_assoc, globalPart_append_routePart]
  exact ((hitems.filter _).trans (filter_unslotted_sublist _ _ _)).trans
    (List.sublist_append_right _ _)

/-- Of the core, the stack takes leading slots only. -/
theorem isLeading_of_core_mem_stack {m : Middleware F}
    (h : .middleware .core m ∈ shared.stack endpoint) :
    ∃ slot ∈ m.slot?, slot.isLeading = true := by
  rw [stack, List.append_assoc, globalPart_append_routePart, List.mem_append] at h
  rcases h with h | h
  · obtain ⟨name, hname, hlast⟩ := List.mem_filterMap.1 h
    obtain ⟨slot, hslot, rfl⟩ := hasSlot_iff.1 (hasSlot_of_last? hlast)
    exact ⟨slot, hslot, by simpa [Slot.isLeading] using hname⟩
  · obtain ⟨held, hheld, hwinner⟩ := List.mem_map.1 h
    have hmem := winner_mem (mem_of_mem_holders hheld).1
    rw [hwinner, List.mem_append] at hmem
    rcases hmem with hmem | hmem
    · obtain ⟨other, _, hother⟩ := List.mem_map.1 hmem
      cases hother
    · rcases List.mem_append.1 hmem with hmem | hmem
      · obtain ⟨other, _, hother⟩ := List.mem_map.1 hmem
        cases hother
      · obtain ⟨declaration, _, hother⟩ := List.mem_map.1 hmem
        cases declaration <;> cases hother

variable (shared endpoint)

/-- Each core middleware has a leading slot, or a slot that some middleware behind the core has. -/
def CoreTaken : Prop :=
  ∀ m ∈ shared.core, ∃ slot ∈ m.slot?,
    slot.isLeading = true ∨ ∃ later ∈ shared.declaredLater endpoint, later.hasSlot slot.name = true

variable {shared endpoint}

theorem declared_eq : shared.declared endpoint =
    shared.coreItems ++ shared.declaredLater endpoint := by
  rw [declared, declaredLater, List.append_assoc]

/-- Under this condition the last one of each slot is in the stack. -/
theorem CoreTaken.mem_stack (h : shared.CoreTaken endpoint)
    (hlast : last? (shared.declared endpoint) name = some item) : item ∈ shared.stack endpoint := by
  by_cases hname : name ∈ LeadingSlot.names
  · exact mem_stack_of_leading hname hlast
  · have hlater : name ∈ slotNames (shared.declaredLater endpoint) := by
      have hmem := mem_of_last? hlast
      have hslot := hasSlot_of_last? hlast
      rw [declared_eq, List.mem_append] at hmem
      rcases hmem with hcore | hlater
      · obtain ⟨m, hm, rfl⟩ := List.mem_map.1 hcore
        obtain ⟨slot, hslot', htaken⟩ := h m hm
        obtain ⟨other, hother, rfl⟩ := hasSlot_iff.1 hslot
        obtain rfl : slot = other := Option.some.inj (hslot'.symm.trans hother)
        rcases htaken with hleading | hlater
        · exact absurd (by simpa [Slot.isLeading] using hleading) hname
        · exact mem_slotNames.2 hlater
      · exact mem_slotNames.2 ⟨item, hlater, hslot⟩
    obtain ⟨last, hlast'⟩ := exists_last? hlater
    rw [declared_eq, last?_append, hlast'] at hlast
    obtain rfl : last = item := Option.some.inj hlast
    exact mem_stack_of_custom hname hlast'

theorem CoreTaken.keepsAll (h : shared.CoreTaken endpoint) :
    KeepsAll (shared.declared endpoint) (shared.stack endpoint) := by
  constructor
  case unslotted =>
    have hcore : shared.coreItems.filter (fun item => item.slot?.isNone) = [] := by
      refine List.filter_eq_nil_iff.2 fun item hitem => ?_
      obtain ⟨m, hm, rfl⟩ := List.mem_map.1 hitem
      obtain ⟨slot, hslot, _⟩ := h m hm
      simp [StackItem.slot?, Option.mem_def.1 hslot]
    rw [declared_eq, List.filter_append, hcore, List.nil_append]
    exact filter_unslotted_declaredLater_sublist
  case slotted =>
    intro before item after hsplit slot hslot
    by_cases hafter : ∃ later ∈ after, later.hasSlot slot.name = true
    · exact Or.inr hafter
    · have hitem : item.hasSlot slot.name = true := hasSlot_iff.2 ⟨slot, hslot, rfl⟩
      have hnone : ∀ later ∈ after, later.hasSlot slot.name = false := fun later hlater =>
        Bool.eq_false_iff.2 fun hlaterSlot => hafter ⟨later, hlater, hlaterSlot⟩
      exact Or.inl (h.mem_stack (last?_eq_some_iff.2 ⟨hitem, before, after, hsplit, hnone⟩))

theorem coreTaken_of_keepsAll (h : KeepsAll (shared.declared endpoint) (shared.stack endpoint)) :
    shared.CoreTaken endpoint := by
  intro m hm
  have hcore : StackItem.middleware .core m ∈ shared.coreItems := List.mem_map_of_mem hm
  cases hslot : m.slot? with
  | none =>
    have hkept : StackItem.middleware .core m ∈ shared.stack endpoint := by
      refine h.unslotted.subset (List.mem_filter.2 ⟨?_, by simp [StackItem.slot?, hslot]⟩)
      rw [declared_eq]
      exact List.mem_append_left _ hcore
    obtain ⟨slot, hsome, _⟩ := isLeading_of_core_mem_stack hkept
    simp [hslot] at hsome
  | some slot =>
    refine ⟨slot, rfl, ?_⟩
    have hname : slot.name ∈ slotNames shared.coreItems :=
      mem_slotNames.2 ⟨_, hcore, hasSlot_iff.2 ⟨slot, hslot, rfl⟩⟩
    -- the last core middleware of the slot is kept, or overridden from behind the core
    obtain ⟨last, hlast⟩ := exists_last? hname
    obtain ⟨hhas, before, after, hsplit, hafter⟩ := last?_eq_some_iff.1 hlast
    obtain ⟨other, hother, hsame⟩ := hasSlot_iff.1 hhas
    have hdeclared : shared.declared endpoint =
        before ++ last :: (after ++ shared.declaredLater endpoint) := by
      rw [declared_eq, hsplit, List.append_assoc, List.cons_append]
    obtain ⟨n, -, rfl⟩ := List.mem_map.1 (mem_of_last? hlast)
    rcases h.slotted _ _ _ hdeclared other hother with hkept | ⟨later, hlater, hoverrides⟩
    · obtain ⟨_, hleading, hisLeading⟩ := isLeading_of_core_mem_stack hkept
      obtain rfl := Option.some.inj (hleading.symm.trans hother)
      exact Or.inl (by rwa [Slot.isLeading, ← hsame])
    · rw [hsame] at hoverrides
      rcases List.mem_append.1 hlater with hlater | hlater
      · simp [hafter later hlater] at hoverrides
      · exact Or.inr ⟨later, hlater, hoverrides⟩

/-- Nothing that is declared is dropped exactly if the core is taken. -/
theorem keepsAll_iff_coreTaken (shared : SharedMiddleware F) (endpoint : Endpoint F) :
    KeepsAll (shared.declared endpoint) (shared.stack endpoint) ↔ shared.CoreTaken endpoint :=
  ⟨coreTaken_of_keepsAll, CoreTaken.keepsAll⟩

/-- A core middleware that has no slot. -/
def coreLogging : SharedMiddleware Text where
  core := [⟨["log".toList], {}⟩]

def bareUsers : Endpoint Text where
  file := ⟨"users".toList, .pages, "index.rs".toList, .ofText "pages/users/index.rs".toList,
    [.ofNodes "users".toList [.text "users".toList]], some "users".toList⟩

theorem core_without_slot_dropped :
    RouteFile.make .pages "users".toList "index.rs".toList (.ofText "pages/users/index.rs".toList) =
        .ok bareUsers.file ∧
      coreLogging.declared bareUsers = [.middleware .core ⟨["log".toList], {}⟩] ∧
      coreLogging.stack bareUsers = [] ∧
      ¬ KeepsAll (coreLogging.declared bareUsers) (coreLogging.stack bareUsers) := by
  have hmake : RouteFile.make .pages "users".toList "index.rs".toList
      (.ofText "pages/users/index.rs".toList) = .ok bareUsers.file := by cbv
  have hstack : coreLogging.stack bareUsers = [] := rfl
  refine ⟨hmake, rfl, hstack, fun hkeeps => ?_⟩
  have hlost := hkeeps.unslotted
  rw [hstack] at hlost
  exact absurd (List.sublist_nil.1 hlost) (by decide)

end SharedMiddleware

end FileRoutes
