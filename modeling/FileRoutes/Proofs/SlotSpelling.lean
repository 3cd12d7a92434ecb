import FileRoutes.Middleware.Mount
import FileRoutes.Proofs.SpecificityOrder
import Mathlib.Data.List.Forall2

/-! The spelling of slots. Middleware may name one of the leading slots as a custom slot, and
nothing that is made of it tells the two apart. Spelling all slots as custom ones is a plain form
that two pieces of middleware share if and only if they are the same but for the spelling of their
slots. It goes through each step by which a stack, a mount and a table are made, since these look at
the names of slots alone, so what is made of plain forms is the plain form of what is made. -/

namespace FileRoutes

variable {F : Type}

/-! What it is to be the same but for the spelling of slots. -/

namespace Middleware

structure Alike (m other : Middleware F) : Prop where
  functions : m.functions = other.functions
  methods : m.options.methods? = other.options.methods?
  label : m.options.label? = other.options.label?
  slot : m.slot?.map Slot.name = other.slot?.map Slot.name

end Middleware

namespace Declaration

inductive Alike : Declaration F → Declaration F → Prop
  | middleware {m other : Middleware F} (h : m.Alike other) :
    Alike (.middleware m) (.middleware other)
  | handler (h : Handler F) : Alike (.handler h) (.handler h)

end Declaration

namespace Endpoint

structure Alike (endpoint other : Endpoint F) : Prop where
  file : endpoint.file = other.file
  wrappers : List.Forall₂ Middleware.Alike endpoint.wrappers other.wrappers
  declarations : List.Forall₂ Declaration.Alike endpoint.declarations other.declarations

end Endpoint

namespace SharedMiddleware

structure Alike (shared other : SharedMiddleware F) : Prop where
  core : List.Forall₂ Middleware.Alike shared.core other.core
  global : List.Forall₂ Middleware.Alike shared.global other.global

end SharedMiddleware

namespace StackItem

inductive Alike : StackItem F → StackItem F → Prop
  | middleware (origin : Origin) {m other : Middleware F} (h : m.Alike other) :
    Alike (.middleware origin m) (.middleware origin other)
  | handler (h : Handler F) : Alike (.handler h) (.handler h)

end StackItem

namespace Trace

structure Alike (trace other : Trace) : Prop where
  origin : trace.origin? = other.origin?
  handler : trace.handler? = other.handler?
  slot : trace.slot?.map Slot.name = other.slot?.map Slot.name
  methods : trace.methods? = other.methods?
  label : trace.label? = other.label?
  functions : trace.functions = other.functions

end Trace

namespace Mount

structure Alike (mount other : Mount F) : Prop where
  name : mount.name = other.name
  path : mount.path = other.path
  methods : mount.methods = other.methods
  functions : mount.functions = other.functions
  traces : List.Forall₂ Trace.Alike mount.traces other.traces

end Mount

/-! Plain forms, with all slots spelled as custom ones. -/

namespace Slot

def plain (slot : Slot) : Slot :=
  .custom slot.name

@[simp] theorem name_plain (slot : Slot) : slot.plain.name = slot.name := rfl

theorem map_plain_eq_iff {a b : Option Slot} :
    a.map plain = b.map plain ↔ a.map name = b.map name := by
  cases a <;> cases b <;> simp [plain]

@[simp] theorem map_name_map_plain (slot : Option Slot) :
    (slot.map plain).map name = slot.map name := by
  cases slot <;> rfl

end Slot

theorem forall₂_iff_map_eq {α β : Type} {r : α → α → Prop} {f : α → β}
    (h : ∀ a b, r a b ↔ f a = f b) {xs ys : List α} :
    List.Forall₂ r xs ys ↔ xs.map f = ys.map f := by
  have hr : r = fun a b => f a = f b := funext fun a => funext fun b => propext (h a b)
  rw [hr, ← List.forall₂_eq_eq_eq, List.forall₂_map_left_iff, List.forall₂_map_right_iff]

namespace Middleware

def plain (m : Middleware F) : Middleware F :=
  { m with options := { m.options with slot? := m.slot?.map Slot.plain } }

theorem alike_iff (m other : Middleware F) : m.Alike other ↔ m.plain = other.plain := by
  obtain ⟨functions, slot, methods, label⟩ := m
  obtain ⟨functions', slot', methods', label'⟩ := other
  simp only [plain, slot?, mk.injEq, MiddlewareOptions.mk.injEq, Slot.map_plain_eq_iff]
  exact ⟨fun ⟨hf, hm, hl, hs⟩ => ⟨hf, hs, hm, hl⟩, fun ⟨hf, hs, hm, hl⟩ => ⟨hf, hm, hl, hs⟩⟩

end Middleware

namespace Declaration

def plain : Declaration F → Declaration F
  | .middleware m => .middleware m.plain
  | .handler h => .handler h

theorem alike_iff (a b : Declaration F) : a.Alike b ↔ a.plain = b.plain := by
  constructor
  · rintro (h | h)
    · exact congrArg Declaration.middleware ((Middleware.alike_iff _ _).1 h)
    · rfl
  · intro h
    cases a <;> cases b <;> simp only [plain, reduceCtorEq, middleware.injEq, handler.injEq] at h
    · exact .middleware ((Middleware.alike_iff _ _).2 h)
    · exact h ▸ .handler _

end Declaration

namespace StackItem

def plain : StackItem F → StackItem F
  | .middleware origin m => .middleware origin m.plain
  | .handler h => .handler h

theorem alike_iff (a b : StackItem F) : a.Alike b ↔ a.plain = b.plain := by
  constructor
  · rintro (⟨origin, h⟩ | h)
    · exact congrArg (StackItem.middleware origin) ((Middleware.alike_iff _ _).1 h)
    · rfl
  · intro h
    cases a <;> cases b <;> simp only [plain, reduceCtorEq, middleware.injEq, handler.injEq] at h
    · obtain ⟨rfl, h⟩ := h
      exact .middleware _ ((Middleware.alike_iff _ _).2 h)
    · exact h ▸ .handler _

end StackItem

namespace Endpoint

def plain (endpoint : Endpoint F) : Endpoint F :=
  { endpoint with
    wrappers := endpoint.wrappers.map Middleware.plain
    declarations := endpoint.declarations.map Declaration.plain }

theorem alike_iff (a b : Endpoint F) : a.Alike b ↔ a.plain = b.plain := by
  obtain ⟨file, wrappers, declarations⟩ := a
  obtain ⟨file', wrappers', declarations'⟩ := b
  simp only [plain, mk.injEq, ← forall₂_iff_map_eq Middleware.alike_iff,
    ← forall₂_iff_map_eq Declaration.alike_iff]
  exact ⟨fun ⟨hfile, hwrappers, hdeclarations⟩ => ⟨hfile, hwrappers, hdeclarations⟩,
    fun ⟨hfile, hwrappers, hdeclarations⟩ => ⟨hfile, hwrappers, hdeclarations⟩⟩

end Endpoint

namespace SharedMiddleware

def plain (shared : SharedMiddleware F) : SharedMiddleware F :=
  ⟨shared.core.map Middleware.plain, shared.global.map Middleware.plain⟩

theorem Alike.plain_eq {shared other : SharedMiddleware F} (h : shared.Alike other) :
    shared.plain = other.plain := by
  rw [plain, plain, (forall₂_iff_map_eq Middleware.alike_iff).1 h.core,
    (forall₂_iff_map_eq Middleware.alike_iff).1 h.global]

end SharedMiddleware

namespace Trace

def plain (trace : Trace) : Trace :=
  { trace with slot? := trace.slot?.map Slot.plain }

theorem alike_iff (a b : Trace) : a.Alike b ↔ a.plain = b.plain := by
  obtain ⟨origin, handler, slot, methods, label, functions⟩ := a
  obtain ⟨origin', handler', slot', methods', label', functions'⟩ := b
  simp only [plain, mk.injEq, Slot.map_plain_eq_iff]
  exact ⟨fun ⟨ho, hh, hs, hm, hl, hf⟩ => ⟨ho, hh, hs, hm, hl, hf⟩,
    fun ⟨ho, hh, hs, hm, hl, hf⟩ => ⟨ho, hh, hs, hm, hl, hf⟩⟩

/-- A trace is shown by the name of its slot. -/
theorem display_plain (trace : Trace) : trace.plain.display = trace.display := by
  obtain ⟨origin, handler, _ | slot, methods, label, functions⟩ := trace <;> rfl

end Trace

namespace Mount

def plain (mount : Mount F) : Mount F :=
  { mount with traces := mount.traces.map Trace.plain }

theorem alike_iff (a b : Mount F) : a.Alike b ↔ a.plain = b.plain := by
  obtain ⟨name, path, methods, functions, traces⟩ := a
  obtain ⟨name', path', methods', functions', traces'⟩ := b
  simp only [plain, mk.injEq, ← forall₂_iff_map_eq Trace.alike_iff]
  exact ⟨fun ⟨hn, hp, hm, hf, ht⟩ => ⟨hn, hp, hm, hf, ht⟩,
    fun ⟨hn, hp, hm, hf, ht⟩ => ⟨hn, hp, hm, hf, ht⟩⟩

theorem debugText_plain (mount : Mount F) : mount.plain.debugText = mount.debugText := by
  have hlines : ∀ line : Nat → Text → Text,
      ((mount.traces.map Trace.plain).mapIdx fun i trace => line i trace.display) =
        mount.traces.mapIdx fun i trace => line i trace.display := by
    intro line
    apply List.ext_getElem <;> simp [Trace.display_plain]
  simp only [debugText, plain, hlines fun i shown =>
    "  ".toList ++ (toString (i + 1)).toList ++ ". ".toList ++ shown ++ ['\n']]

end Mount

/-! What is made of plain forms. -/

namespace StackItem

variable (item : StackItem F) (items : List (StackItem F)) (name : Text)

@[simp] theorem slot?_plain : item.plain.slot? = item.slot?.map Slot.plain := by
  cases item <;> rfl

@[simp] theorem hasSlot_plain : item.plain.hasSlot name = item.hasSlot name := by
  simp [hasSlot, Option.any_map]

theorem last?_map_plain : last? (items.map plain) name = (last? items name).map plain := by
  rw [last?, last?, findLast?, findLast?, ← List.map_reverse, List.find?_map]
  simp only [Function.comp_def, hasSlot_plain]

theorem winner_map_plain : winner (items.map plain) item.plain = (winner items item).plain := by
  unfold winner
  cases hslot : item.slot? with
  | none => simp [hslot]
  | some slot =>
    simp only [slot?_plain, hslot, Option.map_some, Slot.name_plain, last?_map_plain]
    cases last? items slot.name <;> rfl

theorem holders_map_plain (claimed : List Text) :
    holders claimed (items.map plain) = (holders claimed items).map plain := by
  induction items generalizing claimed with
  | nil => rfl
  | cons item rest ih =>
    simp only [List.map_cons, holders, slot?_plain]
    cases item.slot? with
    | none => simp [ih]
    | some slot =>
      simp only [Option.map_some, Slot.name_plain, ih]
      split <;> simp

/-- The places of a list and what fills them, respelled. -/
theorem map_winner_holders_plain (claimed : List Text) (held : List (StackItem F)) :
    (holders claimed (held.map plain)).map (winner (items.map plain)) =
      ((holders claimed held).map (winner items)).map plain := by
  rw [holders_map_plain, List.map_map, List.map_map]
  exact List.map_congr_left fun item _ => winner_map_plain item items

end StackItem

namespace SharedMiddleware

variable (shared : SharedMiddleware F) (endpoint : Endpoint F)

theorem coreItems_plain : shared.plain.coreItems = shared.coreItems.map StackItem.plain := by
  simp [coreItems, plain, Function.comp_def, StackItem.plain]

theorem globalItems_plain : shared.plain.globalItems = shared.globalItems.map StackItem.plain := by
  simp [globalItems, plain, Function.comp_def, StackItem.plain]

theorem items_plain : endpoint.plain.items = endpoint.items.map StackItem.plain := by
  have hdeclaration : ∀ d : Declaration F,
      StackItem.ofDeclaration d.plain = (StackItem.ofDeclaration d).plain := by
    rintro (m | h) <;> rfl
  simp [Endpoint.items, Endpoint.plain, Function.comp_def, StackItem.plain, hdeclaration]

theorem leadingPart_plain : shared.plain.leadingPart endpoint.plain =
    (shared.leadingPart endpoint).map StackItem.plain := by
  simp only [leadingPart, coreItems_plain, globalItems_plain, items_plain, ← List.map_append,
    StackItem.last?_map_plain, List.map_filterMap]

theorem globalPart_plain : shared.plain.globalPart endpoint.plain =
    (shared.globalPart endpoint).map StackItem.plain := by
  simp only [globalPart, globalItems_plain, items_plain, ← List.map_append,
    StackItem.map_winner_holders_plain]

theorem routePart_plain : shared.plain.routePart endpoint.plain =
    (shared.routePart endpoint).map StackItem.plain := by
  have hclaimed : (shared.plain.global.filterMap (·.slot?)).map (·.name) =
      (shared.global.filterMap (·.slot?)).map (·.name) := by
    simp [plain, List.filterMap_map, List.map_filterMap, Function.comp_def, Middleware.plain,
      Middleware.slot?]
  simp only [routePart, hclaimed, items_plain, StackItem.map_winner_holders_plain]

theorem stack_plain :
    shared.plain.stack endpoint.plain = (shared.stack endpoint).map StackItem.plain := by
  simp only [stack, leadingPart_plain, globalPart_plain, routePart_plain, List.map_append]

end SharedMiddleware

namespace StackItem

variable (name path : Text) (stack : List (StackItem F))

theorem runningFor_map_plain (method : Method) :
    runningFor (stack.map plain) method =
      (runningFor stack method).map fun r => (r.1, r.2.plain) := by
  simp only [runningFor, List.filterMap_map, List.map_filterMap]
  refine List.filterMap_congr fun item _ => ?_
  cases item with
  | middleware origin m =>
    have happlies : m.plain.options.appliesTo method = m.options.appliesTo method := rfl
    simp only [Function.comp_apply, plain, happlies]
    split <;> rfl
  | handler h => rfl

theorem mount_map_plain (h : Handler F) :
    mount name path (stack.map plain) h = (mount name path stack h).plain := by
  have htrace : ∀ (origin : Origin) (m : Middleware F),
      Trace.ofMiddleware origin m.plain = (Trace.ofMiddleware origin m).plain := fun _ _ => rfl
  simp only [mount, Mount.plain, runningFor_map_plain, List.flatMap_map, List.map_append,
    List.map_map, List.map_cons, List.map_nil, htrace, Function.comp_def]
  rfl

theorem mounts_map_plain :
    mounts name path (stack.map plain) = (mounts name path stack).map Mount.plain := by
  have hhandler : ∀ item : StackItem F, item.plain.handler? = item.handler? := by
    rintro (⟨origin, m⟩ | h) <;> rfl
  have hhandlers : (stack.map plain).filterMap handler? = stack.filterMap handler? := by
    rw [List.filterMap_map]
    exact List.filterMap_congr fun item _ => hhandler item
  rw [mounts, mounts, hhandlers, List.map_map]
  exact List.map_congr_left fun h _ => mount_map_plain name path stack h

end StackItem

namespace SharedMiddleware

variable (shared : SharedMiddleware F)

theorem mounts_plain (endpoint : Endpoint F) :
    shared.plain.mounts endpoint.plain = (shared.mounts endpoint).map Mount.plain := by
  rw [mounts, mounts, stack_plain, ← StackItem.mounts_map_plain]
  rfl

theorem sorted_plain (endpoints : List (Endpoint F)) :
    Endpoint.sorted (endpoints.map Endpoint.plain) =
      (Endpoint.sorted endpoints).map Endpoint.plain :=
  Specificity.sortBy_map Endpoint.plain Endpoint.specificity endpoints

theorem table_plain (endpoints : List (Endpoint F)) :
    shared.plain.table (endpoints.map Endpoint.plain) =
      (shared.table endpoints).map Mount.plain := by
  simp only [table, sorted_plain, List.flatMap_map, List.map_flatMap, mounts_plain]

/-- Stacks, tables and their texts are the same for middleware that is the same but for the spelling
of its slots. -/
theorem alike_of_alike {shared other : SharedMiddleware F} (h : shared.Alike other) :
    (∀ endpoint respelled : Endpoint F, endpoint.Alike respelled →
      List.Forall₂ StackItem.Alike (shared.stack endpoint) (other.stack respelled)) ∧
    ∀ endpoints respelled : List (Endpoint F), List.Forall₂ Endpoint.Alike endpoints respelled →
      List.Forall₂ Mount.Alike (shared.table endpoints) (other.table respelled) ∧
      (shared.table endpoints).map Mount.debugText =
        (other.table respelled).map Mount.debugText := by
  have hshared := h.plain_eq
  refine ⟨fun endpoint respelled hendpoint => ?_, fun endpoints respelled hendpoints => ?_⟩
  · rw [forall₂_iff_map_eq StackItem.alike_iff, ← stack_plain, ← stack_plain, hshared,
      (Endpoint.alike_iff _ _).1 hendpoint]
  · have htable : (shared.table endpoints).map Mount.plain =
        (other.table respelled).map Mount.plain := by
      rw [← table_plain, ← table_plain, hshared,
        (forall₂_iff_map_eq Endpoint.alike_iff).1 hendpoints]
    refine ⟨(forall₂_iff_map_eq Mount.alike_iff).2 htable, ?_⟩
    have htexts := congrArg (List.map Mount.debugText) htable
    simpa [Function.comp_def, Mount.debugText_plain] using htexts

/-- Shared middleware of a slot, and a route that declares the slot again. -/
def overridden (core declared : Slot) : SharedMiddleware Text × Endpoint Text :=
  ({ core := [⟨["parse".toList], { slot? := some core }⟩] },
    { file := ⟨"users".toList, .api, "index.rs".toList, .ofText "api/users/index.rs".toList, [],
        some "users".toList⟩
      declarations := [.handler ⟨.get, ["list".toList]⟩,
        .middleware ⟨["read".toList], { slot? := some declared }⟩] })

def declaredAsCustom : SharedMiddleware Text × Endpoint Text :=
  overridden (.leading .params) (.custom "params".toList)

def sharedAsCustom : SharedMiddleware Text × Endpoint Text :=
  overridden (.custom "params".toList) (.leading .params)

/-- Both override the shared middleware, though their stacks differ in a spelling. -/
theorem overridden_alike_of_alike :
    declaredAsCustom.1.Alike sharedAsCustom.1 ∧ declaredAsCustom.2.Alike sharedAsCustom.2 ∧
      List.Forall₂ StackItem.Alike (declaredAsCustom.1.stack declaredAsCustom.2)
        (sharedAsCustom.1.stack sharedAsCustom.2) ∧
      (declaredAsCustom.1.table [declaredAsCustom.2]).map Mount.debugText =
        (sharedAsCustom.1.table [sharedAsCustom.2]).map Mount.debugText ∧
      declaredAsCustom.1.stack declaredAsCustom.2 ≠ sharedAsCustom.1.stack sharedAsCustom.2 ∧
      (sharedAsCustom.1.mounts sharedAsCustom.2).map Mount.debugText =
        ["GET /users\n  1. route [params] (1)\n  2. handler GET (1)\n".toList] := by
  have hshared : declaredAsCustom.1.Alike sharedAsCustom.1 :=
    ⟨.cons ⟨rfl, rfl, rfl, rfl⟩ .nil, .nil⟩
  have hroute : declaredAsCustom.2.Alike sharedAsCustom.2 :=
    ⟨rfl, .nil, .cons (.handler _) (.cons (.middleware ⟨rfl, rfl, rfl, rfl⟩) .nil)⟩
  obtain ⟨hstack, htable⟩ := alike_of_alike hshared
  obtain ⟨-, htexts⟩ := htable _ _ (.cons hroute .nil)
  exact ⟨hshared, hroute, hstack _ _ hroute, htexts, by decide, by decide⟩

end SharedMiddleware

end FileRoutes
