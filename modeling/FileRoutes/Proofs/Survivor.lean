import FileRoutes.Event
import FileRoutes.Proofs.Choice
import Mathlib

/-! Which choices survive. Candidates are kept one by one, so the run is read off its last step: the
kept choices have different shapes, and each choice seen so far yields to a kept one of its shape
that binds earlier, or binds the same and stands earlier. -/

namespace FileRoutes

namespace Variant

def lastIndex? (declared : List Text) (name : Text) : Option Nat :=
  ((List.range declared.length).filter fun i => declared[i]? == some name).getLast?

/-- The last index of a name; a name that is not declared comes after all others. -/
def lastIndex (declared : List Text) (name : Text) : Nat :=
  (lastIndex? declared name).getD declared.length

theorem lastIndex?_append_singleton (declared : List Text) (last name : Text) :
    lastIndex? (declared ++ [last]) name =
      if last = name then some declared.length else lastIndex? declared name := by
  have hbefore : ((List.range declared.length).filter fun i =>
      (declared ++ [last])[i]? == some name) =
      (List.range declared.length).filter fun i => declared[i]? == some name := by
    apply List.filter_congr
    intro i hi
    rw [List.getElem?_append_left (List.mem_range.1 hi)]
  rw [lastIndex?, List.length_append, List.length_singleton, List.range_succ, List.filter_append,
    hbefore]
  by_cases hlast : last = name <;> simp [lastIndex?, hlast]

theorem lastIndex?_eq (declared : List Text) (name : Text) :
    lastIndex? declared name =
      (declared.reverse.idxOf? name).map (declared.length - 1 - ·) := by
  induction declared using List.reverseRecOn with
  | nil => rfl
  | append_singleton declared last ih =>
    rw [lastIndex?_append_singleton, ih, List.reverse_append, List.reverse_singleton,
      List.singleton_append, List.idxOf?_cons]
    by_cases hlast : last = name
    · simp [hlast]
    · simp only [hlast, if_false, beq_iff_eq, Option.map_map, List.length_append,
        List.length_singleton]
      congr 1
      funext i
      simp only [Function.comp_apply]
      omega

theorem position_eq_lastIndex (declared : List Text) (name : Text) :
    position declared name = lastIndex declared name := by
  rw [position, lastIndex, lastIndex?_eq]
  cases declared.reverse.idxOf? name <;> rfl

end Variant

namespace Variant.Candidate

variable {ι : Type} (candidate : ι → Candidate)

/-- Keeps a thing by its candidate. -/
def keepBy (kept : List ι) (latest : ι) : List ι :=
  match kept with
  | [] => [latest]
  | k :: rest =>
    if (candidate k).shape = (candidate latest).shape then
      (if (candidate latest).binding < (candidate k).binding then latest else k) :: rest
    else k :: keepBy rest latest

theorem map_keepBy (kept : List ι) (latest : ι) :
    (keepBy candidate kept latest).map candidate = keep (kept.map candidate) (candidate latest) := by
  induction kept with
  | nil => rfl
  | cons k rest ih =>
    simp only [keepBy, keep, List.map_cons]
    split
    · split <;> rfl
    · rw [List.map_cons, ih]

theorem map_foldl_keepBy (todo kept : List ι) :
    (todo.foldl (keepBy candidate) kept).map candidate =
      (todo.map candidate).foldl keep (kept.map candidate) := by
  induction todo generalizing kept with
  | nil => rfl
  | cons latest todo ih => rw [List.foldl_cons, ih, map_keepBy, List.map_cons, List.foldl_cons]

variable {candidate}

theorem mem_keepBy {kept : List ι} {latest k : ι} (h : k ∈ keepBy candidate kept latest) :
    k ∈ kept ∨ k = latest := by
  induction kept with
  | nil => simpa [keepBy] using h
  | cons head rest ih =>
    rw [keepBy] at h
    split at h
    · rcases List.mem_cons.1 h with h | h
      · split at h <;> simp [h]
      · simp [h]
    · rcases List.mem_cons.1 h with rfl | h
      · simp
      · rcases ih h with h | h <;> simp [h]

/-- A step adds the shape of the latest to those that are kept, if it is new. -/
theorem shapes_keepBy (kept : List ι) (latest : ι) :
    (keepBy candidate kept latest).map (fun k => (candidate k).shape) =
      if (candidate latest).shape ∈ kept.map (fun k => (candidate k).shape) then
        kept.map fun k => (candidate k).shape
      else kept.map (fun k => (candidate k).shape) ++ [(candidate latest).shape] := by
  induction kept with
  | nil => simp [keepBy]
  | cons head rest ih =>
    rw [keepBy]
    by_cases hshape : (candidate head).shape = (candidate latest).shape
    · rw [if_pos hshape]
      split <;> simp [hshape]
    · rw [if_neg hshape, List.map_cons, ih]
      by_cases hmem : (candidate latest).shape ∈ rest.map fun k => (candidate k).shape
      · rw [if_pos hmem, if_pos (by simp [hmem])]
        rfl
      · rw [if_neg hmem, if_neg (by simpa [Ne.symm hshape] using hmem)]
        rfl

/-- What is kept stays, or yields to the latest, which then binds earlier. -/
theorem exists_mem_keepBy_of_mem {kept : List ι} {latest k : ι} (hk : k ∈ kept) :
    k ∈ keepBy candidate kept latest ∨ (latest ∈ keepBy candidate kept latest ∧
      (candidate latest).shape = (candidate k).shape ∧
      (candidate latest).binding < (candidate k).binding) := by
  induction kept with
  | nil => simp at hk
  | cons head rest ih =>
    rw [keepBy]
    rcases List.mem_cons.1 hk with rfl | hk
    · split
      · next hshape =>
        split
        · next hless => exact Or.inr ⟨by simp, hshape.symm, hless⟩
        · exact Or.inl (by simp)
      · exact Or.inl (by simp)
    · split
      · exact Or.inl (by simp [hk])
      · rcases ih hk with h | ⟨h, hrest⟩
        · exact Or.inl (by simp [h])
        · exact Or.inr ⟨by simp [h], hrest⟩

/-- The latest is kept, or yields to one of its shape that does not bind later. -/
theorem exists_mem_keepBy_latest (kept : List ι) (latest : ι) :
    latest ∈ keepBy candidate kept latest ∨ ∃ k ∈ kept, k ∈ keepBy candidate kept latest ∧
      (candidate k).shape = (candidate latest).shape ∧
      ¬ (candidate latest).binding < (candidate k).binding := by
  induction kept with
  | nil => simp [keepBy]
  | cons head rest ih =>
    rw [keepBy]
    split
    · next hshape =>
      split
      · exact Or.inl (by simp)
      · next hless => exact Or.inr ⟨head, by simp, by simp, hshape, hless⟩
    · rcases ih with h | ⟨k, hk, hkept, hrest⟩
      · exact Or.inl (by simp [h])
      · exact Or.inr ⟨k, by simp [hk], by simp [hkept], hrest⟩

/-- The first candidate binds earlier than the second, or binds the same and stands earlier. -/
def Prevails (candidate : ι → Candidate) (earlier : ι → ι → Prop) (a b : ι) : Prop :=
  (candidate a).binding < (candidate b).binding ∨
    ((candidate a).binding = (candidate b).binding ∧ (a = b ∨ earlier a b))

/-- What is kept of all that was seen. -/
structure Survive (candidate : ι → Candidate) (earlier : ι → ι → Prop) (seen kept : List ι) :
    Prop where
  subset : ∀ k ∈ kept, k ∈ seen
  shapes : (kept.map fun k => (candidate k).shape).Nodup
  prevail : ∀ s ∈ seen, ∃ k ∈ kept, (candidate k).shape = (candidate s).shape ∧
    Prevails candidate earlier k s

variable {earlier : ι → ι → Prop} {seen kept todo : List ι} {latest : ι}

theorem Survive.step (h : Survive candidate earlier seen kept)
    (hlatest : ∀ s ∈ seen, earlier s latest) :
    Survive candidate earlier (seen ++ [latest]) (keepBy candidate kept latest) := by
  refine ⟨fun k hk => ?_, ?_, fun s hs => ?_⟩
  · rcases mem_keepBy hk with hk | rfl
    · exact List.mem_append_left _ (h.subset k hk)
    · simp
  · rw [shapes_keepBy]
    split
    · exact h.shapes
    · next hnew => exact List.nodup_append.2 ⟨h.shapes, by simp, by grind⟩
  · rcases List.mem_append.1 hs with hs | hs
    · obtain ⟨k, hk, hshape, hprevails⟩ := h.prevail s hs
      rcases exists_mem_keepBy_of_mem hk with hkept | ⟨hkept, hsame, hless⟩
      · exact ⟨k, hkept, hshape, hprevails⟩
      · refine ⟨latest, hkept, hsame.trans hshape, Or.inl ?_⟩
        rcases hprevails with hbinds | ⟨hbinds, _⟩
        · exact hless.trans hbinds
        · exact hbinds ▸ hless
    · obtain rfl := List.mem_singleton.1 hs
      rcases exists_mem_keepBy_latest kept s with hkept | ⟨k, hk, hkept, hshape, hless⟩
      · exact ⟨s, hkept, rfl, Or.inr ⟨rfl, Or.inl rfl⟩⟩
      · refine ⟨k, hkept, hshape, ?_⟩
        rcases (not_lt.1 hless).lt_or_eq with hbinds | hbinds
        · exact Or.inl hbinds
        · exact Or.inr ⟨hbinds, Or.inr (hlatest k (h.subset k hk))⟩

/-- What holds before the first step, and is preserved by each, holds after all steps. -/
theorem keepBy_induction {P : List ι → List ι → Prop} (hnone : P [] [])
    (hstep : ∀ seen kept latest, P seen kept → (∀ s ∈ seen, earlier s latest) →
      P (seen ++ [latest]) (keepBy candidate kept latest))
    (htodo : todo.Pairwise earlier) : P todo (todo.foldl (keepBy candidate) []) := by
  induction todo using List.reverseRecOn with
  | nil => exact hnone
  | append_singleton seen latest ih =>
    obtain ⟨hseen, -, hlatest⟩ := List.pairwise_append.1 htodo
    rw [List.foldl_append]
    exact hstep seen _ latest (ih hseen) fun s hs => hlatest s hs latest (by simp)

theorem Survive.all (htodo : todo.Pairwise earlier) :
    Survive candidate earlier todo (todo.foldl (keepBy candidate) []) := by
  have hnone : Survive candidate earlier [] [] := ⟨by simp, by simp, by simp⟩
  exact keepBy_induction hnone (fun _ _ _ h hlatest => h.step hlatest) htodo

end Variant.Candidate

namespace Choice

/-- The form of a choice, its names erased. -/
def shape (nodes : List Node) (chosen : Choice) : Text :=
  Variant.shape (Node.chosenForm nodes chosen)

/-- The positions that a choice binds, each the last index of a name among those declared. -/
def binding (declared : List Text) (nodes : List Node) (chosen : Choice) : List Nat :=
  ((Node.chosenForm nodes chosen).filterMap Atom.name?).map (Variant.lastIndex declared)

def variant (nodes : List Node) (chosen : Choice) : Variant :=
  .ofAtoms (Node.chosenForm nodes chosen)

def candidate (declared : List Text) (nodes : List Node) (chosen : Choice) : Variant.Candidate :=
  .ofAtoms declared (Node.chosenForm nodes chosen)

/-- The first choice binds earlier than the second, or binds the same and stands no later. -/
def Prevails (declared : List Text) (nodes : List Node) (a b : Choice) : Prop :=
  binding declared nodes a < binding declared nodes b ∨
    (binding declared nodes a = binding declared nodes b ∧ (a = b ∨ Earlier nodes a b))

/-- The choices that survive, in the order of their variants. -/
def survivors (declared : List Text) (nodes : List Node) : List Choice :=
  (Node.enumerate nodes).foldl (Variant.Candidate.keepBy (candidate declared nodes)) []

variable (declared : List Text) (nodes : List Node) (a b : Choice)

theorem binding_candidate :
    (candidate declared nodes a).binding = binding declared nodes a := by
  simp [candidate, Variant.Candidate.ofAtoms, binding, Variant.position_eq_lastIndex]

theorem shape_candidate_eq_iff :
    (candidate declared nodes a).shape = (candidate declared nodes b).shape ↔
      shape nodes a = shape nodes b := by
  simp [candidate, Variant.Candidate.ofAtoms, shape, String.ofList_inj]

theorem survivors_eq :
    Variant.survivors declared (Node.choices nodes) =
      (survivors declared nodes).map (candidate declared nodes) := by
  rw [Variant.survivors, Node.choices_eq, List.map_map, survivors,
    Variant.Candidate.map_foldl_keepBy, List.map_nil]
  rfl

theorem survive_survivors :
    Variant.Candidate.Survive (candidate declared nodes) (Earlier nodes) (Node.enumerate nodes)
      (survivors declared nodes) :=
  .all (Node.enumerate_pairwise nodes)

variable {declared nodes a}

theorem isChoice_of_mem_survivors (h : a ∈ survivors declared nodes) : IsChoice nodes a :=
  Node.mem_enumerate.1 ((survive_survivors declared nodes).subset a h)

theorem survivors_shapes_nodup : ((survivors declared nodes).map (shape nodes)).Nodup := by
  have hnodup := (survive_survivors declared nodes).shapes
  rw [List.Nodup, List.pairwise_map] at hnodup ⊢
  exact hnodup.imp fun h hsame => h ((shape_candidate_eq_iff declared nodes _ _).2 hsame)

/-- Each choice yields to a survivor of its shape. -/
theorem exists_survivor (h : IsChoice nodes a) :
    ∃ k ∈ survivors declared nodes, shape nodes k = shape nodes a ∧
      Prevails declared nodes k a := by
  obtain ⟨k, hk, hshape, hprevails⟩ :=
    (survive_survivors declared nodes).prevail a (Node.mem_enumerate.2 h)
  refine ⟨k, hk, (shape_candidate_eq_iff declared nodes _ _).1 hshape, ?_⟩
  simpa only [Variant.Candidate.Prevails, Prevails, binding_candidate] using hprevails

/-- Choices that stand for all: one for each shape, which prevails over the others of its shape. -/
structure Represent (declared : List Text) (nodes : List Node) (kept : List Choice) : Prop where
  isChoice : ∀ k ∈ kept, IsChoice nodes k
  shapes : (kept.map (shape nodes)).Nodup
  complete : ∀ a, IsChoice nodes a → ∃ k ∈ kept, shape nodes k = shape nodes a
  prevails : ∀ k ∈ kept, ∀ a, IsChoice nodes a → shape nodes a = shape nodes k →
    Prevails declared nodes k a

theorem represent_survivors (declared : List Text) (nodes : List Node) :
    Represent declared nodes (survivors declared nodes) := by
  refine ⟨fun k hk => isChoice_of_mem_survivors hk, survivors_shapes_nodup, fun a ha => ?_,
    fun k hk a ha hshape => ?_⟩
  · obtain ⟨k, hk, hsame, _⟩ := exists_survivor ha
    exact ⟨k, hk, hsame⟩
  · obtain ⟨best, hbest, hsame, hprevails⟩ := exists_survivor ha
    -- only one survivor has the shape
    have hunique : best = k :=
      List.inj_on_of_nodup_map survivors_shapes_nodup hbest hk (hsame.trans hshape)
    exact hunique ▸ hprevails

theorem length_survivors_le (declared : List Text) (nodes : List Node) :
    (survivors declared nodes).length ≤ (Node.choiceSet nodes).card := by
  rw [← List.toFinset_card_of_nodup (survivors_shapes_nodup.of_map _)]
  apply Finset.card_le_card
  intro a ha
  exact Node.mem_choiceSet.2 (isChoice_of_mem_survivors (List.mem_toFinset.1 ha))

end Choice

namespace Pattern

/-- The names of the parameters in order of declaration. -/
def declared (p : Pattern) : List Text :=
  p.params.map Prod.fst

theorem expand_eq {p : Pattern} {nodes : List (List Node)} (h : p.tokenNodes = .ok nodes) :
    p.expand = .ok
      ⟨(Choice.survivors p.declared nodes.flatten).map (Choice.variant nodes.flatten),
        (Node.choiceSet nodes.flatten).card - (Choice.survivors p.declared nodes.flatten).length⟩ := by
  simp only [expand, h, Except.map, declared, Choice.survivors_eq, List.map_map, List.length_map,
    Node.length_choices]
  rfl

/-- The pattern of `[[a]]/[[b]]`. -/
def twoOptionals : Pattern :=
  .ofTokens [.ofNodes "[[a]]".toList [.group [.param ['a']]],
    .ofNodes "[[b]]".toList [.group [.param ['b']]]]

end Pattern

end FileRoutes
