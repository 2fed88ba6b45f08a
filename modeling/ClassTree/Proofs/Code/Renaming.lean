import ClassTree.Proofs.Code.Listing
import ClassTree.Relabelling

namespace ClassTree

namespace Instruction

variable {ι ι' ι'' : Type}

theorem mapCreation_congr {κ : Type} {f g : ι → ι'} {types : List (VerificationType κ ι)}
    (h : ∀ label ∈ types.filterMap VerificationType.creation?, f label = g label) :
    types.map (VerificationType.mapCreation f) = types.map (VerificationType.mapCreation g) := by
  refine List.map_congr_left fun type hm => ?_
  cases type with
  | uninitialized label =>
    exact congrArg VerificationType.uninitialized (h label (List.mem_filterMap.mpr ⟨_, hm, rfl⟩))
  | _ => rfl

theorem mapLabels_congr {f g : ι → ι'} {insn : Instruction ι}
    (h : ∀ label ∈ insn.mentions, f label = g label) : insn.mapLabels f = insn.mapLabels g := by
  cases insn with
  | jump op target =>
    exact congrArg (Instruction.jump op) (h target (by simp [mentions, references]))
  | label label => exact congrArg Instruction.label (h label (by simp [mentions]))
  | line number start =>
    exact congrArg (Instruction.line number) (h start (by simp [mentions, references]))
  | tableSwitch low high default targets =>
    have htargets : targets.map f = targets.map g :=
      List.map_congr_left fun label hm => h label (by simp [mentions, references, hm])
    rw [mapLabels, mapLabels, htargets, h default (by simp [mentions, references])]
  | lookupSwitch default cases =>
    have hcases : (cases.map fun entry => (entry.1, f entry.2)) =
        cases.map fun entry => (entry.1, g entry.2) := by
      refine List.map_congr_left fun entry hm => Prod.ext rfl (h entry.2 ?_)
      simp only [mentions, references, List.mem_cons, List.mem_map]
      exact .inr ⟨entry, hm, rfl⟩
    rw [mapLabels, mapLabels, hcases, h default (by simp [mentions, references])]
  | frame locals stack =>
    rw [mapLabels, mapLabels]
    congr 1
    · exact mapCreation_congr fun label hm =>
        h label (by simp [mentions, references, List.filterMap_append, hm])
    · exact mapCreation_congr fun label hm =>
        h label (by simp [mentions, references, List.filterMap_append, hm])
  | _ => rfl

theorem mapCreation_mapCreation {κ : Type} (f : ι' → ι'') (g : ι → ι')
    (types : List (VerificationType κ ι)) :
    (types.map (VerificationType.mapCreation g)).map (VerificationType.mapCreation f) =
      types.map (VerificationType.mapCreation (f ∘ g)) := by
  rw [List.map_map]
  refine List.map_congr_left fun type _ => ?_
  cases type <;> rfl

theorem mapLabels_mapLabels (f : ι' → ι'') (g : ι → ι') (insn : Instruction ι) :
    (insn.mapLabels g).mapLabels f = insn.mapLabels (f ∘ g) := by
  cases insn with
  | tableSwitch => simp [mapLabels]
  | lookupSwitch => simp [mapLabels]
  | frame locals stack => simp only [mapLabels, mapCreation_mapCreation]
  | _ => rfl

theorem mapCreation_id {κ : Type} (types : List (VerificationType κ ι)) :
    types.map (VerificationType.mapCreation id) = types := by
  refine (List.map_congr_left fun type _ => ?_).trans (List.map_id types)
  cases type <;> rfl

theorem mapLabels_id (insn : Instruction ι) : insn.mapLabels id = insn := by
  cases insn with
  | tableSwitch => simp [mapLabels]
  | lookupSwitch => simp [mapLabels]
  | frame locals stack => rw [mapLabels, mapCreation_id, mapCreation_id]
  | _ => rfl

/-- Labels that were renamed can be named as before. -/
theorem mapLabels_mapLabels_of {f : ι → ι'} {g : ι' → ι} {insn : Instruction ι}
    (h : ∀ label ∈ insn.mentions, g (f label) = label) : (insn.mapLabels f).mapLabels g = insn := by
  rw [mapLabels_mapLabels, mapLabels_congr (f := g ∘ f) (g := id) h, mapLabels_id]

end Instruction

namespace Method

variable {f g : Label → Label} {method : Method}

theorem mapLabels_congr (h : ∀ label ∈ method.mentions, f label = g label) (labels : Nat) :
    method.mapLabels f labels = method.mapLabels g labels := by
  have hcode : method.body.code.map (Instruction.mapLabels f) =
      method.body.code.map (Instruction.mapLabels g) := by
    refine List.map_congr_left fun insn hi => Instruction.mapLabels_congr fun label hm => h label ?_
    exact List.mem_append_left _ (List.mem_append_left _ (List.mem_flatMap.mpr ⟨insn, hi, hm⟩))
  have hhandlers : method.handlers.map (TryCatch.mapLabels f) =
      method.handlers.map (TryCatch.mapLabels g) := by
    refine List.map_congr_left fun handler hi => ?_
    have hmem : ∀ label ∈ handler.mentions, f label = g label := fun label hm => h label
      (List.mem_append_left _ (List.mem_append_right _ (List.mem_flatMap.mpr ⟨handler, hi, hm⟩)))
    simp only [TryCatch.mentions, List.forall_mem_cons] at hmem
    rw [TryCatch.mapLabels, TryCatch.mapLabels, hmem.1, hmem.2.1, hmem.2.2.1]
  have hvariables : method.localVariables.map (·.map (LocalVariable.mapLabels f)) =
      method.localVariables.map (·.map (LocalVariable.mapLabels g)) := by
    refine Option.map_congr fun entries he => List.map_congr_left fun entry hi => ?_
    have hentry : entry ∈ method.variableList := by
      rw [variableList, he]
      exact hi
    have hmem : ∀ label ∈ entry.mentions, f label = g label := fun label hm => h label
      (List.mem_append_right _ (List.mem_flatMap.mpr ⟨entry, hentry, hm⟩))
    simp only [LocalVariable.mentions, List.forall_mem_cons] at hmem
    rw [LocalVariable.mapLabels, LocalVariable.mapLabels, hmem.1, hmem.2.1]
  rw [mapLabels, mapLabels, hcode, hhandlers, hvariables]

theorem code_mapLabels (labels : Nat) : (method.mapLabels g labels).body.code =
    method.body.code.map (Instruction.mapLabels g) := rfl

theorem handlers_mapLabels (labels : Nat) : (method.mapLabels g labels).handlers =
    method.handlers.map (TryCatch.mapLabels g) := rfl

theorem localVariables_mapLabels (labels : Nat) : (method.mapLabels g labels).localVariables =
    method.localVariables.map (·.map (LocalVariable.mapLabels g)) := rfl

theorem mapLabels_mapLabels (f g : Label → Label) (labels labels' : Nat) (method : Method) :
    (method.mapLabels g labels).mapLabels f labels' = method.mapLabels (f ∘ g) labels' := by
  simp only [mapLabels, List.map_map, Option.map_map]
  congr 1
  · congr 1
    exact List.map_congr_left fun insn _ => Instruction.mapLabels_mapLabels f g insn
  · congr 1
    funext entries
    exact List.map_map

theorem mapLabels_id (method : Method) : method.mapLabels id method.body.labels = method := by
  have hcode : method.body.code.map (Instruction.mapLabels id) = method.body.code :=
    (List.map_congr_left fun insn _ => Instruction.mapLabels_id insn).trans (List.map_id _)
  have hhandlers : method.handlers.map (TryCatch.mapLabels id) = method.handlers := List.map_id _
  have hvariables : method.localVariables.map (·.map (LocalVariable.mapLabels id)) =
      method.localVariables := by
    cases method.localVariables with
    | none => rfl
    | some entries => exact congrArg some (List.map_id entries)
  rw [mapLabels, hcode, hhandlers, hvariables]

theorem placed_mapLabels (g : Label → Label) (labels : Nat) (method : Method) :
    (method.mapLabels g labels).body.placed = method.body.placed.map g := by
  simp only [Body.placed, code_mapLabels, List.filterMap_map, List.map_filterMap]
  exact congrArg (List.filterMap · method.body.code)
    (funext fun insn => Instruction.placed?_mapLabels g insn)

theorem references_mapLabels (g : Label → Label) (labels : Nat) (method : Method) :
    (method.mapLabels g labels).references = method.references.map g := by
  have hvariables : (method.mapLabels g labels).variableList =
      method.variableList.map (LocalVariable.mapLabels g) := by
    rw [variableList, variableList, localVariables_mapLabels]
    cases method.localVariables <;> rfl
  simp only [references, hvariables, code_mapLabels, handlers_mapLabels, List.map_append,
    List.map_flatMap, List.flatMap_map, Instruction.references_mapLabels]
  rfl

theorem mem_mentions_mapLabels {label : Label} (labels : Nat) :
    label ∈ (method.mapLabels g labels).mentions ↔ ∃ old ∈ method.mentions, g old = label := by
  simp only [mem_mentions, placed_mapLabels, references_mapLabels, List.mem_map]
  grind

end Method
end ClassTree
