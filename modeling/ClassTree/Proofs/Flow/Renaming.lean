import ClassTree.Flow.Depth
import ClassTree.Proofs.Code.Labels
import ClassTree.Proofs.Code.Renaming

namespace ClassTree

open Instruction (mapLabels)

namespace Flow

variable {g : Label → Label} {code : List (Instruction Label)} {label : Label}

/-- A renamed label is where the label was. -/
theorem Positions.getElem?_ofCode_map (hg : Function.Injective g)
    (code : List (Instruction Label)) (label : Label) :
    (ofCode (code.map (mapLabels g)))[g label]? = (ofCode code)[label]? := by
  have hat : ∀ index : Nat, (code.map (mapLabels g))[index]? = some (.label (g label)) ↔
      code[index]? = some (.label label) := by
    intro index
    rw [List.getElem?_map, Option.map_eq_some_iff]
    constructor
    · rintro ⟨insn, hi, he⟩
      cases insn with
      | label other =>
        obtain rfl : other = label := hg (by simpa [mapLabels] using he)
        exact hi
      | _ => cases he
    · exact fun hi => ⟨_, hi, rfl⟩
  refine Option.ext fun index => ?_
  simp only [getElem?_ofCode, hat, ne_eq]

/-- In the renamed code, labels are at the positions where they were. -/
def Positions.Follows (g : Label → Label) (positions positions' : Positions) : Prop :=
  ∀ label, positions'[g label]? = positions[label]?

theorem Positions.Follows.getD {positions positions' : Positions}
    (h : positions.Follows g positions') (label : Label) :
    positions'.getD (g label) 0 = positions.getD label 0 := by
  rw [Std.HashMap.getD_eq_getD_getElem?, Std.HashMap.getD_eq_getD_getElem?, h]

/-- The program with renamed labels, which are at these positions. -/
def Program.mapLabels (g : Label → Label) (positions : Positions) (program : Program) : Program :=
  { program with code := program.code.map (Instruction.mapLabels g), positions }

variable {program : Program} {positions positions' : Positions}

theorem size_mapLabels : (program.mapLabels g positions).code.size = program.code.size :=
  Array.size_map

theorem getElem?_mapLabels (index : Nat) : (program.mapLabels g positions).code[index]? =
    program.code[index]?.map (Instruction.mapLabels g) :=
  Array.getElem?_map

theorem fallsThrough_mapLabels (insn : Instruction Label) :
    fallsThrough (mapLabels g insn) = fallsThrough insn := by
  cases insn <;> rfl

theorem spelling_mapLabels (insn : Instruction Label) :
    spelling (mapLabels g insn) = spelling insn := by
  cases insn <;> rfl

theorem stackDelta_mapLabels (insn : Instruction Label) :
    stackDelta (mapLabels g insn) = stackDelta insn := by
  cases insn <;> rfl

theorem localsUsed_mapLabels (insn : Instruction Label) :
    localsUsed (mapLabels g insn) = localsUsed insn := by
  cases insn <;> rfl

theorem isCall_mapLabels (insn : Instruction Label) :
    isCall (mapLabels g insn) = isCall insn := by
  cases insn <;> rfl

theorem constructed_map (context : Context) (code : Array (Instruction Label)) (type : SlotType) :
    constructed context (code.map (mapLabels g)) type = constructed context code type := by
  cases type with
  | uninitialized index =>
    simp only [constructed, Array.getElem?_map]
    cases code[index]? with
    | none => rfl
    | some insn => cases insn <;> rfl
  | _ => rfl

/-- No instruction does anything with labels. -/
theorem execute_mapLabels (context : Context) (code : Array (Instruction Label)) (index : Nat)
    (insn : Instruction Label) :
    execute context (code.map (mapLabels g)) index (mapLabels g insn) =
      execute context code index insn := by
  cases insn with
  | invoke op member onInterface =>
    change executeInvoke context (code.map (mapLabels g)) op member =
      executeInvoke context code op member
    simp only [executeInvoke, constructed_map]
  | _ => rfl

theorem alike_find (h : positions.Follows g positions') (label : Label) :
    Alike Eq (positions.find label) (positions'.find (g label)) := by
  unfold Positions.find
  rw [h label]
  cases positions[label]? with
  | none => exact alike_error _ _
  | some index => exact alike_ok rfl

theorem alike_targets (h : positions.Follows g positions') (labels : List Label) :
    Alike Eq (labels.mapM positions.find) ((labels.map g).mapM positions'.find) := by
  induction labels with
  | nil => exact alike_ok rfl
  | cons label labels ih =>
    rw [List.map_cons, List.mapM_cons, List.mapM_cons]
    refine (alike_find h label).bind_eq fun index => ?_
    refine ih.bind_eq fun indices => ?_
    exact alike_ok rfl

theorem alike_successors (h : positions.Follows g positions') (code : Array (Instruction Label))
    (index : Nat) (insn : Instruction Label) : Alike Eq (successors code positions index insn)
      (successors (code.map (mapLabels g)) positions' index (mapLabels g insn)) := by
  unfold successors
  rw [Instruction.jumpTargets_mapLabels, fallsThrough_mapLabels, Array.size_map]
  refine (alike_targets h _).bind_eq fun targets => ?_
  split
  · split
    · exact alike_error _ _
    · exact alike_ok rfl
  · exact alike_ok rfl

theorem alike_drain {σ ε : Type} {pop : σ → Option Nat × σ} {visit visit' : σ → Nat → Except ε σ}
    (h : ∀ state index, Alike Eq (visit state index) (visit' state index)) (unsettled : ε)
    (bound : Nat) (state : σ) :
    Alike Eq (drain pop visit unsettled bound state) (drain pop visit' unsettled bound state) := by
  induction bound generalizing state with
  | zero => exact .refl _
  | succ bound ih =>
    unfold drain
    split
    · exact .refl _
    · refine (h _ _).bind_eq fun state => ?_
      exact ih state

theorem alike_visitTypes (h : program.positions.Follows g positions) (hierarchy : Hierarchy)
    (types : Std.HashMap Nat String) (state : TypeState) (index : Nat) :
    Alike Eq (TypeState.visit program hierarchy types state index)
      (TypeState.visit (program.mapLabels g positions) hierarchy types state index) := by
  unfold TypeState.visit
  rw [getElem?_mapLabels]
  cases state.flow.frames.getD index none with
  | none => exact .refl _
  | some before =>
    cases program.code[index]? with
    | none => exact .refl _
    | some insn =>
      dsimp only [Option.map_some, Program.mapLabels]
      rw [execute_mapLabels, Instruction.isMarker_mapLabels]
      refine (Alike.refl _).bind_eq fun outcome => ?_
      refine (Alike.refl _).bind_eq fun state => ?_
      refine ((alike_successors h _ _ _).mapError _ _).bind_eq fun targets => ?_
      exact .refl _

theorem total_map {α β : Type} {weigh : α → Nat} (f : β → α) (l : List β) :
    total weigh (l.map f) = total (fun b => weigh (f b)) l := by
  induction l with
  | nil => rfl
  | cons first rest ih => rw [List.map_cons, total, total, ih]

theorem visits_mapLabels (program : Program) (hierarchy : Hierarchy) :
    (program.mapLabels g positions).visits hierarchy = program.visits hierarchy := by
  simp only [Program.visits, Program.slots, Program.nesting, Program.spelled, Program.mapLabels,
    Array.size_map, Array.toList_map, total_map, spelling_mapLabels]

/-- Types do not depend on labels. -/
theorem alike_computeTypes (h : program.positions.Follows g positions) (hierarchy : Hierarchy) :
    Alike Eq (computeTypes hierarchy program)
      (computeTypes hierarchy (program.mapLabels g positions)) := by
  unfold computeTypes
  simp only [visits_mapLabels, Array.isEmpty_iff_size_eq_zero, size_mapLabels]
  split
  · exact alike_error _ _
  · refine (alike_drain (alike_visitTypes h hierarchy _) _ _ _).bind_eq fun final => ?_
    exact .refl _

theorem alike_edges (h : program.positions.Follows g positions) (index : Nat)
    (insn : Instruction Label) (before after : Int) :
    Alike Eq (DepthState.edges program index insn before after)
      (DepthState.edges (program.mapLabels g positions) index (mapLabels g insn) before after) := by
  unfold DepthState.edges
  rw [isCall_mapLabels, Instruction.jumpTargets_mapLabels]
  split
  · refine (alike_targets h _).bind_eq fun targets => ?_
    simp only [size_mapLabels]
    exact .refl _
  · refine (alike_successors h _ _ _).bind_eq fun targets => ?_
    exact .refl _

theorem alike_visitDepths (h : program.positions.Follows g positions) (state : DepthState)
    (index : Nat) : Alike Eq (DepthState.visit program state index)
      (DepthState.visit (program.mapLabels g positions) state index) := by
  unfold DepthState.visit
  rw [getElem?_mapLabels]
  cases state.depths.getD index none with
  | none => exact .refl _
  | some before =>
    cases program.code[index]? with
    | none => exact .refl _
    | some insn =>
      dsimp only [Option.map_some]
      rw [stackDelta_mapLabels, Instruction.isMarker_mapLabels]
      refine (Alike.refl _).bind_eq fun delta => ?_
      split
      · exact alike_error _ _
      · refine (Alike.refl _).bind_eq fun state => ?_
        refine ((alike_edges h index insn before _).mapError _ _).bind_eq fun edges => ?_
        exact .refl _

/-- Depths do not depend on labels. -/
theorem alike_computeMaxima (h : program.positions.Follows g positions) :
    Alike Eq (computeMaxima program) (computeMaxima (program.mapLabels g positions)) := by
  unfold computeMaxima
  simp only [size_mapLabels]
  have hlocals : ∀ most, (program.mapLabels g positions).code.toList.foldl
      (fun most insn => max most (localsUsed insn)) most =
        program.code.toList.foldl (fun most insn => max most (localsUsed insn)) most := by
    simp only [Program.mapLabels, Array.toList_map, List.foldl_map, localsUsed_mapLabels,
      implies_true]
  rw [hlocals]
  split
  · exact .refl _
  · refine (alike_drain (alike_visitDepths h) _ _ _).bind_eq fun final => ?_
    exact .refl _

end Flow
end ClassTree
