import ClassTree.Code.Attribute
import ClassTree.Proofs.Code.RenamedLayout

namespace ClassTree

open Pool Build ClassTree.Flow
open Instruction (mapLabels)

variable {g : Label → Label} {labels : Nat} {method : Method}

/-- Labels are refused on both sides or on neither. -/
theorem Method.alike_checkLabels (hg : Function.Injective g) (labels : Nat) (method : Method)
    (name : String) :
    Alike Eq (method.checkLabels name) ((method.mapLabels g labels).checkLabels name) := by
  have hiff : method.checkLabels name = .ok () ↔
      (method.mapLabels g labels).checkLabels name = .ok () := by
    rw [checkLabels_eq_ok, checkLabels_eq_ok, placed_mapLabels, references_mapLabels,
      List.nodup_map_iff hg, List.forall_mem_map]
    simp only [List.mem_map_of_injective hg]
  exact ⟨fun h => ⟨(), hiff.mp h, rfl⟩, fun h => ⟨(), hiff.mpr h, rfl⟩⟩

namespace Code

theorem programOf_map (hg : Function.Injective g) (context : Context)
    (code : List (Instruction Label)) (handlers : List TryCatch) :
    programOf context (code.map (mapLabels g)) (handlers.map (TryCatch.mapLabels g)) =
      (programOf context code handlers).mapLabels g
        (Positions.ofCode (code.map (mapLabels g))) := by
  have hfollows : (Positions.ofCode code).Follows g (Positions.ofCode (code.map (mapLabels g))) :=
    Positions.getElem?_ofCode_map hg code
  have hranges : handlerRanges (Positions.ofCode (code.map (mapLabels g)))
      (handlers.map (TryCatch.mapLabels g)) = handlerRanges (Positions.ofCode code) handlers := by
    rw [handlerRanges, handlerRanges, List.map_map]
    refine List.map_congr_left fun handler _ => ?_
    simp only [Function.comp_apply, TryCatch.mapLabels, hfollows.getD]
  simp only [programOf, Program.mapLabels, hranges, List.map_toArray]

theorem framePoints_mapLabels {program : Program} {positions : Positions}
    (h : program.positions.Follows g positions) :
    framePoints (program.mapLabels g positions) = framePoints program := by
  have htargets : ((program.code.toList.map (mapLabels g)).flatMap Instruction.jumpTargets) =
      (program.code.toList.flatMap Instruction.jumpTargets).map g := by
    simp only [List.flatMap_map, List.map_flatMap, Instruction.jumpTargets_mapLabels]
  simp only [framePoints, Program.mapLabels, Array.toList_map, htargets, List.filterMap_map]
  congr 2
  exact funext h

structure Prepared.Follows (g : Label → Label) (prepared prepared' : Prepared) : Prop where
  code : prepared'.code = prepared.code.map (mapLabels g)
  offsets : prepared'.offsets = prepared.offsets
  handlers : prepared'.handlers = prepared.handlers.map (TryCatch.mapLabels g)
  frames : prepared'.frames = prepared.frames
  maxStack : prepared'.maxStack = prepared.maxStack
  maxLocals : prepared'.maxLocals = prepared.maxLocals

theorem alike_withoutDead {laidOut laidOut' : LaidOut} (h : laidOut.Follows g laidOut')
    (flow : TypeFlow) (handlers : List TryCatch) (frames : FrameTable) :
    Build.Alike (Prepared.Follows g) (withoutDead laidOut flow handlers frames)
      (withoutDead laidOut' flow (handlers.map (TryCatch.mapLabels g)) frames) := by
  obtain ⟨code, rest, offsets⟩ := laidOut
  obtain ⟨code', rest', offsets'⟩ := laidOut'
  obtain rfl : code' = code.map (mapLabels g) := h.code
  obtain rfl : offsets' = offsets := h.offsets
  have hlabels : Renaming g rest rest' := h.labels
  obtain ⟨hcode, hruns⟩ := replaceDead_map hlabels code flow.frames offsets'
  unfold withoutDead
  dsimp only
  -- only how the two outcomes of the replacement correspond matters from here on
  generalize replaceDead code rest flow.frames offsets' = replaced at hcode hruns ⊢
  generalize replaceDead (code.map (mapLabels g)) rest' flow.frames offsets' = replaced'
    at hcode hruns ⊢
  obtain ⟨code, rest, runs⟩ := replaced
  obtain ⟨code', rest', runs'⟩ := replaced'
  obtain rfl : code' = code.map (mapLabels g) := hcode
  obtain rfl : runs' = runs.map (DeadRun.mapLabels g) := hruns
  dsimp only
  rw [List.isEmpty_map, layout_map]
  split
  · exact alike_pure ⟨rfl, rfl, rfl, rfl, rfl, rfl⟩
  · refine (Build.Alike.refl _).bind_eq fun dead => ?_
    refine (Build.Alike.refl _).bind_eq fun offsets => ?_
    refine alike_pure ⟨rfl, rfl, ?_, ?_, rfl, rfl⟩
    · exact splitHandlers_map (LabelOffsets.at_map hlabels.injective code offsets) runs handlers
    · exact List.foldl_map

theorem usesSubroutines_map (g : Label → Label) (code : List (Instruction Label)) :
    usesSubroutines (code.map (mapLabels g)) = usesSubroutines code := by
  simp only [usesSubroutines, List.any_map, Function.comp_def, Instruction.opcode?_mapLabels]

theorem contextOf_mapLabels (setting : Setting) (method : Method) (labels : Nat) :
    contextOf setting (method.mapLabels g labels) = contextOf setting method := rfl

theorem alike_prepareWithFrames (h : Renaming g method.body.labels labels) (setting : Setting) :
    Build.Alike (Prepared.Follows g) (prepareWithFrames setting method)
      (prepareWithFrames setting (method.mapLabels g labels)) := by
  have hunframed : (method.body.code.map (mapLabels g)).filter (fun insn => !insn.isFrame) =
      (method.body.code.filter fun insn => !insn.isFrame).map (mapLabels g) := by
    simp only [List.filter_map, Function.comp_def, Instruction.isFrame_mapLabels]
  unfold prepareWithFrames
  rw [Method.code_mapLabels, Method.handlers_mapLabels, usesSubroutines_map, hunframed,
    contextOf_mapLabels]
  dsimp only
  split
  · exact alike_throw_bind _ _ _ _
  · have hwiden := alike_widen h (setting.displayName method) false
      (method.body.code.filter fun insn => !insn.isFrame)
    refine hwiden.bind fun laidOut laidOut' hlaid => ?_
    refine (Build.Alike.refl _).bind_eq fun context => ?_
    have hfollows : (programOf context laidOut.code method.handlers).positions.Follows g
        (Positions.ofCode (laidOut.code.map (mapLabels g))) :=
      Positions.getElem?_ofCode_map h.injective laidOut.code
    rw [hlaid.code, hlaid.offsets, programOf_map h.injective]
    refine (alike_ofExcept (alike_computeTypes hfollows _)).bind_eq fun flow => ?_
    simp only [computedFrames, framePoints_mapLabels hfollows]
    refine (Build.Alike.refl _).bind_eq fun frames => ?_
    exact alike_withoutDead hlaid flow method.handlers frames

theorem traverse_mapCreation {κ : Type} (f : String → Build κ) (place : Label → UInt16)
    (locals stack : List (VerificationType String Label)) :
    (Frame.mk (locals.map (.mapCreation g)) (stack.map (.mapCreation g))).traverse f place =
      (Frame.mk locals stack).traverse f (place ∘ g) := by
  have htype : VerificationType.traverse f place ∘ VerificationType.mapCreation g =
      VerificationType.traverse f (place ∘ g) := by
    funext type
    cases type <;> rfl
  simp only [Frame.traverse, List.mapM_map, htype]

/-- Frames placed by hand are at the same offsets. -/
theorem placedFrames_eq {laidOut laidOut' : LaidOut} (h : laidOut.Follows g laidOut') :
    placedFrames laidOut' = placedFrames laidOut := by
  unfold placedFrames
  rw [h.code, h.offsets, List.zipIdx_map, List.foldlM_map]
  dsimp only
  congr 1
  funext table entry
  obtain ⟨insn, index⟩ := entry
  cases insn with
  | frame locals stack =>
    simp only [Prod.map, mapLabels, id, traverse_mapCreation, Function.comp_def,
      LabelOffsets.at_map h.labels.injective]
  | _ => rfl

theorem alike_maxima (hg : Function.Injective g) (setting : Setting) (method : Method)
    (code : List (Instruction Label)) : Build.Alike Eq (maxima setting method code)
      (maxima setting (method.mapLabels g labels) (code.map (mapLabels g))) := by
  unfold maxima
  rw [Method.handlers_mapLabels, contextOf_mapLabels]
  split
  · refine (Build.Alike.refl _).bind_eq fun context => ?_
    rw [programOf_map hg]
    exact alike_ofExcept (alike_computeMaxima (Positions.getElem?_ofCode_map hg code))
  · exact .refl _

theorem alike_prepareAsIs (h : Renaming g method.body.labels labels) (setting : Setting) :
    Build.Alike (Prepared.Follows g) (prepareAsIs setting method)
      (prepareAsIs setting (method.mapLabels g labels)) := by
  have hframes : (method.body.code.map (mapLabels g)).any Instruction.isFrame =
      method.body.code.any Instruction.isFrame := by
    simp only [List.any_map, Function.comp_def, Instruction.isFrame_mapLabels]
  unfold prepareAsIs
  rw [Method.code_mapLabels, hframes]
  refine (alike_widen h (setting.displayName method) _ _).bind fun laidOut laidOut' hlaid => ?_
  rw [hlaid.code, hlaid.offsets, placedFrames_eq hlaid]
  refine (alike_maxima h.injective setting method laidOut.code).bind_eq
    fun ⟨maxStack, maxLocals⟩ => ?_
  dsimp only
  split
  · refine (Build.Alike.refl (placedFrames laidOut)).bind_eq fun frames => ?_
    exact alike_pure ⟨rfl, rfl, rfl, rfl, rfl, rfl⟩
  · exact alike_pure ⟨rfl, rfl, rfl, rfl, rfl, rfl⟩

theorem alike_prepare (h : Renaming g method.body.labels labels) (setting : Setting) :
    Build.Alike (Prepared.Follows g) (prepare setting method)
      (prepare setting (method.mapLabels g labels)) := by
  unfold prepare
  have hlabels := Method.alike_checkLabels h.injective labels method (setting.displayName method)
  refine (alike_ofExcept (hlabels.mapError _ _)).bind_eq fun _ => ?_
  split
  · exact alike_prepareWithFrames h setting
  · exact alike_prepareAsIs h setting

variable {found found' : LabelOffsets}

theorem encode_map (h : ∀ label, found'.at (g label) = found.at label)
    (code : List (Instruction Label)) (offsets : Offsets) :
    encode (code.map (mapLabels g)) offsets found' = encode code offsets found := by
  simp only [encode, List.zipIdx_map, List.mapM_map, Function.comp_def, Prod.map, id,
    Instruction.mapLabels_mapLabels, h]

theorem encodeHandlers_map (h : ∀ label, found'.at (g label) = found.at label)
    (handlers : List TryCatch) :
    encodeHandlers found' (handlers.map (TryCatch.mapLabels g)) =
      encodeHandlers found handlers := by
  have hentry : ∀ handler : TryCatch,
      encodeHandler found' (handler.mapLabels g) = encodeHandler found handler := by
    intro handler
    simp only [encodeHandler, TryCatch.mapLabels, h]
  simp only [encodeHandlers, List.mapM_map, Function.comp_def, hentry]

theorem lineEntries_map (h : ∀ label, found'.at (g label) = found.at label)
    (code : List (Instruction Label)) :
    lineEntries found' (code.map (mapLabels g)) = lineEntries found code := by
  unfold lineEntries
  rw [List.filterMap_map]
  congr 1
  funext insn
  cases insn with
  | line number start => simp only [Function.comp_apply, mapLabels, h]
  | _ => rfl

theorem variableAttributes_map (h : ∀ label, found'.at (g label) = found.at label)
    (localVariables : Option (List LocalVariable)) :
    variableAttributes found' (localVariables.map (·.map (LocalVariable.mapLabels g))) =
      variableAttributes found localVariables := by
  have hentry : ∀ entry : LocalVariable,
      encodeVariable found' (entry.mapLabels g) = encodeVariable found entry := by
    intro entry
    simp only [encodeVariable, LocalVariable.mapLabels, h]
  cases localVariables with
  | none => rfl
  | some entries =>
    simp only [Option.map_some, variableAttributes, List.mapM_map, Function.comp_def, hentry]

/-- The contents of the attribute do not depend on the labels of the method. -/
theorem alike_attributeInfo (h : Renaming g method.body.labels labels) (setting : Setting) :
    Build.Alike Eq (attributeInfo setting method)
      (attributeInfo setting (method.mapLabels g labels)) := by
  unfold attributeInfo
  refine (alike_prepare h setting).bind fun prepared prepared' hp => ?_
  have hat : ∀ label, prepared'.labelOffsets.at (g label) = prepared.labelOffsets.at label := by
    intro label
    rw [Prepared.labelOffsets, hp.code, hp.offsets]
    exact LabelOffsets.at_map h.injective prepared.code prepared.offsets label
  simp only [hp.code, hp.handlers, hp.offsets, hp.frames, hp.maxStack, hp.maxLocals,
    Method.localVariables_mapLabels, encode_map hat, encodeHandlers_map hat, lineEntries_map hat,
    variableAttributes_map hat]
  exact .refl _

end Code
end ClassTree
