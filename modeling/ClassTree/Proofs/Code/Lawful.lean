import ClassTree.Code.Attribute
import ClassTree.Proofs.Code.FrameTable

namespace ClassTree.Code

open Pool Build

theorem lawful_widen (method : String) (hasFrames : Bool) (body : Body) :
    Lawful (widen method hasFrames body) := by
  induction body using rounds_induction with
  | step body ih =>
    rw [widen_eq]
    refine (lawful_layout _).bind_of_yields fun hl => ?_
    split
    · exact lawful_throw _
    · rename_i hshort
      split
      · rename_i hany
        split
        · exact lawful_throw _
        · exact ih hl hshort hany
      · exact lawful_pure _

theorem lawful_contextOf (setting : Setting) (method : Method) :
    Lawful (contextOf setting method) := by
  unfold contextOf
  split
  · exact lawful_pure _
  · exact lawful_throw _

theorem lawful_withoutDead (laidOut : LaidOut) (flow : Flow.TypeFlow) (handlers : List TryCatch)
    (frames : FrameTable) : Lawful (withoutDead laidOut flow handlers frames) := by
  unfold withoutDead
  dsimp only
  split
  · exact lawful_pure _
  · exact lawful_deadFrame.bind fun _ => (lawful_layout _).bind fun _ => lawful_pure _

theorem lawful_addPlaced (laidOut : LaidOut) (table : FrameTable)
    (entry : Instruction Label × Nat) :
    Lawful (match entry with
      | (insn, index) =>
        let offset := laidOut.offsets.getD index 0
        match insn with
        | .frame locals stack =>
          if offset < laidOut.offsets.length then
            return table.insert offset (← (Frame.mk locals stack).traverse Build.classRef
              fun label =>
                UInt16.ofNat ((LabelOffsets.ofCode laidOut.code laidOut.offsets).at label))
          else pure table
        | _ => pure table) := by
  dsimp only
  split
  · split
    · exact (lawful_frame _ _).bind fun _ => lawful_pure _
    · exact lawful_pure _
  · exact lawful_pure _

theorem lawful_placedFrames (laidOut : LaidOut) : Lawful (placedFrames laidOut) :=
  lawful_foldlM (lawful_addPlaced laidOut) _ _

theorem lawful_maxima (setting : Setting) (method : Method) (code : List (Instruction Label)) :
    Lawful (maxima setting method code) := by
  unfold maxima
  split
  · exact (lawful_contextOf _ _).bind fun _ => lawful_ofExcept _
  · exact lawful_pure _

theorem lawful_prepareWithFrames (setting : Setting) (method : Method) :
    Lawful (prepareWithFrames setting method) := by
  unfold prepareWithFrames
  dsimp only
  split
  · exact lawful_throw _
  · exact (lawful_widen _ _ _).bind fun _ => (lawful_contextOf _ _).bind fun _ =>
      (lawful_ofExcept _).bind fun _ => (lawful_computedFrames _ _ _).bind fun _ =>
        lawful_withoutDead _ _ _ _

theorem lawful_prepareAsIs (setting : Setting) (method : Method) :
    Lawful (prepareAsIs setting method) := by
  refine (lawful_widen _ _ _).bind fun _ => (lawful_maxima _ _ _).bind fun _ => ?_
  dsimp only
  split
  · exact (lawful_placedFrames _).bind fun _ => lawful_pure _
  · exact lawful_pure _

theorem lawful_prepare (setting : Setting) (method : Method) : Lawful (prepare setting method) := by
  refine (lawful_ofExcept _).bind fun _ => ?_
  split
  · exact lawful_prepareWithFrames _ _
  · exact lawful_prepareAsIs _ _

theorem lawful_attributeBytes (name : String) (info : Bytes) : Lawful (attributeBytes name info) :=
  (lawful_text name).bind fun _ => lawful_pure _

theorem lawful_tableAttribute? (name : String) (entries : List Bytes) :
    Lawful (tableAttribute? name entries) := by
  unfold tableAttribute?
  split
  · exact lawful_pure _
  · exact (lawful_attributeBytes _ _).bind fun _ => lawful_pure _

theorem lawful_encodeHandler (labels : LabelOffsets) (handler : TryCatch) :
    Lawful (encodeHandler labels handler) := by
  unfold encodeHandler
  dsimp only
  split
  · exact lawful_pure _
  · refine Lawful.bind ?_ fun _ => lawful_pure _
    cases handler.catchType with
    | none => exact lawful_pure _
    | some name => exact lawful_classRef name

theorem lawful_encodeHandlers (labels : LabelOffsets) (handlers : List TryCatch) :
    Lawful (encodeHandlers labels handlers) :=
  (lawful_mapM (lawful_encodeHandler labels) handlers).bind fun _ => lawful_pure _

theorem lawful_encodeVariable (labels : LabelOffsets) (entry : LocalVariable) :
    Lawful (encodeVariable labels entry) := by
  unfold encodeVariable
  dsimp only
  split
  · exact lawful_pure _
  · refine (lawful_text _).bind fun name => (lawful_text _).bind fun descriptor => ?_
    cases entry.signature with
    | none => exact lawful_pure _
    | some signature => exact (lawful_text _).bind fun _ => lawful_pure _

theorem lawful_variableAttributes (labels : LabelOffsets)
    (localVariables : Option (List LocalVariable)) :
    Lawful (variableAttributes labels localVariables) := by
  cases localVariables with
  | none => exact lawful_pure _
  | some localVariables =>
    exact (lawful_mapM (lawful_encodeVariable labels) localVariables).bind fun entries =>
      (lawful_attributeBytes _ _).bind fun table =>
        (lawful_tableAttribute? _ _).bind fun _ => lawful_pure _

theorem lawful_frameAttribute (setting : Setting) (method : Method) (offsets : Offsets)
    (frames : FrameTable) : Lawful (frameAttribute setting method offsets frames) := by
  unfold frameAttribute
  split
  · exact lawful_pure _
  · exact (lawful_contextOf _ _).bind fun _ => (lawful_encodeFrame _ _).bind fun _ =>
      (lawful_attributeBytes _ _).bind fun _ => lawful_pure _

theorem lawful_attributeInfo (setting : Setting) (method : Method) :
    Lawful (attributeInfo setting method) :=
  (lawful_prepare _ _).bind fun _ => (lawful_encode _ _ _).bind fun _ =>
    (lawful_encodeHandlers _ _).bind fun _ => (lawful_tableAttribute? _ _).bind fun _ =>
      (lawful_variableAttributes _ _).bind fun _ => (lawful_frameAttribute _ _ _ _).bind fun _ =>
        lawful_pure _

end ClassTree.Code
