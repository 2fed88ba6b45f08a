import ClassTree.Proofs.Code.Listing
import ClassTree.Proofs.Code.Widening
import ClassTree.Proofs.Pool.Building
import ClassTree.Writing

namespace ClassTree

namespace Error

def concernsLabels : Error → Bool
  | inconsistent (.unresolvedLabel ..) | inconsistent (.duplicateLabel ..) => true
  | _ => false

end Error

variable {α β σ : Type}

/-- Whatever the computation fails with, it is not about labels. -/
def SparesLabels (x : Except Error α) : Prop :=
  ∀ fault, x = .error fault → fault.concernsLabels = false

theorem sparesLabels_ok (a : α) : SparesLabels (.ok a) :=
  failsOnly_ok a

theorem SparesLabels.bind {x : Except Error α} {f : α → Except Error β} (hx : SparesLabels x)
    (hf : ∀ a, SparesLabels (f a)) : SparesLabels (x >>= f) :=
  FailsOnly.bind hx hf

theorem sparesLabels_foldlM {f : σ → α → Except Error σ} (hf : ∀ s a, SparesLabels (f s a))
    (l : List α) (s : σ) : SparesLabels (l.foldlM f s) :=
  failsOnly_foldlM hf l s

/-- Sound labels pass the check. -/
theorem Method.LabelsSound.checkLabels_eq_ok {method : Method} (h : method.LabelsSound)
    (name : String) : method.checkLabels name = .ok () :=
  Method.checkLabels_of_nodup h.nodup
    (fun label hm => List.count_pos_iff.mp (h.resolved label hm ▸ Nat.one_pos)) name

namespace Flow

/-- Faults in code are not about labels of methods. -/
theorem sparesLabels_fault (program : Program) (index : Nat) (x : Except FlowFault α) :
    SparesLabels (x.mapError (program.fault index)) := by
  cases x with
  | error fault =>
    rintro _ ⟨⟩
    rfl
  | ok a => exact sparesLabels_ok a

theorem sparesLabels_drain {pop : σ → Option Nat × σ} {visit : σ → Nat → Except Error σ}
    {unsettled : Error} (hv : ∀ s i, SparesLabels (visit s i))
    (hu : unsettled.concernsLabels = false) (bound : Nat) (s : σ) :
    SparesLabels (drain pop visit unsettled bound s) := by
  induction bound generalizing s with
  | zero =>
    rw [drain]
    split
    · exact sparesLabels_ok _
    · rintro _ ⟨⟩
      exact hu
  | succ bound ih =>
    rw [drain]
    split
    · exact sparesLabels_ok _
    · exact (hv _ _).bind fun s' => ih s'

theorem sparesLabels_visitTypes (program : Program) (hierarchy : Hierarchy)
    (types : Std.HashMap Nat String) (state : TypeState) (index : Nat) :
    SparesLabels (TypeState.visit program hierarchy types state index) := by
  unfold TypeState.visit
  split
  · refine (sparesLabels_fault _ _ _).bind fun executed => ?_
    refine (sparesLabels_foldlM (fun s range => ?_) _ _).bind fun _ =>
      (sparesLabels_fault _ _ _).bind fun _ =>
        sparesLabels_foldlM (fun _ _ => sparesLabels_fault _ _ _) _ _
    exact (sparesLabels_foldlM (fun _ _ => sparesLabels_fault _ _ _) _ _).bind
      fun _ => sparesLabels_ok _
  · exact sparesLabels_ok _

theorem sparesLabels_computeTypes (hierarchy : Hierarchy) (program : Program) :
    SparesLabels (computeTypes hierarchy program) := by
  have hunsettled : Error.concernsLabels
      (.inconsistent (.unsettledTypes program.context.displayName)) = false := rfl
  have hrest := @sparesLabels_drain _ TypeState.pop _ _
    (sparesLabels_visitTypes program hierarchy (entryTypes hierarchy program.handlers)) hunsettled
  unfold computeTypes
  dsimp only
  split
  · refine SparesLabels.bind ?_ fun _ => (hrest _ _).bind fun _ => sparesLabels_ok _
    rintro _ ⟨⟩
    rfl
  · exact (hrest _ _).bind fun _ => sparesLabels_ok _

theorem sparesLabels_visitDepths (program : Program) (state : DepthState) (index : Nat) :
    SparesLabels (DepthState.visit program state index) := by
  unfold DepthState.visit
  split
  · rename_i before insn _ _
    refine (sparesLabels_fault _ _ _).bind fun delta => ?_
    have hrest : ∀ (state : DepthState) (covering : List HandlerRange), SparesLabels (do
        let state ← covering.foldlM
          (fun state range => return (← DepthState.arrive program state range.handler 1).raise 1)
          state
        let edges ← (DepthState.edges program index insn before (before + delta)).mapError
          (program.fault index)
        edges.foldlM (fun state edge => DepthState.arrive program state edge.1 edge.2) state) := by
      intro state covering
      refine (sparesLabels_foldlM (fun s range => ?_) _ _).bind fun _ =>
        (sparesLabels_fault _ _ _).bind fun _ =>
          sparesLabels_foldlM (fun _ _ => sparesLabels_fault _ _ _) _ _
      exact (sparesLabels_fault _ _ _).bind fun _ => sparesLabels_ok _
    dsimp only
    by_cases hneg : before + delta < 0
    · rw [if_pos hneg]
      refine SparesLabels.bind ?_ fun _ => hrest _ _
      rintro _ ⟨⟩
      rfl
    · rw [if_neg hneg]
      exact hrest _ _
  · exact sparesLabels_ok _

theorem sparesLabels_computeMaxima (program : Program) : SparesLabels (computeMaxima program) := by
  unfold computeMaxima
  dsimp only
  split
  · exact sparesLabels_ok _
  · exact (sparesLabels_drain (sparesLabels_visitDepths program) rfl _ _).bind
      fun _ => sparesLabels_ok _

end Flow

namespace Pool.Build

structure Spares (x : Build α) : Prop where
  error : ∀ {b fault b'}, x.exec b = (.error fault, b') → fault.concernsLabels = false

theorem spares_pure (a : α) : Spares (pure a) :=
  ⟨nofun⟩

theorem spares_throw {fault : Error} (h : fault.concernsLabels = false) :
    Spares (throw fault : Build α) := by
  refine ⟨fun {b other b'} he => ?_⟩
  obtain rfl := Except.error.inj (Prod.mk.inj he).1
  exact h

theorem Spares.bind_of_yields {x : Build α} {f : α → Build β} (hx : Spares x)
    (hf : ∀ {b a b'}, Yields x b a b' → Spares (f a)) : Spares (x >>= f) := by
  refine ⟨fun {b fault b'} he => ?_⟩
  rw [exec_bind] at he
  rcases hb : x.exec b with ⟨other | a, middle⟩
  · rw [hb] at he
    obtain rfl := Except.error.inj (Prod.mk.inj he).1
    exact hx.error hb
  · rw [hb] at he
    exact (hf hb).error he

theorem Spares.bind {x : Build α} {f : α → Build β} (hx : Spares x) (hf : ∀ a, Spares (f a)) :
    Spares (x >>= f) :=
  hx.bind_of_yields fun _ => hf _

theorem spares_ofExcept {x : Except Error α} (h : SparesLabels x) :
    Spares (MonadExcept.ofExcept x : Build α) := by
  cases x with
  | error fault => exact spares_throw (h fault rfl)
  | ok a => exact spares_pure a

theorem spares_mapM_mem {f : α → Build β} {l : List α} (hf : ∀ a ∈ l, Spares (f a)) :
    Spares (l.mapM f) := by
  induction l with
  | nil => exact spares_pure []
  | cons a l ih =>
    rw [List.mapM_cons]
    exact (hf a (by simp)).bind fun b =>
      (ih fun a ha => hf a (List.mem_cons_of_mem _ ha)).bind fun bs => spares_pure (b :: bs)

theorem spares_mapM {f : α → Build β} (hf : ∀ a, Spares (f a)) (l : List α) :
    Spares (l.mapM f) :=
  spares_mapM_mem fun a _ => hf a

theorem spares_foldlM {f : β → α → Build β} (hf : ∀ b a, Spares (f b a)) (l : List α) (b : β) :
    Spares (l.foldlM f b) := by
  induction l generalizing b with
  | nil => exact spares_pure b
  | cons a l ih =>
    rw [List.foldlM_cons]
    exact (hf b a).bind fun b' => ih b'

theorem spares_constant (constant : Constant) : Spares (Build.constant constant) := by
  refine ⟨fun {b fault b'} he => ?_⟩
  rcases exec_constant constant b with ⟨i, -, h⟩ | ⟨-, -, h⟩ | ⟨-, h⟩
  · rw [h] at he
    cases he
  · rw [h] at he
    cases he
  · rw [h] at he
    obtain rfl := Except.error.inj (Prod.mk.inj he).1
    rfl

theorem spares_entry (method : BootstrapMethod) : Spares (entry method) := by
  refine ⟨fun {b fault b'} he => ?_⟩
  rcases exec_entry method b with ⟨i, -, h⟩ | ⟨-, h⟩
  · rw [h] at he
    cases he
  · rw [h] at he
    cases he

theorem spares_text (value : String) : Spares (text value) :=
  spares_constant _

theorem spares_classRef (name : String) : Spares (classRef name) :=
  (spares_text name).bind fun _ => spares_constant _

theorem spares_classRef? (name : Option String) : Spares (classRef? name) := by
  cases name with
  | none => exact spares_pure 0
  | some name => exact spares_classRef name

theorem spares_text? (value : Option String) : Spares (text? value) := by
  cases value with
  | none => exact spares_pure 0
  | some value => exact spares_text value

theorem spares_nameAndType (name descriptor : String) : Spares (nameAndType name descriptor) :=
  (spares_text name).bind fun _ => (spares_text descriptor).bind fun _ => spares_constant _

theorem spares_field (member : Member) : Spares (field member) :=
  (spares_classRef _).bind fun _ => (spares_nameAndType _ _).bind fun _ => spares_constant _

theorem spares_method (member : Member) (onInterface : Bool) :
    Spares (method member onInterface) :=
  (spares_classRef _).bind fun _ => (spares_nameAndType _ _).bind fun _ => spares_constant _

theorem spares_handle (value : Handle) : Spares (handle value) := by
  unfold handle
  split
  · exact (spares_field _).bind fun _ => spares_constant _
  · exact (spares_method _ _).bind fun _ => spares_constant _

theorem spares_literal (value : Literal) : Spares (literal value) := by
  cases value with
  | int | float | long | double => exact spares_constant _
  | string value => exact (spares_text value).bind fun _ => spares_constant _
  | classRef name => exact spares_classRef name
  | methodType descriptor => exact (spares_text descriptor).bind fun _ => spares_constant _
  | handle value => exact spares_handle value

theorem spares_invokeDynamic (name descriptor : String) (method : Handle)
    (arguments : List Literal) : Spares (invokeDynamic name descriptor method arguments) := by
  have hbootstrap : Spares (bootstrapMethod method arguments) := by
    rw [bootstrapMethod_eq]
    exact (spares_handle method).bind fun _ =>
      (spares_mapM spares_literal arguments).bind fun _ => spares_entry _
  exact hbootstrap.bind fun _ => (spares_nameAndType _ _).bind fun _ => spares_constant _

theorem spares_attributeBytes (name : String) (info : Bytes) : Spares (attributeBytes name info) :=
  (spares_text name).bind fun _ => spares_pure _

end Pool.Build

namespace Code

open Pool Build

theorem spares_size (offset : Nat) (insn : Instruction Label) : Spares (size offset insn) := by
  cases insn with
  | load value => exact (spares_literal value).bind fun _ => spares_pure _
  | _ => exact spares_pure _

theorem spares_layout (code : List (Instruction Label)) : Spares (layout code) :=
  (spares_foldlM (fun _ _ => (spares_size _ _).bind fun _ => spares_pure _) _ _).bind
    fun _ => spares_pure _

theorem spares_widen (method : String) (hasFrames : Bool) (body : Body) :
    Spares (widen method hasFrames body) := by
  induction body using rounds_induction with
  | step body ih =>
    rw [widen_eq]
    refine (spares_layout _).bind_of_yields fun hl => ?_
    split
    · exact spares_throw rfl
    · rename_i hshort
      split
      · rename_i hany
        split
        · exact spares_throw rfl
        · exact ih hl hshort hany
      · exact spares_pure _

theorem spares_encodeInstruction (offset : Nat) (insn : Instruction Nat) :
    Spares (encodeInstruction offset insn) := by
  cases insn with
  | type op name => exact (spares_classRef name).bind fun _ => spares_pure _
  | field op member => exact (spares_field member).bind fun _ => spares_pure _
  | invoke op member onInterface =>
    refine (spares_method member onInterface).bind fun _ =>
      (spares_ofExcept ?_).bind fun _ => spares_pure _
    unfold encodeArgumentCount
    split
    · split
      · exact sparesLabels_ok _
      · rintro _ ⟨⟩
        rfl
    · exact sparesLabels_ok _
  | invokeDynamic name descriptor method arguments =>
    exact (spares_invokeDynamic name descriptor method arguments).bind fun _ => spares_pure _
  | load value => exact (spares_literal value).bind fun _ => spares_pure _
  | multiArray descriptor dimensions =>
    exact (spares_classRef descriptor).bind fun _ => spares_pure _
  | _ => exact spares_pure _

theorem spares_contextOf (setting : Setting) (method : Method) :
    Spares (contextOf setting method) := by
  unfold contextOf
  split
  · exact spares_pure _
  · exact spares_throw rfl

theorem spares_traverseType {ν ν' : Type} (place : ν → ν') (type : VerificationType String ν) :
    Spares (type.traverse Build.classRef place) := by
  cases type with
  | object name => exact (spares_classRef name).bind fun _ => spares_pure _
  | _ => exact spares_pure _

theorem spares_traverse {ν ν' : Type} (place : ν → ν') (frame : Frame String ν) :
    Spares (frame.traverse Build.classRef place) :=
  (spares_mapM (spares_traverseType place) _).bind fun _ =>
    (spares_mapM (spares_traverseType place) _).bind fun _ => spares_pure _

theorem spares_computedFrames (program : Flow.Program) (flow : Flow.TypeFlow) (offsets : Offsets) :
    Spares (computedFrames program flow offsets) := by
  refine spares_foldlM (fun table point => ?_) _ _
  split
  · exact spares_pure _
  · exact (spares_traverse _ _).bind fun _ => spares_pure _

theorem spares_withoutDead (laidOut : LaidOut) (flow : Flow.TypeFlow) (handlers : List TryCatch)
    (frames : FrameTable) : Spares (withoutDead laidOut flow handlers frames) := by
  unfold withoutDead
  dsimp only
  split
  · exact spares_pure _
  · exact ((spares_classRef _).bind fun _ => spares_pure _).bind fun _ =>
      (spares_layout _).bind fun _ => spares_pure _

theorem spares_prepareWithFrames (setting : Setting) (method : Method) :
    Spares (prepareWithFrames setting method) := by
  have hrest : ∀ body : Body, Spares (do
      let laidOut ← widen (setting.displayName method) false body
      let program := programOf (← contextOf setting method) laidOut.code method.handlers
      let flow ← MonadExcept.ofExcept (Flow.computeTypes setting.hierarchy program)
      let frames ← computedFrames program flow laidOut.offsets
      withoutDead laidOut flow method.handlers frames) := by
    intro body
    exact (spares_widen _ _ _).bind fun _ => (spares_contextOf _ _).bind fun _ =>
      (spares_ofExcept (Flow.sparesLabels_computeTypes _ _)).bind fun _ =>
        (spares_computedFrames _ _ _).bind fun _ => spares_withoutDead _ _ _ _
  unfold prepareWithFrames
  dsimp only
  split
  · exact (spares_throw rfl).bind fun _ => hrest _
  · exact hrest _

theorem spares_placedFrames (laidOut : LaidOut) : Spares (placedFrames laidOut) := by
  refine spares_foldlM (fun table entry => ?_) _ _
  obtain ⟨insn, index⟩ := entry
  dsimp only
  split
  · split
    · exact (spares_traverse _ _).bind fun _ => spares_pure _
    · exact spares_pure _
  · exact spares_pure _

theorem spares_prepareAsIs (setting : Setting) (method : Method) :
    Spares (prepareAsIs setting method) := by
  have hmaxima : ∀ code, Spares (maxima setting method code) := by
    intro code
    unfold maxima
    split
    · exact (spares_contextOf _ _).bind fun _ =>
        spares_ofExcept (Flow.sparesLabels_computeMaxima _)
    · exact spares_pure _
  refine (spares_widen _ _ _).bind fun laidOut => (hmaxima _).bind fun _ => ?_
  dsimp only
  split
  · exact (spares_placedFrames _).bind fun _ => spares_pure _
  · exact (spares_pure _).bind fun _ => spares_pure _

theorem spares_prepare (setting : Setting) {method : Method} (h : method.LabelsSound) :
    Spares (prepare setting method) := by
  unfold prepare
  rw [h.checkLabels_eq_ok]
  refine (spares_pure ()).bind fun _ => ?_
  split
  · exact spares_prepareWithFrames setting method
  · exact spares_prepareAsIs setting method

theorem spares_encode (code : List (Instruction Label)) (offsets : Offsets)
    (labels : LabelOffsets) : Spares (encode code offsets labels) :=
  (spares_mapM (fun _ => spares_encodeInstruction _ _) _).bind fun _ => spares_pure _

theorem spares_encodeHandlers (labels : LabelOffsets) (handlers : List TryCatch) :
    Spares (encodeHandlers labels handlers) := by
  refine (spares_mapM (fun handler => ?_) _).bind fun _ => spares_pure _
  unfold encodeHandler
  dsimp only
  split
  · exact spares_pure _
  · exact (spares_classRef? _).bind fun _ => spares_pure _

theorem spares_tableAttribute? (name : String) (entries : List Bytes) :
    Spares (tableAttribute? name entries) := by
  unfold tableAttribute?
  split
  · exact spares_pure _
  · exact (spares_attributeBytes _ _).bind fun _ => spares_pure _

theorem spares_encodeVariable (labels : LabelOffsets) (entry : LocalVariable) :
    Spares (encodeVariable labels entry) := by
  unfold encodeVariable
  dsimp only
  split
  · exact spares_pure _
  · refine (spares_text _).bind fun _ => (spares_text _).bind fun _ => ?_
    cases entry.signature with
    | none => exact spares_pure _
    | some signature => exact (spares_text signature).bind fun _ => spares_pure _

theorem spares_variableAttributes (labels : LabelOffsets)
    (localVariables : Option (List LocalVariable)) :
    Spares (variableAttributes labels localVariables) := by
  cases localVariables with
  | none => exact spares_pure _
  | some localVariables =>
    exact (spares_mapM (spares_encodeVariable labels) _).bind fun _ =>
      (spares_attributeBytes _ _).bind fun _ =>
        (spares_tableAttribute? _ _).bind fun _ => spares_pure _

theorem spares_frameAttribute (setting : Setting) (method : Method) (offsets : Offsets)
    (frames : FrameTable) : Spares (frameAttribute setting method offsets frames) := by
  unfold frameAttribute
  split
  · exact spares_pure _
  · exact (spares_contextOf _ _).bind fun _ => (spares_traverse _ _).bind fun _ =>
      (spares_attributeBytes _ _).bind fun _ => spares_pure _

theorem spares_attributeInfo (setting : Setting) {method : Method} (h : method.LabelsSound) :
    Spares (attributeInfo setting method) :=
  (spares_prepare setting h).bind fun _ => (spares_encode _ _ _).bind fun _ =>
    (spares_encodeHandlers _ _).bind fun _ => (spares_tableAttribute? _ _).bind fun _ =>
      (spares_variableAttributes _ _).bind fun _ =>
        (spares_frameAttribute _ _ _ _).bind fun _ => spares_pure _

end Code

open Pool Build

theorem spares_textAttribute (name : String) (text : Option String) :
    Spares (textAttribute name text) := by
  cases text with
  | none => exact spares_pure _
  | some text =>
    exact (spares_text text).bind fun _ => (spares_attributeBytes _ _).bind fun _ => spares_pure _

theorem spares_rawAttributes (attributes : List RawAttribute) : Spares (rawAttributes attributes) :=
  spares_mapM (fun _ => spares_attributeBytes _ _) _

theorem spares_listAttribute (name : String) {item : α → Build Bytes} (h : ∀ a, Spares (item a))
    (items : List α) : Spares (listAttribute name item items) := by
  unfold listAttribute
  split
  · exact spares_pure _
  · exact (spares_mapM h _).bind fun _ => (spares_attributeBytes _ _).bind fun _ => spares_pure _

theorem Field.spares_encode (field : Field) : Spares field.encode := by
  have hvalue : Spares (valueAttribute field.value) := by
    cases field.value with
    | none => exact spares_pure _
    | some value =>
      exact (spares_literal value).bind fun _ =>
        (spares_attributeBytes _ _).bind fun _ => spares_pure _
  exact (spares_text _).bind fun _ => (spares_text _).bind fun _ => hvalue.bind fun _ =>
    (spares_textAttribute _ _).bind fun _ => (spares_rawAttributes _).bind fun _ => spares_pure _

theorem Method.spares_encode (setting : Code.Setting) {method : Method} (h : method.LabelsSound) :
    Spares (method.encode setting) := by
  have hcode : Spares (method.codeAttribute setting) := by
    unfold codeAttribute
    split
    · exact (Code.spares_attributeInfo setting h).bind fun _ =>
        (spares_attributeBytes _ _).bind fun _ => spares_pure _
    · exact spares_pure _
  have hexception (exception : String) :
      Spares (do return BigEndian.u16 (← Build.classRef exception)) :=
    (spares_classRef exception).bind fun _ => spares_pure _
  have hexceptions := spares_listAttribute "Exceptions" hexception method.exceptions
  exact (spares_text _).bind fun _ => (spares_text _).bind fun _ => hcode.bind fun _ =>
    hexceptions.bind fun _ => (spares_textAttribute _ _).bind fun _ =>
      (spares_rawAttributes _).bind fun _ => spares_pure _

theorem InnerClass.spares_encode (entry : InnerClass) : Spares entry.encode :=
  (spares_classRef _).bind fun _ => (spares_classRef? _).bind fun _ =>
    (spares_text? _).bind fun _ => spares_pure _

namespace Class

theorem spares_encodeAttributes (tree : Class) : Spares tree.encodeAttributes := by
  have hbootstrap : Spares bootstrapTable := ⟨nofun⟩
  exact (spares_textAttribute _ _).bind fun _ => (spares_textAttribute _ _).bind fun _ =>
    (spares_listAttribute _ InnerClass.spares_encode _).bind fun _ =>
      (spares_rawAttributes _).bind fun _ => hbootstrap.bind fun _ =>
        (spares_listAttribute _ (fun _ => spares_pure _) _).bind fun _ => spares_pure _

/-- Writing a class whose methods have sound labels never fails because of a label. -/
theorem spares_write {tree : Class} (h : ∀ method ∈ tree.methods, method.LabelsSound)
    (recompute : Code.Recompute) (hierarchy : Hierarchy) :
    SparesLabels (tree.write recompute hierarchy) := by
  have hmethods : Spares (tree.methods.mapM
      (Method.encode ⟨tree.name, tree.version, recompute, hierarchy⟩)) :=
    spares_mapM_mem fun method hm => Method.spares_encode _ (h method hm)
  have hbody : Spares (tree.encodeBody recompute hierarchy) :=
    (spares_classRef _).bind fun _ => (spares_classRef? _).bind fun _ =>
      (spares_mapM spares_classRef _).bind fun _ => (spares_mapM Field.spares_encode _).bind
        fun _ => hmethods.bind fun _ => tree.spares_encodeAttributes.bind fun _ => spares_pure _
  intro fault he
  unfold write at he
  split at he
  · cases he
  · rename_i other _ hrun
    obtain rfl := Except.error.inj he
    exact hbody.error hrun

end Class
end ClassTree
