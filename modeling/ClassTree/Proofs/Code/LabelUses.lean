import ClassTree.Code.Attribute
import ClassTree.Proofs.Code.Labels
import ClassTree.Proofs.Code.Renaming

namespace ClassTree

theorem TryCatch.forall_mem_mentions {P : Label → Prop} {handler : TryCatch} :
    (∀ label ∈ handler.mentions, P label) ↔
      P handler.start ∧ P handler.stop ∧ P handler.handler := by
  simp [mentions]

namespace Code

open Pool ClassTree.Flow

/-- A table has an entry for every label that something computed from it depends on: more entries
would make no difference. -/
def Complete {α : Type} (table : Std.HashMap Label Nat) (f : Std.HashMap Label Nat → α) : Prop :=
  ∀ more : Std.HashMap Label Nat, (∀ label ∈ table, more[label]? = table[label]?) →
    f more = f table

/-- No position that is looked up while a method is written is missing. -/
structure FindsPositions (method : Method) (positions : Positions) : Prop where
  jumps : ∀ offsets index, ∀ insn ∈ method.body.code, Complete positions fun positions =>
    isJumpBeyond offsets positions index insn
  ranges : Complete positions fun positions => handlerRanges positions method.handlers
  points : ∀ context, Complete positions fun positions =>
    framePoints { programOf context method.body.code method.handlers with positions }

/-- No offset of a label that is looked up while a method is written is missing. -/
structure FindsOffsets (method : Method) (runs : List DeadRun) (labels : LabelOffsets) : Prop where
  splits : Complete labels fun labels => splitHandlers labels runs method.handlers
  frames : ∀ locals stack, .frame locals stack ∈ method.body.code → Complete labels fun labels =>
    (Frame.mk locals stack).traverse Build.classRef fun label =>
      UInt16.ofNat (LabelOffsets.at labels label)
  array : ∀ offsets, Complete labels fun labels => encode method.body.code offsets labels
  handlers : Complete labels fun labels => encodeHandlers labels method.handlers
  lines : Complete labels fun labels => lineEntries labels method.body.code
  tables : Complete labels fun labels => variableAttributes labels method.localVariables

section

variable {table more : Std.HashMap Label Nat} {labels : List Label} {α β : Type}

theorem complete_of_congr {f : Std.HashMap Label Nat → α} (hall : ∀ label ∈ labels, label ∈ table)
    (hcongr : ∀ more : Std.HashMap Label Nat, (∀ label ∈ labels, more[label]? = table[label]?) →
      f more = f table) : Complete table f :=
  fun more h => hcongr more fun label hm => h label (hall label hm)

/-- A label that is placed once has an entry among positions and among offsets. -/
theorem exists_entry_of_once {code : List (Instruction Label)} {label : Label}
    (h : (code.filterMap Instruction.placed?).count label = 1) :
    ∃ index, code[index]? = some (.label label) ∧ (Positions.ofCode code)[label]? = some index ∧
      ∀ offsets, (LabelOffsets.ofCode code offsets)[label]? = some (offsets.getD index 0) := by
  obtain ⟨index, hi, -, -⟩ := @exists_at_of_once _ _ #[] h
  have hposition := Positions.getElem?_ofCode_of_once h hi
  refine ⟨index, hi, hposition, fun offsets => ?_⟩
  rw [getElem?_labelOffsets, hposition, Option.map_some]

theorem at_congr {label : Label} (h : more[label]? = table[label]?) :
    LabelOffsets.at more label = LabelOffsets.at table label := by
  rw [LabelOffsets.at, LabelOffsets.at, Std.HashMap.getD_eq_getD_getElem?, h,
    ← Std.HashMap.getD_eq_getD_getElem?]

theorem mapM_congr {f g : α → Build β} {items : List α} (h : ∀ item ∈ items, f item = g item) :
    items.mapM f = items.mapM g := by
  induction items with
  | nil => rfl
  | cons item items ih =>
    rw [List.mapM_cons, List.mapM_cons, h item List.mem_cons_self,
      ih fun other hm => h other (List.mem_cons_of_mem _ hm)]

theorem isJumpBeyond_congr {insn : Instruction Label}
    (h : ∀ label ∈ insn.references, more[label]? = table[label]?) (offsets : Offsets)
    (index : Nat) : isJumpBeyond offsets more index insn =
      isJumpBeyond offsets table index insn := by
  cases insn with
  | jump op target =>
    have htarget : more.getD target 0 = table.getD target 0 :=
      at_congr (h target List.mem_cons_self)
    simp only [isJumpBeyond, htarget]
  | _ => rfl

section Handlers

variable {handlers : List TryCatch}
  (h : ∀ label ∈ handlers.flatMap TryCatch.mentions, more[label]? = table[label]?)

include h

theorem handler_congr {handler : TryCatch} (hm : handler ∈ handlers) :
    LabelOffsets.at more handler.start = LabelOffsets.at table handler.start ∧
      LabelOffsets.at more handler.stop = LabelOffsets.at table handler.stop ∧
      LabelOffsets.at more handler.handler = LabelOffsets.at table handler.handler := by
  have hmentions : ∀ label ∈ handler.mentions, more[label]? = table[label]? :=
    fun label hl => h label (List.mem_flatMap.mpr ⟨handler, hm, hl⟩)
  obtain ⟨hstart, hstop, hhandler⟩ := TryCatch.forall_mem_mentions.mp hmentions
  exact ⟨at_congr hstart, at_congr hstop, at_congr hhandler⟩

theorem handlerRanges_congr : handlerRanges more handlers = handlerRanges table handlers := by
  refine List.map_congr_left fun handler hm => ?_
  obtain ⟨hstart, hstop, hhandler⟩ := handler_congr h hm
  rw [LabelOffsets.at, LabelOffsets.at] at hstart hstop hhandler
  rw [hstart, hstop, hhandler]

theorem encodeHandlers_congr : encodeHandlers more handlers = encodeHandlers table handlers := by
  have hentries : handlers.mapM (encodeHandler more) = handlers.mapM (encodeHandler table) := by
    refine mapM_congr fun handler hm => ?_
    obtain ⟨hstart, hstop, hhandler⟩ := handler_congr h hm
    rw [encodeHandler, encodeHandler, hstart, hstop, hhandler]
  rw [encodeHandlers, encodeHandlers, hentries]

theorem splitHandlers_congr {runs : List DeadRun}
    (hruns : ∀ run ∈ runs, more[run.stop]? = table[run.stop]?) :
    splitHandlers more runs handlers = splitHandlers table runs handlers := by
  refine List.flatMap_congr fun handler hm => ?_
  obtain ⟨hstart, hstop, -⟩ := handler_congr h hm
  have hcuts : ∀ cut stop, runs.foldl (Cut.step more handler stop) cut =
      runs.foldl (Cut.step table handler stop) cut := by
    intro cut stop
    refine List.foldl_ext _ _ _ fun cut run hr => ?_
    rw [Cut.step, Cut.step, at_congr (hruns run hr)]
  rw [splitHandler, splitHandler, hstart, hstop, hcuts]

end Handlers

section Instructions

variable {code : List (Instruction Label)}
  (h : ∀ label ∈ code.flatMap Instruction.mentions, more[label]? = table[label]?)

include h

theorem instruction_congr {insn : Instruction Label} (hm : insn ∈ code) :
    insn.mapLabels (LabelOffsets.at more) = insn.mapLabels (LabelOffsets.at table) :=
  Instruction.mapLabels_congr fun label hl =>
    at_congr (h label (List.mem_flatMap.mpr ⟨insn, hm, hl⟩))

theorem encode_congr (offsets : Offsets) :
    encode code offsets more = encode code offsets table := by
  unfold encode
  congr 1
  refine mapM_congr fun element hm => ?_
  exact congrArg (encodeInstruction (offsets.getD element.2 0))
    (instruction_congr h (List.fst_mem_of_mem_zipIdx hm))

theorem lineEntries_congr : lineEntries more code = lineEntries table code := by
  refine List.filterMap_congr fun insn hm => ?_
  cases insn with
  | line number start =>
    have hstart := (Instruction.line.inj (instruction_congr h hm)).2
    exact congrArg (fun start => some (offset16 start ++ BigEndian.u16 number)) hstart
  | _ => rfl

theorem traverse_congr {locals stack : List (VerificationType String Label)}
    (hm : .frame locals stack ∈ code) :
    ((Frame.mk locals stack).traverse Build.classRef fun label =>
      UInt16.ofNat (LabelOffsets.at more label)) =
    (Frame.mk locals stack).traverse Build.classRef fun label =>
      UInt16.ofNat (LabelOffsets.at table label) := by
  have htype : ∀ type ∈ locals ++ stack,
      (type.traverse Build.classRef fun label => UInt16.ofNat (LabelOffsets.at more label)) =
        type.traverse Build.classRef fun label => UInt16.ofNat (LabelOffsets.at table label) := by
    intro type ht
    cases type with
    | uninitialized label =>
      have hl : label ∈ (Instruction.frame locals stack).mentions :=
        List.mem_filterMap.mpr ⟨_, ht, rfl⟩
      rw [VerificationType.traverse, VerificationType.traverse,
        at_congr (h label (List.mem_flatMap.mpr ⟨_, hm, hl⟩))]
    | _ => rfl
  rw [Frame.traverse, Frame.traverse,
    mapM_congr fun type ht => htype type (List.mem_append_left _ ht),
    mapM_congr fun type ht => htype type (List.mem_append_right _ ht)]

end Instructions

theorem framePoints_congr {program : Program} (h : ∀ label ∈
      program.code.toList.flatMap Instruction.references, more[label]? = table[label]?) :
    framePoints { program with positions := more } =
      framePoints { program with positions := table } := by
  rw [framePoints, framePoints]
  congr 1
  refine List.filterMap_congr fun label hm => h label ?_
  obtain ⟨insn, hi, hl⟩ := List.mem_flatMap.mp hm
  refine List.mem_flatMap.mpr ⟨insn, hi, ?_⟩
  cases insn with
  | jump | tableSwitch | lookupSwitch => exact hl
  | _ => cases hl

theorem variableAttributes_congr {entries : Option (List LocalVariable)}
    (h : ∀ label ∈ (entries.getD []).flatMap LocalVariable.mentions, more[label]? = table[label]?) :
    variableAttributes more entries = variableAttributes table entries := by
  cases entries with
  | none => rfl
  | some entries =>
    have hentries : entries.mapM (encodeVariable more) = entries.mapM (encodeVariable table) := by
      refine mapM_congr fun entry hm => ?_
      have hmentions : ∀ label ∈ entry.mentions, more[label]? = table[label]? :=
        fun label hl => h label (List.mem_flatMap.mpr ⟨entry, hm, hl⟩)
      simp only [LocalVariable.mentions, List.forall_mem_cons] at hmentions
      rw [encodeVariable, encodeVariable, at_congr hmentions.1, at_congr hmentions.2.1]
    rw [variableAttributes, variableAttributes, hentries]

variable {method : Method} {runs : List DeadRun}

theorem mem_mentions_of_mem_code {label : Label}
    (h : label ∈ method.body.code.flatMap Instruction.mentions) : label ∈ method.mentions :=
  List.mem_append_left _ (List.mem_append_left _ h)

theorem mem_mentions_of_mem_references {label : Label}
    (h : label ∈ method.body.code.flatMap Instruction.references) : label ∈ method.mentions := by
  obtain ⟨insn, hm, hl⟩ := List.mem_flatMap.mp h
  exact mem_mentions_of_mem_code
    (List.mem_flatMap.mpr ⟨insn, hm, Instruction.mem_mentions.mpr (.inr hl)⟩)

theorem mem_mentions_of_mem_handlers {label : Label}
    (h : label ∈ method.handlers.flatMap TryCatch.mentions) : label ∈ method.mentions :=
  List.mem_append_left _ (List.mem_append_right _ h)

theorem mem_mentions_of_mem_variables {label : Label}
    (h : label ∈ method.variableList.flatMap LocalVariable.mentions) : label ∈ method.mentions :=
  List.mem_append_right _ h

theorem findsPositions {positions : Positions} (h : ∀ label ∈ method.mentions, label ∈ positions) :
    FindsPositions method positions where
  jumps := fun offsets index insn hm =>
    complete_of_congr (fun label hl => h label (mem_mentions_of_mem_references
      (List.mem_flatMap.mpr ⟨insn, hm, hl⟩)))
      fun _ hmore => isJumpBeyond_congr hmore offsets index
  ranges := complete_of_congr (fun label hl => h label (mem_mentions_of_mem_handlers hl))
    fun _ => handlerRanges_congr
  points := fun context =>
    complete_of_congr (fun label hl => h label (mem_mentions_of_mem_references hl))
      fun _ => @framePoints_congr _ _ (programOf context method.body.code method.handlers)

theorem findsOffsets {offsets : LabelOffsets} (h : ∀ label ∈ method.mentions, label ∈ offsets)
    (hruns : ∀ run ∈ runs, run.stop ∈ offsets) : FindsOffsets method runs offsets where
  splits := fun _ hmore => splitHandlers_congr
    (fun label hl => hmore label (h label (mem_mentions_of_mem_handlers hl)))
    fun run hr => hmore run.stop (hruns run hr)
  frames := fun _ _ hm =>
    complete_of_congr (fun label hl => h label (mem_mentions_of_mem_code hl))
      fun _ hmore => traverse_congr hmore hm
  array := fun offsets => complete_of_congr (fun label hl => h label (mem_mentions_of_mem_code hl))
    fun _ hmore => encode_congr hmore offsets
  handlers := complete_of_congr (fun label hl => h label (mem_mentions_of_mem_handlers hl))
    fun _ => encodeHandlers_congr
  lines := complete_of_congr (fun label hl => h label (mem_mentions_of_mem_code hl))
    fun _ => lineEntries_congr
  tables := complete_of_congr (fun label hl => h label (mem_mentions_of_mem_variables hl))
    fun _ => variableAttributes_congr

end

end Code
end ClassTree
