import ClassTree.Proofs.Code.FrameAttribute
import ClassTree.Proofs.Code.Ready
import ClassTree.Proofs.Code.RoundTrip
import ClassTree.Proofs.Writing.Contents

namespace ClassTree.Code

open Pool Build BigEndian Reader StackMap

variable {setting : Setting} {method : Method} {b : Builder} {labels : LabelOffsets}
  {encoded : List Bytes}

section Handlers

/-- Handlers with offsets in place of labels, of which those for no code are left out. -/
def offsetHandlers (labels : LabelOffsets) (handlers : List TryCatch) : List OffsetHandler :=
  (handlers.filter fun handler => labels.at handler.start < labels.at handler.stop).map
    fun handler => ⟨labels.at handler.start, labels.at handler.stop, labels.at handler.handler,
      handler.catchType⟩

theorem reads_handlers (hr : b.Reachable) (hl : ∀ label, labels.at label < 0x10000)
    {handlers : List TryCatch} (hy : Yields (encodeHandlers labels handlers) b encoded b) :
    List.Forall₂ (fun bytes found => ∀ p, Reads (readHandler b.table) p bytes found) encoded
      (offsetHandlers labels handlers) := by
  obtain ⟨groups, middle, hgroups, hp⟩ := yields_bind.mp hy
  obtain ⟨rfl, rfl⟩ := yields_pure.mp hp
  have hall := forall₂_of_mapM (lawful_encodeHandler labels) hgroups
  clear hy hgroups hp
  induction hall with
  | nil => exact .nil
  | @cons handler entries handlers groups hy _ ih =>
    unfold encodeHandler at hy
    dsimp only at hy
    rw [List.flatten_cons, offsetHandlers]
    split at hy
    · rename_i hempty
      obtain ⟨rfl, -⟩ := yields_pure.mp hy
      rw [List.filter_cons_of_neg (by simpa using hempty)]
      exact ih
    · rename_i hfull
      obtain ⟨type, middle, htype, hp⟩ := yields_bind.mp hy
      obtain ⟨rfl, rfl⟩ := yields_pure.mp hp
      rw [List.filter_cons_of_pos (by simpa using hfull), List.map_cons]
      refine .cons (fun p => ?_) ih
      have hcaught := className?_found htype hr
      rw [List.append_assoc, List.append_assoc]
      refine (reads_u16 _ p).bind ((reads_u16 _ _).bind ((reads_u16 _ _).bind
        ((reads_u16 _ _).bind_nil ((reads_lift hcaught _).bind_pure ?_))))
      rw [UInt16.toNat_ofNat_of_lt' (hl _), UInt16.toNat_ofNat_of_lt' (hl _),
        UInt16.toNat_ofNat_of_lt' (hl _)]

end Handlers

section Tables

theorem exists_holds_tableAttribute {α : Type} {name : String} {reader : Reader α}
    {entries : List Bytes} {items : List α} {bytes : Bytes}
    (hall : List.Forall₂ (fun bytes found => ∀ p, Reads reader p bytes found) entries items)
    (hy : Yields (tableAttribute name entries) b bytes b) (hs : b.Sound) :
    ∃ attributes, List.Forall₂ (RawAttribute.EncodedAs b.table) attributes [bytes] ∧
      Holds name (Reader.counted reader) (FitEntries fun _ => True) (some items) attributes :=
  ⟨[⟨name, counted id entries⟩], .cons (encodedAs_attributeBytes hy hs) .nil, _, rfl,
    fun hfits => reads_counted hall (hall.length_eq ▸ hfits.1) 0⟩

theorem exists_holds_tableAttribute? {α : Type} {name : String} {reader : Reader α}
    {entries : List Bytes} {items : List α}
    (hall : List.Forall₂ (fun bytes found => ∀ p, Reads reader p bytes found) entries items)
    (hy : Yields (tableAttribute? name entries) b encoded b) (hs : b.Sound) :
    ∃ attributes, List.Forall₂ (RawAttribute.EncodedAs b.table) attributes encoded ∧
      Holds name (Reader.counted reader) (FitEntries fun _ => True) (nonempty? items)
        attributes := by
  have hempty : entries.isEmpty = items.isEmpty := by cases hall <;> rfl
  unfold tableAttribute? at hy
  unfold nonempty?
  rw [hempty] at hy
  split at hy
  · rename_i hnone
    obtain ⟨rfl, -⟩ := yields_pure.mp hy
    rw [if_pos hnone]
    exact ⟨[], .nil, rfl⟩
  · rename_i hsome
    obtain ⟨bytes, middle, hbytes, hp⟩ := yields_bind.mp hy
    obtain ⟨rfl, rfl⟩ := yields_pure.mp hp
    rw [if_neg hsome]
    exact exists_holds_tableAttribute hall
      ((lawful_attributeBytes _ _).again hbytes (.refl _)) hs

def offsetLines (labels : LabelOffsets) (code : List (Instruction Label)) : List (Nat × UInt16) :=
  code.filterMap fun
    | .line number start => some (labels.at start, number)
    | _ => none

theorem reads_lines (hl : ∀ label, labels.at label < 0x10000) (code : List (Instruction Label)) :
    List.Forall₂ (fun bytes found => ∀ p, Reads readLine p bytes found) (lineEntries labels code)
      (offsetLines labels code) := by
  induction code with
  | nil => exact .nil
  | cons insn code ih =>
    cases insn with
    | line number start =>
      refine .cons (fun p => (reads_u16 _ p).bind ?_) ih
      rw [UInt16.toNat_ofNat_of_lt' (hl start)]
      exact (reads_u16 number _).map _
    | _ => exact ih

/-- Variable with offsets in place of labels, and with a descriptor or a signature. -/
def offsetVariable (labels : LabelOffsets) (entry : LocalVariable) (type : String) :
    VariableEntry :=
  ⟨labels.at entry.start, labels.at entry.stop, entry.name, type, entry.slot⟩

def properVariables (labels : LabelOffsets) (entries : List LocalVariable) : List LocalVariable :=
  entries.filter fun entry => labels.at entry.start ≤ labels.at entry.stop

def offsetVariables (labels : LabelOffsets) (entries : List LocalVariable) : List VariableEntry :=
  (properVariables labels entries).map fun entry => offsetVariable labels entry entry.descriptor

def offsetSignatures (labels : LabelOffsets) (entries : List LocalVariable) : List VariableEntry :=
  (properVariables labels entries).filterMap fun entry =>
    entry.signature.map (offsetVariable labels entry)

theorem reads_variable (hl : ∀ label, labels.at label < 0x10000) {entry : LocalVariable}
    {name descriptor : Index} {type : String} (hle : labels.at entry.start ≤ labels.at entry.stop)
    (hname : b.table.text name = .ok entry.name) (htype : b.table.text descriptor = .ok type)
    (p : Nat) : Reads (readVariable b.table) p
      (offset16 (labels.at entry.start) ++
      offset16 (labels.at entry.stop - labels.at entry.start) ++
        u16 name ++ u16 descriptor ++ u16 entry.slot) (offsetVariable labels entry type) := by
  have hlength : labels.at entry.stop - labels.at entry.start < 0x10000 :=
    Nat.lt_of_le_of_lt (Nat.sub_le _ _) (hl entry.stop)
  simp only [List.append_assoc]
  refine (reads_u16 _ p).bind ((reads_u16 _ _).bind ((reads_u16 _ _).bind
    ((reads_lift hname _).bind ((reads_u16 _ _).bind ((reads_lift htype _).bind
      ((reads_u16 _ _).bind_pure ?_))))))
  rw [UInt16.toNat_ofNat_of_lt' (hl entry.start), UInt16.toNat_ofNat_of_lt' hlength,
    Nat.add_sub_cancel' hle]
  rfl

theorem reads_variables (hs : b.Sound) (hl : ∀ label, labels.at label < 0x10000)
    {entries : List LocalVariable} {groups : List (List Bytes × List Bytes)}
    (hall : List.Forall₂ (fun entry group => Yields (encodeVariable labels entry) b group b) entries
      groups) :
    List.Forall₂ (fun bytes found => ∀ p, Reads (readVariable b.table) p bytes found)
      (groups.flatMap Prod.fst) (offsetVariables labels entries) ∧
    List.Forall₂ (fun bytes found => ∀ p, Reads (readVariable b.table) p bytes found)
      (groups.flatMap Prod.snd) (offsetSignatures labels entries) := by
  induction hall with
  | nil => exact ⟨.nil, .nil⟩
  | @cons entry group entries groups hy _ ih =>
    unfold encodeVariable at hy
    dsimp only at hy
    rw [List.flatMap_cons, List.flatMap_cons, offsetVariables, offsetSignatures, properVariables]
    split at hy
    · rename_i hbad
      obtain ⟨rfl, -⟩ := yields_pure.mp hy
      rw [List.filter_cons_of_neg (by simpa using hbad)]
      exact ih
    · rename_i hgood
      have hle := Nat.le_of_not_lt hgood
      rw [List.filter_cons_of_pos (by simpa using hle)]
      obtain ⟨name, b₁, hname, hy⟩ := yields_bind.mp hy
      obtain ⟨descriptor, b₂, hdescriptor, hy⟩ := yields_bind.mp hy
      cases hsignature : entry.signature with
      | none =>
        rw [hsignature] at hy
        obtain ⟨rfl, rfl⟩ := yields_pure.mp hy
        have hname' := text_found hname ((lawful_text _).grows hdescriptor) hs
        have hplain := reads_variable hl hle hname' (text_found hdescriptor (.refl _) hs)
        rw [List.filterMap_cons_none (by rw [hsignature]; rfl)]
        exact ⟨.cons hplain ih.1, ih.2⟩
      | some signature =>
        rw [hsignature] at hy
        obtain ⟨place, b₃, hplace, hp⟩ := yields_bind.mp hy
        obtain ⟨rfl, rfl⟩ := yields_pure.mp hp
        have w₂ := (lawful_text _).grows hplace
        have hname' := text_found hname (((lawful_text _).grows hdescriptor).trans w₂) hs
        have hplain := reads_variable hl hle hname' (text_found hdescriptor w₂ hs)
        have hsigned := reads_variable hl hle hname' (text_found hplace (.refl _) hs)
        rw [List.filterMap_cons_some (by rw [hsignature]; rfl)]
        exact ⟨.cons hplain ih.1, .cons hsigned ih.2⟩

theorem exists_holds_variableAttributes (hs : b.Sound) (hl : ∀ label, labels.at label < 0x10000)
    {localVariables : Option (List LocalVariable)}
    (hy : Yields (variableAttributes labels localVariables) b encoded b) :
    ∃ variables_ signatures,
      List.Forall₂ (RawAttribute.EncodedAs b.table) (variables_ ++ signatures) encoded ∧
      Holds "LocalVariableTable" (Reader.counted (readVariable b.table)) (FitEntries fun _ => True)
        (localVariables.map (offsetVariables labels)) variables_ ∧
      Holds "LocalVariableTypeTable" (Reader.counted (readVariable b.table))
        (FitEntries fun _ => True)
        (nonempty? (offsetSignatures labels (localVariables.getD []))) signatures := by
  cases localVariables with
  | none =>
    obtain ⟨rfl, -⟩ := yields_pure.mp hy
    exact ⟨[], [], .nil, rfl, rfl⟩
  | some entries =>
    obtain ⟨groups, b₁, hgroups, hy⟩ := yields_bind.mp hy
    obtain ⟨table, b₂, htable, hy⟩ := yields_bind.mp hy
    obtain ⟨typed, b₃, htyped, hp⟩ := yields_bind.mp hy
    obtain ⟨rfl, rfl⟩ := yields_pure.mp hp
    have w₂ := (lawful_tableAttribute? _ _).grows htyped
    have w₁ := ((lawful_attributeBytes _ _).grows htable).trans w₂
    have hall := forall₂_of_mapM (lawful_encodeVariable labels) hgroups
    obtain ⟨hplain, hsigned⟩ := reads_variables hs hl
      (hall.imp fun _ _ hy => (lawful_encodeVariable _ _).again hy w₁)
    obtain ⟨variables_, hvariables, hholds⟩ := exists_holds_tableAttribute hplain
      ((lawful_attributeBytes _ _).again htable w₂) hs
    obtain ⟨signatures, hsignatures, hholds'⟩ := exists_holds_tableAttribute? hsigned
      ((lawful_tableAttribute? _ _).again htyped (.refl _)) hs
    exact ⟨variables_, signatures, List.rel_append hvariables hsignatures, hholds, hholds'⟩

def readFrames (owner : String) (method : Method) (table : Table) :
    Reader (List (Nat × OffsetFrame)) := do
  StackMap.read table (← entryLocals owner method)

def FewEntries (entry : Nat × OffsetFrame) : Prop :=
  entry.2.locals.length < 0x10000 ∧ entry.2.stack.length < 0x10000

theorem exists_holds_frameAttribute {prepared : Prepared} (hr : b.Reachable)
    (hready : Ready b prepared)
    (hy : Yields (frameAttribute setting method prepared.offsets prepared.frames) b encoded b) :
    ∃ attributes frames, List.Forall₂ (RawAttribute.EncodedAs b.table) attributes encoded ∧
      List.Forall₂ (Shown b.table) prepared.frames.toList frames ∧
      Holds "StackMapTable" (readFrames setting.owner method b.table) (FitEntries FewEntries)
        (nonempty? frames) attributes := by
  cases hempty : prepared.frames.isEmpty with
  | true =>
    unfold frameAttribute at hy
    rw [if_pos hempty] at hy
    obtain ⟨rfl, -⟩ := yields_pure.mp hy
    have hnil : prepared.frames.toList = [] := by
      rw [← List.isEmpty_iff, Std.TreeMap.isEmpty_toList, hempty]
    exact ⟨[], [], .nil, hnil ▸ .nil, rfl⟩
  | false =>
    obtain ⟨index, contents, locals, frames, rfl, hname, hlocals, hshown, hreads⟩ :=
      exists_frameContents hy (.refl _) hr.sound hready.frames hempty
    refine ⟨[⟨"StackMapTable", contents⟩], frames, .cons ⟨index, hname, rfl⟩ .nil, hshown, ?_⟩
    have hfull : frames.isEmpty = prepared.frames.toList.isEmpty := by
      generalize prepared.frames.toList = written at hshown
      cases hshown <;> rfl
    rw [Std.TreeMap.isEmpty_toList, hempty] at hfull
    rw [nonempty?, if_neg (by simp [hfull])]
    refine ⟨contents, rfl, fun hfits => ?_⟩
    refine (reads_lift hlocals 0).bind (hreads (hshown.length_eq ▸ hfits.1) fun entry hm => ?_)
    obtain ⟨shown, hmem, -, hshows⟩ := exists_shown_of_mem hshown hm
    obtain ⟨hlocals, hstack⟩ := hfits.2 shown hmem
    exact ⟨hshows.locals.length_eq ▸ hlocals, hshows.stack.length_eq ▸ hstack⟩

end Tables

/-- The sections of a code attribute, its attributes by their names and contents. -/
structure StoredCode where
  maxStack : Nat
  maxLocals : Nat
  array : Bytes
  handlers : List OffsetHandler
  attributes : List RawAttribute

/-- What a reader finds: the code array and the attributes have not been interpreted. -/
structure FoundCode where
  maxStack : UInt16
  maxLocals : UInt16
  array : Cursor
  handlers : List OffsetHandler
  attributes : List (String × Cursor)

def readSections (table : Table) : Reader FoundCode := do
  let maxStack ← Reader.u16
  let maxLocals ← Reader.u16
  let array ← Reader.part (← Reader.u32).toNat
  let handlers ← Reader.counted (readHandler table)
  let attributes ← readAttributes table
  return ⟨maxStack, maxLocals, array, handlers, attributes⟩

namespace StoredCode

/-- Sizes are cut off at the largest that can be written. -/
def clamped (stored : StoredCode) : StoredCode :=
  { stored with maxStack := min stored.maxStack 0xFFFF, maxLocals := min stored.maxLocals 0xFFFF }

structure Fits (stored : StoredCode) : Prop where
  maxStack : stored.maxStack < 0x10000
  maxLocals : stored.maxLocals < 0x10000
  handlers : stored.handlers.length < 0x10000
  attributes : FitAttributes stored.attributes

structure FoundAs (stored : StoredCode) (found : FoundCode) : Prop where
  maxStack : found.maxStack.toNat = stored.maxStack
  maxLocals : found.maxLocals.toNat = stored.maxLocals
  array : ∃ base, found.array = ⟨stored.array, 0, base⟩
  handlers : found.handlers = stored.handlers
  attributes : List.Forall₂ RawAttribute.FoundAs stored.attributes found.attributes

theorem Fits.clamped_eq {stored : StoredCode} (h : stored.Fits) : stored.clamped = stored := by
  rw [clamped, Nat.min_eq_left (Nat.le_of_lt_succ h.maxStack),
    Nat.min_eq_left (Nat.le_of_lt_succ h.maxLocals)]

theorem Fits.clamped {stored : StoredCode} (h : stored.Fits) : stored.clamped.Fits :=
  h.clamped_eq.symm ▸ h

end StoredCode

def Parts (b : Builder) (prepared : Prepared) (parts : List Bytes) : Prop :=
  List.Forall₂ (fun entry part => Yields (encodeInstruction (prepared.offsets.getD entry.2 0)
    (entry.1.mapLabels prepared.labelOffsets.at)) b part b) prepared.code.zipIdx parts

structure Prepared.StoredAs (b : Builder) (setting : Setting) (method : Method)
    (prepared : Prepared) (stored : StoredCode) : Prop where
  maxStack : stored.maxStack = prepared.maxStack
  maxLocals : stored.maxLocals = prepared.maxLocals
  array : ∃ parts, stored.array = parts.flatten ∧ Parts b prepared parts
  handlers : stored.handlers = offsetHandlers prepared.labelOffsets prepared.handlers
  attributes : ∃ lines variables_ signatures frames read,
    stored.attributes = lines ++ variables_ ++ signatures ++ frames ∧
    Holds "LineNumberTable" (Reader.counted readLine) (FitEntries fun _ => True)
      (nonempty? (offsetLines prepared.labelOffsets prepared.code)) lines ∧
    Holds "LocalVariableTable" (Reader.counted (readVariable b.table)) (FitEntries fun _ => True)
      (method.localVariables.map (offsetVariables prepared.labelOffsets)) variables_ ∧
    Holds "LocalVariableTypeTable" (Reader.counted (readVariable b.table))
      (FitEntries fun _ => True)
        (nonempty? (offsetSignatures prepared.labelOffsets (method.localVariables.getD [])))
      signatures ∧
    List.Forall₂ (Shown b.table) prepared.frames.toList read ∧
    Holds "StackMapTable" (readFrames setting.owner method b.table) (FitEntries FewEntries)
      (nonempty? read) frames

theorem reads_size16 (size p : Nat) :
    ReadsAs Reader.u16 p (size16 size) fun found => found.toNat = min size 0xFFFF := by
  refine (reads_u16 _ p).toAs ?_
  rw [UInt16.toNat_ofNat_of_lt' (Nat.lt_of_le_of_lt (Nat.min_le_right _ _) (by decide))]

/-- Sections that fit are read as they are stored, whatever the sizes of stack and locals are. -/
theorem StoredCode.readsAs_sections {table : Table} {stored : StoredCode}
    {handlers attributes : List Bytes} (hf : stored.clamped.Fits)
    (hlength : stored.array.length < 0x100000000)
    (hhandlers : List.Forall₂ (fun bytes found => ∀ p, Reads (readHandler table) p bytes found)
      handlers stored.handlers)
    (hattributes : List.Forall₂ (RawAttribute.EncodedAs table) stored.attributes attributes) :
    ReadsAs (readSections table) 0 (size16 stored.maxStack ++ size16 stored.maxLocals ++
      u32 (UInt32.ofNat stored.array.length) ++ stored.array ++ counted id handlers ++
      counted id attributes) stored.clamped.FoundAs := by
  simp only [List.append_assoc]
  refine (reads_size16 _ 0).bind fun maxStack hstack => ?_
  refine (reads_size16 _ _).bind fun maxLocals hlocals => ?_
  refine (reads_u32 _ _).bind_as ?_
  rw [UInt32.toNat_ofNat_of_lt' hlength]
  refine (readsAs_part _ _).bind fun cursor hcursor => ?_
  refine (reads_counted hhandlers (hhandlers.length_eq ▸ hf.handlers) _).bind_as ?_
  exact (readsAs_attributes hattributes hf.attributes _).map fun attributes hattributes =>
    ⟨hstack, hlocals, hcursor, rfl, hattributes⟩

/-- The code array is as long as its layout says. -/
theorem Ready.length_parts {prepared : Prepared} {parts : List Bytes} (h : Ready b prepared)
    (hp : Parts b prepared parts) : parts.flatten.length = prepared.offsets.length := by
  have hnext : List.Forall₂ (fun (entry : Instruction Label × Nat) (part : Bytes) =>
      prepared.offsets.getD (entry.2 + 1) 0 = prepared.offsets.getD entry.2 0 + part.length)
      prepared.code.zipIdx parts := by
    obtain ⟨hlength, hzip⟩ := List.forall₂_iff_zip.mp hp
    refine List.forall₂_iff_zip.mpr ⟨hlength, ?_⟩
    rintro ⟨insn, index⟩ part hm
    have hi : prepared.code[index]? = some insn :=
      List.mk_mem_zipIdx_iff_getElem?.mp (List.of_mem_zip hm).1
    obtain ⟨hsize, hle⟩ := h.laid.next hi
    rw [length_encodeInstruction hsize (hzip hm)]
    simp only
    omega
  have hlength := length_flatten_of_next hnext
  rw [h.laid.first, Nat.zero_add, Nat.zero_add] at hlength
  rw [hlength, h.laid.length_eq]

/-- What is written for a method with code is read section by section, if all of it fits; sizes do
when they have been cut off. No attribute in it is longer than all of it. -/
theorem stored_of_attributeInfo {info : Bytes} (hr : b.Reachable)
    (hy : Yields (attributeInfo setting method) b info b) : ∃ prepared stored,
      Yields (prepare setting method) b prepared b ∧ prepared.StoredAs b setting method stored ∧
      (∀ entry ∈ stored.attributes, entry.info.length ≤ info.length) ∧
      (stored.clamped.Fits → ReadsAs (readSections b.table) 0 info stored.clamped.FoundAs) := by
  obtain ⟨prepared, b₁, h₁, hy⟩ := yields_bind.mp hy
  obtain ⟨array, b₂, h₂, hy⟩ := yields_bind.mp hy
  obtain ⟨handlers, b₃, h₃, hy⟩ := yields_bind.mp hy
  obtain ⟨lines, b₄, h₄, hy⟩ := yields_bind.mp hy
  obtain ⟨localVariables, b₅, h₅, hy⟩ := yields_bind.mp hy
  obtain ⟨frames, b₆, h₆, hp⟩ := yields_bind.mp hy
  obtain ⟨rfl, rfl⟩ := yields_pure.mp hp
  have w₅ := (lawful_frameAttribute _ _ _ _).grows h₆
  have w₄ := ((lawful_variableAttributes _ _).grows h₅).trans w₅
  have w₃ := ((lawful_tableAttribute? _ _).grows h₄).trans w₄
  have w₂ := ((lawful_encodeHandlers _ _).grows h₃).trans w₃
  have w₁ := ((lawful_encode _ _ _).grows h₂).trans w₂
  have hprepare := (lawful_prepare _ _).again h₁ w₁
  have hready := ready_prepare hprepare hr
  have hhandlers := reads_handlers hr hready.at_lt ((lawful_encodeHandlers _ _).again h₃ w₃)
  obtain ⟨s₁, hs₁, hholds₁⟩ := exists_holds_tableAttribute? (reads_lines hready.at_lt prepared.code)
    ((lawful_tableAttribute? _ _).again h₄ w₄) hr.sound
  obtain ⟨s₂, s₃, hs₂, hholds₂, hholds₃⟩ := exists_holds_variableAttributes hr.sound hready.at_lt
    ((lawful_variableAttributes _ _).again h₅ w₅)
  obtain ⟨s₄, read, hs₄, hshown, hholds₄⟩ := exists_holds_frameAttribute hr hready
    ((lawful_frameAttribute _ _ _ _).again h₆ (.refl _))
  obtain ⟨parts, middle, hparts, hflat⟩ := yields_bind.mp ((lawful_encode _ _ _).again h₂ w₂)
  obtain ⟨rfl, rfl⟩ := yields_pure.mp hflat
  have hparts : Parts _ prepared parts :=
    forall₂_of_mapM (fun _ => lawful_encodeInstruction _ _) hparts
  have hall : List.Forall₂ (RawAttribute.EncodedAs middle.table) (s₁ ++ (s₂ ++ (s₃ ++ s₄)))
      (lines ++ (localVariables ++ frames)) := by
    rw [← List.append_assoc s₂]
    exact List.rel_append hs₁ (List.rel_append hs₂ hs₄)
  refine ⟨prepared, ⟨prepared.maxStack, prepared.maxLocals, parts.flatten,
      offsetHandlers prepared.labelOffsets prepared.handlers, s₁ ++ (s₂ ++ (s₃ ++ s₄))⟩, hprepare,
    ⟨rfl, rfl, ⟨parts, rfl, hparts⟩, rfl, s₁, s₂, s₃, s₄, read, by simp only [List.append_assoc],
      hholds₁, hholds₂, hholds₃, hshown, hholds₄⟩, fun entry hm => ?_, fun hfits => ?_⟩
  · have hle := length_le_of_encodedAs hall hm
    rw [← List.append_assoc lines] at hle
    rw [List.length_append]
    exact Nat.le_add_left_of_le hle
  have hlength : parts.flatten.length < 0x100000000 :=
    Nat.lt_of_le_of_lt (hready.length_parts hparts ▸ hready.short) (by decide)
  have hsections := StoredCode.readsAs_sections hfits hlength hhandlers hall
  rwa [← List.append_assoc lines] at hsections

end ClassTree.Code
