import ClassTree.Proofs.Bytes.Advancing
import ClassTree.Proofs.Code.Offsets

namespace ClassTree.Code

open Pool Build BigEndian Reader StackMap

variable {b : Builder} {setting : Setting} {method : Method} {owner : String} {table : Table}
  {skip : Skip} {found : FoundCode}

/-- A code attribute is read by reading its sections and interpreting what is in them. -/
theorem run_readListing {cursor cursor' : Cursor} {instructions : List (Nat × Instruction Nat)}
    {tables : List (Option CodeTable)}
    (h : (readSections table).run cursor = .ok (found, cursor'))
    (hd : decode table found.array = .ok instructions)
    (ht : List.Forall₂ (fun entry found => readTable owner method table skip entry.1 entry.2 =
      .ok found) found.attributes tables) :
    (readListing owner method table skip).run cursor = .ok (⟨found.maxStack, found.maxLocals,
      found.array.rest.length, instructions, found.handlers, tables.filterMap id⟩, cursor') := by
  obtain ⟨maxStack, c₁, h₁, h⟩ := run_bind_eq_ok.mp h
  obtain ⟨maxLocals, c₂, h₂, h⟩ := run_bind_eq_ok.mp h
  obtain ⟨length, c₃, h₃, h⟩ := run_bind_eq_ok.mp h
  obtain ⟨array, c₄, h₄, h⟩ := run_bind_eq_ok.mp h
  obtain ⟨handlers, c₅, h₅, h⟩ := run_bind_eq_ok.mp h
  obtain ⟨attributes, c₆, h₆, h⟩ := run_bind_eq_ok.mp h
  obtain ⟨rfl, rfl⟩ := Prod.mk.inj (Except.ok.inj h)
  have hlength : array.rest.length = length.toNat := by
    obtain ⟨⟨front, after⟩, htake, hp⟩ := bind_eq_ok.mp h₄
    obtain ⟨rfl, -⟩ := Prod.mk.inj (Except.ok.inj hp)
    exact (take_eq_ok htake).1
  rw [hlength]
  refine run_bind_eq_ok.mpr ⟨_, _, h₁, run_bind_eq_ok.mpr ⟨_, _, h₂, ?_⟩⟩
  refine run_bind_eq_ok.mpr ⟨_, _, h₃, run_bind_eq_ok.mpr ⟨_, _, h₄, ?_⟩⟩
  refine run_bind_eq_ok.mpr ⟨instructions, c₄, by rw [hd]; rfl, ?_⟩
  refine run_bind_eq_ok.mpr ⟨_, _, h₅, run_bind_eq_ok.mpr ⟨_, _, h₆, ?_⟩⟩
  exact run_bind_eq_ok.mpr ⟨tables, c₆, run_mapM_lift.mpr ⟨ht, rfl⟩, rfl⟩

def IsTable (owner : String) (method : Method) (table : Table) (skip : Skip) (entry : RawAttribute)
    (found : Option CodeTable) : Prop :=
  ∀ base, readTable owner method table skip entry.name ⟨entry.info, 0, base⟩ = .ok found

theorem isTable_of_holds {α : Type} {name : String} {reader : Reader α} {fits : α → Prop}
    {value : Option α} {attributes : List RawAttribute} {make : α → CodeTable}
    (h : Holds name reader fits value attributes) (hfits : ∀ a ∈ value, fits a)
    (hmake : ∀ info a, Cursor.parse info reader = .ok a →
      readTable owner method table skip name info = .ok (some (make a))) :
    List.Forall₂ (IsTable owner method table skip) attributes
      (value.toList.map fun a => some (make a)) := by
  cases value with
  | none =>
    obtain rfl : attributes = [] := h
    exact .nil
  | some a =>
    obtain ⟨info, rfl, hreads⟩ := h
    exact .cons (fun base => hmake _ a ((hreads (hfits a rfl)).parse base)) .nil

namespace LaidOut

variable {laidOut : LaidOut} {frames : List (Nat × OffsetFrame)}

def labelOffsets (laidOut : LaidOut) : LabelOffsets :=
  .ofCode laidOut.code laidOut.offsets

def tables (laidOut : LaidOut) (method : Method) (frames : List (Nat × OffsetFrame)) :
    List CodeTable :=
  (nonempty? (offsetLines laidOut.labelOffsets laidOut.code)).toList.map .lines ++
    (method.localVariables.map (offsetVariables laidOut.labelOffsets)).toList.map .localVariables ++
    (nonempty? (offsetSignatures laidOut.labelOffsets (method.localVariables.getD []))).toList.map
      .signatures ++ (nonempty? frames).toList.map .frames

theorem tables_eq_append (frames : List (Nat × OffsetFrame)) : laidOut.tables method frames =
    laidOut.tables method [] ++ (nonempty? frames).toList.map .frames :=
  congrArg (· ++ _) (List.append_nil _).symm

def listing (laidOut : LaidOut) (method : Method) (frames : List (Nat × OffsetFrame)) : Listing :=
  { maxStack := method.maxStack, maxLocals := method.maxLocals, length := laidOut.offsets.length,
    instructions := laidOut.instructions,
    handlers := offsetHandlers laidOut.labelOffsets method.handlers,
    tables := laidOut.tables method frames }

section Tables

variable {α β : Type}

theorem flatMap_toList_nil (o : Option α) : o.toList.flatMap (fun _ => ([] : List β)) = [] := by
  cases o <;> rfl

theorem flatMap_tables (pick : CodeTable → List β) :
    (laidOut.tables method frames).flatMap pick =
      (nonempty? (offsetLines laidOut.labelOffsets laidOut.code)).toList.flatMap
        (fun entries => pick (.lines entries)) ++
      (method.localVariables.map (offsetVariables laidOut.labelOffsets)).toList.flatMap
        (fun entries => pick (.localVariables entries)) ++
      (nonempty? (offsetSignatures laidOut.labelOffsets
        (method.localVariables.getD []))).toList.flatMap
          (fun entries => pick (.signatures entries)) ++
      (nonempty? frames).toList.flatMap fun entries => pick (.frames entries) := by
  rw [tables, List.flatMap_append, List.flatMap_append, List.flatMap_append, List.flatMap_map,
    List.flatMap_map, List.flatMap_map, List.flatMap_map]

theorem lineEntries_listing : (laidOut.listing method frames).lineEntries =
    offsetLines laidOut.labelOffsets laidOut.code := by
  rw [Listing.lineEntries, listing, flatMap_tables]
  simp only [flatMap_toList_nil, List.append_nil]
  exact flatMap_nonempty? _

theorem variableEntries_listing : (laidOut.listing method frames).variableEntries =
    offsetVariables laidOut.labelOffsets (method.localVariables.getD []) := by
  rw [Listing.variableEntries, listing, flatMap_tables]
  simp only [flatMap_toList_nil, List.append_nil, List.nil_append]
  cases method.localVariables with
  | none => rfl
  | some entries => exact List.append_nil _

theorem signatureEntries_listing : (laidOut.listing method frames).signatureEntries =
    offsetSignatures laidOut.labelOffsets (method.localVariables.getD []) := by
  rw [Listing.signatureEntries, listing, flatMap_tables]
  simp only [flatMap_toList_nil, List.append_nil, List.nil_append]
  exact flatMap_nonempty? _

theorem frameEntries_listing : (laidOut.listing method frames).frameEntries = frames := by
  rw [Listing.frameEntries, listing, flatMap_tables]
  simp only [flatMap_toList_nil, List.nil_append]
  exact flatMap_nonempty? _

theorem hasVariables_listing : (laidOut.listing method frames).hasVariables =
    method.localVariables.isSome := by
  rw [Listing.hasVariables, listing, tables]
  simp only [List.any_append, List.any_map, Function.comp_def]
  cases method.localVariables <;> simp

end Tables

end LaidOut

section Interpretation

variable {info : Cursor} {skipFrames : Bool}

theorem readTable_lines {entries : List (Nat × UInt16)}
    (h : info.parse (Reader.counted readLine) = .ok entries) :
    readTable owner method table ⟨false, skipFrames⟩ "LineNumberTable" info =
      .ok (some (.lines entries)) := by
  change (Cursor.parse _ _ >>= _) = _
  rw [h]
  rfl

theorem readTable_variables {entries : List VariableEntry}
    (h : info.parse (Reader.counted (readVariable table)) = .ok entries) :
    readTable owner method table ⟨false, skipFrames⟩ "LocalVariableTable" info =
      .ok (some (.localVariables entries)) := by
  change (Cursor.parse _ _ >>= _) = _
  rw [h]
  rfl

theorem readTable_signatures {entries : List VariableEntry}
    (h : info.parse (Reader.counted (readVariable table)) = .ok entries) :
    readTable owner method table ⟨false, skipFrames⟩ "LocalVariableTypeTable" info =
      .ok (some (.signatures entries)) := by
  change (Cursor.parse _ _ >>= _) = _
  rw [h]
  rfl

theorem readTable_frames {entries : List (Nat × OffsetFrame)}
    (h : info.parse (readFrames owner method table) = .ok entries) :
    readTable owner method table ⟨false, false⟩ "StackMapTable" info =
      .ok (some (.frames entries)) := by
  obtain ⟨cursor, h⟩ := parse_eq_ok.mp h
  obtain ⟨locals, middle, hlocals, hread⟩ := run_bind_eq_ok.mp h
  obtain ⟨found, hfound, hp⟩ := bind_eq_ok.mp hlocals
  obtain ⟨rfl, rfl⟩ := Prod.mk.inj (Except.ok.inj hp)
  have hparse : info.parse (StackMap.read table found) = .ok entries :=
    parse_eq_ok.mpr ⟨cursor, hread⟩
  change (entryLocals owner method >>= _) = _
  rw [show entryLocals owner method = .ok found from hfound]
  change (Cursor.parse _ _ >>= _) = _
  rw [hparse]
  rfl

end Interpretation

/-- Without flags, a method is prepared with what it has. -/
theorem prepared_of_prepare {prepared : Prepared} {b' : Builder}
    (hc : setting.recompute = ⟨false, false⟩) (hy : Yields (prepare setting method) b prepared b') :
    ∃ laidOut frames b₁, method.checkLabels (setting.displayName method) = .ok () ∧
      Yields (widen (setting.displayName method) (method.body.code.any Instruction.isFrame)
        method.body) b laidOut b₁ ∧
      Yields (if setting.version.usesFrames then placedFrames laidOut else pure ∅) b₁ frames b' ∧
      prepared = ⟨laidOut.code, laidOut.offsets, method.handlers, frames, method.maxStack.toNat,
        method.maxLocals.toNat⟩ := by
  obtain ⟨_, b₁, hchecked, hy⟩ := yields_bind.mp hy
  obtain ⟨hok, rfl⟩ := yields_ofExcept.mp hchecked
  have hframes : setting.computesFrames = false := by rw [Setting.computesFrames, hc]; rfl
  have hmaxima : setting.computesMaxima = false := by rw [Setting.computesMaxima, hframes, hc]; rfl
  rw [if_neg (by simp [hframes])] at hy
  obtain ⟨laidOut, b₁, hwiden, hy⟩ := yields_bind.mp hy
  obtain ⟨⟨maxStack, maxLocals⟩, b₂, hfound, hy⟩ := yields_bind.mp hy
  rw [maxima, if_neg (by simp [hmaxima])] at hfound
  obtain ⟨he, rfl⟩ := yields_pure.mp hfound
  obtain ⟨rfl, rfl⟩ := Prod.mk.inj he
  dsimp only at hy
  split at hy
  all_goals
    rename_i huses
    obtain ⟨frames, b₃, hplaced, hp⟩ := yields_bind.mp hy
    obtain ⟨rfl, rfl⟩ := yields_pure.mp hp
    refine ⟨laidOut, frames, b₁, mapError_eq_ok.mp hok, hwiden, ?_, rfl⟩
  · rwa [if_pos huses]
  · rwa [if_neg huses]

section Assembly

variable {laidOut : LaidOut}

/-- The code array is decoded to the instructions that were laid out. -/
theorem decode_parts {parts : List Bytes} (h : LastRound b laidOut)
    (hcan : ∀ insn ∈ laidOut.code, insn.Canonical) (hs : b.Sound)
    (hsize : b.bootstrap.size ≤ 0x10000)
    (hp : List.Forall₂ (fun (entry : Instruction Label × Nat) part =>
      Yields (encodeInstruction (laidOut.offsets.getD entry.2 0)
        (entry.1.mapLabels laidOut.labelOffsets.at)) b part b) laidOut.code.zipIdx parts)
    (base : Nat) : decode b.table ⟨parts.flatten, 0, base⟩ = .ok laidOut.instructions ∧
      parts.flatten.length = laidOut.offsets.length := by
  have hwritten := written_of_encode h hcan hp
  have hlength := length_flatten_of_next (hwritten.imp fun _ _ hw => hw.next)
  rw [h.laid.first, Nat.zero_add, Nat.zero_add] at hlength
  have hread : ∃ final, (readInstructions b.table [] parts.flatten.length).run
      ⟨parts.flatten, laidOut.offsets.getD 0 0, base⟩ = .ok (List.reverse [] ++ readBack
        laidOut.offsets (.ofCode laidOut.code laidOut.offsets) laidOut.code.zipIdx, final) :=
    (run_readInstructions_iff hs hwritten (Nat.le_refl _)).mpr (linked_of_written hs hsize hwritten)
  obtain ⟨final, hrun⟩ := hread
  rw [h.laid.first, List.reverse_nil, List.nil_append, LaidOut.readBack_eq] at hrun
  exact ⟨parse_eq_ok.mpr ⟨final, hrun⟩, by rw [hlength, h.laid.length_eq]⟩

structure FramesRead (usesFrames : Bool) (laidOut : LaidOut) (frames : List (Nat × OffsetFrame)) :
    Prop where
  ascending : frames.Pairwise fun entry later => entry.1 < later.1
  mem_iff : ∀ {offset frame}, (offset, frame) ∈ frames ↔ usesFrames = true ∧
    offset < laidOut.offsets.length ∧ lastFrame? laidOut.elements offset = some frame

theorem framesRead_of_placed {usesFrames : Bool} {table : FrameTable} {b₁ : Builder}
    {frames : List (Nat × OffsetFrame)} (hlaid : Laid b laidOut.code laidOut.offsets)
    (hshort : laidOut.offsets.length ≤ maxLength)
    (hy : Yields (if usesFrames then placedFrames laidOut else pure ∅) b₁ table b) (hs : b.Sound)
    (hshown : List.Forall₂ (Shown b.table) table.toList frames) :
    FramesRead usesFrames laidOut frames := by
  refine ⟨ascending_of_shown hshown, fun {offset frame} => ?_⟩
  split at hy
  · rename_i huses
    rw [and_iff_right huses]
    exact (placesLast_placedFrames hlaid hshort hy).mem_iff hs hshown
  · rename_i hnone
    obtain ⟨rfl, -⟩ := yields_pure.mp hy
    obtain rfl := List.forall₂_nil_left_iff.mp hshown
    exact iff_of_false nofun fun hc => hnone hc.1

/-- Everything in the tables of the code can be counted. -/
structure LaidOut.Fits (laidOut : LaidOut) (method : Method) : Prop where
  handlers : (offsetHandlers laidOut.labelOffsets method.handlers).length < 0x10000
  lines : (offsetLines laidOut.labelOffsets laidOut.code).length < 0x10000
  variables_ : ∀ entries ∈ method.localVariables,
    (properVariables laidOut.labelOffsets entries).length < 0x10000
  frames : ∀ locals stack, .frame locals stack ∈ laidOut.code →
    locals.length < 0x10000 ∧ stack.length < 0x10000

theorem mem_of_lastFrame? {elements : List (Nat × Instruction Nat)} {offset : Nat}
    {frame : OffsetFrame} (h : lastFrame? elements offset = some frame) :
    (offset, .frame frame.locals frame.stack) ∈ elements := by
  obtain ⟨⟨place, found⟩, hlast, rfl⟩ := Option.map_eq_some_iff.mp h
  obtain ⟨hm, hplace⟩ := List.mem_filter.mp (List.mem_of_getLast? hlast)
  obtain rfl : place = offset := of_decide_eq_true hplace
  obtain ⟨⟨place', insn⟩, hin, he⟩ := List.mem_filterMap.mp hm
  cases insn with
  | frame locals stack =>
    obtain ⟨rfl, rfl⟩ := Prod.mk.inj (Option.some.inj he)
    exact hin
  | _ => cases he

/-- The entries of a frame that is read can be counted if those of the frames in the code can. -/
theorem FramesRead.fitEntries {usesFrames : Bool} {frames : List (Nat × OffsetFrame)}
    (h : FramesRead usesFrames laidOut frames) (hshort : laidOut.offsets.length ≤ maxLength)
    (hf : laidOut.Fits method) : FitEntries FewEntries frames := by
  constructor
  · have hcount := length_le_of_ascending h.ascending fun entry hm =>
      Nat.lt_of_lt_of_le (h.mem_iff.mp hm).2.1 hshort
    exact Nat.lt_of_le_of_lt hcount (by decide)
  · intro entry hm
    have helement := mem_of_lastFrame? (h.mem_iff.mp hm).2.2
    obtain ⟨⟨insn, index⟩, hin, he⟩ := List.mem_map.mp helement
    have hcode := List.mem_of_getElem? (List.mk_mem_zipIdx_iff_getElem?.mp hin)
    have hinsn : insn.mapLabels laidOut.offsetOf = .frame entry.2.locals entry.2.stack :=
      congrArg Prod.snd he
    cases insn with
    | frame locals stack =>
      obtain ⟨hlocals, hstack⟩ := Instruction.frame.inj hinsn
      obtain ⟨hl, hs⟩ := hf.frames _ _ hcode
      exact ⟨by rw [← hlocals, List.length_map]; exact hl,
        by rw [← hstack, List.length_map]; exact hs⟩
    | _ => cases hinsn

theorem length_le_of_holds {α : Type} {name : String} {reader : Reader α} {fits : α → Prop}
    {value : Option α} {attributes : List RawAttribute}
    (h : Holds name reader fits value attributes) : attributes.length ≤ 1 := by
  cases value with
  | none =>
    obtain rfl : attributes = [] := h
    exact Nat.zero_le _
  | some a =>
    obtain ⟨info, rfl, -⟩ := h
    exact Nat.le_refl _

/-- The tables other than that of the frames are read as they were written. -/
theorem isTable_debug {skipFrames : Bool} {declared : Method}
    {lines variables_ signatures : List RawAttribute}
    (hf : laidOut.Fits method)
    (hlines : Holds "LineNumberTable" (Reader.counted readLine) (FitEntries fun _ => True)
      (nonempty? (offsetLines laidOut.labelOffsets laidOut.code)) lines)
    (hvariables : Holds "LocalVariableTable" (Reader.counted (readVariable table))
      (FitEntries fun _ => True)
      (method.localVariables.map (offsetVariables laidOut.labelOffsets)) variables_)
    (hsignatures : Holds "LocalVariableTypeTable" (Reader.counted (readVariable table))
      (FitEntries fun _ => True)
      (nonempty? (offsetSignatures laidOut.labelOffsets (method.localVariables.getD [])))
      signatures) :
    List.Forall₂ (IsTable owner declared table ⟨false, skipFrames⟩)
      (lines ++ variables_ ++ signatures) ((laidOut.tables method []).map some) := by
  have hcount : ∀ entries ∈ method.localVariables,
      (offsetVariables laidOut.labelOffsets entries).length < 0x10000 ∧
        (offsetSignatures laidOut.labelOffsets entries).length < 0x10000 := by
    intro entries hm
    have hproper := hf.variables_ entries hm
    exact ⟨by rwa [offsetVariables, List.length_map],
      Nat.lt_of_le_of_lt (List.length_filterMap_le _ _) hproper⟩
  have hlines' : List.Forall₂ (IsTable owner declared table ⟨false, skipFrames⟩) lines
      ((nonempty? (offsetLines laidOut.labelOffsets laidOut.code)).toList.map
        fun entries => some (.lines entries)) :=
    isTable_of_holds hlines (fitEntries_nonempty? ⟨hf.lines, fun _ _ => trivial⟩) fun _ _ =>
      readTable_lines
  have hvariables' : List.Forall₂ (IsTable owner declared table ⟨false, skipFrames⟩) variables_
      ((method.localVariables.map (offsetVariables laidOut.labelOffsets)).toList.map
        fun entries => some (.localVariables entries)) := by
    refine isTable_of_holds hvariables (fun found hm => ?_) fun _ _ => readTable_variables
    obtain ⟨entries, he, rfl⟩ := Option.map_eq_some_iff.mp hm
    exact ⟨(hcount entries he).1, fun _ _ => trivial⟩
  have hsignatures' : List.Forall₂ (IsTable owner declared table ⟨false, skipFrames⟩) signatures
      ((nonempty? (offsetSignatures laidOut.labelOffsets
        (method.localVariables.getD []))).toList.map fun entries =>
          some (.signatures entries)) := by
    refine isTable_of_holds hsignatures (fitEntries_nonempty? ⟨?_, fun _ _ => trivial⟩)
      fun _ _ => readTable_signatures
    cases he : method.localVariables with
    | none => exact Nat.zero_lt_succ _
    | some entries => exact (hcount entries he).2
  have hnone : (nonempty? ([] : List (Nat × OffsetFrame))).toList.map CodeTable.frames = [] := rfl
  rw [LaidOut.tables, hnone, List.append_nil, List.map_append, List.map_append, List.map_map,
    List.map_map, List.map_map]
  exact List.rel_append (List.rel_append hlines' hvariables') hsignatures'

/-- The tables are read as they were written. -/
theorem isTable_attributes {frames : List (Nat × OffsetFrame)}
    {lines variables_ signatures placed : List RawAttribute}
    (hf : laidOut.Fits method) (hfew : FitEntries FewEntries frames)
    (hlines : Holds "LineNumberTable" (Reader.counted readLine) (FitEntries fun _ => True)
      (nonempty? (offsetLines laidOut.labelOffsets laidOut.code)) lines)
    (hvariables : Holds "LocalVariableTable" (Reader.counted (readVariable table))
      (FitEntries fun _ => True)
      (method.localVariables.map (offsetVariables laidOut.labelOffsets)) variables_)
    (hsignatures : Holds "LocalVariableTypeTable" (Reader.counted (readVariable table))
      (FitEntries fun _ => True)
      (nonempty? (offsetSignatures laidOut.labelOffsets (method.localVariables.getD [])))
      signatures)
    (hplaced : Holds "StackMapTable" (readFrames owner method table) (FitEntries FewEntries)
      (nonempty? frames) placed) :
    List.Forall₂ (IsTable owner method table ⟨false, false⟩)
      (lines ++ variables_ ++ signatures ++ placed) ((laidOut.tables method frames).map some) := by
  have hplaced' := isTable_of_holds hplaced (fitEntries_nonempty? hfew) fun _ _ => readTable_frames
  rw [LaidOut.tables_eq_append, List.map_append, List.map_map]
  exact List.rel_append (isTable_debug hf hlines hvariables hsignatures) hplaced'

/-- What is found for attributes is interpreted wherever it is. -/
theorem readTables_of_found {attributes : List RawAttribute} {read : List (String × Cursor)}
    {tables : List (Option CodeTable)}
    (h : List.Forall₂ (IsTable owner method table skip) attributes tables)
    (hf : List.Forall₂ RawAttribute.FoundAs attributes read) :
    List.Forall₂ (fun entry found => readTable owner method table skip entry.1 entry.2 = .ok found)
      read tables := by
  induction h generalizing read with
  | nil =>
    obtain rfl := List.forall₂_nil_left_iff.mp hf
    exact .nil
  | cons htable _ ih =>
    obtain ⟨first, rest, hfirst, hrest, rfl⟩ := List.forall₂_cons_left_iff.mp hf
    obtain ⟨base, rfl⟩ := hfirst
    exact .cons (htable base) (ih hrest)

/-- Sections that are read are read as a listing. -/
theorem StoredCode.parse_readListing {stored : StoredCode} {info : Bytes}
    {instructions : List (Nat × Instruction Nat)} {tables : List (Option CodeTable)}
    (hreads : ReadsAs (readSections table) 0 info stored.FoundAs)
    (hdecode : ∀ base, decode table ⟨stored.array, 0, base⟩ = .ok instructions)
    (htables : List.Forall₂ (IsTable owner method table skip) stored.attributes tables)
    (base : Nat) : Cursor.parse ⟨info, 0, base⟩ (readListing owner method table skip) =
      .ok ⟨UInt16.ofNat stored.maxStack, UInt16.ofNat stored.maxLocals, stored.array.length,
        instructions, stored.handlers, tables.filterMap id⟩ := by
  obtain ⟨found, hfound, hrun⟩ := hreads [] base
  rw [List.append_nil] at hrun
  obtain ⟨base', hcursor⟩ := hfound.array
  have hlisting := run_readListing hrun (by rw [hcursor, hdecode])
    (readTables_of_found htables hfound.attributes)
  rw [← hfound.maxStack, ← hfound.maxLocals, UInt16.ofNat_toNat, UInt16.ofNat_toNat,
    ← hfound.handlers]
  rw [hcursor] at hlisting
  exact parse_eq_ok.mpr ⟨_, hlisting⟩

/-- What is stored for code fits if the code does: there are few attributes, and none is longer than
all of them. -/
theorem fits_storedCode {prepared : Prepared} {stored : StoredCode} {info : Bytes}
    (h : prepared.StoredAs b setting method stored)
    (hhandlers : (offsetHandlers prepared.labelOffsets prepared.handlers).length < 0x10000)
    (hle : ∀ entry ∈ stored.attributes, entry.info.length ≤ info.length)
    (hlength : info.length < 0x100000000) : stored.clamped.Fits := by
  obtain ⟨lines, variables_, signatures, placed, read, hall, h₁, h₂, h₃, -, h₄⟩ := h.attributes
  have hsmall : ∀ size, min size 0xFFFF < 0x10000 := fun _ =>
    Nat.lt_of_le_of_lt (Nat.min_le_right _ _) (by decide)
  refine ⟨hsmall _, hsmall _, h.handlers ▸ hhandlers, ?_,
    fun entry hm => Nat.lt_of_le_of_lt (hle entry hm) hlength⟩
  have hcounts := Nat.add_le_add (Nat.add_le_add (Nat.add_le_add (length_le_of_holds h₁)
    (length_le_of_holds h₂)) (length_le_of_holds h₃)) (length_le_of_holds h₄)
  rw [StoredCode.clamped, hall, List.length_append, List.length_append, List.length_append]
  exact Nat.lt_of_le_of_lt hcounts (by decide)

/-- What is written for a method is read as the code that was laid out for it, if that fits. -/
theorem exists_readListing {info : Bytes} (hr : b.Reachable)
    (hc : setting.recompute = ⟨false, false⟩)
    (hcan : ∀ insn ∈ method.body.code, insn.Canonical) (hsize : b.bootstrap.size ≤ 0x10000)
    (hf : ∀ laidOut, Yields (widen (setting.displayName method)
      (method.body.code.any Instruction.isFrame) method.body) b laidOut b → laidOut.Fits method)
    (hlength : info.length < 0x100000000) (hy : Yields (attributeInfo setting method) b info b) :
    ∃ laidOut frames, method.checkLabels (setting.displayName method) = .ok () ∧
      Yields (widen (setting.displayName method) (method.body.code.any Instruction.isFrame)
        method.body) b laidOut b ∧
      FramesRead setting.version.usesFrames laidOut frames ∧
      ∀ base, Cursor.parse ⟨info, 0, base⟩ (readListing setting.owner method b.table
        ⟨false, false⟩) = .ok (laidOut.listing method frames) := by
  obtain ⟨prepared, stored, hprepare, hstored, hle, hreads⟩ := stored_of_attributeInfo hr hy
  obtain ⟨laidOut, table, b₁, hlabels, hwiden, hplaced, hprepared⟩ :=
    prepared_of_prepare hc hprepare
  have hgrow : b₁.Within b := by
    split at hplaced
    · exact (lawful_placedFrames _).grows hplaced
    · exact (yields_pure.mp hplaced).2 ▸ .refl _
  have hwiden' := (lawful_widen _ _ _).again hwiden hgrow
  have hlast := ends_of_widen hwiden'
  have hfits := hf laidOut hwiden'
  subst hprepared
  have hstoredFits := fits_storedCode hstored hfits.handlers hle hlength
  obtain ⟨parts, harray, hparts⟩ := hstored.array
  obtain ⟨lines, variables_, signatures, placed, frames, hall, h₁, h₂, h₃, hshown, h₄⟩ :=
    hstored.attributes
  have hread := framesRead_of_placed hlast.laid hlast.short hplaced hr.sound hshown
  have hdecode := fun base =>
    decode_parts hlast (canonical_of_widen hcan hwiden') hr.sound hsize hparts base
  have htables := isTable_attributes hfits (hread.fitEntries hlast.short hfits) h₁ h₂ h₃ h₄
  rw [← hall] at htables
  have hsame : ∀ size : UInt16, UInt16.ofNat (min size.toNat 0xFFFF) = size := fun size => by
    rw [Nat.min_eq_left (Nat.le_of_lt_succ size.toNat_lt), UInt16.ofNat_toNat]
  have hclamped : stored.clamped = ⟨min method.maxStack.toNat 0xFFFF,
      min method.maxLocals.toNat 0xFFFF, parts.flatten,
      offsetHandlers laidOut.labelOffsets method.handlers, stored.attributes⟩ := by
    rw [StoredCode.clamped, hstored.maxStack, hstored.maxLocals, harray, hstored.handlers]
    rfl
  have hreads := hreads hstoredFits
  rw [hclamped] at hreads
  refine ⟨laidOut, frames, hlabels, hwiden', hread, fun base => ?_⟩
  rw [StoredCode.parse_readListing hreads (fun base => (hdecode base).1) htables base]
  simp only [hsame, (hdecode 0).2, List.filterMap_map, Function.id_comp, List.filterMap_some]
  rfl

end Assembly

end ClassTree.Code
