import ClassTree.Proofs.Code.FrameAttribute
import ClassTree.Proofs.Code.RoundTrip
import ClassTree.Proofs.Flow.Creations

namespace ClassTree

open BigEndian

namespace StackMap

def Change.types : Change → List EncodedType
  | same | chop _ => []
  | sameWithStack type => [type]
  | append locals => locals
  | full locals stack => locals ++ stack

/-- A change spells out no types but those of the frame that it leads to. -/
theorem mem_of_mem_between {previous frame : EncodedFrame} {type : EncodedType}
    (h : type ∈ (Change.between previous frame).types) : type ∈ frame.locals ++ frame.stack := by
  obtain ⟨locals, stack⟩ := frame
  unfold Change.between at h
  dsimp only at h
  split at h
  · split at h
    · split at h
      · cases h
      · exact h
    · split at h
      · split at h
        · cases h
        · exact h
      · split at h
        · exact List.mem_append_left _ (List.mem_of_mem_drop h)
        · exact h
  · split at h
    · exact List.mem_append_right _ h
    · exact h
  · exact h

theorem exists_frame_of_mem_entries {initial : EncodedFrame} {frames : List (Nat × EncodedFrame)}
    {entry : Entry} (h : entry ∈ entries initial frames) :
    ∃ place previous, place ∈ frames ∧ entry.change = .between previous place.2 := by
  obtain ⟨i, hi⟩ := List.mem_iff_getElem?.mp h
  rw [entries, List.getElem?_zipWith_eq_some] at hi
  obtain ⟨before, place, -, hplace, rfl⟩ := hi
  exact ⟨place, before.2, List.mem_of_getElem? hplace, rfl⟩

end StackMap

namespace Code

open Pool Build ClassTree.Flow ClassTree.Frame StackMap

section Writing

variable {setting : Setting} {method : Method} {b b' b'' : Builder} {offsets : Offsets}
  {code : List (Instruction Label)} {labels : LabelOffsets} {laidOut : LaidOut} {program : Program}
  {flow : TypeFlow} {prepared : Prepared}

section Types

variable {κ ν : Type} {type : VerificationType κ ν} {slots : List (VerificationType κ ν)}

theorem mem_of_mem_compactOnto {found : List (VerificationType κ ν)}
    (h : type ∈ compactOnto found slots) : type ∈ found ∨ type ∈ slots := by
  fun_induction compactOnto found slots with
  | case1 found => exact .inl (List.mem_reverse.mp h)
  | case2 found last => simpa [or_comm] using h
  | case3 found first second rest hw ih =>
    rcases ih h with hm | hm
    · rcases List.mem_cons.mp hm with rfl | hm
      · exact .inr List.mem_cons_self
      · exact .inl hm
    · exact .inr (List.mem_cons_of_mem _ (List.mem_cons_of_mem _ hm))
  | case4 found first second rest hw ih =>
    rcases ih h with hm | hm
    · rcases List.mem_cons.mp hm with rfl | hm
      · exact .inr List.mem_cons_self
      · exact .inl hm
    · exact .inr (List.mem_cons_of_mem _ hm)

theorem mem_of_mem_compact (h : type ∈ compact slots) : type ∈ slots :=
  (mem_of_mem_compactOnto h).resolve_left List.not_mem_nil

theorem mem_of_mem_trim (h : type ∈ trim slots) : type ∈ slots := by
  have hm := (List.dropWhile_sublist isTop).subset (List.mem_reverse.mp h)
  exact List.mem_reverse.mp hm

end Types

/-- The compact form of a frame has no types that the frame does not have. -/
theorem holds_of_mem_toFrame {f : SlotFrame} {type : SlotType}
    (h : type ∈ f.toFrame.locals ++ f.toFrame.stack) : f.Holds type := by
  rcases List.mem_append.mp h with h | h
  · exact .inl (mem_of_mem_compact (mem_of_mem_trim h))
  · exact .inr (List.mem_reverse.mp (mem_of_mem_compact h))

theorem creation_of_traverse {ν : Type} {type : VerificationType String ν} {place : ν → UInt16}
    {offset : UInt16}
    (hy : Yields (type.traverse Build.classRef place) b (.uninitialized offset) b') :
    ∃ creation, type = .uninitialized creation ∧ offset = place creation := by
  cases type with
  | object name =>
    obtain ⟨index, middle, -, hp⟩ := yields_bind.mp hy
    cases (yields_pure.mp hp).1
  | uninitialized creation =>
    exact ⟨creation, rfl, (VerificationType.uninitialized.inj (yields_pure.mp hy).1).symm⟩
  | _ => cases (yields_pure.mp hy).1

theorem creation_of_mapM {ν : Type} {types : List (VerificationType String ν)} {place : ν → UInt16}
    {found : List EncodedType} {offset : UInt16}
    (hy : Yields (types.mapM (VerificationType.traverse Build.classRef place)) b found b')
    (hm : .uninitialized offset ∈ found) :
    ∃ creation, .uninitialized creation ∈ types ∧ offset = place creation := by
  have hall := forall₂_of_mapM (lawful_traverse place) hy
  clear hy
  induction hall with
  | nil => cases hm
  | cons hy _ ih =>
    rcases List.mem_cons.mp hm with rfl | hm
    · obtain ⟨creation, rfl, he⟩ := creation_of_traverse hy
      exact ⟨creation, List.mem_cons_self, he⟩
    · obtain ⟨creation, hc, he⟩ := ih hm
      exact ⟨creation, List.mem_cons_of_mem _ hc, he⟩

/-- An offset in an encoded frame is that of an element that the frame names an object after. -/
theorem creation_of_encodeFrame {f : SlotFrame} {encoded : EncodedFrame} {offset : UInt16}
    (hy : Yields (encodeFrame offsets f) b encoded b')
    (hm : .uninitialized offset ∈ encoded.locals ++ encoded.stack) :
    ∃ creation, f.Holds (.uninitialized creation) ∧
      offset = UInt16.ofNat (offsets.getD creation 0) := by
  obtain ⟨locals, b₁, hlocals, hy⟩ := yields_bind.mp hy
  obtain ⟨stack, b₂, hstack, hp⟩ := yields_bind.mp hy
  obtain ⟨rfl, -⟩ := yields_pure.mp hp
  rcases List.mem_append.mp hm with hm | hm
  · obtain ⟨creation, hc, he⟩ := creation_of_mapM hlocals hm
    exact ⟨creation, holds_of_mem_toFrame (List.mem_append_left _ hc), he⟩
  · obtain ⟨creation, hc, he⟩ := creation_of_mapM hstack hm
    exact ⟨creation, holds_of_mem_toFrame (List.mem_append_right _ hc), he⟩

/-- Of parts as long as their elements, each is at the offset of its element. -/
theorem exists_part {R : Instruction Label × Nat → Bytes → Prop} {start : Nat}
    {parts : List Bytes} (h : List.Forall₂ (fun entry part => R entry part ∧
      offsets.getD (entry.2 + 1) 0 = offsets.getD entry.2 0 + part.length)
      (code.zipIdx start) parts)
    {index : Nat} {insn : Instruction Label} (hi : code[index]? = some insn) :
    ∃ front part back, parts.flatten = front ++ part ++ back ∧
      offsets.getD start 0 + front.length = offsets.getD (start + index) 0 ∧
      R (insn, start + index) part := by
  induction code generalizing start parts index with
  | nil => cases hi
  | cons first code ih =>
    obtain ⟨part, rest, ⟨hr, hnext⟩, hrest, rfl⟩ := List.forall₂_cons_left_iff.mp h
    cases index with
    | zero =>
      obtain rfl : first = insn := by simpa using hi
      exact ⟨[], part, rest.flatten, rfl, rfl, hr⟩
    | succ index =>
      obtain ⟨front, found, back, he, hoffset, hr⟩ := ih hrest (by simpa using hi)
      rw [show start + 1 + index = start + (index + 1) by omega] at hoffset hr
      refine ⟨part ++ front, found, back, ?_, ?_, hr⟩
      · rw [List.flatten_cons, he, List.append_assoc, List.append_assoc, List.append_assoc]
      · have hnext : offsets.getD (start + 1) 0 = offsets.getD start 0 + part.length := hnext
        rw [List.length_append, ← hoffset, hnext, Nat.add_assoc]

/-- The bytes of an element are at its offset. -/
theorem exists_part_of_encode {bytes : Bytes} (hl : Laid b code offsets)
    (hy : Yields (encode code offsets labels) b bytes b') {index : Nat} {insn : Instruction Label}
    (hi : code[index]? = some insn) : ∃ front part back, bytes = front ++ part ++ back ∧
      front.length = offsets.getD index 0 ∧
      Yields (encodeInstruction (offsets.getD index 0) (insn.mapLabels labels.at)) b' part b' := by
  have hlaid := hl.mono ((lawful_encode _ _ _).grows hy)
  obtain ⟨parts, middle, hp, hf⟩ := yields_bind.mp hy
  obtain ⟨rfl, rfl⟩ := yields_pure.mp hf
  have hparts := forall₂_of_mapM (fun _ => lawful_encodeInstruction _ _) hp
  obtain ⟨hlength, hzip⟩ := List.forall₂_iff_zip.mp hparts
  have hwidths : List.Forall₂ (fun entry part => Yields (encodeInstruction
      (offsets.getD entry.2 0) (entry.1.mapLabels labels.at)) middle part middle ∧
        offsets.getD (entry.2 + 1) 0 = offsets.getD entry.2 0 + part.length)
      code.zipIdx parts := by
    refine List.forall₂_iff_zip.mpr ⟨hlength, ?_⟩
    rintro ⟨other, place⟩ part hm
    have hat := List.mk_mem_zipIdx_iff_getElem?.mp (List.of_mem_zip hm).1
    obtain ⟨hsize, hle⟩ := hlaid.next hat
    have hlen := length_encodeInstruction hsize (hzip hm)
    refine ⟨hzip hm, ?_⟩
    simp only
    omega
  obtain ⟨front, part, back, he, hoffset, hpart⟩ := exists_part hwidths hi
  rw [hlaid.first, Nat.zero_add, Nat.zero_add] at hoffset
  rw [Nat.zero_add] at hpart
  exact ⟨front, part, back, he, hoffset, hpart⟩

/-- An object is created at an offset of a code array. -/
structure CreatesAt (prepared : Prepared) (array : Bytes) (offset : Nat) : Prop where
  element : ∃ index name, prepared.code[index]? = some (.type .new name) ∧
    prepared.offsets.getD index 0 = offset
  byte : array[offset]? = some Opcode.new.byte

theorem createsAt_of_encode {array : Bytes} (hl : Laid b prepared.code prepared.offsets)
    (hy : Yields (encode prepared.code prepared.offsets labels) b array b') {index : Nat}
    {name : String} (hi : prepared.code[index]? = some (.type .new name)) :
    CreatesAt prepared array (prepared.offsets.getD index 0) := by
  refine ⟨⟨index, name, hi, rfl⟩, ?_⟩
  obtain ⟨front, part, back, rfl, hfront, hpart⟩ := exists_part_of_encode hl hy hi
  obtain ⟨class_, middle, -, hp⟩ := yields_bind.mp hpart
  obtain ⟨rfl, -⟩ := yields_pure.mp hp
  rw [← hfront, List.append_assoc, List.getElem?_append_right (Nat.le_refl _), Nat.sub_self]
  rfl

namespace Stages

variable (h : Stages setting method b laidOut program flow prepared b')
include h

theorem laid : Laid b' prepared.code prepared.offsets := by
  obtain ⟨_, _, _, -, -, -, -, hspec⟩ := h.outcome
  exact hspec.laid

/-- What is reached is still there when other code has been replaced, and at the same offset. -/
theorem exists_kept {index : Nat} {f : SlotFrame} (hf : flow.At index f) {insn : Instruction Label}
    (hi : laidOut.code[index]? = some insn) : ∃ place, prepared.code[place]? = some insn ∧
      prepared.offsets.getD place 0 = laidOut.offsets.getD index 0 := by
  obtain ⟨table, b₁, b₂, hwiden, -, hgrow, hgrow', hspec⟩ := h.outcome
  obtain ⟨runs, hreplaced⟩ := hspec.replaced
  refine hreplaced.exists_kept (laid_of_widen hwiden).1 hspec.laid (hgrow.trans hgrow') hi ?_
  rw [getD_eq_some_iff_at.mpr hf, Option.isNone_some, Bool.and_false]

/-- Every offset in the frames of a method is that of a creation in its code. -/
theorem exists_creation {place : Nat} {encoded : EncodedFrame}
    (hat : prepared.frames[place]? = some encoded) {offset : UInt16}
    (hm : .uninitialized offset ∈ encoded.locals ++ encoded.stack) : ∃ index name,
      prepared.code[index]? = some (.type .new name) ∧
      prepared.offsets.getD index 0 = offset.toNat := by
  rcases h.frame_cases hat with ⟨point, f, hf, -, hencode⟩ | ⟨hyields, -⟩
  · obtain ⟨creation, hholds, rfl⟩ := creation_of_encodeFrame hencode hm
    obtain ⟨-, ⟨name, hnew⟩, before, hbefore, -⟩ := creating_of_computeTypes h.types hf hholds
    rw [h.code_eq, List.getElem?_toArray] at hnew
    obtain ⟨index, hi, ho⟩ := h.exists_kept hbefore hnew
    exact ⟨index, name, hi, by rw [ho, UInt16.toNat_ofNat_of_lt' (h.place_lt creation)]⟩
  · obtain ⟨class_, middle, -, hp⟩ := yields_bind.mp hyields
    obtain ⟨rfl, -⟩ := yields_pure.mp hp
    cases List.mem_singleton.mp hm

end Stages

/-- What is written for a method: the code array, and the attribute for its frames with its entries,
which are none if there is no such attribute. -/
structure Emits (setting : Setting) (method : Method) (b : Builder) (info : Bytes) (b' : Builder)
    (prepared : Prepared) (array : Bytes) (attributes : List Bytes) (entries : List Entry) :
    Prop where
  prepares : ∃ b₁, Yields (prepare setting method) b prepared b₁ ∧ b₁.Within b'
  encodes : Yields (encode prepared.code prepared.offsets prepared.labelOffsets) b' array b'
  describes : Yields (frameAttribute setting method prepared.offsets prepared.frames) b'
    attributes b'
  entries : attributes = [] ∧ entries = [] ∨ ∃ index initial contents,
    attributes = [u16 index ++ u32 (UInt32.ofNat contents.length) ++ contents] ∧
    contents = counted id (entries.map Entry.encode) ∧
    entries = StackMap.entries initial prepared.frames.toList
  info : ∃ sizes handlers others, sizes.length = 4 ∧
    info = sizes ++ u32 (UInt32.ofNat array.length) ++ array ++ handlers ++
      counted id (others ++ attributes)

theorem exists_entries {frames : FrameTable} {attributes : List Bytes}
    (hy : Yields (frameAttribute setting method offsets frames) b attributes b') :
    ∃ entries : List Entry, attributes = [] ∧ entries = [] ∨ ∃ index initial contents,
      attributes = [u16 index ++ u32 (UInt32.ofNat contents.length) ++ contents] ∧
      contents = counted id (entries.map Entry.encode) ∧
      entries = StackMap.entries initial frames.toList := by
  unfold frameAttribute at hy
  split at hy
  · obtain ⟨rfl, -⟩ := yields_pure.mp hy
    exact ⟨[], .inl ⟨rfl, rfl⟩⟩
  · obtain ⟨context, _, -, hy⟩ := yields_bind.mp hy
    obtain ⟨initial, _, -, hy⟩ := yields_bind.mp hy
    obtain ⟨bytes, _, hbytes, hp⟩ := yields_bind.mp hy
    obtain ⟨rfl, -⟩ := yields_pure.mp hp
    obtain ⟨index, _, -, hp⟩ := yields_bind.mp hbytes
    obtain ⟨rfl, -⟩ := yields_pure.mp hp
    exact ⟨_, .inr ⟨index, initial, _, rfl, rfl, rfl⟩⟩

theorem exists_emits {info : Bytes} (hy : Yields (attributeInfo setting method) b info b') :
    ∃ prepared array attributes entries,
      Emits setting method b info b' prepared array attributes entries := by
  obtain ⟨prepared, b₁, hprepare, hy⟩ := yields_bind.mp hy
  obtain ⟨array, b₂, harray, hy⟩ := yields_bind.mp hy
  obtain ⟨handlers, b₃, hhandlers, hy⟩ := yields_bind.mp hy
  obtain ⟨lines, b₄, hlines, hy⟩ := yields_bind.mp hy
  obtain ⟨localVariables, b₅, hvariables, hy⟩ := yields_bind.mp hy
  obtain ⟨attributes, b₆, hattributes, hp⟩ := yields_bind.mp hy
  obtain ⟨rfl, rfl⟩ := yields_pure.mp hp
  have hlater : b₂.Within b₆ := ((lawful_encodeHandlers _ _).grows hhandlers).trans <|
    ((lawful_tableAttribute? _ _).grows hlines).trans <|
    ((lawful_variableAttributes _ _).grows hvariables).trans <|
    (lawful_frameAttribute _ _ _ _).grows hattributes
  obtain ⟨entries, hentries⟩ := exists_entries hattributes
  exact ⟨prepared, array, attributes, entries, 
    ⟨b₁, hprepare, ((lawful_encode _ _ _).grows harray).trans hlater⟩,
    (lawful_encode _ _ _).again harray hlater,
    (lawful_frameAttribute _ _ _ _).again hattributes (.refl _), hentries,
    size16 prepared.maxStack ++ size16 prepared.maxLocals, counted id handlers,
    lines ++ localVariables, rfl, rfl⟩

/-- Formats without frames get none, also if they are to be computed. -/
theorem frames_of_old_version (hc : setting.computesFrames = false)
    (hv : setting.version.usesFrames = false) (hy : Yields (prepare setting method) b prepared b') :
    prepared.frames = ∅ := by
  obtain ⟨_, _, -, hy⟩ := yields_bind.mp hy
  rw [if_neg (by simp [hc])] at hy
  obtain ⟨laidOut, _, -, hy⟩ := yields_bind.mp hy
  obtain ⟨⟨maxStack, maxLocals⟩, _, -, hy⟩ := yields_bind.mp hy
  rw [hv] at hy
  obtain ⟨frames, _, hframes, hp⟩ := yields_bind.mp hy
  obtain ⟨rfl, -⟩ := yields_pure.mp hframes
  obtain ⟨rfl, -⟩ := yields_pure.mp hp
  rfl

section Emitting

variable {info array : Bytes} {attributes : List Bytes} {entries : List Entry}

/-- Every offset that is written to name an object is that of a creation. -/
theorem Emits.createsAt (h : Emits setting method b info b' prepared array attributes entries)
    (hf : setting.recompute.frames = true) {entry : Entry} (he : entry ∈ entries) {offset : UInt16}
    (hm : .uninitialized offset ∈ entry.change.types) : CreatesAt prepared array offset.toNat := by
  obtain ⟨b₁, hprepare, hgrow⟩ := h.prepares
  rcases h.entries with ⟨-, rfl⟩ | ⟨index, initial, contents, -, -, rfl⟩
  · cases he
  obtain ⟨place, previous, hplace, hchange⟩ := exists_frame_of_mem_entries he
  have hat := Std.TreeMap.mem_toList_iff_getElem?_eq_some.mp hplace
  rw [hchange] at hm
  cases hc : setting.computesFrames with
  | true =>
    obtain ⟨laidOut, program, flow, hstages⟩ := stages_prepare hc hprepare
    obtain ⟨index, name, hi, ho⟩ := hstages.exists_creation hat (mem_of_mem_between hm)
    rw [← ho]
    exact createsAt_of_encode (hstages.laid.mono hgrow) h.encodes hi
  | false =>
    have hv : setting.version.usesFrames = false := by
      simpa [Setting.computesFrames, hf] using hc
    rw [frames_of_old_version hc hv hprepare] at hat
    simp at hat

end Emitting

/-- Frames name objects after creations that control reaches without them, and so the offsets that
are written for them are those of creations; and a receiver that is not constructed is found only in
constructors of classes that have a superclass. -/
theorem creations_named :
    (∀ {hierarchy : Hierarchy} {program : Program} {flow : TypeFlow},
      computeTypes hierarchy program = .ok flow → ∀ {i : Nat} {f : SlotFrame}, flow.At i f →
        (∀ {creation : Nat}, f.Holds (.uninitialized creation) →
          program.Creating flow creation) ∧
        (f.Holds .uninitializedThis → Constructing program.context)) ∧
    (∀ {setting : Setting} {method : Method} {b b' : Builder} {info : Bytes},
      setting.recompute.frames = true → Yields (attributeInfo setting method) b info b' →
      ∃ prepared array attributes entries,
        Emits setting method b info b' prepared array attributes entries ∧
        ∀ entry ∈ entries, ∀ offset : UInt16, .uninitialized offset ∈ entry.change.types →
          CreatesAt prepared array offset.toNat) := by
  refine ⟨fun h _ _ hf => ⟨creating_of_computeTypes h hf, constructing_of_computeTypes h hf⟩,
    fun hf hy => ?_⟩
  obtain ⟨prepared, array, attributes, entries, hemits⟩ := exists_emits hy
  exact ⟨prepared, array, attributes, entries, hemits, fun entry he offset hm =>
    hemits.createsAt hf he hm⟩

end Writing

/-- A jump over code that control never reaches, with an object that waits to be constructed. -/
def jumpedWith : Method :=
  { Method.declared (.ofBits .ofMethod 8) "m" "()V" with
    body := ⟨[.plain .nop, .type .new "Part", .jump .goto ⟨0⟩, .plain .nop, .label ⟨0⟩, .plain .pop,
      .plain .returnVoid], 1⟩ }

namespace JumpedWith

def computing : Setting :=
  ⟨"A", ⟨50, 0⟩, ⟨false, true⟩, .library⟩

def code : List (Instruction Label) :=
  jumpedWith.body.code

def places : Offsets :=
  #[0, 1, 4, 7, 8, 8, 9, 10]

def program : Program :=
  programOf ⟨"A", "m", ⟨[], none⟩, true⟩ code []

theorem successors_goto :
    successors program.code program.positions 2 (.jump .goto ⟨0⟩) = .ok [4] := by
  have hp : program.positions[(⟨0⟩ : Label)]? = some 4 :=
    Positions.getElem?_ofCode_of_once (by decide) rfl
  have hf : program.positions.find ⟨0⟩ = .ok 4 := by rw [Positions.find, hp]
  rw [successors, Instruction.jumpTargets, List.mapM_cons, hf]
  rfl

def waiting : Option SlotFrame :=
  some ⟨[], [.uninitialized 1]⟩

def frames : List (Option SlotFrame) :=
  [some ⟨[], []⟩, some ⟨[], []⟩, waiting, none, waiting, waiting, some ⟨[], []⟩]

def flow : TypeFlow :=
  ⟨frames.toArray, 1, 0⟩

def state (known maxStack : Nat) (pending : List Nat) : TypeState :=
  ⟨⟨(frames.take known ++ List.replicate (7 - known) none).toArray, maxStack, 0⟩,
    ⟨pending, ((List.range 7).map pending.contains).toArray⟩⟩

theorem computeTypes_eq (hierarchy : Hierarchy) : computeTypes hierarchy program = .ok flow := by
  have hpop : program.start.pop = (some 0, state 1 0 []) := rfl
  have h₀ : TypeState.visit program hierarchy ∅ (state 1 0 []) 0 = .ok (state 2 0 [1]) := rfl
  have h₁ : TypeState.visit program hierarchy ∅ (state 2 0 []) 1 = .ok (state 4 1 [2]) := rfl
  have h₂ : TypeState.visit program hierarchy ∅ (state 4 1 []) 2 = .ok (state 5 1 [4]) := by
    change (_ >>= fun _ => (successors program.code program.positions 2
      (.jump .goto ⟨0⟩)).mapError _ >>= _) = _
    rw [successors_goto]
    rfl
  have h₄ : TypeState.visit program hierarchy ∅ (state 5 1 []) 4 = .ok (state 6 1 [5]) := rfl
  have h₅ : TypeState.visit program hierarchy ∅ (state 6 1 []) 5 = .ok (state 7 1 [6]) := rfl
  have h₆ : TypeState.visit program hierarchy ∅ (state 7 1 []) 6 = .ok (state 7 1 []) := rfl
  have hdrains : Drains TypeState.pop (TypeState.visit program hierarchy ∅) program.start
      [0, 1, 2, 4, 5, 6] (state 7 1 []) := by
    refine .visit hpop h₀ (.visit rfl h₁ (.visit rfl h₂ ?_))
    exact .visit rfl h₄ (.visit rfl h₅ (.visit rfl h₆ (.done rfl)))
  exact computeTypes_of_drains rfl (by decide) hdrains

theorem yields_widen : Yields (widen (computing.displayName jumpedWith) false
    (unframed jumpedWith.body)) .empty ⟨code, 1, places⟩ .empty :=
  @widen_of_short _ _ (unframed jumpedWith.body) _ _ _
    (show Yields (layout code) .empty places .empty from rfl) (by decide)

theorem framePoints_eq : framePoints program = [4] := by
  have hp : program.positions[(⟨0⟩ : Label)]? = some 4 :=
    Positions.getElem?_ofCode_of_once (by decide) rfl
  change [(⟨0⟩ : Label)].filterMap (program.positions[·]?) ++ [] = _
  simp [hp]

/-- The frame of the object, and the one before what was never reached. -/
def table (throwable : Index) : FrameTable :=
  ((∅ : FrameTable).insert 8 ⟨[], [.uninitialized 1]⟩).insert 7 ⟨[], [.object throwable]⟩

def prepared (throwable : Index) : Prepared where
  code := [.plain .nop, .type .new "Part", .jump .goto ⟨0⟩, .label ⟨1⟩, .plain .athrow, .label ⟨2⟩,
    .label ⟨0⟩, .plain .pop, .plain .returnVoid]
  offsets := #[0, 1, 4, 7, 7, 8, 8, 8, 9, 10]
  handlers := []
  frames := table throwable
  maxStack := 1
  maxLocals := 0

theorem type_eq : jumpedWith.type? = .ok ⟨[], none⟩ :=
  MethodType.scan_inverts.complete_eq_ok.mpr rfl

theorem yields_context (b : Builder) : Yields (contextOf computing jumpedWith) b
    ⟨"A", "m", ⟨[], none⟩, true⟩ b := by
  rw [contextOf, type_eq]
  rfl

theorem yields_prepare {throwable : Index} {b : Builder}
    (hy : Yields (Build.classRef Name.throwable) .empty throwable b) :
    Yields (prepare computing jumpedWith) .empty (prepared throwable) b := by
  have hlabels : jumpedWith.checkLabels (computing.displayName jumpedWith) = .ok () :=
    Method.checkLabels_of_nodup (by decide) (by decide) _
  have htable : Yields (computedFrames program flow places) .empty
      ((∅ : FrameTable).insert 8 ⟨[], [.uninitialized 1]⟩) .empty := by
    rw [computedFrames, framePoints_eq]
    rfl
  have hdead : Yields (withoutDead ⟨code, 1, places⟩ flow []
      ((∅ : FrameTable).insert 8 ⟨[], [.uninitialized 1]⟩)) .empty (prepared throwable) b :=
    yields_bind.mpr ⟨_, b, yields_bind.mpr ⟨throwable, b, hy, rfl⟩, rfl⟩
  have hstages : Stages computing jumpedWith .empty ⟨code, 1, places⟩ program flow
      (prepared throwable) b :=
    { widened := ⟨.empty, yields_widen⟩
      built := ⟨⟨[], none⟩, type_eq, rfl⟩
      types := computeTypes_eq _
      labels := hlabels
      steps := ⟨_, .empty, .empty, yields_widen, htable, hdead⟩ }
  exact hstages.yields_prepare rfl (by decide)

theorem takes_mapM {α γ : Type} {g : γ → Build α} {l : List γ}
    (h : ∀ c ∈ l, Takes (g c) 0 0) : Takes (l.mapM g) 0 0 := by
  induction l with
  | nil => exact takes_pure []
  | cons c l ih =>
    obtain ⟨hc, hl⟩ := List.forall_mem_cons.mp h
    rw [List.mapM_cons]
    exact hc.bind fun _ => (ih hl).bind fun _ => takes_pure _

theorem takes_encode (throwable : Index) (labels : LabelOffsets) :
    Takes (encode (prepared throwable).code (prepared throwable).offsets labels) 4 0 := by
  have hnew : Takes (encodeInstruction 1 (.type .new "Part")) 4 0 :=
    (takes_classRef _).bind fun _ => takes_pure _
  have hafter : Takes (((prepared throwable).code.zipIdx.drop 2).mapM fun entry =>
      encodeInstruction ((prepared throwable).offsets.getD entry.2 0)
        (entry.1.mapLabels labels.at)) 0 0 := by
    refine takes_mapM fun entry hm => ?_
    simp only [prepared, List.zipIdx_cons, List.zipIdx_nil, List.drop_succ_cons, List.drop_zero,
      List.mem_cons, List.not_mem_nil, or_false] at hm
    rcases hm with rfl | rfl | rfl | rfl | rfl | rfl | rfl
    all_goals exact takes_pure _
  have hparts : Takes ((prepared throwable).code.zipIdx.mapM fun entry =>
      encodeInstruction ((prepared throwable).offsets.getD entry.2 0)
        (entry.1.mapLabels labels.at)) 4 0 := by
    have hcode : (prepared throwable).code.zipIdx = (.plain .nop, 0) :: (.type .new "Part", 1) ::
      (prepared throwable).code.zipIdx.drop 2 := rfl
    rw [hcode, List.mapM_cons, List.mapM_cons]
    exact (takes_pure _).bind fun _ => (hnew.bind fun _ => hafter.bind fun _ =>
      takes_pure _).bind fun _ => takes_pure _
  exact hparts.bind fun _ => takes_pure _

/-- What is written for the method, for which two classes and a name are added to the pool. -/
theorem exists_attributeInfo : ∃ throwable b₁ info b,
    Yields (Build.classRef Name.throwable) .empty throwable b₁ ∧
    Yields (attributeInfo computing jumpedWith) .empty info b := by
  obtain ⟨throwable, b₁, hthrowable, hroom, -⟩ :=
    takes_classRef Name.throwable .empty 6 (by decide)
  obtain ⟨array, b₂, harray, hroom, -⟩ :=
    takes_encode throwable (prepared throwable).labelOffsets b₁ 2 hroom
  have htable : Takes (tableAttribute "StackMapTable"
      ((entries ⟨[], []⟩ (table throwable).toList).map Entry.encode)) 2 0 :=
    (takes_text _).bind fun _ => takes_pure _
  obtain ⟨bytes, b, hbytes, -⟩ := htable b₂ 0 hroom
  have hframes : Yields (frameAttribute computing jumpedWith (prepared throwable).offsets
      (table throwable)) b₂ [bytes] b :=
    yields_bind.mpr ⟨_, b₂, yields_context _, yields_bind.mpr ⟨⟨[], []⟩, b₂, rfl,
      yields_bind.mpr ⟨bytes, b, hbytes, rfl⟩⟩⟩
  exact ⟨throwable, b₁, _, b, hthrowable, yields_bind.mpr ⟨_, b₁, yields_prepare hthrowable,
    yields_bind.mpr ⟨array, b₂, harray, yields_bind.mpr ⟨[], b₂, rfl,
    yields_bind.mpr ⟨[], b₂, rfl, yields_bind.mpr ⟨[], b₂, rfl,
    yields_bind.mpr ⟨[bytes], b, hframes, rfl⟩⟩⟩⟩⟩⟩⟩

theorem exists_entry {throwable : Index} {b b' : Builder} {info array : Bytes}
    {attributes : List Bytes} {entries : List Entry}
    (h : Emits computing jumpedWith b info b' (prepared throwable) array attributes entries) :
    ∃ entry ∈ entries, .uninitialized 1 ∈ entry.change.types := by
  have hframes : (prepared throwable).frames.toList =
      [(7, ⟨[], [.object throwable]⟩), (8, ⟨[], [.uninitialized 1]⟩)] := rfl
  have hsome : ¬ (prepared throwable).frames.isEmpty = true := Bool.false_ne_true
  rcases h.entries with ⟨rfl, -⟩ | ⟨index, initial, contents, -, -, rfl⟩
  · have hdescribes := h.describes
    rw [frameAttribute, if_neg hsome] at hdescribes
    obtain ⟨_, _, -, hy⟩ := yields_bind.mp hdescribes
    obtain ⟨_, _, -, hy⟩ := yields_bind.mp hy
    obtain ⟨_, _, -, hp⟩ := yields_bind.mp hy
    cases (yields_pure.mp hp).1
  · rw [hframes]
    exact ⟨⟨0, .sameWithStack (.uninitialized 1)⟩, List.mem_cons_of_mem _ List.mem_cons_self,
      List.mem_singleton_self _⟩

/-- The object is named after the second instruction, and by its offset where code was replaced. -/
theorem object_named : computeTypes .library program = .ok flow ∧ program.Creating flow 1 ∧
    ∃ info b, Yields (attributeInfo computing jumpedWith) .empty info b ∧
      ∃ prepared array attributes entries,
        Emits computing jumpedWith .empty info b prepared array attributes entries ∧
        (∃ entry ∈ entries, .uninitialized 1 ∈ entry.change.types) ∧
        CreatesAt prepared array 1 := by
  obtain ⟨hflow, hwriting⟩ := creations_named
  have hwaiting : flow.At 4 ⟨[], [.uninitialized 1]⟩ := rfl
  obtain ⟨throwable, b₁, info, b, hthrowable, hy⟩ := exists_attributeInfo
  obtain ⟨found, array, attributes, entries, hemits, hcreates⟩ := hwriting rfl hy
  obtain ⟨b', hprepare, -⟩ := hemits.prepares
  obtain rfl := hprepare.value_eq (yields_prepare hthrowable)
  obtain ⟨entry, he, hm⟩ := exists_entry hemits
  exact ⟨computeTypes_eq _, (hflow (computeTypes_eq .library) hwaiting).1 (.inr List.mem_cons_self),
    info, b, hy, _, array, attributes, entries, hemits, ⟨entry, he, hm⟩, hcreates entry he 1 hm⟩

end JumpedWith

end Code
end ClassTree
