import ClassTree.Proofs.Code.Sections
import ClassTree.Proofs.Writing.Stored

namespace ClassTree

open Pool Build BigEndian
open Reader hiding u8 u16 u32

namespace Code

variable {b : Builder} {offset : Nat} {part : Bytes} {setting : Setting} {method : Method}

/-- The numbers that an element is written with have room in it. -/
def OperandsFit (b : Builder) : Instruction Label → Prop
  | .int op operand => (Instruction.int op operand : Instruction Label).Canonical
  | .invoke op member _ => op = .invokeinterface → ∀ type,
    MethodType.parse member.descriptor = .ok type → type.parameterSlots true < 0x100
  | .invokeDynamic _ _ bootstrap arguments =>
    bootstrap.Canonical ∧ (∀ value ∈ arguments, value.Canonical) ∧ b.bootstrap.size ≤ 0x10000
  | _ => True

/-- The numbers that an element is written with are in its bytes. -/
def HoldsOperands (table : Table) (offset : Nat) (part : Bytes) : Instruction Label → Prop
  | .int op operand => Reads (readInstruction table offset) offset part (.int op operand)
  | .invoke op member _ => op = .invokeinterface → ∃ index count type,
    part = u8 op.byte ++ u16 index ++ (u8 count ++ u8 0) ∧
    MethodType.parse member.descriptor = .ok type ∧ count.toNat = type.parameterSlots true
  | .invokeDynamic name descriptor bootstrap arguments =>
    Reads (readInstruction table offset) offset part
      (.invokeDynamic name descriptor bootstrap arguments)
  | _ => True

theorem holdsOperands {insn : Instruction Label} {f : Label → Nat} (ho : offset ≤ maxLength)
    (hs : b.Sound) (hy : Yields (encodeInstruction offset (insn.mapLabels f)) b part b)
    (hfits : OperandsFit b insn) : HoldsOperands b.table offset part insn := by
  cases insn with
  | int op operand =>
    have hcan : (Instruction.int op operand : Instruction Nat).Canonical := hfits
    exact reads_encodeInstruction rfl hcan ho trivial hy hs trivial
  | invoke op member onInterface =>
    rintro rfl
    obtain ⟨index, b₁, -, hy⟩ := yields_bind.mp hy
    obtain ⟨count, b₂, hcount, hp⟩ := yields_bind.mp hy
    obtain ⟨rfl, -⟩ := yields_pure.mp hp
    obtain ⟨hcount, -⟩ := yields_ofExcept.mp hcount
    unfold encodeArgumentCount at hcount
    rw [if_pos rfl] at hcount
    split at hcount
    · rename_i type htype
      obtain rfl := Except.ok.inj hcount
      exact ⟨index, _, type, rfl, htype, UInt8.toNat_ofNat_of_lt' (hfits rfl type htype)⟩
    · cases hcount
  | invokeDynamic name descriptor bootstrap arguments =>
    obtain ⟨hhandle, hvalues, hsize⟩ := hfits
    obtain ⟨index, b₁, hindex, hp⟩ := yields_bind.mp hy
    obtain ⟨-, rfl⟩ := yields_pure.mp hp
    obtain ⟨place, pair, -, -, hplace⟩ := invokeDynamic_found hindex (.refl _) hs
    have hcan : (Instruction.invokeDynamic name descriptor bootstrap arguments :
      Instruction Nat).Canonical := ⟨hhandle, hvalues⟩
    exact reads_encodeInstruction rfl hcan ho trivial hy hs
      ⟨place, hplace, bootstrapMethod_found hhandle hvalues hplace (.refl _) hs hsize⟩
  | _ => trivial

/-- The elements of a code array hold their operands, if these fit. -/
theorem Parts.holdsOperands {prepared : Prepared} {parts : List Bytes}
    (h : Parts b prepared parts) (hready : Ready b prepared) (hs : b.Sound) :
    List.Forall₂ (fun entry part => OperandsFit b entry.1 →
      HoldsOperands b.table (prepared.offsets.getD entry.2 0) part entry.1)
      prepared.code.zipIdx parts :=
  h.imp fun _ _ hy hfits =>
    Code.holdsOperands (Nat.le_trans (hready.laid.le_length _) hready.short) hs hy hfits

end Code

namespace Class

variable {recompute : Code.Recompute} {hierarchy : Hierarchy} {tree : Class}

/-- What is written for a class is stored as it is and found by a reader, if everything that is
counted can be. The same holds for the code of its methods: the array is never too long, and every
operand that fits is in it. -/
theorem write_exact {bytes : Bytes} (hpool : tree.HasReadPool)
    (h : tree.write recompute hierarchy = .ok bytes) : ∃ b stored contents,
      bytes = u32 magic ++ tree.version.encode ++ contents ∧
      tree.StoredAs b recompute hierarchy stored ∧
      (stored.Fits b → ∀ version p, ReadsAs (readContents version) p contents
        (stored.FoundAs b version)) ∧
      ∀ method info,
        Yields (Code.attributeInfo (tree.setting recompute hierarchy) method) b info b →
        ∃ prepared code parts,
          Yields (Code.prepare (tree.setting recompute hierarchy) method) b prepared b ∧
          prepared.StoredAs b (tree.setting recompute hierarchy) method code ∧
          (code.Fits → ReadsAs (Code.readSections b.table) 0 info code.FoundAs) ∧
          code.array = parts.flatten ∧ code.array.length ≤ Code.maxLength ∧
          List.Forall₂ (fun entry part => Code.OperandsFit b entry.1 →
            Code.HoldsOperands b.table (prepared.offsets.getD entry.2 0) part entry.1)
            prepared.code.zipIdx parts := by
  obtain ⟨b, stored, contents, hr, -, hstored, rfl, hfound⟩ := stored_of_write hpool h
  refine ⟨b, stored, contents, rfl, hstored, hfound, fun method info hy => ?_⟩
  obtain ⟨prepared, code, hprepare, hcode, -, hreads⟩ := Code.stored_of_attributeInfo hr hy
  obtain ⟨parts, harray, hparts⟩ := hcode.array
  have hready := Code.ready_prepare hprepare hr
  refine ⟨prepared, code, parts, hprepare, hcode,
    fun hf => hf.clamped_eq ▸ hreads hf.clamped, harray, ?_,
    hparts.holdsOperands hready hr.sound⟩
  rw [harray, hready.length_parts hparts]
  exact hready.short

end Class

/-- A method that pushes a number and drops it. -/
def Method.pushing (operand : Int32) : Method :=
  { Method.declared (.ofBits .ofMethod 8) "m" "()V" with
    body := ⟨[.int .bipush operand, .plain .pop, .plain .returnVoid], 0⟩
    maxStack := 1 }

def Class.pushing (operand : Int32) : Class :=
  ⟨⟨48, 0⟩, .ofBits .ofClass 0, "A", some "java/lang/Object", [], none, none, [], [],
    [.pushing operand], [], none⟩

namespace Pushing

def asIs : Code.Setting :=
  ⟨"A", ⟨48, 0⟩, ⟨false, false⟩, .library⟩

def info (operand : Int32) : Bytes :=
  Code.size16 1 ++ Code.size16 0 ++ u32 4 ++
    (Code.encodeInt .bipush operand ++ u8 Opcode.pop.byte ++ u8 Opcode.returnVoid.byte) ++
    counted id [] ++ counted id []

def prepared (operand : Int32) : Code.Prepared :=
  ⟨(Method.pushing operand).body.code, #[0, 2, 3, 4], [], ∅, 1, 0⟩

theorem yields_prepare (operand : Int32) (b : Builder) :
    Yields (Code.prepare asIs (.pushing operand)) b (prepared operand) b := by
  have hlabels : (Method.pushing operand).checkLabels
      (asIs.displayName (.pushing operand)) = .ok () := rfl
  have hwiden : Yields (Code.widen (asIs.displayName (.pushing operand)) false
      (Method.pushing operand).body) b
      ⟨(Method.pushing operand).body.code, 0, #[0, 2, 3, 4]⟩ b :=
    Code.widen_of_short rfl (by decide)
  rw [Code.prepare, hlabels]
  exact yields_bind.mpr ⟨(), b, rfl, yields_bind.mpr ⟨_, b, hwiden, rfl⟩⟩

theorem yields_attributeInfo (operand : Int32) (b : Builder) :
    Yields (Code.attributeInfo asIs (.pushing operand)) b (info operand) b :=
  yields_bind.mpr ⟨_, b, yields_prepare operand b, rfl⟩

/-- The code takes nothing from the pool but the name of its attribute. -/
theorem codeAttribute_eq (operand : Int32) : (Method.pushing operand).codeAttribute asIs = (do
    return [← attributeBytes "Code" (info operand)]) := by
  have hinfo : Code.attributeInfo asIs (.pushing operand) = pure (info operand) :=
    eq_pure_of_yields (yields_attributeInfo operand)
  have hcode : (Method.pushing operand).hasCode = true :=
    show (Method.declared (.ofBits .ofMethod 8) "m" "()V").hasCode = true by decide
  rw [Method.codeAttribute, hcode, hinfo]
  rfl

theorem takes_encode (operand : Int32) : Takes ((Method.pushing operand).encode asIs) 6 0 := by
  have hcode : Takes ((Method.pushing operand).codeAttribute asIs) 2 0 := by
    rw [codeAttribute_eq]
    exact ((takes_text "Code").bind fun _ => takes_pure _).bind fun _ => takes_pure _
  exact (takes_text "m").bind fun _ => (takes_text "()V").bind fun _ => hcode.bind fun _ =>
    (takes_pure []).bind fun _ => (takes_pure []).bind fun _ => (takes_pure []).bind fun _ =>
      takes_pure _

/-- Whatever is in the bootstrap table, only the name of its attribute is needed. -/
theorem takes_bootstrap (entries : List BootstrapMethod) : Takes (listAttribute "BootstrapMethods"
    (fun entry => pure entry.encode) entries) 2 0 := by
  unfold listAttribute
  split
  · exact fun b others h => takes_pure [] b others (by omega)
  · rw [List.mapM_pure]
    exact (takes_pure _).bind fun _ => ((takes_text _).bind fun _ => takes_pure _).bind fun _ =>
      takes_pure _

theorem takes_encodeBody (operand : Int32) :
    Takes ((Class.pushing operand).encodeBody ⟨false, false⟩ .library) 16 0 := by
  have hmethods : Takes ([Method.pushing operand].mapM (Method.encode asIs)) 6 0 := by
    rw [List.mapM_cons, List.mapM_nil]
    exact (takes_encode operand).bind fun _ => (takes_pure []).bind fun _ => takes_pure _
  have hattributes : Takes (Class.pushing operand).encodeAttributes 2 0 :=
    (takes_pure []).bind fun _ => (takes_pure []).bind fun _ => (takes_pure []).bind fun _ =>
      (takes_pure []).bind fun _ => fun b others h =>
        (takes_pure b.bootstrap.toList).bind (fun entries => (takes_bootstrap entries).bind fun _ =>
          takes_pure _) b others h
  exact (takes_classRef "A").bind fun _ => (takes_classRef "java/lang/Object").bind fun _ =>
    (takes_pure []).bind fun _ => (takes_pure []).bind fun _ => hmethods.bind fun _ =>
      hattributes.bind fun _ => takes_pure _

theorem exists_write (operand : Int32) : ∃ bytes,
    (Class.pushing operand).write ⟨false, false⟩ .library = .ok bytes := by
  obtain ⟨body, b, hy, -⟩ := takes_encodeBody operand .empty 0 (by decide)
  exact ⟨_, Class.write_eq_ok.mpr ⟨body, b, hy, rfl⟩⟩

/-- Everything that is counted in the code can be: there is one place on the stack, and no table. -/
theorem fits_code {operand : Int32} {b : Builder} {code : Code.StoredCode}
    (h : (prepared operand).StoredAs b asIs (.pushing operand) code) : code.Fits := by
  obtain ⟨lines, variables_, signatures, frames, read, hall, rfl, rfl, rfl, hshown, hframes⟩ :=
    h.attributes
  obtain rfl := List.forall₂_nil_left_iff.mp hshown
  obtain rfl : frames = [] := hframes
  have hstack : code.maxStack = 1 := h.maxStack
  have hlocals : code.maxLocals = 0 := h.maxLocals
  have hhandlers : code.handlers = [] := h.handlers
  exact ⟨hstack ▸ by decide, hlocals ▸ by decide, hhandlers ▸ by decide, hall ▸ ⟨by decide, nofun⟩⟩

/-- A number that fits is in the code that is read. -/
theorem small_held : ∃ (bytes : Bytes) (b : Builder) (code : Code.StoredCode) (part rest : Bytes),
    (Class.pushing 44).write ⟨false, false⟩ .library = .ok bytes ∧
    ReadsAs (Code.readSections b.table) 0 (info 44) code.FoundAs ∧ code.array = part ++ rest ∧
    Reads (Code.readInstruction b.table 0) 0 part (.int .bipush 44) := by
  obtain ⟨bytes, h⟩ := exists_write 44
  have hpool : (Class.pushing 44).HasReadPool := by simp [Class.HasReadPool, Class.pushing]
  obtain ⟨b, stored, contents, -, -, -, hcode⟩ := Class.write_exact hpool h
  obtain ⟨_, code, parts, hprepare, hstored, hreads, harray, -, hholds⟩ :=
    hcode _ _ (yields_attributeInfo 44 b)
  obtain rfl := hprepare.value_eq (yields_prepare 44 b)
  obtain ⟨part, rest, hpart, -, rfl⟩ := List.forall₂_cons_left_iff.mp hholds
  exact ⟨bytes, b, code, part, rest.flatten, h, hreads (fits_code hstored), harray,
    hpart (.inl ⟨rfl, by decide, by decide⟩)⟩

/-- A number that does not fit is written as another one. -/
theorem large_cut : ∃ bytes, (Class.pushing 300).write ⟨false, false⟩ .library = .ok bytes ∧
    (Class.pushing 44).write ⟨false, false⟩ .library = .ok bytes := by
  have hcode :
      (Method.pushing 300).codeAttribute asIs = (Method.pushing 44).codeAttribute asIs := by
    rw [codeAttribute_eq, codeAttribute_eq]
    rfl
  have hmethod : (Method.pushing 300).encode asIs = (Method.pushing 44).encode asIs := by
    unfold Method.encode
    rw [hcode]
    rfl
  have hbody : (Class.pushing 300).encodeBody ⟨false, false⟩ .library =
      (Class.pushing 44).encodeBody ⟨false, false⟩ .library := by
    have hmethods : [Method.pushing 300].mapM (Method.encode asIs) =
        [Method.pushing 44].mapM (Method.encode asIs) := by
      rw [List.mapM_cons, List.mapM_cons, hmethod]
    have hattributes : (Class.pushing 300).encodeAttributes = (Class.pushing 44).encodeAttributes :=
      rfl
    unfold Class.encodeBody
    rw [hattributes]
    unfold asIs at hmethods
    simp only [Class.pushing, hmethods]
  obtain ⟨bytes, h⟩ := exists_write 44
  refine ⟨bytes, ?_, h⟩
  unfold Class.write
  rw [hbody]
  exact h

end Pushing

end ClassTree
