import ClassTree.Proofs.Code.Outline
import ClassTree.Proofs.Reading.Labels
import ClassTree.Proofs.Reading.RoundTrip

namespace ClassTree

open Pool Reader

variable {table : Pool.Table}

namespace Pool.Table

def PlainHandles (table : Table) : Prop :=
  ∀ index handle, table.handle index = .ok handle → handle.Canonical

theorem PlainHandles.literal (h : table.PlainHandles) {index : Index} {value : Literal}
    (hl : table.literal index = .ok value) : value.Canonical := by
  obtain ⟨constant, -, hl⟩ := bind_eq_ok.mp hl
  split at hl
  case h_8 =>
    obtain ⟨handle, hhandle, hp⟩ := bind_eq_ok.mp hl
    obtain rfl := pure_eq_ok.mp hp
    exact h index handle hhandle
  case h_5 | h_6 | h_7 =>
    obtain ⟨text, -, hp⟩ := bind_eq_ok.mp hl
    obtain rfl := pure_eq_ok.mp hp
    trivial
  case h_9 => cases hl
  case h_10 => cases hl
  all_goals
    obtain rfl := pure_eq_ok.mp hl
    trivial

theorem PlainHandles.bootstrapMethod (h : table.PlainHandles) {index : UInt16} {handle : Handle}
    {arguments : List Literal} (hb : table.bootstrapMethod index = .ok (handle, arguments)) :
    handle.Canonical ∧ ∀ value ∈ arguments, value.Canonical := by
  unfold Table.bootstrapMethod at hb
  split at hb
  · obtain ⟨found, hhandle, hb⟩ := bind_eq_ok.mp hb
    obtain ⟨values, hvalues, hp⟩ := bind_eq_ok.mp hb
    obtain ⟨rfl, rfl⟩ := Prod.mk.inj (pure_eq_ok.mp hp)
    refine ⟨h _ _ hhandle, fun value hm => ?_⟩
    obtain ⟨place, -, hvalue⟩ := exists_of_mem_left (mapM_eq_ok.mp hvalues).flip hm
    exact h.literal hvalue
  · cases hb

end Pool.Table

theorem Instruction.canonical_of_isMarker {ι : Type} {insn : Instruction ι}
    (h : insn.isMarker = true) : insn.Canonical := by
  cases insn with
  | label | line | frame => trivial
  | _ => cases h

namespace Code

/-- How instructions are read: canonical ones, of which no jump is wide. -/
structure AsRead (insn : Instruction Nat) : Prop where
  canonical : insn.Canonical
  narrow : ∀ op target, insn = .jump op target → op.isWideJump = false

theorem isVar_load : ∀ op : Opcode, op.between .iload0 .aload3 = true →
    isVar ⟨Opcode.iload.byte + UInt8.ofNat (op.since .iload0 / 4)⟩ = true :=
  forall_opcode (by decide +kernel)

theorem isVar_store : ∀ op : Opcode, op.between .istore0 .astore3 = true →
    isVar ⟨Opcode.istore.byte + UInt8.ofNat (op.since .istore0 / 4)⟩ = true :=
  forall_opcode (by decide +kernel)

theorem jump_cases : ∀ op : Opcode,
    (op.between .ifeq .jsr = true ∨ op = .ifnull ∨ op = .ifnonnull) →
      (op.isConditional = true ∨ op = .goto ∨ op = .jsr ∨ op.isWideJump = true) ∧
        op.isWideJump = false :=
  forall_opcode (by decide +kernel)

theorem asRead_readWide (offset : Nat) : Finds (readWide offset) AsRead :=
  advances_u8.bind fun _ => finds_split (fun hop => advances_u16.map fun _ => ⟨hop, nofun⟩)
    fun _ => finds_ite (advances_u16.bind fun _ => advances_i16.map fun _ => ⟨trivial, nofun⟩)
      (finds_fail _)

theorem asRead_readTableSwitch (offset : Nat) : Finds (readTableSwitch offset) AsRead := by
  refine advances_align4.bind fun _ => (advances_wideTarget offset).bind fun _ =>
    advances_i32.bind fun low => advances_i32.bind fun high =>
      finds_split (fun _ => ?_) fun hle => ?_
  · exact (finds_fail (P := fun _ => False) _).bind fun _ hfalse => hfalse.elim
  · refine (finds_times (advances_wideTarget offset) _).bind fun targets htargets => ?_
    have hcount : low.toInt ≤ high.toInt := by
      rwa [Int32.not_lt, Int32.le_iff_toInt_le] at hle
    have hlength := htargets.1
    exact finds_pure ⟨⟨by omega, by omega⟩, nofun⟩

theorem asRead_readLookupSwitch (offset : Nat) : Finds (readLookupSwitch offset) AsRead := by
  have hcase : Advances (do
      let key ← i32
      return (key, ← wideTarget offset)) :=
    advances_i32.bind fun _ => (advances_wideTarget offset).map fun _ => trivial
  have hcases (count : Nat) := advances_times hcase count
  refine advances_align4.bind fun _ => (advances_wideTarget offset).bind fun _ =>
    advances_i32.bind fun count => finds_ite ?_ ?_
  · exact (finds_fail (P := fun _ => False) _).bind fun _ hfalse => hfalse.elim
  · exact (hcases _).map fun _ => ⟨trivial, nofun⟩

theorem asRead_callSite (h : table.PlainHandles) {index : Pool.Index} {insn : Instruction Nat}
    (hi : callSite table index = .ok insn) : AsRead insn := by
  obtain ⟨constant, -, hi⟩ := bind_eq_ok.mp hi
  split at hi
  · obtain ⟨⟨name, descriptor⟩, -, hi⟩ := bind_eq_ok.mp hi
    obtain ⟨⟨handle, arguments⟩, hb, hi⟩ := bind_eq_ok.mp hi
    obtain rfl := pure_eq_ok.mp hi
    exact ⟨h.bootstrapMethod hb, nofun⟩
  · exact absurd hi throw_ne_ok

theorem asRead_load (h : table.PlainHandles) (index : Pool.Index) :
    Finds (liftM (table.literal index) >>= fun value => pure (.load value)) AsRead :=
  (finds_lift fun _ hl => h.literal hl).bind fun _ hc => finds_pure ⟨hc, nofun⟩

theorem asRead_readOperands (h : table.PlainHandles) (offset : Nat) (op : Opcode) :
    Finds (readOperands table offset op) AsRead := by
  unfold readOperands
  refine finds_split (fun hop => finds_pure ⟨hop, nofun⟩) fun _ => ?_
  refine finds_split (fun hop => advances_i8.map fun n => ⟨.inl ⟨hop, ?_⟩, nofun⟩) fun _ => ?_
  · have hle := n.le_toInt
    have hlt := n.toInt_lt
    rw [Int8.toInt_toInt32]
    omega
  refine finds_split (fun hop => advances_i16.map fun n => ⟨.inr (.inl ⟨hop, ?_⟩), nofun⟩)
    fun _ => ?_
  · have hle := n.le_toInt
    have hlt := n.toInt_lt
    rw [Int16.toInt_toInt32]
    omega
  refine finds_split (fun hop => advances_u8.map fun n => ⟨.inr (.inr ⟨hop, ?_⟩), nofun⟩)
    fun _ => ?_
  · have hlt := n.toNat_lt
    have hn : n.toUInt32.toInt32 = Int32.ofNat n.toNat := by
      conv_lhs => rw [← n.ofNat_toNat, UInt8.toUInt32_ofNat' hlt, UInt32.toInt32_ofNat']
    rw [hn, Int32.toInt_ofNat_of_lt (by omega)]
    omega
  refine finds_ite (advances_u8.bind fun _ => asRead_load h _) ?_
  refine finds_ite (advances_u16.bind fun _ => asRead_load h _) ?_
  refine finds_split (fun hop => advances_u8.map fun _ => ⟨hop, nofun⟩) fun _ => ?_
  refine finds_split (fun hop => finds_pure ⟨isVar_load op hop, nofun⟩) fun _ => ?_
  refine finds_split (fun hop => finds_pure ⟨isVar_store op hop, nofun⟩) fun _ => ?_
  refine finds_ite (advances_u8.bind fun _ => advances_i8.map fun _ => ⟨trivial, nofun⟩) ?_
  refine finds_split (fun hop => advances_i16.bind fun _ => (advances_target _ _).map fun _ =>
    ⟨(jump_cases op hop).1, fun _ _ he => (Instruction.jump.inj he).1 ▸ (jump_cases op hop).2⟩)
    fun _ => ?_
  refine finds_ite ((advances_wideTarget _).map fun _ =>
    ⟨.inr (.inl rfl), fun _ _ he => (Instruction.jump.inj he).1 ▸ rfl⟩) ?_
  refine finds_ite ((advances_wideTarget _).map fun _ =>
    ⟨.inr (.inr (.inl rfl)), fun _ _ he => (Instruction.jump.inj he).1 ▸ rfl⟩) ?_
  refine finds_ite (asRead_readTableSwitch _) ?_
  refine finds_ite (asRead_readLookupSwitch _) ?_
  refine finds_split (fun hop => advances_u16.bind fun _ => (advances_lift _).map fun _ =>
    ⟨hop, nofun⟩) fun _ => ?_
  refine finds_split (fun hop => advances_u16.bind fun _ => (advances_lift _).map fun _ =>
    ⟨.inl hop, nofun⟩) fun _ => ?_
  refine finds_split (fun hop => advances_u16.bind fun _ => (advances_lift _).bind fun _ =>
    advances_u8.bind fun _ => advances_u8.map fun _ => ⟨.inr hop, nofun⟩) fun _ => ?_
  refine finds_ite (advances_u16.bind fun _ => advances_u16.bind fun _ =>
    finds_lift fun _ => asRead_callSite h) ?_
  refine finds_split (fun hop => advances_u16.bind fun _ => (advances_lift _).map fun _ =>
    ⟨hop, nofun⟩) fun _ => ?_
  refine finds_ite (asRead_readWide _) ?_
  exact finds_ite (advances_u16.bind fun _ => (advances_lift _).bind fun _ =>
    advances_u8.map fun _ => ⟨trivial, nofun⟩) (finds_fail _)

/-- Every instruction that is read is as it should be if those read before it are. -/
theorem asRead_readInstructions (h : table.PlainHandles)
    {found result : List (Nat × Instruction Nat)} {bound : Nat} {cursor cursor' : Cursor}
    (hf : ∀ entry ∈ found, AsRead entry.2)
    (hr : (readInstructions table found bound).run cursor = .ok (result, cursor')) :
    ∀ entry ∈ result, AsRead entry.2 := by
  have hreverse : ∀ entry ∈ found.reverse, AsRead entry.2 := fun entry hm =>
    hf entry (List.mem_reverse.mp hm)
  induction bound generalizing found cursor with
  | zero =>
    obtain ⟨rfl, -⟩ := Prod.mk.inj (Except.ok.inj hr)
    exact hreverse
  | succ bound ih =>
    obtain ⟨current, middle, hg, hr⟩ := run_bind_eq_ok.mp hr
    obtain ⟨rfl, rfl⟩ := Prod.mk.inj (Except.ok.inj hg)
    split at hr
    · obtain ⟨rfl, -⟩ := Prod.mk.inj (Except.ok.inj hr)
      exact hreverse
    · obtain ⟨insn, next, hi, hr⟩ := run_bind_eq_ok.mp hr
      obtain ⟨byte, after, -, hi⟩ := run_bind_eq_ok.mp hi
      have hinsn := ((asRead_readOperands h _ ⟨byte⟩).found hi).2
      have hall : ∀ entry ∈ (cursor.position, insn) :: found, AsRead entry.2 :=
        List.forall_mem_cons.mpr ⟨hinsn, hf⟩
      exact ih hall hr fun entry hm => hall entry (List.mem_reverse.mp hm)

section Listing

variable {owner : String} {skip : Skip} {declared : Method} {listing : Listing}
  {cursor cursor' : Cursor}

theorem asRead_readListing (h : table.PlainHandles)
    (hr : (readListing owner declared table skip).run cursor = .ok (listing, cursor')) :
    ∀ entry ∈ listing.instructions, AsRead entry.2 := by
  obtain ⟨⟨code, -, -, hdecode⟩, -⟩ := parts_of_readListing hr
  obtain ⟨_, hrun⟩ := parse_eq_ok.mp hdecode
  exact asRead_readInstructions h (by simp) hrun

/-- Of frames that are skipped, there are none. -/
theorem frameEntries_readListing (hskip : skip.frames = true)
    (hr : (readListing owner declared table skip).run cursor = .ok (listing, cursor')) :
    listing.frameEntries = [] := by
  obtain ⟨-, attributes, tables, hall, htables⟩ := parts_of_readListing hr
  rw [Listing.frameEntries, htables, List.flatMap_eq_nil_iff]
  intro found hm
  obtain ⟨_, ht, rfl⟩ := List.mem_filterMap.mp hm
  obtain ⟨⟨name, info⟩, -, hread⟩ := exists_of_mem_left hall.flip ht
  cases found with
  | frames entries =>
    unfold readTable at hread
    split at hread
    case h_4 => rw [if_pos hskip] at hread; cases pure_eq_ok.mp hread
    case h_5 => cases pure_eq_ok.mp hread
    all_goals
      split at hread
      · cases pure_eq_ok.mp hread
      · obtain ⟨_, -, hp⟩ := bind_eq_ok.mp hread
        cases pure_eq_ok.mp hp
  | _ => rfl

/-- The elements of a listing are its instructions, and markers. -/
theorem Listing.isMarker_or_mem {insn : Instruction Nat} (hi : insn ∈ listing.elements) :
    insn.isMarker = true ∨ ∃ entry ∈ listing.instructions, entry.2 = insn := by
  rw [elements_eq, List.mem_append, List.mem_flatMap] at hi
  rcases hi with ⟨entry, hentry, hi⟩ | hi
  · rcases List.mem_append.mp hi with hi | hi
    · exact .inl (isMarker_marks hi)
    · exact .inr ⟨entry, hentry, (List.mem_singleton.mp hi).symm⟩
  · exact .inl (isMarker_marks (mem_ending hi))

theorem Listing.canonical_body (h : ∀ entry ∈ listing.instructions, entry.2.Canonical) :
    ∀ insn ∈ listing.body.code, insn.Canonical := by
  intro insn hi
  obtain ⟨element, he, rfl⟩ := List.mem_map.mp hi
  refine Instruction.Canonical.mapLabels ?_ _
  rcases isMarker_or_mem he with hm | ⟨entry, hentry, rfl⟩
  · exact Instruction.canonical_of_isMarker hm
  · exact h entry hentry

theorem Listing.owns_body (h : Ascending listing.instructions listing.length)
    (hp : listing.misplaced? = none) : listing.body.Owns := by
  intro label hl
  obtain ⟨insn, hi, hlabel⟩ := List.mem_filterMap.mp hl
  obtain ⟨element, he, rfl⟩ := List.mem_map.mp hi
  rw [Instruction.placed?_mapLabels] at hlabel
  obtain ⟨offset, ho, rfl⟩ := Option.map_eq_some_iff.mp hlabel
  have hoffset := (mem_placedOffsets h hp).mp (List.mem_filterMap.mpr ⟨element, he, ho⟩)
  exact exists_labelAt_iff.mp ⟨offset, hoffset, rfl⟩

end Listing

end Code

theorem AccessFlags.ofBits_bits (target : Flagged) (bits : UInt16) :
    ofBits target bits = ofBits target (ofBits target bits).bits := by
  rw [ofBits, ofBits, UInt16.and_assoc, UInt16.and_self]

namespace Field

variable {field field' : Field} {name : String} {info : Cursor}

theorem canonical_addAttribute (h : table.PlainHandles) (hc : field.Canonical)
    (ha : field.addAttribute table name info = .ok field') : field'.Canonical := by
  unfold addAttribute at ha
  split at ha
  · obtain ⟨value, hvalue, hp⟩ := bind_eq_ok.mp ha
    obtain rfl := pure_eq_ok.mp hp
    obtain ⟨cursor', hrun⟩ := parse_eq_ok.mp hvalue
    obtain ⟨index, middle, -, hl⟩ := run_bind_eq_ok.mp hrun
    refine ⟨hc.access, fun found hf => ?_, hc.attributes⟩
    obtain rfl := Option.some.inj hf
    exact h.literal (run_lift.mp hl).1
  · obtain ⟨signature, -, hp⟩ := bind_eq_ok.mp ha
    obtain rfl := pure_eq_ok.mp hp
    exact ⟨hc.access, hc.value, hc.attributes⟩
  · rename_i hvalue hsignature
    obtain rfl := pure_eq_ok.mp ha
    refine ⟨hc.access, hc.value, List.forall_mem_append.mpr ⟨hc.attributes, fun entry hm => ?_⟩⟩
    obtain rfl := List.mem_singleton.mp hm
    exact ⟨hvalue, hsignature⟩

/-- A field that is read is canonical. -/
theorem canonical_ofRaw (h : table.PlainHandles) {member : RawMember}
    (hr : Field.ofRaw table member = .ok field) : field.Canonical :=
  foldlM_ok (fun _ _ _ _ hc ha => canonical_addAttribute h hc ha)
    ⟨AccessFlags.ofBits_bits _ _, by simp, by simp⟩ hr

end Field

namespace Method

variable {method method' : Method} {owner name : String} {skip : Skip} {info : Cursor}

theorem canonical_addAttribute (h : table.PlainHandles) (hc : method.Canonical)
    (ha : method.addAttribute owner table skip name info = .ok method') : method'.Canonical := by
  have hkept : ∀ other : String, other ≠ "Code" → other ≠ "Exceptions" → other ≠ "Signature" →
      ({ method with attributes := method.attributes ++ [⟨other, info.rest⟩] } :
        Method).Canonical := by
    intro other hcode hexceptions hsignature
    refine ⟨hc.access, hc.code, List.forall_mem_append.mpr ⟨hc.attributes, fun entry hm => ?_⟩⟩
    obtain rfl := List.mem_singleton.mp hm
    exact ⟨hcode, hexceptions, hsignature⟩
  unfold addAttribute at ha
  split at ha
  · obtain ⟨listing, hparse, hadd⟩ := bind_eq_ok.mp ha
    obtain ⟨cursor', hrun⟩ := parse_eq_ok.mp hparse
    obtain ⟨-, rfl⟩ := Code.Listing.addTo_eq_ok.mp hadd
    have hread := Code.asRead_readListing h hrun
    exact ⟨hc.access, Code.Listing.canonical_body fun entry hm => (hread entry hm).canonical,
      hc.attributes⟩
  · obtain ⟨exceptions, -, hp⟩ := bind_eq_ok.mp ha
    obtain rfl := pure_eq_ok.mp hp
    exact ⟨hc.access, hc.code, hc.attributes⟩
  · obtain ⟨signature, -, hp⟩ := bind_eq_ok.mp ha
    obtain rfl := pure_eq_ok.mp hp
    exact ⟨hc.access, hc.code, hc.attributes⟩
  · split at ha
    · obtain rfl := pure_eq_ok.mp ha
      exact hc
    · obtain rfl := pure_eq_ok.mp ha
      exact hkept _ (by decide) (by decide) (by decide)
  · rename_i hcode hexceptions hsignature _
    obtain rfl := pure_eq_ok.mp ha
    exact hkept _ hcode hexceptions hsignature

/-- A method that is read is canonical. -/
theorem canonical_ofRaw (h : table.PlainHandles) {member : RawMember}
    (hr : Method.ofRaw owner table skip member = .ok method) : method.Canonical :=
  foldlM_ok (fun _ _ _ _ hc ha => canonical_addAttribute h hc ha)
    ⟨AccessFlags.ofBits_bits _ _, List.forall_mem_nil _, List.forall_mem_nil _⟩ hr

theorem owns_addAttribute (howns : method.body.Owns)
    (ha : method.addAttribute owner table skip name info = .ok method') : method'.body.Owns := by
  unfold addAttribute at ha
  split at ha
  · obtain ⟨listing, hparse, hadd⟩ := bind_eq_ok.mp ha
    obtain ⟨cursor', hrun⟩ := parse_eq_ok.mp hparse
    obtain ⟨hproper, rfl⟩ := Code.Listing.addTo_eq_ok.mp hadd
    exact Code.Listing.owns_body (Code.ascending_readListing hrun) hproper
  · obtain ⟨exceptions, -, hp⟩ := bind_eq_ok.mp ha
    obtain rfl := pure_eq_ok.mp hp
    exact howns
  · obtain ⟨signature, -, hp⟩ := bind_eq_ok.mp ha
    obtain rfl := pure_eq_ok.mp hp
    exact howns
  · split at ha
    all_goals
      obtain rfl := pure_eq_ok.mp ha
      exact howns
  · obtain rfl := pure_eq_ok.mp ha
    exact howns

/-- The labels in a method that is read are those of its list. -/
theorem owns_ofRaw {member : RawMember} (hr : Method.ofRaw owner table skip member = .ok method) :
    method.body.Owns :=
  foldlM_ok (P := fun method => method.body.Owns)
    (fun _ _ _ _ howns ha => owns_addAttribute howns ha) (fun _ hm => absurd hm List.not_mem_nil) hr

end Method

theorem readPrelude_cases {version : Version} {plain : Pool.Table} {cursor cursor' : Cursor}
    (h : readPrelude.run cursor = .ok ((version, plain), cursor')) : version.isSupported = true ∧
      ∃ middle, Pool.Constants.read.run middle = .ok (plain.constants, cursor') := by
  obtain ⟨found, c₁, -, h⟩ := run_bind_eq_ok.mp h
  split at h
  · obtain ⟨_, _, hfail, -⟩ := run_bind_eq_ok.mp h
    cases hfail
  obtain ⟨minor, c₂, -, h⟩ := run_bind_eq_ok.mp h
  obtain ⟨major, c₃, -, h⟩ := run_bind_eq_ok.mp h
  dsimp only at h
  split at h
  · obtain ⟨_, _, hfail, -⟩ := run_bind_eq_ok.mp h
    cases hfail
  · rename_i hsupported
    obtain ⟨constants, c₄, hconstants, h⟩ := run_bind_eq_ok.mp h
    obtain ⟨hparts, rfl⟩ := Prod.mk.inj (Except.ok.inj h)
    obtain ⟨rfl, rfl⟩ := Prod.mk.inj hparts
    exact ⟨by simpa using hsupported, c₃, hconstants⟩

theorem readHeader_cases {version : Version} {plain : Pool.Table} {header : Header}
    {cursor cursor' : Cursor}
    (h : (readHeader version plain).run cursor = .ok (header, cursor')) :
    header.version = version ∧ header.access = .ofBits .ofClass header.access.bits := by
  obtain ⟨access, c₁, -, h⟩ := run_bind_eq_ok.mp h
  obtain ⟨index, c₂, -, h⟩ := run_bind_eq_ok.mp h
  obtain ⟨name, c₃, -, h⟩ := run_bind_eq_ok.mp h
  obtain ⟨superIndex, c₄, -, h⟩ := run_bind_eq_ok.mp h
  obtain ⟨superName, c₅, -, h⟩ := run_bind_eq_ok.mp h
  obtain ⟨interfaces, c₆, -, h⟩ := run_bind_eq_ok.mp h
  obtain ⟨rfl, -⟩ := Prod.mk.inj (Except.ok.inj h)
  exact ⟨rfl, AccessFlags.ofBits_bits _ _⟩

/-- The constants of a file whose version is supported come first, and then flags that have a
meaning. -/
theorem parts_of_parse {bytes : Bytes} {header : Header} {plain : Pool.Table}
    {fields methods : List RawMember} {attributes : List (String × Cursor)}
    (h : (Cursor.ofBytes bytes).parse readParts =
      .ok (header, plain, fields, methods, attributes)) :
    header.version.isSupported = true ∧ header.access = .ofBits .ofClass header.access.bits ∧
      ∃ cursor cursor', Pool.Constants.read.run cursor = .ok (plain.constants, cursor') := by
  obtain ⟨_, h⟩ := parse_eq_ok.mp h
  obtain ⟨⟨version, table⟩, c₁, hprelude, h⟩ := run_bind_eq_ok.mp h
  obtain ⟨found, c₂, hheader, h⟩ := run_bind_eq_ok.mp h
  obtain ⟨rawFields, c₃, -, h⟩ := run_bind_eq_ok.mp h
  obtain ⟨rawMethods, c₄, -, h⟩ := run_bind_eq_ok.mp h
  obtain ⟨rawAttributes, c₅, -, h⟩ := run_bind_eq_ok.mp h
  obtain ⟨cursor, c₆, -, h⟩ := run_bind_eq_ok.mp h
  split at h
  · obtain ⟨_, _, hfail, -⟩ := run_bind_eq_ok.mp h
    cases hfail
  · obtain ⟨hparts, -⟩ := Prod.mk.inj (Except.ok.inj h)
    obtain ⟨rfl, htables⟩ := Prod.mk.inj hparts
    obtain ⟨rfl, -⟩ := Prod.mk.inj htables
    obtain ⟨hsupported, middle, hconstants⟩ := readPrelude_cases hprelude
    obtain ⟨rfl, haccess⟩ := readHeader_cases hheader
    exact ⟨hsupported, haccess, middle, c₁, hconstants⟩

namespace Class

variable {skip : Skip}

theorem canonical_readInnerClass (table : Pool.Table) :
    Finds (readInnerClass table) InnerClass.Canonical :=
  advances_u16.bind fun _ => advances_u16.bind fun _ => advances_u16.bind fun _ =>
    advances_u16.bind fun _ => (advances_lift _).bind fun _ => (advances_lift _).bind fun _ =>
      (advances_lift _).map fun _ => AccessFlags.ofBits_bits _ _

/-- What an attribute adds to a class and to its bootstrap table. -/
theorem addAttribute_cases {state state' : Class × Pool.Table} {name : String} {info : Cursor}
    (h : addAttribute skip state name info = .ok state') :
    ∃ sourceFile signature entries kept, ∃ bootstrap : List BootstrapMethod,
      state' = ({ state.1 with sourceFile, signature,
                               innerClasses := state.1.innerClasses ++ entries,
                               attributes := state.1.attributes ++ kept },
        { state.2 with bootstrap := state.2.bootstrap ++ bootstrap }) ∧
      (∀ entry ∈ entries, InnerClass.Canonical entry) ∧
      ∀ entry ∈ kept, RawAttribute.name entry ≠ "SourceFile" ∧ entry.name ≠ "Signature" ∧
        entry.name ≠ "InnerClasses" ∧ entry.name ≠ "BootstrapMethods" := by
  obtain ⟨tree, table⟩ := state
  have hkept : ∀ other : String, other ≠ "SourceFile" → other ≠ "Signature" →
      other ≠ "InnerClasses" → other ≠ "BootstrapMethods" →
      ∀ entry ∈ [RawAttribute.mk other info.rest], entry.name ≠ "SourceFile" ∧
        entry.name ≠ "Signature" ∧ entry.name ≠ "InnerClasses" ∧
        entry.name ≠ "BootstrapMethods" := by
    intro other hsource hsignature hinner hbootstrap entry hm
    obtain rfl := List.mem_singleton.mp hm
    exact ⟨hsource, hsignature, hinner, hbootstrap⟩
  unfold addAttribute at h
  dsimp only at h
  split at h
  · split at h
    · obtain rfl := pure_eq_ok.mp h
      exact ⟨tree.sourceFile, tree.signature, [], [], [], by simp, by simp, by simp⟩
    · obtain ⟨text, -, h⟩ := bind_eq_ok.mp h
      obtain rfl := pure_eq_ok.mp h
      exact ⟨some text, tree.signature, [], [], [], by simp, by simp, by simp⟩
  · split at h
    · obtain rfl := pure_eq_ok.mp h
      exact ⟨tree.sourceFile, tree.signature, [], [], [], by simp, by simp, by simp⟩
    · obtain rfl := pure_eq_ok.mp h
      exact ⟨tree.sourceFile, tree.signature, [], [⟨"SourceDebugExtension", info.rest⟩],
        [], by simp, by simp, hkept _ (by decide) (by decide) (by decide) (by decide)⟩
  · obtain ⟨text, -, h⟩ := bind_eq_ok.mp h
    obtain rfl := pure_eq_ok.mp h
    exact ⟨tree.sourceFile, some text, [], [], [], by simp, by simp, by simp⟩
  · obtain ⟨entries, hentries, h⟩ := bind_eq_ok.mp h
    obtain rfl := pure_eq_ok.mp h
    obtain ⟨_, hrun⟩ := parse_eq_ok.mp hentries
    exact ⟨tree.sourceFile, tree.signature, entries, [], [], by simp,
      ((finds_counted (canonical_readInnerClass table)).found hrun).2, by simp⟩
  · obtain ⟨entries, -, h⟩ := bind_eq_ok.mp h
    obtain rfl := pure_eq_ok.mp h
    exact ⟨tree.sourceFile, tree.signature, [], [], entries, by simp, by simp, by simp⟩
  · rename_i hsource _ hsignature hinner hbootstrap
    obtain rfl := pure_eq_ok.mp h
    exact ⟨tree.sourceFile, tree.signature, [], _, [], by simp, by simp,
      hkept name hsource hsignature hinner hbootstrap⟩

/-- What becomes of a class and its table while its attributes are read. -/
structure Grown (header : Header) (constants : Constants) (state : Class × Pool.Table) : Prop where
  version : state.1.version = header.version
  access : state.1.access = header.access
  name : state.1.name = header.name
  innerClasses : ∀ entry ∈ state.1.innerClasses, entry.Canonical
  attributes : ∀ entry ∈ state.1.attributes, entry.name ≠ "SourceFile" ∧
    entry.name ≠ "Signature" ∧ entry.name ≠ "InnerClasses" ∧ entry.name ≠ "BootstrapMethods"
  constants : state.2.constants = constants

theorem Grown.addAttribute {header : Header} {constants : Constants}
    {state state' : Class × Pool.Table} {name : String} {info : Cursor}
    (h : Grown header constants state) (ha : addAttribute skip state name info = .ok state') :
    Grown header constants state' := by
  obtain ⟨sourceFile, signature, entries, kept, bootstrap, rfl, hentries, hkept⟩ :=
    addAttribute_cases ha
  exact ⟨h.version, h.access, h.name, List.forall_mem_append.mpr ⟨h.innerClasses, hentries⟩,
    List.forall_mem_append.mpr ⟨h.attributes, hkept⟩, h.constants⟩

/-- A class that is read consists of the parts of its file. -/
theorem read_cases {bytes : Bytes} {tree : Class} (h : Class.read skip bytes = .ok tree) :
    ∃ header plain fields methods attributes table,
      (Cursor.ofBytes bytes).parse readParts = .ok (header, plain, fields, methods, attributes) ∧
      Grown header plain.constants (tree, table) ∧ tree.pool = some table ∧
      fields.mapM (Field.ofRaw table) = .ok tree.fields ∧
      methods.mapM (Method.ofRaw header.name table skip) = .ok tree.methods := by
  obtain ⟨⟨header, plain, rawFields, rawMethods, attributes⟩, hparts, h⟩ := bind_eq_ok.mp h
  obtain ⟨⟨headed, table⟩, hattributes, h⟩ := bind_eq_ok.mp h
  obtain ⟨fields, hfields, h⟩ := bind_eq_ok.mp h
  obtain ⟨methods, hmethods, h⟩ := bind_eq_ok.mp h
  obtain rfl := pure_eq_ok.mp h
  have hgrown : Grown header plain.constants (headed, table) :=
    foldlM_ok (fun _ _ _ _ hs ha => hs.addAttribute ha)
      ⟨rfl, rfl, rfl, List.forall_mem_nil _, List.forall_mem_nil _, rfl⟩ hattributes
  exact ⟨header, plain, rawFields, rawMethods, attributes, table, hparts,
    ⟨hgrown.version, hgrown.access, hgrown.name, hgrown.innerClasses, hgrown.attributes,
      hgrown.constants⟩, rfl, hfields, hmethods⟩

/-- The labels in the methods of a class that is read are those of their lists. -/
theorem owns_read {bytes : Bytes} {tree : Class} (h : Class.read skip bytes = .ok tree) :
    ∀ method ∈ tree.methods, method.body.Owns := by
  obtain ⟨header, plain, fields, methods, attributes, table, -, -, -, -, hmethods⟩ := read_cases h
  intro method hm
  obtain ⟨member, -, hmethod⟩ := exists_of_mem_mapM hmethods hm
  exact Method.owns_ofRaw hmethod

/-- A class that is read is canonical, if its handles of fields are plain. Its version is supported,
and its pool was read. -/
theorem canonical_read {bytes : Bytes} {tree : Class} (h : Class.read skip bytes = .ok tree)
    (hplain : ∀ table ∈ tree.pool, table.PlainHandles) :
    tree.Canonical ∧ tree.version.isSupported = true ∧ tree.HasReadPool := by
  obtain ⟨header, plain, fields, methods, attributes, table, hparts, hgrown, hpool, hfields,
    hmethods⟩ := read_cases h
  obtain ⟨hsupported, haccess, cursor, cursor', hconstants⟩ := parts_of_parse hparts
  have htable := hplain table hpool
  refine ⟨⟨hgrown.access ▸ haccess, hgrown.innerClasses, fun field hm => ?_, fun method hm => ?_,
    hgrown.attributes⟩, hgrown.version ▸ hsupported, fun found hfound => ?_⟩
  · obtain ⟨member, -, hfield⟩ := exists_of_mem_mapM hfields hm
    exact Field.canonical_ofRaw htable hfield
  · obtain ⟨member, -, hmethod⟩ := exists_of_mem_mapM hmethods hm
    exact Method.canonical_ofRaw htable hmethod
  · obtain rfl := Option.some.inj (hpool.symm.trans hfound)
    exact ⟨cursor, cursor', hgrown.constants ▸ hconstants⟩

end Class

end ClassTree
