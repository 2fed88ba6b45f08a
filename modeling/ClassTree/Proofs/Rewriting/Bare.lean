import ClassTree.Proofs.Pool.Seeding
import ClassTree.Proofs.Rewriting.Methods
import ClassTree.Treatment

namespace ClassTree

open Pool Build

namespace Code

section Listings

variable {listing : Listing} {offset : Nat}

/-- Only labels are placed among the instructions when there are no tables. -/
theorem Listing.elements_of_tables (h : listing.tables = []) : listing.elements =
    listing.instructions.flatMap (fun entry =>
      (if entry.1 ∈ listing.mentions then [.label entry.1] else []) ++ [entry.2]) ++
      (if listing.length ∈ listing.mentions then [.label listing.length] else []) := by
  have hlines : listing.lineEntries = [] := by simp [Listing.lineEntries, h]
  have hframes : listing.frameEntries = [] := by simp [Listing.frameEntries, h]
  have hmarks : ∀ offset, listing.marks offset =
      if offset ∈ listing.mentions then [.label offset] else [] := by
    intro offset
    rw [Listing.marks, Listing.markers, hlines, hframes]
    simp [Numbering.mem_ofList, Listing.byOffset]
  have hunmarked : ¬ listing.MarksEnd := by
    rw [Listing.MarksEnd, hlines, hframes]
    simp
  rw [Listing.elements_eq, Listing.ending_eq hunmarked]
  simp only [hmarks]

/-- A single label is the first one. -/
theorem Listing.body_of_mention {method : Method} (h : listing.mentions = [offset]) :
    (listing.addedTo method).body =
      ⟨listing.elements.map (Instruction.mapLabels fun _ => ⟨0⟩), 1⟩ := by
  have hlabel : listing.labelAt = fun _ => ⟨0⟩ := by
    funext place
    simp [Listing.labelAt, h, Numbering.ofList, Numbering.see, Std.HashMap.getD_insertIfNew]
  have hsize : (Numbering.ofList listing.mentions).size = 1 := by
    simp [h, Numbering.ofList, Numbering.see, Std.HashMap.size_insertIfNew]
  rw [Listing.addedTo, hlabel, hsize]

end Listings

variable {b : Builder} {setting : Setting} {method : Method} {prepared : Prepared}

/-- All that is written for code without handlers, lines and variables, apart from the code, is its
frames. -/
theorem yields_attributeInfo_bare {array : Bytes} {attributes : List Bytes}
    (hprepare : Yields (prepare setting method) b prepared b) (hh : prepared.handlers = [])
    (hlines : prepared.code.any Instruction.isLine = false)
    (hvariables : method.localVariables = none)
    (harray : Yields (encode prepared.code prepared.offsets prepared.labelOffsets) b array b)
    (hframes : Yields (frameAttribute setting method prepared.offsets prepared.frames) b attributes
      b) :
    Yields (attributeInfo setting method) b
      (size16 prepared.maxStack ++ size16 prepared.maxLocals ++
        BigEndian.u32 (UInt32.ofNat array.length) ++ array ++ BigEndian.counted id [] ++
        BigEndian.counted id attributes) b := by
  have hnone : lineEntries prepared.labelOffsets prepared.code = [] := by
    rw [lineEntries, List.filterMap_eq_nil_iff]
    intro insn hi
    have hline := List.any_eq_false.mp hlines insn hi
    cases insn with
    | line => exact absurd rfl hline
    | _ => rfl
  refine yields_bind.mpr ⟨prepared, b, hprepare, yields_bind.mpr ⟨array, b, harray, ?_⟩⟩
  rw [hh, hnone, hvariables]
  refine yields_bind.mpr ⟨[], b, rfl, yields_bind.mpr ⟨[], b, rfl, ?_⟩⟩
  exact yields_bind.mpr ⟨[], b, rfl, yields_bind.mpr ⟨attributes, b, hframes, rfl⟩⟩

end Code

namespace SingleMethod

def constants : List Constant :=
  [.utf8 "A", .classRef 1, .utf8 "java/lang/Object", .classRef 3, .utf8 "m", .utf8 "()V",
    .utf8 "Code", .utf8 "java/lang/Throwable", .classRef 8, .utf8 "StackMapTable"]

def table : Table :=
  ⟨constants.foldl Constants.add .empty, #[]⟩

def pool : Builder :=
  .ofTable table

theorem toList_pool : pool.constants.toList = constants := rfl

theorem fits_pool : ∀ constant ∈ pool.constants.toList, constant.Fits := by
  rw [toList_pool]
  simp only [constants, List.forall_mem_cons, Constant.Fits, List.not_mem_nil, false_implies,
    implies_true]
  decide

theorem reachable_pool : pool.Reachable :=
  Builder.reachable_ofTable rfl fits_pool (by decide)

theorem plainHandles_table : table.PlainHandles := by
  intro index handle h
  obtain ⟨constant, hget, h⟩ := bind_eq_ok.mp h
  have hm : constant ∈ constants := Slots.mem_of_get? (Table.get_eq_ok.mp hget)
  split at h
  · exact absurd hm (by simp [constants])
  · cases h

def header : Header :=
  ⟨⟨50, 0⟩, .ofBits .ofClass 0, "A", some "java/lang/Object", []⟩

def declared : Method :=
  .declared (.ofBits .ofMethod 8) "m" "()V"

def tree (method : Method) : Class :=
  { Class.ofHeader header table with methods := [method] }

def member (info : Bytes) (base : Nat) : RawMember :=
  ⟨8, "m", "()V", [("Code", ⟨info, 0, base⟩)]⟩

/-- Everything in a file before the contents of the code attribute. -/
def front : Bytes :=
  [202, 254, 186, 190, 0, 0, 0, 50, 0, 11,
    1, 0, 1, 65, 7, 0, 1,
    1, 0, 16, 106, 97, 118, 97, 47, 108, 97, 110, 103, 47, 79, 98, 106, 101, 99, 116, 7, 0, 3,
    1, 0, 1, 109, 1, 0, 3, 40, 41, 86,
    1, 0, 4, 67, 111, 100, 101,
    1, 0, 19, 106, 97, 118, 97, 47, 108, 97, 110, 103, 47, 84, 104, 114, 111, 119, 97, 98, 108, 101,
    7, 0, 8,
    1, 0, 13, 83, 116, 97, 99, 107, 77, 97, 112, 84, 97, 98, 108, 101,
    0, 0, 0, 2, 0, 4, 0, 0, 0, 0, 0, 1, 0, 8, 0, 5, 0, 6, 0, 1, 0, 7]

theorem encode_front : BigEndian.u32 magic ++ Version.encode ⟨50, 0⟩ ++ pool.constants.encode ++
    (BigEndian.u16 0 ++ BigEndian.u16 2 ++ BigEndian.u16 4 ++ BigEndian.u16 0 ++
      BigEndian.u16 0 ++ BigEndian.u16 1 ++ BigEndian.u16 8 ++ BigEndian.u16 5 ++
        BigEndian.u16 6 ++ BigEndian.u16 1 ++ BigEndian.u16 7) = front := by
  decide +kernel

def file (info : Bytes) : Bytes :=
  front ++ BigEndian.u32 (UInt32.ofNat info.length) ++ info ++ [0, 0]

/-- What is computed when the class is written. -/
def setting (hierarchy : Hierarchy) : Code.Setting :=
  ⟨"A", ⟨50, 0⟩, ⟨true, true⟩, hierarchy⟩

def context : Context :=
  ⟨"A", "m", ⟨[], none⟩, true⟩

theorem type_declared : declared.type? = .ok ⟨[], none⟩ :=
  MethodType.scan_inverts.complete_eq_ok.mpr rfl

/-- Contents of a code attribute that needs no local variables and handles nothing. -/
def infoOf (array : Bytes) (maxStack : Nat) (attributes : List Bytes) : Bytes :=
  Code.size16 maxStack ++ Code.size16 0 ++ BigEndian.u32 (UInt32.ofNat array.length) ++ array ++
    BigEndian.counted id [] ++ BigEndian.counted id attributes

variable {hierarchy : Hierarchy} {listing : Code.Listing} {info : Bytes}

theorem contextOf_addedTo :
    Context.ofMethod "A" (listing.addedTo declared) ⟨[], none⟩ = context := by
  have hstatic : (listing.addedTo declared).isStatic = true :=
    show declared.isStatic = true by decide
  rw [Context.ofMethod, hstatic]
  rfl

theorem localVariables_addedTo (h : listing.tables = []) :
    (listing.addedTo declared).localVariables = none := by
  rw [Code.Listing.addedTo, Code.Listing.variablesFor, Code.Listing.hasVariables, h]
  rfl

section Writing

def encoded (info : Bytes) : EncodedMember :=
  ⟨8, 5, 6, [BigEndian.u16 7 ++ BigEndian.u32 (UInt32.ofNat info.length) ++ info]⟩

theorem hasCode_addedTo (hcode : listing.elements ≠ []) : ((listing.addedTo declared).hasCode &&
    !(listing.addedTo declared).body.code.isEmpty) = true := by
  rw [show (listing.addedTo declared).hasCode = true from (by decide : declared.hasCode = true)]
  simpa [Code.Listing.addedTo] using hcode

variable (hy : Yields (Code.attributeInfo (setting hierarchy) (listing.addedTo declared)) pool info
  pool) (hcode : listing.elements ≠ [])
include hy hcode

theorem yields_encode :
    Yields ((listing.addedTo declared).encode (setting hierarchy)) pool (encoded info) pool := by
  have hattribute : Yields ((listing.addedTo declared).codeAttribute (setting hierarchy)) pool
      (encoded info).attributes pool := by
    rw [Method.codeAttribute, if_pos (hasCode_addedTo hcode)]
    exact yields_bind.mpr ⟨info, pool, hy, yields_bind.mpr ⟨_, pool,
      yields_bind.mpr ⟨7, pool, Builder.yields_constant_ofTable (by decide), rfl⟩, rfl⟩⟩
  have hname : Yields (Build.text "m") pool 5 pool := Builder.yields_constant_ofTable (by decide)
  have hdescriptor : Yields (Build.text "()V") pool 6 pool :=
    Builder.yields_constant_ofTable (by decide)
  refine yields_bind.mpr ⟨5, pool, hname, yields_bind.mpr ⟨6, pool, hdescriptor, ?_⟩⟩
  exact yields_bind.mpr ⟨_, pool, hattribute, yields_bind.mpr ⟨[], pool, rfl,
    yields_bind.mpr ⟨[], pool, rfl, yields_bind.mpr ⟨[], pool, rfl, rfl⟩⟩⟩⟩

theorem yields_body : Yields ((tree (listing.addedTo declared)).encodeBody ⟨true, true⟩ hierarchy)
    pool (EncodedClass.encode ⟨0, 2, 4, [], [], [encoded info], []⟩) pool := by
  have hname : Yields (Build.classRef "A") pool 2 pool :=
    Builder.yields_classRef_ofTable 1 (by decide) (by decide)
  have hsuper : Yields (Build.classRef "java/lang/Object") pool 4 pool :=
    Builder.yields_classRef_ofTable 3 (by decide) (by decide)
  exact Class.Encodes.yields
    { access := rfl
      name := hname
      superName := hsuper
      interfaces := .nil
      fields := .nil
      methods := .cons (yields_encode hy hcode) .nil
      attributes := rfl }

/-- The class is written as the file with what is written for the code of its method. -/
theorem write_tree :
    (tree (listing.addedTo declared)).toBytesWith hierarchy = .ok (file info) := by
  refine Class.write_eq_ok.mpr ⟨_, pool, yields_body hy hcode, ?_⟩
  rw [file, ← encode_front]
  simp [EncodedClass.encode, encoded, EncodedMember.encode, BigEndian.counted]
  rfl

theorem attributes_storedAs {stored : StoredMember}
    (h : (listing.addedTo declared).StoredAs pool (setting hierarchy) stored) :
    stored.attributes = [⟨"Code", info⟩] := by
  obtain ⟨code, exceptions, signature, hall, hstores, hexceptions, hsignature⟩ := h.attributes
  rw [Method.StoresCode, if_pos (hasCode_addedTo hcode)] at hstores
  obtain ⟨info', rfl, hy'⟩ := hstores
  obtain rfl := hy'.value_eq hy
  obtain rfl : exceptions = [] := hexceptions
  obtain rfl : signature = [] := hsignature
  exact hall

theorem fits_storedAs {stored : StoredClass} (hinfo : info.length < 0x100000000)
    (h : (tree (listing.addedTo declared)).StoredAs pool ⟨true, true⟩ hierarchy stored) :
    stored.Fits pool := by
  obtain ⟨member, rest, hmember, hrest, hmethods⟩ := List.forall₂_cons_left_iff.mp h.methods
  obtain rfl := List.forall₂_nil_left_iff.mp hrest
  have hfields : stored.fields = [] := List.forall₂_nil_left_iff.mp h.fields
  obtain ⟨sourceFile, signature, innerClasses, bootstrap, hall, hsource, hsignature, hinner,
    hbootstrap⟩ := h.attributes
  obtain rfl : sourceFile = [] := hsource
  obtain rfl : signature = [] := hsignature
  obtain rfl : innerClasses = [] := hinner
  obtain rfl : bootstrap = [] := hbootstrap
  exact
  { constants := fits_pool
    places := by decide
    interfaces := by rw [h.interfaces]; exact Nat.zero_lt_succ _
    fields := by rw [hfields]; decide
    methods := by rw [hmethods]; simp
    members := by
      rw [hfields, hmethods, List.nil_append, List.forall_mem_singleton,
        attributes_storedAs hy hcode hmember]
      exact ⟨by simp, List.forall_mem_singleton.mpr hinfo⟩
    attributes := by
      rw [hall]
      exact ⟨Nat.zero_lt_succ _, nofun⟩ }

end Writing

section Frames

open Code

def stackMap (frames : FrameTable) : Bytes :=
  let info := BigEndian.counted id ((StackMap.entries ⟨[], []⟩ frames.toList).map
    StackMap.Entry.encode)
  BigEndian.u16 10 ++ BigEndian.u32 (UInt32.ofNat info.length) ++ info

theorem yields_frameAttribute {offsets : Offsets} {frames : FrameTable}
    (h : frames.isEmpty = false) :
    Yields (frameAttribute (setting hierarchy) (listing.addedTo declared) offsets frames) pool
      [stackMap frames] pool := by
  have hcontext : Yields (contextOf (setting hierarchy) (listing.addedTo declared)) pool context
      pool := by
    rw [contextOf, show (listing.addedTo declared).type? = .ok ⟨[], none⟩ from type_declared]
    exact congrArg (fun context => (Except.ok context, pool)) contextOf_addedTo
  rw [frameAttribute, if_neg (by simp [h])]
  exact yields_bind.mpr ⟨context, pool, hcontext, yields_bind.mpr ⟨⟨[], []⟩, pool, rfl,
    yields_bind.mpr ⟨_, pool, yields_bind.mpr ⟨10, pool,
      Builder.yields_constant_ofTable (by decide), rfl⟩, rfl⟩⟩⟩

variable {body : Body} {places : Offsets} {frames : FrameTable} {prepared : Prepared}

theorem yields_prepare {flow : Flow.TypeFlow} (hbody : (listing.addedTo declared).body = body)
    (hh : listing.handlers = []) (ht : listing.tables = []) (hplaced : body.placed.Nodup)
    (hresolved : ∀ label ∈ body.code.flatMap Instruction.references, label ∈ body.placed)
    (hplain : usesSubroutines body.code = false) (hunframed : unframed body = body)
    (hlayout : Yields (layout body.code) pool places pool) (hshort : places.length ≤ 0x7FFF)
    (hflow : Flow.computeTypes hierarchy (programOf context body.code []) = .ok flow)
    (hframes : Yields (computedFrames (programOf context body.code []) flow places) pool frames
      pool)
    (hdead : Yields (withoutDead ⟨body.code, body.labels, places⟩ flow [] frames) pool prepared
      pool) :
    Yields (prepare (setting hierarchy) (listing.addedTo declared)) pool prepared pool := by
  have hhandlers : (listing.addedTo declared).handlers = [] := by
    rw [Listing.addedTo, hh]
    rfl
  have hreferences : (listing.addedTo declared).references =
      body.code.flatMap Instruction.references := by
    rw [Method.references, hbody, hhandlers, Method.variableList, localVariables_addedTo ht]
    simp
  have hwiden : Yields (widen "A.m()V" false (unframed body)) pool
      ⟨body.code, body.labels, places⟩ pool := by
    rw [hunframed]
    exact widen_of_short hlayout hshort
  have hstages : Stages (setting hierarchy) (listing.addedTo declared) pool
      ⟨body.code, body.labels, places⟩ (programOf context body.code []) flow prepared pool :=
    { widened := ⟨pool, hbody ▸ hwiden⟩
      built := ⟨⟨[], none⟩, type_declared, by rw [hhandlers, ← @contextOf_addedTo listing]; rfl⟩
      types := hflow
      labels := Method.checkLabels_of_nodup (by rwa [hbody]) (by rwa [hbody, hreferences]) _
      steps := ⟨frames, pool, pool, hbody ▸ hwiden, hframes, by rwa [hhandlers]⟩ }
  exact hstages.yields_prepare rfl (by rwa [hbody])

theorem yields_info {array : Bytes}
    (hprepare : Yields (prepare (setting hierarchy) (listing.addedTo declared)) pool prepared pool)
    (ht : listing.tables = []) (hh : prepared.handlers = [])
    (hlines : prepared.code.any Instruction.isLine = false) (hlocals : prepared.maxLocals = 0)
    (hframes : prepared.frames.isEmpty = false)
    (harray : Yields (encode prepared.code prepared.offsets prepared.labelOffsets) pool array
      pool) :
    Yields (attributeInfo (setting hierarchy) (listing.addedTo declared)) pool
      (infoOf array prepared.maxStack [stackMap prepared.frames]) pool := by
  have hinfo := yields_attributeInfo_bare hprepare hh hlines (localVariables_addedTo ht) harray
    (yields_frameAttribute hframes)
  rwa [hlocals] at hinfo

end Frames

section Reading

theorem parse_infoOf {array : Bytes} {maxStack : Nat} {attributes : List RawAttribute}
    {encoded : List Bytes} {instructions : List (Nat × Instruction Nat)}
    (hstack : maxStack < 0x10000) (harray : array.length < 0x100000000)
    (hfits : FitAttributes attributes)
    (hencoded : List.Forall₂ (RawAttribute.EncodedAs table) attributes encoded)
    (hframes : ∀ entry ∈ attributes, entry.name = "StackMapTable")
    (hdecode : ∀ base, Code.decode table ⟨array, 0, base⟩ = .ok instructions) (base : Nat) :
    Cursor.parse ⟨infoOf array maxStack encoded, 0, base⟩
      (Code.readListing "A" declared table ⟨false, true⟩) =
        .ok ⟨UInt16.ofNat maxStack, 0, array.length, instructions, [], []⟩ := by
  let stored : Code.StoredCode := ⟨maxStack, 0, array, [], attributes⟩
  have hstored : stored.Fits := ⟨hstack, Nat.zero_lt_succ _, Nat.zero_lt_succ _, hfits⟩
  have hreads := Code.StoredCode.readsAs_sections hstored.clamped harray .nil hencoded
  rw [hstored.clamped_eq] at hreads
  have htables : List.Forall₂ (Code.IsTable "A" declared table ⟨false, true⟩) attributes
      (attributes.map fun _ => none) := by
    refine List.forall₂_map_right_iff.mpr (List.forall₂_same.mpr fun entry hm base => ?_)
    rw [hframes entry hm]
    rfl
  have hnone : (attributes.map fun _ => none).filterMap id = ([] : List Code.CodeTable) := by simp
  have hparse := Code.StoredCode.parse_readListing hreads hdecode htables base
  rw [hnone] at hparse
  exact hparse

theorem parse_file (h : info.length < 0x100000000) : ∃ base,
    (Cursor.ofBytes (file info)).parse readParts =
      .ok (header, table, [], [member info base], []) := by
  obtain ⟨base, hparse⟩ := @exists_parse_code pool ⟨50, 0⟩ 8 info "A" "java/lang/Object" "m" "()V"
    2 4 5 6 7 rfl reachable_pool fits_pool (by decide) h
    (Builder.yields_classRef_ofTable 1 (by decide) (by decide))
    (Builder.yields_classRef_ofTable 3 (by decide) (by decide))
    (Builder.yields_constant_ofTable (by decide)) (Builder.yields_constant_ofTable (by decide))
    (Builder.yields_constant_ofTable (by decide))
  have hend : BigEndian.u16 0 = [0, 0] := by decide +kernel
  rw [encode_front, hend] at hparse
  exact ⟨base, hparse⟩

theorem ofBytes_file (hinfo : info.length < 0x100000000)
    (hparse : ∀ base, Cursor.parse ⟨info, 0, base⟩
      (Code.readListing "A" declared table ⟨false, true⟩) = .ok listing)
    (hproper : ∀ offset ∈ listing.mentions, offset ∈ listing.instructions.map Prod.fst) :
    Class.ofBytes (file info) = .ok (tree (listing.addedTo declared)) := by
  have hadd : listing.addTo declared = .ok (listing.addedTo declared) :=
    Code.Listing.addTo_eq_ok.mpr
      ⟨Code.Listing.misplaced?_eq_none.mpr fun offset hm => .inr (hproper offset hm), rfl⟩
  obtain ⟨base, hfile⟩ := parse_file hinfo
  have hmethod : Method.ofRaw "A" table ⟨false, true⟩ (member info base) =
      .ok (listing.addedTo declared) :=
    bind_eq_ok.mpr ⟨_, Method.addAttribute_code (hparse base) hadd, rfl⟩
  refine bind_eq_ok.mpr ⟨_, hfile, ?_⟩
  refine bind_eq_ok.mpr ⟨_, pure_eq_ok.mpr rfl, ?_⟩
  refine bind_eq_ok.mpr ⟨_, pure_eq_ok.mpr rfl, ?_⟩
  exact bind_eq_ok.mpr ⟨_, mapM_eq_ok.mpr (.cons hmethod .nil), rfl⟩

end Reading

end SingleMethod

end ClassTree
