import ClassTree.Proofs.Reading.Members
import ClassTree.Proofs.Writing.Exactness

namespace ClassTree

open Pool Build BigEndian Reader

/-- Attributes as they are written, of which there are not too many, and none is too long. -/
def FitEncoded (attributes : List Bytes) : Prop :=
  attributes.length < 0x10000 ∧ ∀ bytes ∈ attributes, bytes.length < 0x100000006

theorem FitEncoded.fitAttributes {table : Table} {attributes : List RawAttribute}
    {encoded : List Bytes} (h : FitEncoded encoded)
    (he : List.Forall₂ (RawAttribute.EncodedAs table) attributes encoded) :
    FitAttributes attributes := by
  refine ⟨he.length_eq ▸ h.1, ?_⟩
  obtain ⟨-, hlengths⟩ := h
  induction he with
  | nil => exact nofun
  | cons hfirst _ ih =>
    obtain ⟨hlength, hrest⟩ := List.forall_mem_cons.mp hlengths
    refine List.forall_mem_cons.mpr ⟨?_, ih hrest⟩
    rw [hfirst.length_eq] at hlength
    exact Nat.lt_of_add_lt_add_right hlength

namespace Class

variable {b : Builder} {hierarchy : Hierarchy} {tree : Class}

/-- Flags have a meaning, members are canonical, and attributes that are carried along are not those
that are interpreted. -/
structure Canonical (tree : Class) : Prop where
  access : tree.access = .ofBits .ofClass tree.access.bits
  innerClasses : ∀ entry ∈ tree.innerClasses, entry.Canonical
  fields : ∀ field ∈ tree.fields, field.Canonical
  methods : ∀ method ∈ tree.methods, method.Canonical
  attributes : ∀ entry ∈ tree.attributes, entry.name ≠ "SourceFile" ∧ entry.name ≠ "Signature" ∧
    entry.name ≠ "InnerClasses" ∧ entry.name ≠ "BootstrapMethods"

/-- Everything that is counted in the class file can be, given the pool that is written. -/
structure Fits (hierarchy : Hierarchy) (tree : Class) (b : Builder) : Prop where
  constants : ∀ constant ∈ b.constants.toList, constant.Fits
  places : b.constants.next < 0x10000
  bootstrap : FitEntries BootstrapMethod.Fits b.bootstrap.toList
  interfaces : tree.interfaces.length < 0x10000
  innerClasses : tree.innerClasses.length < 0x10000
  fields : tree.fields.length < 0x10000
  fieldAttributes : ∀ field ∈ tree.fields, ∀ encoded, Yields field.encode b encoded b →
    FitEncoded encoded.attributes
  methods : tree.methods.length < 0x10000
  methodAttributes : ∀ method ∈ tree.methods, ∀ encoded,
    Yields (method.encode (tree.setting ⟨false, false⟩ hierarchy)) b encoded b →
      FitEncoded encoded.attributes
  methodParts : ∀ method ∈ tree.methods, method.Fits b (tree.setting ⟨false, false⟩ hierarchy)
  attributes : ∀ encoded, Yields tree.encodeAttributes b encoded b → FitEncoded encoded

/-- The class that is read is the one that was written. -/
structure Restores (hierarchy : Hierarchy) (b : Builder) (tree found : Class) : Prop where
  version : found.version = tree.version
  access : found.access = tree.access
  name : found.name = tree.name
  superName : found.superName = tree.superName
  interfaces : found.interfaces = tree.interfaces
  signature : found.signature = tree.signature
  sourceFile : found.sourceFile = tree.sourceFile
  innerClasses : found.innerClasses = tree.innerClasses
  fields : found.fields = tree.fields
  methods : List.Forall₂ (Method.Restores b (tree.setting ⟨false, false⟩ hierarchy)) tree.methods
    found.methods
  attributes : found.attributes = tree.attributes
  pool : found.pool = some b.table

section Attributes

variable {table : Table} {info : Cursor} {skip : Skip} {skipFrames : Bool}

theorem addAttribute_sourceFile {sourceFile : String}
    (h : info.parse (readText table) = .ok sourceFile) :
    addAttribute ⟨false, skipFrames⟩ (tree, table) "SourceFile" info =
      .ok ({ tree with sourceFile := some sourceFile }, table) := by
  change (Cursor.parse _ _ >>= _) = _
  rw [h]
  rfl

theorem addAttribute_signature {signature : String}
    (h : info.parse (readText table) = .ok signature) :
    addAttribute skip (tree, table) "Signature" info =
      .ok ({ tree with signature := some signature }, table) := by
  change (Cursor.parse _ _ >>= _) = _
  rw [h]
  rfl

theorem addAttribute_innerClasses {entries : List InnerClass}
    (h : info.parse (Reader.counted (readInnerClass table)) = .ok entries) :
    addAttribute skip (tree, table) "InnerClasses" info =
      .ok ({ tree with innerClasses := tree.innerClasses ++ entries }, table) := by
  change (Cursor.parse _ _ >>= _) = _
  rw [h]
  rfl

theorem addAttribute_bootstrapMethods {entries : List BootstrapMethod}
    (h : info.parse (Reader.counted BootstrapMethod.read) = .ok entries) :
    addAttribute skip (tree, table) "BootstrapMethods" info =
      .ok (tree, { table with bootstrap := table.bootstrap ++ entries }) := by
  change (Cursor.parse _ _ >>= _) = _
  rw [h]
  rfl

theorem addAttribute_other {name : String} (hsource : name ≠ "SourceFile")
    (hsignature : name ≠ "Signature") (hinner : name ≠ "InnerClasses")
    (hbootstrap : name ≠ "BootstrapMethods") :
    addAttribute ⟨false, skipFrames⟩ (tree, table) name info =
      .ok ({ tree with attributes := tree.attributes ++ [⟨name, info.rest⟩] }, table) := by
  unfold addAttribute
  dsimp only
  split
  · exact absurd rfl hsource
  · rfl
  · exact absurd rfl hsignature
  · exact absurd rfl hinner
  · exact absurd rfl hbootstrap
  · rfl

end Attributes

def step (skip : Skip) (state : Class × Table) (entry : String × Cursor) :
    Except Error (Class × Table) :=
  addAttribute skip state entry.1 entry.2

/-- The attributes of a class give back all of it but its members, and the bootstrap table. -/
theorem interprets_attributes {recompute : Code.Recompute} {stored : StoredClass}
    {skipFrames : Bool} (pool : Option Table) (h : tree.StoredAs b recompute hierarchy stored)
    (hc : tree.Canonical) (hcount : tree.innerClasses.length < 0x10000)
    (hboot : FitEntries BootstrapMethod.Fits b.bootstrap.toList) :
    Interprets (step ⟨false, skipFrames⟩) stored.attributes
      ({ tree with signature := none, sourceFile := none, innerClasses := [], attributes := [],
                   fields := [], methods := [], pool }, ⟨b.constants, #[]⟩)
      ({ tree with fields := [], methods := [], pool }, b.table) := by
  obtain ⟨sourceFile, signature, innerClasses, bootstrap, hall, hsource, hsignature, hinner,
    hbootstrap⟩ := h.attributes
  -- Nothing but the constants matters for what these attributes refer to.
  let plain : Table := ⟨b.constants, #[]⟩
  have hsource' : Interprets (step ⟨false, skipFrames⟩) sourceFile
      ({ tree with signature := none, sourceFile := none, innerClasses := [], attributes := [],
                   fields := [], methods := [], pool }, plain)
      ({ tree with signature := none, innerClasses := [], attributes := [], fields := [],
                   methods := [], pool }, plain) := by
    refine hsource.interprets (fun _ _ => trivial) (fun hn => by rw [hn])
      fun info text hsome hparse => ?_
    have hparse' : info.parse (readText plain) = .ok text := hparse
    rw [step, addAttribute_sourceFile hparse', hsome]
  have hsignature' : Interprets (step ⟨false, skipFrames⟩) signature
      ({ tree with signature := none, innerClasses := [], attributes := [], fields := [],
                   methods := [], pool }, plain)
      ({ tree with innerClasses := [], attributes := [], fields := [], methods := [], pool },
        plain) := by
    refine hsignature.interprets (fun _ _ => trivial) (fun hn => by rw [hn])
      fun info text hsome hparse => ?_
    have hparse' : info.parse (readText plain) = .ok text := hparse
    rw [step, addAttribute_signature hparse', hsome]
  have hinner' : Interprets (step ⟨false, skipFrames⟩) innerClasses
      ({ tree with innerClasses := [], attributes := [], fields := [], methods := [], pool }, plain)
      ({ tree with attributes := [], fields := [], methods := [], pool }, plain) := by
    refine hinner.interprets (fitEntries_nonempty? ⟨hcount, hc.innerClasses⟩)
      (fun hn => by rw [eq_nil_of_nonempty?_eq_none hn]) fun info entries hsome hparse => ?_
    have hparse' : info.parse (Reader.counted (readInnerClass plain)) = .ok entries := hparse
    rw [step, addAttribute_innerClasses hparse', List.nil_append, eq_of_mem_nonempty? hsome]
  have hkept : Interprets (step ⟨false, skipFrames⟩) tree.attributes
      ({ tree with attributes := [], fields := [], methods := [], pool }, plain)
      ({ tree with fields := [], methods := [], pool }, plain) :=
    @interprets_kept _ (step ⟨false, skipFrames⟩) tree.attributes
      (fun attributes => ({ tree with attributes, fields := [], methods := [], pool }, plain))
      (fun entry hm _ _ =>
        addAttribute_other (hc.attributes entry hm).1 (hc.attributes entry hm).2.1
          (hc.attributes entry hm).2.2.1 (hc.attributes entry hm).2.2.2) []
  have hbootstrap' : Interprets (step ⟨false, skipFrames⟩) bootstrap
      ({ tree with fields := [], methods := [], pool }, plain)
      ({ tree with fields := [], methods := [], pool }, b.table) := by
    refine hbootstrap.interprets (fitEntries_nonempty? hboot) (fun hn => ?_)
      fun info entries hsome hparse => ?_
    · have hempty : b.bootstrap = #[] := Array.toList_eq_nil_iff.mp (eq_nil_of_nonempty?_eq_none hn)
      rw [Builder.table, hempty]
    · rw [step, addAttribute_bootstrapMethods hparse, eq_of_mem_nonempty? hsome]
      rw [show plain.bootstrap ++ b.bootstrap.toList = b.bootstrap from
        Array.ext' Array.toList_appendList]
      rfl
  rw [hall]
  exact (((hsource'.append hsignature').append hinner').append hkept).append hbootstrap'

end Class

theorem run_readPrelude {version : Version} {contents : Bytes} {constants : Constants}
    {cursor : Cursor} (hsupported : version.isSupported = true)
    (h : Constants.read.run ⟨contents, 8, 0⟩ = .ok (constants, cursor)) :
    readPrelude.run (Cursor.ofBytes (BigEndian.u32 magic ++ version.encode ++ contents)) =
      .ok ((version, ⟨constants, #[]⟩), cursor) := by
  rw [Version.encode, List.append_assoc, List.append_assoc, readPrelude, Cursor.ofBytes,
    (reads_u32 magic 0).run_bind]
  dsimp only
  rw [if_neg (not_not_intro rfl), (reads_u16 version.minor _).run_bind,
    (reads_u16 version.major _).run_bind, if_neg (by simpa using hsupported), length_u32,
    length_u16, length_u16]
  exact run_bind_eq_ok.mpr ⟨constants, cursor, h, rfl⟩

/-- A class file is its magic number, its version and its contents. -/
theorem parse_readParts {version : Version} {contents : Bytes} {P : Parts → Prop}
    (hsupported : version.isSupported = true)
    (h : ∀ p, ReadsAs (readContents version) p contents P) :
    ∃ parts, P parts ∧ (Cursor.ofBytes (BigEndian.u32 magic ++ version.encode ++ contents)).parse
      readParts = .ok parts := by
  obtain ⟨parts, hparts, hrun⟩ := h 8 [] 0
  refine ⟨parts, hparts, ?_⟩
  obtain ⟨constants, c₁, h₁, hrun⟩ := run_bind_eq_ok.mp hrun
  obtain ⟨header, c₂, h₂, hrun⟩ := run_bind_eq_ok.mp hrun
  obtain ⟨fields, c₃, h₃, hrun⟩ := run_bind_eq_ok.mp hrun
  obtain ⟨methods, c₄, h₄, hrun⟩ := run_bind_eq_ok.mp hrun
  obtain ⟨attributes, c₅, h₅, hrun⟩ := run_bind_eq_ok.mp hrun
  obtain ⟨rfl, rfl⟩ := Prod.mk.inj (Except.ok.inj hrun)
  rw [List.append_nil] at h₁
  refine parse_eq_ok.mpr ⟨⟨[], 8 + contents.length, 0⟩,
    run_bind_eq_ok.mpr ⟨_, c₁, run_readPrelude hsupported h₁, ?_⟩⟩
  refine run_bind_eq_ok.mpr ⟨header, c₂, h₂, run_bind_eq_ok.mpr ⟨fields, c₃, h₃, ?_⟩⟩
  refine run_bind_eq_ok.mpr ⟨methods, c₄, h₄, run_bind_eq_ok.mpr ⟨attributes, _, h₅, ?_⟩⟩
  exact run_bind_eq_ok.mpr ⟨_, _, rfl, rfl⟩

/-- A class with a single method, which has only code, is read with the contents of its code
attribute. -/
theorem exists_parse_code {b : Builder} {version : Version} {access : UInt16} {info : Bytes}
    {name superName member descriptor : String} {at_ superAt memberAt descriptorAt codeAt : Index}
    (hsupported : version.isSupported = true) (hr : b.Reachable)
    (hpool : ∀ constant ∈ b.constants.toList, constant.Fits) (hplaces : b.constants.next < 0x10000)
    (hinfo : info.length < 0x100000000) (hname : Yields (Build.classRef name) b at_ b)
    (hsuper : Yields (Build.classRef superName) b superAt b)
    (hmember : Yields (Build.text member) b memberAt b)
    (hdescriptor : Yields (Build.text descriptor) b descriptorAt b)
    (hcode : Yields (Build.text "Code") b codeAt b) : ∃ base,
      (Cursor.ofBytes (u32 magic ++ version.encode ++ b.constants.encode ++
        (u16 0 ++ u16 at_ ++ u16 superAt ++ u16 0 ++ u16 0 ++ u16 1 ++ u16 access ++ u16 memberAt ++
          u16 descriptorAt ++ u16 1 ++ u16 codeAt) ++
        u32 (UInt32.ofNat info.length) ++ info ++ u16 0)).parse readParts =
        .ok (⟨version, .ofBits .ofClass 0, name, some superName, []⟩, ⟨b.constants, #[]⟩, [],
          [⟨access, member, descriptor, [("Code", ⟨info, 0, base⟩)]⟩], []) := by
  let stored : StoredClass :=
    ⟨0, name, some superName, [], [], [⟨access, member, descriptor, [⟨"Code", info⟩]⟩], []⟩
  have hs := hr.sound
  have hencoded : stored.EncodedAs b.table ⟨0, at_, superAt, [], [], [⟨access, memberAt,
      descriptorAt, [u16 codeAt ++ u32 (UInt32.ofNat info.length) ++ info]⟩], []⟩ :=
    { access := rfl
      name := className_found hname (.refl _) hs
      superName := @className?_found b (some superName) superAt hsuper hr
      interfaces := .nil
      fields := .nil
      methods := .cons ⟨rfl, text_found hmember (.refl _) hs, text_found hdescriptor (.refl _) hs,
        .cons ⟨codeAt, text_found hcode (.refl _) hs, rfl⟩ .nil⟩ .nil
      attributes := .nil }
  have hfits : stored.Fits b :=
    { constants := hpool
      places := hplaces
      interfaces := Nat.zero_lt_succ _
      fields := Nat.zero_lt_succ _
      methods := show 1 < 0x10000 by decide
      members := List.forall_mem_singleton.mpr
        ⟨show 1 < 0x10000 by decide, List.forall_mem_singleton.mpr hinfo⟩
      attributes := ⟨Nat.zero_lt_succ _, nofun⟩ }
  obtain ⟨⟨header, table, fields, methods, attributes⟩, hfound, hparse⟩ :=
    parse_readParts hsupported fun p => hencoded.readsAs_contents hr hfits p
  obtain rfl := hfound.header
  obtain rfl := hfound.table
  obtain rfl := List.forall₂_nil_left_iff.mp hfound.fields
  obtain rfl := List.forall₂_nil_left_iff.mp hfound.attributes
  obtain ⟨⟨_, _, _, attributes⟩, _, ⟨rfl, rfl, rfl, hattributes⟩, hnil, rfl⟩ :=
    List.forall₂_cons_left_iff.mp hfound.methods
  obtain rfl := List.forall₂_nil_left_iff.mp hnil
  obtain ⟨_, _, ⟨base, rfl⟩, hnil, rfl⟩ := List.forall₂_cons_left_iff.mp hattributes
  obtain rfl := List.forall₂_nil_left_iff.mp hnil
  refine ⟨base, Eq.trans (congrArg (fun bytes => (Cursor.ofBytes bytes).parse readParts) ?_) hparse⟩
  simp [EncodedClass.encode, EncodedMember.encode, BigEndian.counted]

/-- What succeeds for each element of a list, given what is stored and found for it, succeeds for
the list. -/
theorem exists_mapM_of_forall₂ {α β γ δ : Type} {R : α → β → Prop} {S : β → γ → Prop}
    {T : α → δ → Prop} {f : γ → Except Error δ} {items : List α} {stored : List β} {found : List γ}
    (h : List.Forall₂ R items stored) (h' : List.Forall₂ S stored found)
    (hf : ∀ item ∈ items, ∀ one ∈ stored, ∀ c, R item one → S one c → ∃ d, f c = .ok d ∧ T item d) :
    ∃ results, found.mapM f = .ok results ∧ List.Forall₂ T items results := by
  induction h generalizing found with
  | nil =>
    obtain rfl := List.forall₂_nil_left_iff.mp h'
    exact ⟨[], rfl, .nil⟩
  | @cons item one items stored hr _ ih =>
    obtain ⟨c, rest, hs, hrest, rfl⟩ := List.forall₂_cons_left_iff.mp h'
    obtain ⟨d, hd, ht⟩ := hf item List.mem_cons_self one List.mem_cons_self c hr hs
    obtain ⟨results, hresults, hall⟩ := ih hrest fun item hm one hm' =>
      hf item (List.mem_cons_of_mem _ hm) one (List.mem_cons_of_mem _ hm')
    refine ⟨d :: results, ?_, .cons ht hall⟩
    rw [mapM_eq_ok] at hresults ⊢
    exact .cons hd hresults

namespace Class

variable {b : Builder} {hierarchy : Hierarchy} {tree : Class} {stored : StoredClass}
  {encoded : EncodedClass}

/-- Members as they are stored have attributes that fit if they do as they are encoded. -/
theorem fitAttributes_members {α : Type} {encode : α → Build EncodedMember} {items : List α}
    {members : List StoredMember} {encoded : List EncodedMember}
    (h : List.Forall₂ (fun item member => Yields (encode item) b member b) items encoded)
    (he : List.Forall₂ (StoredMember.EncodedAs b.table) members encoded)
    (hf : ∀ item ∈ items, ∀ member,
      Yields (encode item) b member b → FitEncoded member.attributes) :
    ∀ member ∈ members, FitAttributes member.attributes := by
  induction he generalizing items with
  | nil => exact nofun
  | cons hmember _ ih =>
    obtain ⟨item, rest, hy, hrest, rfl⟩ := List.forall₂_cons_right_iff.mp h
    obtain ⟨hfirst, hlater⟩ := List.forall_mem_cons.mp hf
    exact List.forall_mem_cons.mpr
      ⟨(hfirst _ hy).fitAttributes hmember.attributes, ih hrest hlater⟩

theorem fits_stored (hf : tree.Fits hierarchy b)
    (hencodes : Encodes ⟨false, false⟩ hierarchy tree b encoded)
    (hstored : tree.StoredAs b ⟨false, false⟩ hierarchy stored)
    (hencoded : stored.EncodedAs b.table encoded) : stored.Fits b where
  constants := hf.constants
  places := hf.places
  interfaces := hstored.interfaces ▸ hf.interfaces
  fields := hstored.fields.length_eq ▸ hf.fields
  methods := hstored.methods.length_eq ▸ hf.methods
  members := List.forall_mem_append.mpr
    ⟨fitAttributes_members hencodes.fields hencoded.fields hf.fieldAttributes,
      fitAttributes_members hencodes.methods hencoded.methods hf.methodAttributes⟩
  attributes := (hf.attributes _ hencodes.attributes).fitAttributes hencoded.attributes

/-- What is found of a class is interpreted as the class, whatever its methods are. -/
theorem read_of_found {recompute : Code.Recompute} {skipFrames : Bool} {bytes : Bytes}
    {parts : Parts} {methods : List Method} (hc : tree.Canonical)
    (hcount : tree.innerClasses.length < 0x10000)
    (hboot : FitEntries BootstrapMethod.Fits b.bootstrap.toList)
    (hstored : tree.StoredAs b recompute hierarchy stored)
    (hfound : stored.FoundAs b tree.version parts)
    (hparse : (Cursor.ofBytes bytes).parse readParts = .ok parts)
    (hmethods : parts.2.2.2.1.mapM (Method.ofRaw tree.name b.table ⟨false, skipFrames⟩) =
      .ok methods) :
    Class.read ⟨false, skipFrames⟩ bytes = .ok { tree with methods, pool := some b.table } := by
  obtain ⟨header, table, rawFields, rawMethods, rawAttributes⟩ := parts
  obtain rfl : header = _ := hfound.header
  obtain rfl : table = _ := hfound.table
  obtain ⟨fields, hfields, hsame⟩ := exists_mapM_of_forall₂ (T := Eq) hstored.fields hfound.fields
    fun field hm _ _ raw hs hfound =>
      ⟨field, Field.ofRaw_of_stored hs hfound (hc.fields field hm), rfl⟩
  obtain rfl : tree.fields = fields := List.forall₂_eq_eq_eq ▸ hsame
  have hattributes := @interprets_attributes _ _ _ _ _ skipFrames (some ⟨b.constants, #[]⟩) hstored
    hc hcount hboot _ hfound.attributes
  have hheader : ofHeader ⟨tree.version, .ofBits .ofClass stored.access, stored.name,
      stored.superName, stored.interfaces⟩ ⟨b.constants, #[]⟩ =
        { tree with signature := none, sourceFile := none, innerClasses := [], attributes := [],
                    fields := [], methods := [], pool := some ⟨b.constants, #[]⟩ } := by
    rw [hstored.access, ← hc.access, hstored.name, hstored.superName, hstored.interfaces]
    rfl
  rw [← hheader] at hattributes
  refine bind_eq_ok.mpr ⟨_, hparse, bind_eq_ok.mpr ⟨_, hattributes, ?_⟩⟩
  refine bind_eq_ok.mpr ⟨_, hfields, bind_eq_ok.mpr ⟨methods, ?_, rfl⟩⟩
  rw [hstored.name]
  exact hmethods

/-- What is found of a class that was written without flags is interpreted as the class. -/
theorem exists_read_of_found {bytes : Bytes} {parts : Parts} (hr : b.Reachable)
    (hc : tree.Canonical) (hf : tree.Fits hierarchy b)
    (hstored : tree.StoredAs b ⟨false, false⟩ hierarchy stored) (hfits : stored.Fits b)
    (hfound : stored.FoundAs b tree.version parts)
    (hparse : (Cursor.ofBytes bytes).parse readParts = .ok parts) :
    ∃ found, Class.read ⟨false, false⟩ bytes = .ok found ∧ tree.Restores hierarchy b found := by
  have hsize : b.bootstrap.size ≤ 0x10000 := Nat.le_of_lt hf.bootstrap.1
  obtain ⟨methods, hmethods, hrestores⟩ := exists_mapM_of_forall₂
    (T := Method.Restores b (tree.setting ⟨false, false⟩ hierarchy)) hstored.methods hfound.methods
    fun method hm member hm' raw hs hfound => Method.exists_ofRaw_of_stored hr rfl hsize
      (hc.methods method hm) (hf.methodParts method hm)
      (hfits.members member (List.mem_append_right _ hm')) hs hfound
  exact ⟨_, read_of_found hc hf.innerClasses hf.bootstrap hstored hfound hparse hmethods,
    ⟨rfl, rfl, rfl, rfl, rfl, rfl, rfl, rfl, rfl, hrestores, rfl, rfl⟩⟩

/-- A class that is written without flags is read, and what is read is what was written. -/
theorem exists_read_of_write {bytes : Bytes} (hpool : tree.HasReadPool)
    (hsupported : tree.version.isSupported = true) (hc : tree.Canonical)
    (hf : ∀ body b, Yields (tree.encodeBody ⟨false, false⟩ hierarchy) tree.startingPool body b →
      tree.Fits hierarchy b)
    (h : tree.write ⟨false, false⟩ hierarchy = .ok bytes) :
    ∃ body b stored found,
      Yields (tree.encodeBody ⟨false, false⟩ hierarchy) tree.startingPool body b ∧
      tree.StoredAs b ⟨false, false⟩ hierarchy stored ∧
      Class.read ⟨false, false⟩ bytes = .ok found ∧ tree.Restores hierarchy b found := by
  obtain ⟨body, b, hy, rfl⟩ := write_eq_ok.mp h
  obtain ⟨-, hreach, encoded, hencodes, hbody⟩ := encodes_of_encodeBody hy
  have hr := hreach hpool.reachable
  obtain ⟨stored, hstored, hencoded⟩ := hencodes.exists_stored hr
  have hfits := fits_stored (hf body b hy) hencodes hstored hencoded
  obtain ⟨parts, hfound, hparse⟩ := parse_readParts hsupported fun p =>
    hencoded.readsAs_contents hr hfits p
  rw [← hbody] at hparse
  obtain ⟨found, hread, hrestores⟩ :=
    exists_read_of_found hr hc (hf body b hy) hstored hfits hfound hparse
  refine ⟨body, b, stored, found, hy, hstored, ?_, hrestores⟩
  rw [List.append_assoc]
  exact hread

/-- A class that is written without flags is read, and what is read is the class. Labels in its code
have to be those of the list that they stand in, as they are in a class that was read. -/
theorem restored_of_write {bytes : Bytes} (hpool : tree.HasReadPool)
    (hsupported : tree.version.isSupported = true) (hc : tree.Canonical)
    (howns : ∀ method ∈ tree.methods, method.body.Owns)
    (hf : ∀ body b, Yields (tree.encodeBody ⟨false, false⟩ hierarchy) tree.startingPool body b →
      tree.Fits hierarchy b)
    (h : tree.write ⟨false, false⟩ hierarchy = .ok bytes) :
    ∃ body b found, Yields (tree.encodeBody ⟨false, false⟩ hierarchy) tree.startingPool body b ∧
      Class.read ⟨false, false⟩ bytes = .ok found ∧ tree.Restores hierarchy b found ∧
      ∀ method ∈ tree.methods, method.KeepsCode b (tree.setting ⟨false, false⟩ hierarchy) := by
  obtain ⟨body, b, stored, found, hy, hstored, hread, hrestores⟩ :=
    exists_read_of_write hpool hsupported hc hf h
  refine ⟨body, b, found, hy, hread, hrestores, fun method hm => ?_⟩
  obtain ⟨hlength, hmembers⟩ := List.forall₂_iff_get.mp hstored.methods
  obtain ⟨i, hi, rfl⟩ := List.mem_iff_getElem.mp hm
  exact Method.keepsCode_of_stored rfl (howns _ hm) (hmembers i hi (hlength ▸ hi))

end Class

section Short

variable {α β : Type} {x : Build α} {f : α → Build β} {places places' entries entries' : Nat}

def Pool.Builder.Short (b : Builder) : Prop :=
  ∀ constant ∈ b.constants.toList, constant.Fits

/-- The computation succeeds with some room, and adds no text that is too long. -/
structure TakesShort (x : Build α) (places entries : Nat) : Prop where
  takes : Takes x places entries
  short : ∀ b a b', Yields x b a b' → b.Short → b'.Short

theorem takesShort_pure (a : α) : TakesShort (pure a) 0 0 := by
  refine ⟨takes_pure a, fun b a' b' hy hb => ?_⟩
  obtain ⟨-, rfl⟩ := yields_pure.mp hy
  exact hb

theorem TakesShort.bind (hx : TakesShort x places entries)
    (hf : ∀ a, TakesShort (f a) places' entries') :
    TakesShort (x >>= f) (places + places') (entries + entries') := by
  refine ⟨hx.takes.bind fun a => (hf a).takes, fun b c b'' hy hb => ?_⟩
  obtain ⟨a, b', hfirst, hsecond⟩ := yields_bind.mp hy
  exact (hf a).short b' c b'' hsecond (hx.short b a b' hfirst hb)

theorem takesShort_constant {constant : Constant} (h : constant.Fits) :
    TakesShort (Build.constant constant) 2 0 := by
  refine ⟨takes_constant constant, fun b index b' hy hb => ?_⟩
  rcases exec_constant constant b with ⟨_, -, he⟩ | ⟨-, -, he⟩ | ⟨-, he⟩
  · rwa [← (Prod.mk.inj (he.symm.trans hy)).2]
  · rw [← (Prod.mk.inj (he.symm.trans hy)).2]
    intro other hm
    have hm' : other ∈ (b.constants.add constant).toList := hm
    rw [Constants.toList_add, List.mem_append, List.mem_singleton] at hm'
    rcases hm' with hm' | rfl
    · exact hb other hm'
    · exact h
  · cases (Prod.mk.inj (he.symm.trans hy)).1

theorem takesShort_text {text : String} (h : (Text.ModifiedUtf8.encode text).length < 0x10000) :
    TakesShort (Build.text text) 2 0 :=
  takesShort_constant h

theorem takesShort_classRef {name : String}
    (h : (Text.ModifiedUtf8.encode name).length < 0x10000) : TakesShort (classRef name) 4 0 := by
  have hclass : ∀ index, TakesShort (Build.constant (.classRef index)) 2 0 :=
    fun _ => takesShort_constant trivial
  exact (takesShort_text h).bind hclass

theorem takesShort_attributeBytes {name : String} (info : Bytes)
    (h : (Text.ModifiedUtf8.encode name).length < 0x10000) :
    TakesShort (attributeBytes name info) 2 0 :=
  (takesShort_text h).bind fun _ => takesShort_pure _

theorem takesShort_bootstrapTable : TakesShort bootstrapTable 0 0 := by
  refine ⟨fun b _ h => ⟨_, b, rfl, h, Nat.le_refl _⟩, fun b entries b' hy hb => ?_⟩
  obtain ⟨-, rfl⟩ : b.bootstrap.toList = entries ∧ b = b' := yields_pure.mp hy
  exact hb

theorem takesShort_bootstrap (entries : List BootstrapMethod) :
    TakesShort (listAttribute "BootstrapMethods" (fun entry => pure entry.encode) entries) 2 0 := by
  refine ⟨Pushing.takes_bootstrap entries, fun b attributes b' hy hb => ?_⟩
  unfold listAttribute at hy
  rw [List.mapM_pure] at hy
  split at hy
  · exact (takesShort_pure _).short _ _ _ hy hb
  · exact ((takesShort_pure _).bind fun _ => (takesShort_attributeBytes _ (by decide)).bind
      fun _ => takesShort_pure _).short _ _ _ hy hb

theorem length_attributeBytes {b b' : Builder} {name : String} {info bytes : Bytes}
    (hy : Yields (attributeBytes name info) b bytes b') : bytes.length = info.length + 6 := by
  obtain ⟨index, middle, -, hp⟩ := yields_bind.mp hy
  obtain ⟨rfl, -⟩ := yields_pure.mp hp
  rw [List.length_append, List.length_append, length_u16, length_u32]
  omega

end Short

def Method.looping : Method :=
  { Method.declared (.ofBits .ofMethod 8) "m" "()V" with
    body := ⟨[.label ⟨0⟩, .line 7 ⟨0⟩, .jump .goto ⟨0⟩], 1⟩ }

def Field.five : Field :=
  ⟨.ofBits .ofField 8, "x", "I", none, some (.int 5), [⟨"Synthetic", []⟩]⟩

def Class.looping : Class :=
  ⟨⟨48, 0⟩, .ofBits .ofClass 0, "A", some "java/lang/Object", [], none, some "A.java", [], [.five],
    [.looping], [], none⟩

namespace Looping

def asIs : Code.Setting :=
  ⟨"A", ⟨48, 0⟩, ⟨false, false⟩, .library⟩

def laidOut : Code.LaidOut :=
  ⟨Method.looping.body.code, 1, #[0, 0, 0, 3]⟩

theorem yields_widen (b : Builder) : Method.looping.LaidOutAs b asIs laidOut :=
  Code.widen_of_short rfl (by decide)

def prepared : Code.Prepared :=
  ⟨laidOut.code, laidOut.offsets, [], ∅, 0, 0⟩

theorem yields_prepare (b : Builder) : Yields (Code.prepare asIs .looping) b prepared b := by
  have hlabels : Method.looping.checkLabels (asIs.displayName .looping) = .ok () :=
    Method.checkLabels_of_nodup (by decide) (by decide) _
  rw [Code.prepare, hlabels]
  exact yields_bind.mpr ⟨(), b, rfl, yields_bind.mpr ⟨_, b, yields_widen b, rfl⟩⟩

def lines : Bytes :=
  BigEndian.counted id (Code.lineEntries laidOut.labelOffsets laidOut.code)

def array : Bytes :=
  BigEndian.u8 Opcode.goto.byte ++
    BigEndian.i16 (Code.displacement 0 (laidOut.labelOffsets.at ⟨0⟩)).toInt16

/-- The code takes nothing from the pool but the names of attributes. -/
theorem attributeInfo_eq : Code.attributeInfo asIs .looping = (do
    let table ← attributeBytes "LineNumberTable" lines
    return Code.size16 0 ++ Code.size16 0 ++ BigEndian.u32 3 ++ array ++
      BigEndian.counted id [] ++ BigEndian.counted id [table]) := by
  have hprepare : Code.prepare asIs .looping = pure prepared :=
    eq_pure_of_yields yields_prepare
  have hencode : Code.encode prepared.code prepared.offsets prepared.labelOffsets = pure array :=
    rfl
  have hlines : Code.tableAttribute? "LineNumberTable"
      (Code.lineEntries prepared.labelOffsets prepared.code) = (do
        return [← attributeBytes "LineNumberTable" lines]) := rfl
  have hhandlers : Code.encodeHandlers prepared.labelOffsets prepared.handlers = pure [] := rfl
  have hvariables : Code.variableAttributes prepared.labelOffsets Method.looping.localVariables =
      pure [] := rfl
  have hframes : Code.frameAttribute asIs .looping prepared.offsets prepared.frames = pure [] := rfl
  rw [Code.attributeInfo, hprepare, pure_bind]
  dsimp only
  rw [hencode, pure_bind, hhandlers, pure_bind, hlines, hvariables, hframes, bind_assoc]
  rfl

theorem codeAttribute_eq : Method.looping.codeAttribute asIs = (do
    let info ← Code.attributeInfo asIs .looping
    return [← attributeBytes "Code" info]) := by
  have hcode : Method.looping.hasCode = true :=
    show (Method.declared (.ofBits .ofMethod 8) "m" "()V").hasCode = true by decide
  rw [Method.codeAttribute, hcode]
  rfl

theorem takesShort_encode : TakesShort (Method.looping.encode asIs) 8 0 := by
  have hinfo : TakesShort (Code.attributeInfo asIs .looping) 2 0 := by
    rw [attributeInfo_eq]
    exact (takesShort_attributeBytes _ (by decide)).bind fun _ => takesShort_pure _
  have hcode : TakesShort (Method.looping.codeAttribute asIs) 4 0 := by
    rw [codeAttribute_eq]
    exact hinfo.bind fun _ => (takesShort_attributeBytes _ (by decide)).bind fun _ =>
      takesShort_pure _
  have hname : TakesShort (Build.text "m") 2 0 := takesShort_text (by decide)
  have hdescriptor : TakesShort (Build.text "()V") 2 0 := takesShort_text (by decide)
  exact hname.bind fun _ => hdescriptor.bind fun _ => hcode.bind fun _ =>
    (takesShort_pure []).bind fun _ => (takesShort_pure []).bind fun _ =>
      (takesShort_pure []).bind fun _ => takesShort_pure _

theorem takesShort_five : TakesShort Field.five.encode 10 0 := by
  have hfive : TakesShort (Build.constant (.integer 5)) 2 0 := takesShort_constant trivial
  have hvalue : TakesShort (Field.valueAttribute (some (.int 5))) 4 0 :=
    hfive.bind fun _ => (takesShort_attributeBytes _ (by decide)).bind fun _ => takesShort_pure _
  have hraw : TakesShort (rawAttributes [⟨"Synthetic", []⟩]) 2 0 := by
    rw [rawAttributes, List.mapM_cons, List.mapM_nil]
    exact (takesShort_attributeBytes _ (by decide)).bind fun _ =>
      (takesShort_pure []).bind fun _ => takesShort_pure _
  have hname : TakesShort (Build.text "x") 2 0 := takesShort_text (by decide)
  have hdescriptor : TakesShort (Build.text "I") 2 0 := takesShort_text (by decide)
  exact hname.bind fun _ => hdescriptor.bind fun _ => hvalue.bind fun _ =>
    (takesShort_pure []).bind fun _ => hraw.bind fun _ => takesShort_pure _

theorem takesShort_encodeBody :
    TakesShort (Class.looping.encodeBody ⟨false, false⟩ .library) 32 0 := by
  have hfields : TakesShort ([Field.five].mapM Field.encode) 10 0 := by
    rw [List.mapM_cons, List.mapM_nil]
    exact takesShort_five.bind fun _ => (takesShort_pure []).bind fun _ => takesShort_pure _
  have hmethods : TakesShort ([Method.looping].mapM (Method.encode asIs)) 8 0 := by
    rw [List.mapM_cons, List.mapM_nil]
    exact takesShort_encode.bind fun _ => (takesShort_pure []).bind fun _ => takesShort_pure _
  have hsource : TakesShort (textAttribute "SourceFile" (some "A.java")) 4 0 :=
    (takesShort_text (by decide)).bind fun _ =>
      (takesShort_attributeBytes _ (by decide)).bind fun _ => takesShort_pure _
  have hattributes : TakesShort Class.looping.encodeAttributes 6 0 :=
    hsource.bind fun _ => (takesShort_pure []).bind fun _ => (takesShort_pure []).bind fun _ =>
      (takesShort_pure []).bind fun _ => takesShort_bootstrapTable.bind fun entries =>
        (takesShort_bootstrap entries).bind fun _ => takesShort_pure _
  have hname : TakesShort (classRef "A") 4 0 := takesShort_classRef (by decide)
  have hsuper : TakesShort (classRef "java/lang/Object") 4 0 := takesShort_classRef (by decide)
  exact hname.bind fun _ => hsuper.bind fun _ => (takesShort_pure []).bind fun _ =>
    hfields.bind fun _ => hmethods.bind fun _ => hattributes.bind fun _ => takesShort_pure _

variable {b b' : Builder}

theorem fitEncoded_five {encoded : EncodedMember} (hy : Yields Field.five.encode b encoded b') :
    FitEncoded encoded.attributes := by
  obtain ⟨name, b₁, -, hy⟩ := yields_bind.mp hy
  obtain ⟨descriptor, b₂, -, hy⟩ := yields_bind.mp hy
  obtain ⟨value, b₃, hvalue, hy⟩ := yields_bind.mp hy
  obtain ⟨index, b₄, -, hvalue⟩ := yields_bind.mp hvalue
  obtain ⟨bytes, b₅, hbytes, hp⟩ := yields_bind.mp hvalue
  obtain ⟨rfl, -⟩ := yields_pure.mp hp
  obtain ⟨signature, b₆, hsignature, hy⟩ := yields_bind.mp hy
  obtain ⟨rfl, -⟩ := yields_pure.mp hsignature
  obtain ⟨raw, b₇, hraw, hp⟩ := yields_bind.mp hy
  obtain ⟨rfl, -⟩ := yields_pure.mp hp
  rw [rawAttributes, Field.five, List.mapM_cons, List.mapM_nil] at hraw
  obtain ⟨synthetic, b₈, hsynthetic, hp⟩ := yields_bind.mp hraw
  obtain ⟨rfl, -⟩ := yields_pure.mp hp
  refine ⟨show 2 < 0x10000 by decide, fun other hm => ?_⟩
  have hother : other = bytes ∨ other = synthetic := by simpa using hm
  rcases hother with rfl | rfl
  · rw [length_attributeBytes hbytes, length_u16]
    decide
  · rw [length_attributeBytes hsynthetic]
    decide

theorem fitEncoded_looping {encoded : EncodedMember}
    (hy : Yields (Method.looping.encode asIs) b encoded b') : FitEncoded encoded.attributes := by
  obtain ⟨name, b₁, -, hy⟩ := yields_bind.mp hy
  obtain ⟨descriptor, b₂, -, hy⟩ := yields_bind.mp hy
  obtain ⟨code, b₃, hcode, hy⟩ := yields_bind.mp hy
  rw [codeAttribute_eq] at hcode
  obtain ⟨info, b₄, hinfo, hcode⟩ := yields_bind.mp hcode
  obtain ⟨bytes, b₅, hbytes, hp⟩ := yields_bind.mp hcode
  obtain ⟨rfl, -⟩ := yields_pure.mp hp
  rw [attributeInfo_eq] at hinfo
  obtain ⟨table, b₆, htable, hp⟩ := yields_bind.mp hinfo
  obtain ⟨rfl, -⟩ := yields_pure.mp hp
  obtain ⟨exceptions, b₇, hexceptions, hy⟩ := yields_bind.mp hy
  obtain ⟨rfl, -⟩ := yields_pure.mp hexceptions
  obtain ⟨signature, b₈, hsignature, hy⟩ := yields_bind.mp hy
  obtain ⟨rfl, -⟩ := yields_pure.mp hsignature
  obtain ⟨raw, b₉, hraw, hp⟩ := yields_bind.mp hy
  obtain ⟨rfl, -⟩ := yields_pure.mp hraw
  obtain ⟨rfl, -⟩ := yields_pure.mp hp
  refine ⟨show 1 < 0x10000 by decide, fun other hm => ?_⟩
  obtain rfl : other = bytes := by simpa using hm
  have hlines : lines.length = 6 := rfl
  have htotal : table.length = 12 := by rw [length_attributeBytes htable, hlines]
  have htables : (BigEndian.counted id [table]).length = 14 := by
    rw [BigEndian.counted, List.length_append, length_u16, List.flatMap_id, List.flatten_singleton,
      htotal]
  rw [length_attributeBytes hbytes, List.length_append, htables]
  decide

theorem fitEncoded_class {encoded : List Bytes} (hempty : b.bootstrap.size = 0)
    (hy : Yields Class.looping.encodeAttributes b encoded b) : FitEncoded encoded := by
  obtain ⟨sourceFile, b₁, signature, b₂, innerClasses, b₃, raw, b₄, bootstrap, h₁, h₂, h₃, h₄, h₅,
    rfl⟩ := Class.yields_encodeAttributes.mp hy
  obtain ⟨index, b₅, hindex, h₁⟩ := yields_bind.mp h₁
  obtain ⟨bytes, b₆, hbytes, hp⟩ := yields_bind.mp h₁
  obtain ⟨rfl, rfl⟩ := yields_pure.mp hp
  obtain ⟨rfl, rfl⟩ := yields_pure.mp h₂
  obtain ⟨rfl, rfl⟩ := yields_pure.mp h₃
  obtain ⟨rfl, rfl⟩ := yields_pure.mp h₄
  rw [← bootstrap_of_bootstrapAttribute h₅, Array.size_eq_zero_iff.mp hempty] at h₅
  obtain ⟨rfl, -⟩ := yields_pure.mp h₅
  refine ⟨show 1 < 0x10000 by decide, fun other hm => ?_⟩
  obtain rfl : other = bytes := by simpa using hm
  rw [length_attributeBytes hbytes, length_u16]
  decide

theorem canonical : Class.looping.Canonical where
  access := by decide
  innerClasses := nofun
  fields := fun field hm => by
    obtain rfl := List.mem_singleton.mp hm
    refine ⟨by decide, fun value hv => ?_, fun entry he => ?_⟩
    · obtain rfl := Option.some.inj hv
      trivial
    · obtain rfl := List.mem_singleton.mp he
      decide
  methods := fun method hm => by
    obtain rfl := List.mem_singleton.mp hm
    refine ⟨by decide, ?_, nofun⟩
    simp [Method.looping, Instruction.Canonical]
  attributes := nofun

/-- Everything that is counted in the class can be. -/
theorem fits (hplaces : b.constants.next ≤ 0xFFFF) (hempty : b.bootstrap.size = 0)
    (hshort : b.Short) : Class.looping.Fits .library b where
  constants := hshort
  places := Nat.lt_succ_of_le hplaces
  bootstrap := by
    rw [Array.size_eq_zero_iff.mp hempty]
    exact ⟨by decide, nofun⟩
  interfaces := by decide
  innerClasses := by decide
  fields := by decide
  fieldAttributes := fun field hm encoded hy => by
    obtain rfl := List.mem_singleton.mp hm
    exact fitEncoded_five hy
  methods := by decide
  methodAttributes := fun method hm encoded hy => by
    obtain rfl := List.mem_singleton.mp hm
    exact fitEncoded_looping hy
  methodParts := fun method hm => by
    obtain rfl := List.mem_singleton.mp hm
    refine ⟨by decide, fun found h => ?_⟩
    obtain rfl := h.value_eq (yields_widen b)
    exact ⟨by decide, show 1 < 0x10000 by decide, nofun, by simp [laidOut, Method.looping]⟩
  attributes := fun encoded hy => fitEncoded_class hempty hy

/-- The class is written, and read with its field and with a method that still loops. -/
theorem looping_restored : ∃ bytes b found,
    Class.looping.write ⟨false, false⟩ .library = .ok bytes ∧
    Class.read ⟨false, false⟩ bytes = .ok found ∧ found.fields = [.five] ∧
    found.sourceFile = some "A.java" ∧ Class.looping.Restores .library b found ∧
    Method.looping.KeepsCode b asIs := by
  obtain ⟨body, b, hy, hplaces, hsize⟩ := takesShort_encodeBody.takes .empty 0 (by decide)
  have hwrite := Class.write_eq_ok.mpr ⟨body, b, hy, rfl⟩
  have hpool : Class.looping.HasReadPool := nofun
  have hfits : ∀ other b', Yields (Class.looping.encodeBody ⟨false, false⟩ .library)
      Class.looping.startingPool other b' → Class.looping.Fits .library b' := by
    intro other b' hy'
    obtain rfl := (Prod.mk.inj (hy.symm.trans hy')).2
    exact fits hplaces (Nat.le_zero.mp hsize) (takesShort_encodeBody.short _ _ _ hy nofun)
  have howns : ∀ method ∈ Class.looping.methods, method.body.Owns := by
    intro method hm
    obtain rfl := List.mem_singleton.mp hm
    unfold Body.Owns
    decide
  obtain ⟨_, b', found, -, hread, hrestores, hkeeps⟩ :=
    Class.restored_of_write hpool (by decide) canonical howns hfits hwrite
  exact ⟨_, b', found, hwrite, hread, hrestores.fields, hrestores.sourceFile, hrestores,
    hkeeps _ List.mem_cons_self⟩

end Looping

/-- A condition that leads past a table of targets. -/
def Method.borrowing (targets : List Label) : Method :=
  { Method.declared (.ofBits .ofMethod 8) "m" "(I)V" with
    body := ⟨[.var .iload 0, .jump .ifeq ⟨0⟩, .var .iload 0, .tableSwitch 0 8999 ⟨0⟩ targets,
      .label ⟨0⟩, .plain .returnVoid], 0⟩
    maxStack := 1
    maxLocals := 1 }

def Class.borrowing (targets : List Label) : Class :=
  ⟨⟨48, 0⟩, .ofBits .ofClass 0, "A", some "java/lang/Object", [], none, none, [], [],
    [.borrowing targets], [], none⟩

namespace Borrowing

open Code
open Looping (asIs)

variable {targets : List Label} {b b' : Builder}

/-- After a round. The condition goes to the last of the two places of its label. -/
def once (targets : List Label) : Body :=
  ⟨[.var .iload 0, .jump .ifne ⟨0⟩, .jump .gotoWide ⟨0⟩, .label ⟨0⟩, .var .iload 0,
    .tableSwitch 0 8999 ⟨0⟩ targets, .label ⟨0⟩, .plain .returnVoid], 1⟩

/-- After another one, whether the condition holds or not makes no difference. -/
def twice (targets : List Label) : LaidOut :=
  ⟨[.var .iload 0, .jump .ifeq ⟨1⟩, .jump .gotoWide ⟨0⟩, .label ⟨1⟩, .jump .gotoWide ⟨0⟩,
    .label ⟨0⟩, .var .iload 0, .tableSwitch 0 8999 ⟨0⟩ targets, .label ⟨0⟩, .plain .returnVoid], 2,
    #[0, 1, 4, 9, 9, 14, 14, 15, 36028, 36028, 36029]⟩

theorem layout_borrowing (h : targets.length = 9000) (b : Builder) :
    Yields (layout (Method.borrowing targets).body.code) b
      #[0, 1, 4, 5, 36020, 36020, 36021] b := by
  have hsize : 5 + (1 + padding 5 + 12 + 4 * targets.length) = 36020 := by rw [h]; rfl
  have hlaid : Yields (layout (Method.borrowing targets).body.code) b
    (let next := 5 + (1 + padding 5 + 12 + 4 * targets.length);
      #[0, 1, 4, 5, next, next, next + 1]) b := rfl
  rwa [hsize] at hlaid

theorem layout_once (h : targets.length = 9000) (b : Builder) :
    Yields (layout (once targets).code) b #[0, 1, 4, 9, 9, 10, 36024, 36024, 36025] b := by
  have hsize : 10 + (1 + padding 10 + 12 + 4 * targets.length) = 36024 := by rw [h]; rfl
  have hlaid : Yields (layout (once targets).code) b
    (let next := 10 + (1 + padding 10 + 12 + 4 * targets.length);
      #[0, 1, 4, 9, 9, 10, next, next, next + 1]) b := rfl
  rwa [hsize] at hlaid

theorem layout_twice (h : targets.length = 9000) (b : Builder) :
    Yields (layout (twice targets).code) b (twice targets).offsets b := by
  have hsize : 15 + (1 + padding 15 + 12 + 4 * targets.length) = 36028 := by rw [h]; rfl
  have hlaid : Yields (layout (twice targets).code) b
    (let next := 15 + (1 + padding 15 + 12 + 4 * targets.length);
      #[0, 1, 4, 9, 9, 14, 14, 15, next, next, next + 1]) b := rfl
  rwa [hsize] at hlaid

theorem far_borrowing (targets : List Label) :
    isFar #[0, 1, 4, 5, 36020, 36020, 36021] (Method.borrowing targets).body.code
      (.jump .ifeq ⟨0⟩, 1) = true := by
  refine @isFar_of_at _ _ _ _ 4 _ rfl ?_ (by decide)
  change ((∅ : Flow.Positions).insert ⟨0⟩ 4).getD ⟨0⟩ 0 = 4
  rw [Std.HashMap.getD_insert_self]

theorem widenFar_borrowing (targets : List Label) :
    widenFar (isFar #[0, 1, 4, 5, 36020, 36020, 36021] (Method.borrowing targets).body.code)
      (Method.borrowing targets).body = once targets := by
  have hrest : ∀ entry ∈ ((Method.borrowing targets).body.code.drop 2).zipIdx 2,
      isFar #[0, 1, 4, 5, 36020, 36020, 36021] (Method.borrowing targets).body.code
        entry = false :=
    near_of_wide (by simp [Method.borrowing])
  exact @widenFar_of_single _ [_] _ ⟨(Method.borrowing targets).body.code.drop 2, 0⟩
    (near_of_wide (by simp)) (far_borrowing targets) hrest

theorem far_once (targets : List Label) :
    isFar #[0, 1, 4, 9, 9, 10, 36024, 36024, 36025] (once targets).code (.jump .ifne ⟨0⟩, 1) =
      true := by
  refine @isFar_of_at _ _ _ _ 6 _ rfl ?_ (by decide)
  change (((∅ : Flow.Positions).insert ⟨0⟩ 3).insert ⟨0⟩ 6).getD ⟨0⟩ 0 = 6
  rw [Std.HashMap.getD_insert_self]

theorem widenFar_once (targets : List Label) :
    widenFar (isFar #[0, 1, 4, 9, 9, 10, 36024, 36024, 36025] (once targets).code) (once targets) =
      ⟨(twice targets).code, 2⟩ := by
  have hrest : ∀ entry ∈ ((once targets).code.drop 2).zipIdx 2,
      isFar #[0, 1, 4, 9, 9, 10, 36024, 36024, 36025] (once targets).code entry = false := by
    refine near_of_wide fun op target index hm => ?_
    obtain ⟨⟨rfl, -⟩, -⟩ : (op = .gotoWide ∧ target = ⟨0⟩) ∧ index = 2 := by simpa [once] using hm
    rfl
  exact @widenFar_of_single _ [_] _ ⟨(once targets).code.drop 2, 1⟩
    (near_of_wide (by simp)) (far_once targets) hrest

theorem near_twice (targets : List Label) :
    (twice targets).code.zipIdx.any
      (isFar (twice targets).offsets (twice targets).code) = false := by
  have hat : (Flow.Positions.ofCode (twice targets).code).getD ⟨1⟩ 0 = 3 := by
    change ((((∅ : Flow.Positions).insert ⟨1⟩ 3).insert ⟨0⟩ 5).insert ⟨0⟩ 8).getD ⟨1⟩ 0 = 3
    rw [Std.HashMap.getD_insert, if_neg (by decide), Std.HashMap.getD_insert,
      if_neg (by decide), Std.HashMap.getD_insert_self]
  refine List.any_eq_false.mpr fun ⟨insn, index⟩ hm hfar => ?_
  obtain ⟨op, target, rfl, hop, hbeyond⟩ := isJumpBeyond_iff.mp hfar
  obtain ⟨⟨rfl, rfl⟩, rfl⟩ | ⟨⟨rfl, -⟩, -⟩ | ⟨⟨rfl, -⟩, -⟩ :
      ((op = .ifeq ∧ target = ⟨1⟩) ∧ index = 1) ∨ ((op = .gotoWide ∧ target = ⟨0⟩) ∧ index = 2) ∨
        (op = .gotoWide ∧ target = ⟨0⟩) ∧ index = 4 := by simpa [twice] using hm
  · dsimp only at hbeyond
    rw [hat] at hbeyond
    revert hbeyond
    change ¬ ((9 : Int) - 1 < -0x8000 ∨ (0x7FFF : Int) < 9 - 1)
    decide
  · cases hop
  · cases hop

/-- Two rounds are made, since the label of the first is the target as well. -/
theorem yields_widen (h : targets.length = 9000) (b : Builder) :
    (Method.borrowing targets).LaidOutAs b asIs (twice targets) := by
  refine widen_of_far (layout_borrowing h b) (by decide) ?_ ?_
  · exact List.any_eq_true.mpr ⟨_, List.mem_cons_of_mem _ List.mem_cons_self, far_borrowing targets⟩
  rw [widenFar_borrowing]
  refine widen_of_far (layout_once h b) (by decide) ?_ ?_
  · exact List.any_eq_true.mpr ⟨_, List.mem_cons_of_mem _ List.mem_cons_self, far_once targets⟩
  rw [widenFar_once]
  exact widen_of_near (layout_twice h b) (by decide) (near_twice targets)

def prepared (targets : List Label) : Prepared :=
  ⟨(twice targets).code, (twice targets).offsets, [], ∅, 1, 1⟩

theorem ready (h : targets.length = 9000) : Ready .empty (prepared targets) where
  laid := laid_of_layout (layout_twice h .empty)
  short := show 36029 ≤ 0xFFFF by decide
  frames := by simp [prepared]

theorem exists_array (h : targets.length = 9000) : ∃ array,
    encode (prepared targets).code (prepared targets).offsets (prepared targets).labelOffsets =
      pure array ∧ array.length = 36029 := by
  obtain ⟨array, harray⟩ : ∃ array, encode (prepared targets).code (prepared targets).offsets
    (prepared targets).labelOffsets = pure array := ⟨_, rfl⟩
  refine ⟨array, harray, ?_⟩
  have hy : Yields (encode (prepared targets).code (prepared targets).offsets
      (prepared targets).labelOffsets) .empty array .empty := by
    rw [harray]
    exact yields_pure.mpr ⟨rfl, rfl⟩
  obtain ⟨parts, middle, hparts, hp⟩ := yields_bind.mp hy
  obtain ⟨rfl, rfl⟩ := yields_pure.mp hp
  exact (ready h).length_parts (forall₂_of_mapM (fun _ => lawful_encodeInstruction _ _) hparts)

/-- The code takes nothing from the pool. -/
theorem exists_info (h : targets.length = 9000) (hall : ∀ label ∈ targets, label = ⟨0⟩) :
    ∃ info, attributeInfo asIs (.borrowing targets) = pure info ∧ info.length = 36041 := by
  obtain ⟨array, harray, hlength⟩ := exists_array h
  have hlabels : (Method.borrowing targets).checkLabels
      (asIs.displayName (.borrowing targets)) = .ok () := by
    have hnodup : (Method.borrowing targets).body.placed.Nodup := List.pairwise_singleton _ _
    refine Method.checkLabels_of_nodup hnodup ?_ _
    simpa [eq_comm, Method.references, Method.borrowing, Method.declared, Instruction.references,
      Body.placed, Instruction.placed?, Method.variableList] using hall
  have hprepare : prepare asIs (.borrowing targets) = pure (prepared targets) := by
    refine eq_pure_of_yields fun b => ?_
    rw [prepare, hlabels]
    exact yields_bind.mpr ⟨(), b, rfl, yields_bind.mpr ⟨_, b, yields_widen h b, rfl⟩⟩
  have htables :
      encodeHandlers (prepared targets).labelOffsets (prepared targets).handlers = pure [] ∧
      tableAttribute? "LineNumberTable" (lineEntries (prepared targets).labelOffsets
        (prepared targets).code) = pure [] := ⟨rfl, rfl⟩
  refine ⟨size16 1 ++ size16 1 ++ u32 (UInt32.ofNat array.length) ++ array ++
    BigEndian.counted id [] ++ BigEndian.counted id [], ?_, ?_⟩
  · rw [attributeInfo, hprepare, pure_bind]
    dsimp only
    rw [harray, pure_bind, htables.1, pure_bind, htables.2]
    rfl
  · simp [size16, hlength, BigEndian.counted]

theorem hasCode_borrowing (targets : List Label) : (Method.borrowing targets).hasCode = true :=
  show (Method.declared (.ofBits .ofMethod 8) "m" "(I)V").hasCode = true by decide

theorem writesCode_borrowing (targets : List Label) :
    (Method.borrowing targets).writesCode = true := by
  rw [Method.writesCode, hasCode_borrowing]
  rfl

theorem codeAttribute_eq {info : Bytes}
    (hinfo : attributeInfo asIs (.borrowing targets) = pure info) :
    (Method.borrowing targets).codeAttribute asIs = (do
      return [← attributeBytes "Code" info]) := by
  rw [Method.codeAttribute, hasCode_borrowing, hinfo]
  rfl

theorem takesShort_encode {info : Bytes}
    (hinfo : attributeInfo asIs (.borrowing targets) = pure info) :
    TakesShort ((Method.borrowing targets).encode asIs) 6 0 := by
  have hcode : TakesShort ((Method.borrowing targets).codeAttribute asIs) 2 0 := by
    rw [codeAttribute_eq hinfo]
    exact (takesShort_attributeBytes _ (by decide)).bind fun _ => takesShort_pure _
  have hname : TakesShort (Build.text "m") 2 0 := takesShort_text (by decide)
  have hdescriptor : TakesShort (Build.text "(I)V") 2 0 := takesShort_text (by decide)
  exact hname.bind fun _ => hdescriptor.bind fun _ => hcode.bind fun _ =>
    (takesShort_pure []).bind fun _ => (takesShort_pure []).bind fun _ =>
      (takesShort_pure []).bind fun _ => takesShort_pure _

theorem takesShort_encodeBody {info : Bytes}
    (hinfo : attributeInfo asIs (.borrowing targets) = pure info) :
    TakesShort ((Class.borrowing targets).encodeBody ⟨false, false⟩ .library) 16 0 := by
  have hmethods : TakesShort ([Method.borrowing targets].mapM (Method.encode asIs)) 6 0 := by
    rw [List.mapM_cons, List.mapM_nil]
    exact (takesShort_encode hinfo).bind fun _ => (takesShort_pure []).bind fun _ =>
      takesShort_pure _
  have hattributes : TakesShort (Class.borrowing targets).encodeAttributes 2 0 :=
    (takesShort_pure []).bind fun _ => (takesShort_pure []).bind fun _ =>
      (takesShort_pure []).bind fun _ => (takesShort_pure []).bind fun _ =>
        takesShort_bootstrapTable.bind fun entries =>
          (takesShort_bootstrap entries).bind fun _ => takesShort_pure _
  have hname : TakesShort (classRef "A") 4 0 := takesShort_classRef (by decide)
  have hsuper : TakesShort (classRef "java/lang/Object") 4 0 := takesShort_classRef (by decide)
  exact hname.bind fun _ => hsuper.bind fun _ => (takesShort_pure []).bind fun _ =>
    (takesShort_pure []).bind fun _ => hmethods.bind fun _ => hattributes.bind fun _ =>
      takesShort_pure _

theorem canonical (h : targets.length = 9000) : (Class.borrowing targets).Canonical where
  access := show AccessFlags.ofBits .ofClass 0 =
    .ofBits .ofClass (AccessFlags.ofBits .ofClass 0).bits
    by decide
  innerClasses := nofun
  fields := nofun
  methods := fun method hm => by
    obtain rfl := List.mem_singleton.mp hm
    refine ⟨show AccessFlags.ofBits .ofMethod 8 =
      .ofBits .ofMethod (AccessFlags.ofBits .ofMethod 8).bits by decide, ?_, nofun⟩
    simp [Method.borrowing, Instruction.Canonical, h]
    decide
  attributes := nofun

theorem fitEncoded_borrowing {info : Bytes} {encoded : EncodedMember}
    (hinfo : attributeInfo asIs (.borrowing targets) = pure info) (hlength : info.length = 36041)
    (hy : Yields ((Method.borrowing targets).encode asIs) b encoded b') :
    FitEncoded encoded.attributes := by
  obtain ⟨name, b₁, -, hy⟩ := yields_bind.mp hy
  obtain ⟨descriptor, b₂, -, hy⟩ := yields_bind.mp hy
  obtain ⟨code, b₃, hcode, hy⟩ := yields_bind.mp hy
  rw [codeAttribute_eq hinfo] at hcode
  obtain ⟨bytes, b₄, hbytes, hp⟩ := yields_bind.mp hcode
  obtain ⟨rfl, -⟩ := yields_pure.mp hp
  obtain ⟨exceptions, b₅, hexceptions, hy⟩ := yields_bind.mp hy
  obtain ⟨rfl, -⟩ := yields_pure.mp hexceptions
  obtain ⟨signature, b₆, hsignature, hy⟩ := yields_bind.mp hy
  obtain ⟨rfl, -⟩ := yields_pure.mp hsignature
  obtain ⟨raw, b₇, hraw, hy⟩ := yields_bind.mp hy
  obtain ⟨rfl, -⟩ := yields_pure.mp hraw
  obtain ⟨rfl, -⟩ := yields_pure.mp hy
  refine ⟨show 1 < 0x10000 by decide, fun other hm => ?_⟩
  obtain rfl : other = bytes := by simpa using hm
  rw [length_attributeBytes hbytes, hlength]
  decide

theorem fitEncoded_class {encoded : List Bytes} (hempty : b.bootstrap.size = 0)
    (hy : Yields (Class.borrowing targets).encodeAttributes b encoded b) : FitEncoded encoded := by
  obtain ⟨sourceFile, b₁, signature, b₂, innerClasses, b₃, raw, b₄, bootstrap, h₁, h₂, h₃, h₄, h₅,
    rfl⟩ := Class.yields_encodeAttributes.mp hy
  obtain ⟨rfl, rfl⟩ := yields_pure.mp h₁
  obtain ⟨rfl, rfl⟩ := yields_pure.mp h₂
  obtain ⟨rfl, rfl⟩ := yields_pure.mp h₃
  obtain ⟨rfl, rfl⟩ := yields_pure.mp h₄
  rw [← bootstrap_of_bootstrapAttribute h₅, Array.size_eq_zero_iff.mp hempty] at h₅
  obtain ⟨rfl, -⟩ := yields_pure.mp h₅
  exact ⟨show 0 < 0x10000 by decide, nofun⟩

theorem fits {info : Bytes} (h : targets.length = 9000)
    (hinfo : attributeInfo asIs (.borrowing targets) = pure info) (hlength : info.length = 36041)
    (hplaces : b.constants.next ≤ 0xFFFF) (hempty : b.bootstrap.size = 0) (hshort : b.Short) :
    (Class.borrowing targets).Fits .library b where
  constants := hshort
  places := Nat.lt_succ_of_le hplaces
  bootstrap := by
    rw [Array.size_eq_zero_iff.mp hempty]
    exact ⟨by decide, nofun⟩
  interfaces := show 0 < 0x10000 by decide
  innerClasses := show 0 < 0x10000 by decide
  fields := show 0 < 0x10000 by decide
  fieldAttributes := nofun
  methods := show 1 < 0x10000 by decide
  methodAttributes := fun method hm encoded hy => by
    obtain rfl := List.mem_singleton.mp hm
    exact fitEncoded_borrowing hinfo hlength hy
  methodParts := fun method hm => by
    obtain rfl := List.mem_singleton.mp hm
    refine ⟨show 0 < 0x10000 by decide, fun found hfound => ?_⟩
    obtain rfl := hfound.value_eq (yields_widen h b)
    exact ⟨show 0 < 0x10000 by decide, show 0 < 0x10000 by decide, nofun, by simp [twice]⟩
  attributes := fun encoded hy => fitEncoded_class hempty hy

theorem instructions_twice (targets : List Label) (hall : ∀ label ∈ targets, label = ⟨0⟩) :
    (twice targets).instructions = [(0, .var .iload 0), (1, .jump .ifeq 9), (4, .jump .goto 36028),
      (9, .jump .goto 36028), (14, .var .iload 0),
      (15, .tableSwitch 0 8999 36028 (targets.map fun _ => 36028)),
      (36028, .plain .returnVoid)] := by
  have hskip : (twice targets).offsetOf ⟨1⟩ = 9 := by
    change ((((∅ : LabelOffsets).insert ⟨1⟩ 9).insert ⟨0⟩ 14).insert ⟨0⟩ 36028).getD ⟨1⟩ 0 = 9
    rw [Std.HashMap.getD_insert, if_neg (by decide), Std.HashMap.getD_insert,
      if_neg (by decide), Std.HashMap.getD_insert_self]
  have hend : (twice targets).offsetOf ⟨0⟩ = 36028 := by
    change ((((∅ : LabelOffsets).insert ⟨1⟩ 9).insert ⟨0⟩ 14).insert ⟨0⟩ 36028).getD ⟨0⟩ 0 = 36028
    rw [Std.HashMap.getD_insert_self]
  have htargets : targets.map (twice targets).offsetOf = targets.map fun _ => 36028 :=
    List.map_congr_left fun label hm => by rw [hall label hm, hend]
  change [_, (_, normal (.jump .ifeq ((twice targets).offsetOf ⟨1⟩))),
    (_, .jump .goto ((twice targets).offsetOf ⟨0⟩)),
    (_, .jump .goto ((twice targets).offsetOf ⟨0⟩)), _,
    (_, .tableSwitch 0 8999 ((twice targets).offsetOf ⟨0⟩)
      (targets.map (twice targets).offsetOf)), _] = _
  rw [hskip, hend, htargets]
  rfl

end Borrowing

open Borrowing in
/-- With a label that the list has not handed out, another class is read: either way the condition
leads to the end. -/
theorem Class.borrowing_notRestored :
    let tree := Class.borrowing (List.replicate 9000 ⟨0⟩)
    tree.HasReadPool ∧ tree.version.isSupported = true ∧ tree.Canonical ∧
    (∀ body b, Yields (tree.encodeBody ⟨false, false⟩ .library) tree.startingPool body b →
      tree.Fits .library b) ∧
    ∃ bytes, tree.write ⟨false, false⟩ .library = .ok bytes ∧
      (∃ found method place, Class.read ⟨false, false⟩ bytes = .ok found ∧
        found.methods = [method] ∧
        (Code.resolved place (Code.standing 36029 [0, 1, 4, 9, 14, 15, 36028]
          method.body.code)).filter (fun entry => !entry.2.isMarker) =
          [(0, .var .iload 0), (1, .jump .ifeq 9), (4, .jump .goto 36028), (9, .jump .goto 36028),
            (14, .var .iload 0), (15, .tableSwitch 0 8999 36028 (List.replicate 9000 36028)),
            (36028, .plain .returnVoid)]) ∧
      ¬ ∃ body b found, Yields (tree.encodeBody ⟨false, false⟩ .library) tree.startingPool body b ∧
        Class.read ⟨false, false⟩ bytes = .ok found ∧ tree.Restores .library b found ∧
        ∀ method ∈ tree.methods, method.KeepsCode b (tree.setting ⟨false, false⟩ .library) := by
  have h : (List.replicate 9000 (⟨0⟩ : Label)).length = 9000 := List.length_replicate
  have hall : ∀ label ∈ List.replicate 9000 (⟨0⟩ : Label), label = ⟨0⟩ :=
    fun _ => List.eq_of_mem_replicate
  have hpast :
      (List.replicate 9000 (⟨0⟩ : Label)).map (fun _ => 36028) = List.replicate 9000 36028 :=
    List.map_replicate
  generalize List.replicate 9000 (⟨0⟩ : Label) = targets at *
  obtain ⟨info, hinfo, hlength⟩ := exists_info h hall
  have hshort := takesShort_encodeBody hinfo
  obtain ⟨body, b, hy, hplaces, hsize⟩ := hshort.takes .empty 0 (by decide)
  have hwrite := Class.write_eq_ok.mpr ⟨body, b, hy, rfl⟩
  have hpool : (Class.borrowing targets).HasReadPool := nofun
  have hfits : ∀ other b', Yields ((Class.borrowing targets).encodeBody ⟨false, false⟩ .library)
      (Class.borrowing targets).startingPool other b' →
        (Class.borrowing targets).Fits .library b' := by
    intro other b' hy'
    obtain rfl := (Prod.mk.inj (hy.symm.trans hy')).2
    exact fits h hinfo hlength hplaces (Nat.le_zero.mp hsize) (hshort.short _ _ _ hy nofun)
  refine ⟨hpool, show Version.isSupported ⟨48, 0⟩ = true by decide, canonical h, hfits, _, hwrite,
    ?_, ?_⟩
  · obtain ⟨_, b', stored, found, -, -, hread, hrestores⟩ :=
      Class.exists_read_of_write hpool (show Version.isSupported ⟨48, 0⟩ = true by decide)
        (canonical h) hfits hwrite
    obtain ⟨method, rest, hmethod, hrest, hmethods⟩ :=
      List.forall₂_cons_left_iff.mp hrestores.methods
    obtain rfl := List.forall₂_nil_left_iff.mp hrest
    obtain ⟨laidOut, place, hlaid, -, hrecovers⟩ := hmethod.code (writesCode_borrowing targets)
    obtain rfl := hlaid.value_eq (yields_widen h b')
    refine ⟨found, method, place, hread, hmethods, ?_⟩
    have hinstructions := hrecovers.instructions
    rw [instructions_twice targets hall, hpast] at hinstructions
    exact hinstructions
  · rintro ⟨_, b', found, -, -, -, hkeeps⟩
    obtain ⟨-, hnodup⟩ := hkeeps _ List.mem_cons_self (writesCode_borrowing targets)
      (twice targets) (yields_widen h b')
    revert hnodup
    change ¬ [(⟨1⟩ : Label), ⟨0⟩, ⟨0⟩].Nodup
    decide

end ClassTree
