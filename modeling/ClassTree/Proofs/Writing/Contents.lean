import ClassTree.Proofs.Writing.Parts

namespace ClassTree

open Pool Build BigEndian Reader

variable {b : Builder} {encoded : List Bytes} {α : Type}

theorem className?_found {name : Option String} {index : Index}
    (hy : Yields (classRef? name) b index b) (hr : b.Reachable) :
    b.table.className? index = .ok name := by
  cases name with
  | none =>
    obtain ⟨rfl, -⟩ := yields_pure.mp hy
    rfl
  | some name =>
    obtain ⟨place, middle, -, hc⟩ := yields_bind.mp hy
    rw [Table.className?, if_neg (hr.ne_zero (get_constant hc (.refl _) hr.sound)),
      className_found hy (.refl _) hr.sound]
    rfl

theorem text?_found {text : Option String} {index : Index} (hy : Yields (text? text) b index b)
    (hr : b.Reachable) : b.table.text? index = .ok text := by
  cases text with
  | none =>
    obtain ⟨rfl, -⟩ := yields_pure.mp hy
    rfl
  | some text =>
    rw [Table.text?, if_neg (hr.ne_zero (get_constant hy (.refl _) hr.sound)),
      text_found hy (.refl _) hr.sound]
    rfl

/-- There is an attribute exactly if there is a value, and it is read as that value, if that
fits. -/
def Holds (name : String) (reader : Reader α) (fits : α → Prop) (value : Option α)
    (attributes : List RawAttribute) : Prop :=
  match value with
  | none => attributes = []
  | some a => ∃ info, attributes = [⟨name, info⟩] ∧ (fits a → Reads reader 0 info a)

def FitEntries (fits : α → Prop) (items : List α) : Prop :=
  items.length < 0x10000 ∧ ∀ a ∈ items, fits a

def nonempty? (items : List α) : Option (List α) :=
  if items.isEmpty then none else some items

section Nonempty

variable {items entries : List α}

theorem eq_nil_of_nonempty?_eq_none (h : nonempty? items = none) : items = [] := by
  unfold nonempty? at h
  split at h
  · rename_i hempty
    exact List.isEmpty_iff.mp hempty
  · cases h

theorem eq_of_mem_nonempty? (h : entries ∈ nonempty? items) : entries = items := by
  unfold nonempty? at h
  split at h
  · cases h
  · exact (Option.some.inj h).symm

theorem flatMap_nonempty? (items : List α) :
    (nonempty? items).toList.flatMap (fun entries => entries) = items := by
  cases h : nonempty? items with
  | none => rw [eq_nil_of_nonempty?_eq_none h]; rfl
  | some entries => rw [eq_of_mem_nonempty? h]; exact List.append_nil items

theorem fitEntries_nonempty? {fits : α → Prop} (h : FitEntries fits items) :
    ∀ entries ∈ nonempty? items, FitEntries fits entries := by
  intro entries hm
  rwa [eq_of_mem_nonempty? hm]

end Nonempty

/-- Attributes that hold the index of something. -/
theorem exists_holds_index {x : Build Index} {name : String} {look : Index → Except Error α} {a : α}
    {fits : α → Prop}
    (hx : ∀ {index b'}, Yields x b index b' → b'.Within b → fits a → look index = .ok a)
    (hy : Yields (do
      let index ← x
      return [← attributeBytes name (u16 index)]) b encoded b) (hs : b.Sound) :
    ∃ attributes, List.Forall₂ (RawAttribute.EncodedAs b.table) attributes encoded ∧
      Holds name (do look (← Reader.u16)) fits (some a) attributes := by
  obtain ⟨index, b₁, hindex, hy⟩ := yields_bind.mp hy
  obtain ⟨bytes, b₂, hbytes, hp⟩ := yields_bind.mp hy
  obtain ⟨rfl, rfl⟩ := yields_pure.mp hp
  have hlawful := Code.lawful_attributeBytes name (u16 index)
  refine ⟨[⟨name, u16 index⟩], .cons ?_ .nil, u16 index, rfl, fun hfits => ?_⟩
  · exact encodedAs_attributeBytes (hlawful.again hbytes (.refl _)) hs
  · exact (reads_u16 index 0).bind (reads_lift (hx hindex (hlawful.grows hbytes) hfits) _)

theorem exists_holds_textAttribute {name : String} {text : Option String}
    (hy : Yields (textAttribute name text) b encoded b) (hs : b.Sound) :
    ∃ attributes, List.Forall₂ (RawAttribute.EncodedAs b.table) attributes encoded ∧
      Holds name (readText b.table) (fun _ => True) text attributes := by
  cases text with
  | none =>
    obtain ⟨rfl, -⟩ := yields_pure.mp hy
    exact ⟨[], .nil, rfl⟩
  | some text => exact exists_holds_index (fun hi hw _ => text_found hi hw hs) hy hs

theorem exists_holds_valueAttribute {value : Option Literal}
    (hy : Yields (Field.valueAttribute value) b encoded b) (hs : b.Sound) :
    ∃ attributes, List.Forall₂ (RawAttribute.EncodedAs b.table) attributes encoded ∧
      Holds "ConstantValue" (do b.table.literal (← Reader.u16)) Literal.Canonical value
        attributes := by
  cases value with
  | none =>
    obtain ⟨rfl, -⟩ := yields_pure.mp hy
    exact ⟨[], .nil, rfl⟩
  | some value =>
    exact exists_holds_index (fun hi hw hcanonical => literal_found hcanonical hi hw hs) hy hs

theorem exists_holds_listAttribute {name : String} {item : α → Build Bytes} {reader : Reader α}
    {fits : α → Prop} {items : List α} (hlawful : ∀ a, Lawful (item a))
    (hitem : ∀ {a bytes}, fits a → Yields (item a) b bytes b → ∀ p, Reads reader p bytes a)
    (hy : Yields (listAttribute name item items) b encoded b) (hs : b.Sound) :
    ∃ attributes, List.Forall₂ (RawAttribute.EncodedAs b.table) attributes encoded ∧
      Holds name (Reader.counted reader) (FitEntries fits) (nonempty? items) attributes := by
  unfold listAttribute at hy
  unfold nonempty?
  split at hy
  · rename_i hempty
    obtain ⟨rfl, -⟩ := yields_pure.mp hy
    rw [if_pos hempty]
    exact ⟨[], .nil, rfl⟩
  · rename_i hfull
    obtain ⟨entries, b₁, hentries, hy⟩ := yields_bind.mp hy
    obtain ⟨bytes, b₂, hbytes, hp⟩ := yields_bind.mp hy
    obtain ⟨rfl, rfl⟩ := yields_pure.mp hp
    have hinfo := Code.lawful_attributeBytes name (counted id entries)
    rw [if_neg hfull]
    refine ⟨[⟨name, counted id entries⟩], .cons ?_ .nil, _, rfl, fun hfits => ?_⟩
    · exact encodedAs_attributeBytes (hinfo.again hbytes (.refl _)) hs
    · have hall := forall₂_of_mapM hlawful hentries
      refine reads_counted ?_ (hall.length_eq ▸ hfits.1) 0
      exact ((forall₂_and_mem hall hfits.2).imp fun a bytes ha =>
        hitem ha.1 ((hlawful a).again ha.2 (hinfo.grows hbytes))).flip

theorem forall₂_rawAttributes {attributes : List RawAttribute}
    (hy : Yields (rawAttributes attributes) b encoded b) (hs : b.Sound) :
    List.Forall₂ (RawAttribute.EncodedAs b.table) attributes encoded :=
  (forall₂_of_mapM (fun _ => Code.lawful_attributeBytes _ _) hy).imp fun _ _ hbytes =>
    encodedAs_attributeBytes hbytes hs

def readException (table : Table) : Reader String := do
  table.className (← Reader.u16)

theorem reads_exception {name : String} {bytes : Bytes} (hs : b.Sound)
    (hy : Yields (do return u16 (← Build.classRef name)) b bytes b) (p : Nat) :
    Reads (readException b.table) p bytes name := by
  obtain ⟨index, b', hindex, hp⟩ := yields_bind.mp hy
  obtain ⟨rfl, rfl⟩ := yields_pure.mp hp
  exact (reads_u16 index p).bind (reads_lift (className_found hindex (.refl _) hs) _)

def InnerClass.Canonical (entry : InnerClass) : Prop :=
  entry.access = .ofBits .ofInnerClass entry.access.bits

theorem reads_innerClass {entry : InnerClass} {bytes : Bytes} (hr : b.Reachable)
    (hc : entry.Canonical) (hy : Yields entry.encode b bytes b) (p : Nat) :
    Reads (readInnerClass b.table) p bytes entry := by
  obtain ⟨inner, b₁, hinner, hy⟩ := yields_bind.mp hy
  obtain ⟨outer, b₂, houter, hy⟩ := yields_bind.mp hy
  obtain ⟨simple, b₃, hsimple, hp⟩ := yields_bind.mp hy
  obtain ⟨rfl, rfl⟩ := yields_pure.mp hp
  have hw₂ := (lawful_text? _).grows hsimple
  have hw₁ := ((lawful_classRef? _).grows houter).trans hw₂
  have hname := className_found hinner hw₁ hr.sound
  have houter' := className?_found ((lawful_classRef? _).again houter hw₂) hr
  have hsimple' := text?_found ((lawful_text? _).again hsimple (.refl _)) hr
  rw [List.append_assoc, List.append_assoc]
  refine (reads_u16 _ p).bind ((reads_u16 _ _).bind ((reads_u16 _ _).bind
    ((reads_u16 _ _).bind_nil ((reads_lift hname _).bind_nil ((reads_lift houter' _).bind_nil
      ((reads_lift hsimple' _).bind_pure ?_))))))
  rw [← hc]

def Pool.BootstrapMethod.Fits (entry : BootstrapMethod) : Prop :=
  entry.arguments.length < 0x10000

theorem reads_bootstrapMethod {entry : BootstrapMethod} (h : entry.Fits) (p : Nat) :
    Reads BootstrapMethod.read p entry.encode entry := by
  have harguments : List.Forall₂ (fun index found => ∀ p, Reads Reader.u16 p (u16 index) found)
      entry.arguments entry.arguments :=
    List.forall₂_same.mpr fun index _ p => reads_u16 index p
  exact (reads_u16 entry.handle p).bind ((reads_counted harguments h _).map
    (BootstrapMethod.mk entry.handle))

namespace Field

structure StoredAs (b : Builder) (field : Field) (stored : StoredMember) : Prop where
  access : stored.access = field.access.bits
  name : stored.name = field.name
  descriptor : stored.descriptor = field.descriptor
  attributes : ∃ value signature, stored.attributes = value ++ signature ++ field.attributes ∧
    Holds "ConstantValue" (do b.table.literal (← Reader.u16)) Literal.Canonical field.value value ∧
    Holds "Signature" (readText b.table) (fun _ => True) field.signature signature

theorem exists_stored {field : Field} {encoded : EncodedMember}
    (hy : Yields field.encode b encoded b) (hs : b.Sound) :
    ∃ stored, StoredMember.EncodedAs b.table stored encoded ∧ field.StoredAs b stored := by
  obtain ⟨name, b₁, hname, hy⟩ := yields_bind.mp hy
  obtain ⟨descriptor, b₂, hdescriptor, hy⟩ := yields_bind.mp hy
  obtain ⟨value, b₃, hvalue, hy⟩ := yields_bind.mp hy
  obtain ⟨signature, b₄, hsignature, hy⟩ := yields_bind.mp hy
  obtain ⟨raw, b₅, hraw, hp⟩ := yields_bind.mp hy
  obtain ⟨rfl, rfl⟩ := yields_pure.mp hp
  have w₄ := (lawful_rawAttributes _).grows hraw
  have w₃ := ((lawful_textAttribute _ _).grows hsignature).trans w₄
  have w₂ := ((lawful_valueAttribute _).grows hvalue).trans w₃
  have w₁ := ((lawful_text _).grows hdescriptor).trans w₂
  obtain ⟨values, hvalues, hholds⟩ := exists_holds_valueAttribute
    ((lawful_valueAttribute _).again hvalue w₃) hs
  obtain ⟨signatures, hsignatures, hholds'⟩ := exists_holds_textAttribute
    ((lawful_textAttribute _ _).again hsignature w₄) hs
  have hraws := forall₂_rawAttributes ((lawful_rawAttributes _).again hraw (.refl _)) hs
  exact ⟨⟨field.access.bits, field.name, field.descriptor, values ++ signatures ++
    field.attributes⟩, ⟨rfl, text_found hname w₁ hs, text_found hdescriptor w₂ hs,
      List.rel_append (List.rel_append hvalues hsignatures) hraws⟩,
    rfl, rfl, rfl, values, signatures, rfl, hholds, hholds'⟩

end Field

namespace Method

def StoresCode (b : Builder) (setting : Code.Setting) (method : Method)
    (attributes : List RawAttribute) : Prop :=
  if method.hasCode && !method.body.code.isEmpty then
    ∃ info, attributes = [⟨"Code", info⟩] ∧ Yields (Code.attributeInfo setting method) b info b
  else attributes = []

theorem exists_storesCode {setting : Code.Setting} {method : Method}
    (hy : Yields (method.codeAttribute setting) b encoded b) (hs : b.Sound) :
    ∃ attributes, List.Forall₂ (RawAttribute.EncodedAs b.table) attributes encoded ∧
      method.StoresCode b setting attributes := by
  unfold codeAttribute at hy
  unfold StoresCode
  split at hy
  · rename_i hhas
    obtain ⟨info, b₁, hinfo, hy⟩ := yields_bind.mp hy
    obtain ⟨bytes, b₂, hbytes, hp⟩ := yields_bind.mp hy
    obtain ⟨rfl, rfl⟩ := yields_pure.mp hp
    have hlawful := Code.lawful_attributeBytes "Code" info
    simp only [if_pos hhas]
    exact ⟨[⟨"Code", info⟩],
      .cons (encodedAs_attributeBytes (hlawful.again hbytes (.refl _)) hs) .nil, info, rfl,
      (Code.lawful_attributeInfo _ _).again hinfo (hlawful.grows hbytes)⟩
  · rename_i hnone
    obtain ⟨rfl, -⟩ := yields_pure.mp hy
    simp only [if_neg hnone]
    exact ⟨[], .nil, rfl⟩

structure StoredAs (b : Builder) (setting : Code.Setting) (method : Method)
    (stored : StoredMember) : Prop where
  access : stored.access = method.access.bits
  name : stored.name = method.name
  descriptor : stored.descriptor = method.descriptor
  attributes : ∃ code exceptions signature,
    stored.attributes = code ++ exceptions ++ signature ++ method.attributes ∧
    method.StoresCode b setting code ∧
    Holds "Exceptions" (Reader.counted (readException b.table)) (FitEntries fun _ => True)
      (nonempty? method.exceptions) exceptions ∧
    Holds "Signature" (readText b.table) (fun _ => True) method.signature signature

theorem exists_stored {setting : Code.Setting} {method : Method} {encoded : EncodedMember}
    (hy : Yields (method.encode setting) b encoded b) (hs : b.Sound) :
    ∃ stored, StoredMember.EncodedAs b.table stored encoded ∧ method.StoredAs b setting stored := by
  obtain ⟨name, b₁, hname, hy⟩ := yields_bind.mp hy
  obtain ⟨descriptor, b₂, hdescriptor, hy⟩ := yields_bind.mp hy
  obtain ⟨code, b₃, hcode, hy⟩ := yields_bind.mp hy
  obtain ⟨exceptions, b₄, hexceptions, hy⟩ := yields_bind.mp hy
  obtain ⟨signature, b₅, hsignature, hy⟩ := yields_bind.mp hy
  obtain ⟨raw, b₆, hraw, hp⟩ := yields_bind.mp hy
  obtain ⟨rfl, rfl⟩ := yields_pure.mp hp
  have w₅ := (lawful_rawAttributes _).grows hraw
  have w₄ := ((lawful_textAttribute _ _).grows hsignature).trans w₅
  have w₃ := ((lawful_exceptions _).grows hexceptions).trans w₄
  have w₂ := ((lawful_codeAttribute _ _).grows hcode).trans w₃
  have w₁ := ((lawful_text _).grows hdescriptor).trans w₂
  obtain ⟨codes, hcodes, hstores⟩ := exists_storesCode
    ((lawful_codeAttribute _ _).again hcode w₃) hs
  obtain ⟨tables, htables, hholds⟩ :=
    @exists_holds_listAttribute _ _ _ _ _ (readException b₆.table) (fun _ => True) _
      (fun _ => (lawful_classRef _).bind fun _ => lawful_pure _)
      (fun _ hy => reads_exception hs hy) ((lawful_exceptions _).again hexceptions w₄) hs
  obtain ⟨signatures, hsignatures, hholds'⟩ := exists_holds_textAttribute
    ((lawful_textAttribute _ _).again hsignature w₅) hs
  have hraws := forall₂_rawAttributes ((lawful_rawAttributes _).again hraw (.refl _)) hs
  exact ⟨⟨method.access.bits, method.name, method.descriptor,
      codes ++ tables ++ signatures ++ method.attributes⟩,
    ⟨rfl, text_found hname w₁ hs, text_found hdescriptor w₂ hs,
      List.rel_append (List.rel_append (List.rel_append hcodes htables) hsignatures) hraws⟩,
    rfl, rfl, rfl, codes, tables, signatures, rfl, hstores, hholds, hholds'⟩

end Method

/-- Class as it is stored: classes have names, and attributes have names and contents. -/
structure StoredClass where
  access : UInt16
  name : String
  superName : Option String
  interfaces : List String
  fields : List StoredMember
  methods : List StoredMember
  attributes : List RawAttribute

structure StoredClass.EncodedAs (table : Table) (stored : StoredClass) (encoded : EncodedClass) :
    Prop where
  access : encoded.access = stored.access
  name : table.className encoded.name = .ok stored.name
  superName : table.className? encoded.superName = .ok stored.superName
  interfaces : List.Forall₂ (fun name index => table.className index = .ok name) stored.interfaces
    encoded.interfaces
  fields : List.Forall₂ (StoredMember.EncodedAs table) stored.fields encoded.fields
  methods : List.Forall₂ (StoredMember.EncodedAs table) stored.methods encoded.methods
  attributes : List.Forall₂ (RawAttribute.EncodedAs table) stored.attributes encoded.attributes

/-- What there is for each element of a list, there is for the list. -/
theorem exists_of_forall₂ {β γ : Type} {R : α → β → Prop} {S : γ → β → Prop} {T : α → γ → Prop}
    {l : List α} {l' : List β} (h : List.Forall₂ R l l')
    (hr : ∀ a c, R a c → ∃ m, S m c ∧ T a m) :
    ∃ ms, List.Forall₂ S ms l' ∧ List.Forall₂ T l ms := by
  induction h with
  | nil => exact ⟨[], .nil, .nil⟩
  | cons hac _ ih =>
    obtain ⟨m, hm, hm'⟩ := hr _ _ hac
    obtain ⟨ms, hms, hms'⟩ := ih
    exact ⟨m :: ms, .cons hm hms, .cons hm' hms'⟩

namespace Class

variable {recompute : Code.Recompute} {hierarchy : Hierarchy} {tree : Class}

structure StoredAs (b : Builder) (recompute : Code.Recompute) (hierarchy : Hierarchy) (tree : Class)
    (stored : StoredClass) : Prop where
  access : stored.access = tree.access.bits
  name : stored.name = tree.name
  superName : stored.superName = tree.superName
  interfaces : stored.interfaces = tree.interfaces
  fields : List.Forall₂ (Field.StoredAs b) tree.fields stored.fields
  methods : List.Forall₂ (Method.StoredAs b (tree.setting recompute hierarchy)) tree.methods
    stored.methods
  attributes : ∃ sourceFile signature innerClasses bootstrap,
    stored.attributes = sourceFile ++ signature ++ innerClasses ++ tree.attributes ++ bootstrap ∧
    Holds "SourceFile" (readText b.table) (fun _ => True) tree.sourceFile sourceFile ∧
    Holds "Signature" (readText b.table) (fun _ => True) tree.signature signature ∧
    Holds "InnerClasses" (Reader.counted (readInnerClass b.table)) (FitEntries InnerClass.Canonical)
      (nonempty? tree.innerClasses) innerClasses ∧
    Holds "BootstrapMethods" (Reader.counted BootstrapMethod.read) (FitEntries BootstrapMethod.Fits)
      (nonempty? b.bootstrap.toList) bootstrap

/-- What is written for a class is what is stored for it. -/
theorem Encodes.exists_stored {encoded : EncodedClass}
    (h : Encodes recompute hierarchy tree b encoded) (hr : b.Reachable) :
    ∃ stored, tree.StoredAs b recompute hierarchy stored ∧ stored.EncodedAs b.table encoded := by
  have hs := hr.sound
  obtain ⟨fields, hfields, hfields'⟩ := exists_of_forall₂ h.fields fun _ _ hy =>
    Field.exists_stored hy hs
  obtain ⟨methods, hmethods, hmethods'⟩ := exists_of_forall₂ h.methods fun _ _ hy =>
    Method.exists_stored hy hs
  obtain ⟨sourceFile, b₁, signature, b₂, innerClasses, b₃, raw, b₄, bootstrap, h₁, h₂, h₃, h₄, h₅,
    hall⟩ := yields_encodeAttributes.mp h.attributes
  have w₄ := (lawful_bootstrapAttribute _).grows h₅
  have w₃ := ((lawful_rawAttributes _).grows h₄).trans w₄
  have w₂ := ((lawful_listAttribute lawful_encodeInnerClass _ _).grows h₃).trans w₃
  have w₁ := ((lawful_textAttribute _ _).grows h₂).trans w₂
  obtain ⟨s₁, hs₁, hholds₁⟩ :=
    exists_holds_textAttribute ((lawful_textAttribute _ _).again h₁ w₁) hs
  obtain ⟨s₂, hs₂, hholds₂⟩ :=
    exists_holds_textAttribute ((lawful_textAttribute _ _).again h₂ w₂) hs
  obtain ⟨s₃, hs₃, hholds₃⟩ := exists_holds_listAttribute lawful_encodeInnerClass
    (fun hc hy => reads_innerClass hr hc hy)
    ((lawful_listAttribute lawful_encodeInnerClass _ _).again h₃ w₃) hs
  have hs₄ := forall₂_rawAttributes ((lawful_rawAttributes _).again h₄ w₄) hs
  have hsame := bootstrap_of_bootstrapAttribute h₅
  rw [← hsame] at h₅
  obtain ⟨s₅, hs₅, hholds₅⟩ := exists_holds_listAttribute (fun _ => lawful_pure _)
    (fun hfits hy p => (yields_pure.mp hy).1 ▸ reads_bootstrapMethod hfits p)
    ((lawful_bootstrapAttribute _).again h₅ (.refl _)) hs
  refine ⟨⟨tree.access.bits, tree.name, tree.superName, tree.interfaces, fields, methods,
      s₁ ++ s₂ ++ s₃ ++ tree.attributes ++ s₅⟩,
    ⟨rfl, rfl, rfl, rfl, hfields', hmethods', s₁, s₂, s₃, s₅, rfl, hholds₁, hholds₂, hholds₃,
      hholds₅⟩,
    h.access, className_found h.name (.refl _) hs, className?_found h.superName hr,
    h.interfaces.imp fun _ _ hy => className_found hy (.refl _) hs, hfields, hmethods, ?_⟩
  rw [hall]
  exact List.rel_append (List.rel_append (List.rel_append (List.rel_append hs₁ hs₂) hs₃) hs₄) hs₅

end Class

end ClassTree
