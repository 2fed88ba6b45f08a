import ClassTree.Proofs.Code.Lawful
import ClassTree.Writing

namespace ClassTree

open Pool Build BigEndian

variable {b b' : Builder}

section Lawful

theorem lawful_text? (text : Option String) : Lawful (text? text) := by
  cases text with
  | none => exact lawful_pure _
  | some text => exact lawful_text text

theorem lawful_classRef? (name : Option String) : Lawful (classRef? name) := by
  cases name with
  | none => exact lawful_pure _
  | some name => exact lawful_classRef name

theorem lawful_textAttribute (name : String) (text : Option String) :
    Lawful (textAttribute name text) := by
  cases text with
  | none => exact lawful_pure _
  | some text =>
    exact (lawful_text text).bind fun _ => (Code.lawful_attributeBytes _ _).bind fun _ =>
      lawful_pure _

theorem lawful_rawAttributes (attributes : List RawAttribute) :
    Lawful (rawAttributes attributes) :=
  lawful_mapM (fun _ => Code.lawful_attributeBytes _ _) _

theorem lawful_listAttribute {α : Type} {item : α → Build Bytes} (hitem : ∀ a, Lawful (item a))
    (name : String) (items : List α) : Lawful (listAttribute name item items) := by
  unfold listAttribute
  split
  · exact lawful_pure _
  · exact (lawful_mapM hitem _).bind fun _ => (Code.lawful_attributeBytes _ _).bind fun _ =>
      lawful_pure _

theorem lawful_valueAttribute (value : Option Literal) : Lawful (Field.valueAttribute value) := by
  cases value with
  | none => exact lawful_pure _
  | some value =>
    exact (lawful_literal value).bind fun _ => (Code.lawful_attributeBytes _ _).bind fun _ =>
      lawful_pure _

theorem lawful_encodeField (field : Field) : Lawful field.encode :=
  (lawful_text _).bind fun _ => (lawful_text _).bind fun _ =>
    (lawful_valueAttribute _).bind fun _ =>
    (lawful_textAttribute _ _).bind fun _ => (lawful_rawAttributes _).bind fun _ => lawful_pure _

theorem lawful_codeAttribute (setting : Code.Setting) (method : Method) :
    Lawful (method.codeAttribute setting) := by
  unfold Method.codeAttribute
  split
  · exact (Code.lawful_attributeInfo _ _).bind fun _ => (Code.lawful_attributeBytes _ _).bind
      fun _ => lawful_pure _
  · exact lawful_pure _

theorem lawful_exceptions (exceptions : List String) : Lawful (listAttribute "Exceptions"
    (fun exception => return u16 (← Build.classRef exception)) exceptions) :=
  lawful_listAttribute (fun _ => (lawful_classRef _).bind fun _ => lawful_pure _) _ _

theorem lawful_encodeMethod (setting : Code.Setting) (method : Method) :
    Lawful (method.encode setting) :=
  (lawful_text _).bind fun _ => (lawful_text _).bind fun _ =>
    (lawful_codeAttribute _ _).bind fun _ =>
    (lawful_exceptions _).bind fun _ => (lawful_textAttribute _ _).bind fun _ =>
      (lawful_rawAttributes _).bind fun _ => lawful_pure _

theorem lawful_encodeInnerClass (entry : InnerClass) : Lawful entry.encode :=
  (lawful_classRef _).bind fun _ => (lawful_classRef? _).bind fun _ => (lawful_text? _).bind
    fun _ => lawful_pure _

theorem lawful_bootstrapAttribute (entries : List BootstrapMethod) :
    Lawful (listAttribute "BootstrapMethods" (fun entry => pure entry.encode) entries) :=
  lawful_listAttribute (fun _ => lawful_pure _) _ _

end Lawful

/-- Adding a constant leaves the bootstrap table alone. -/
theorem bootstrap_of_constant {constant : Constant} {index : Index}
    (hy : Yields (Build.constant constant) b index b') : b'.bootstrap = b.bootstrap := by
  rcases exec_constant constant b with ⟨_, -, he⟩ | ⟨-, -, he⟩ | ⟨-, he⟩
  · rw [(Prod.mk.inj (he.symm.trans hy)).2]
  · rw [← (Prod.mk.inj (he.symm.trans hy)).2]
    rfl
  · cases (Prod.mk.inj (he.symm.trans hy)).1

theorem bootstrap_of_bootstrapAttribute {entries : List BootstrapMethod} {attributes : List Bytes}
    (hy : Yields (listAttribute "BootstrapMethods" (fun entry => pure entry.encode) entries) b
      attributes b') : b'.bootstrap = b.bootstrap := by
  unfold listAttribute at hy
  rw [List.mapM_pure] at hy
  split at hy
  · rw [(yields_pure.mp hy).2]
  · obtain ⟨encoded, _, hp, hy⟩ := yields_bind.mp hy
    obtain ⟨-, rfl⟩ := yields_pure.mp hp
    obtain ⟨bytes, middle, hbytes, hp⟩ := yields_bind.mp hy
    obtain ⟨index, middle', hindex, hp'⟩ := yields_bind.mp hbytes
    rw [← (yields_pure.mp hp).2, ← (yields_pure.mp hp').2, bootstrap_of_constant hindex]

/-- What each of a list of computations yields in a pool, they yield one after the other. -/
theorem yields_mapM {α γ : Type} {g : γ → Build α} {l : List γ} {as : List α}
    (h : List.Forall₂ (fun c a => Yields (g c) b a b) l as) : Yields (l.mapM g) b as b := by
  induction h with
  | nil => exact yields_pure.mpr ⟨rfl, rfl⟩
  | cons hy _ ih =>
    rw [List.mapM_cons]
    exact yields_bind.mpr ⟨_, b, hy, yields_bind.mpr ⟨_, b, ih, yields_pure.mpr ⟨rfl, rfl⟩⟩⟩

structure EncodedClass where
  access : UInt16
  name : Index
  superName : Index
  interfaces : List Index
  fields : List EncodedMember
  methods : List EncodedMember
  attributes : List Bytes

def EncodedClass.encode (encoded : EncodedClass) : Bytes :=
  u16 encoded.access ++ u16 encoded.name ++ u16 encoded.superName ++
    counted u16 encoded.interfaces ++
    counted EncodedMember.encode encoded.fields ++ counted EncodedMember.encode encoded.methods ++
    counted id encoded.attributes

namespace Class

variable {recompute : Code.Recompute} {hierarchy : Hierarchy} {tree : Class}
  {encoded : EncodedClass}

/-- What the methods of a class are written with. -/
def setting (recompute : Code.Recompute) (hierarchy : Hierarchy) (tree : Class) : Code.Setting :=
  ⟨tree.name, tree.version, recompute, hierarchy⟩

/-- The pool has all constants that the class needs, and this is how it is written with them. -/
structure Encodes (recompute : Code.Recompute) (hierarchy : Hierarchy) (tree : Class) (b : Builder)
    (encoded : EncodedClass) : Prop where
  access : encoded.access = tree.access.bits
  name : Yields (classRef tree.name) b encoded.name b
  superName : Yields (classRef? tree.superName) b encoded.superName b
  interfaces : List.Forall₂ (fun name index => Yields (classRef name) b index b) tree.interfaces
    encoded.interfaces
  fields : List.Forall₂ (fun field member => Yields field.encode b member b) tree.fields
    encoded.fields
  methods : List.Forall₂ (fun method member =>
    Yields (method.encode (tree.setting recompute hierarchy)) b member b) tree.methods
      encoded.methods
  attributes : Yields tree.encodeAttributes b encoded.attributes b

/-- The bootstrap table is written as it is after all other attributes. -/
theorem yields_encodeAttributes {attributes : List Bytes} :
    Yields tree.encodeAttributes b attributes b' ↔
    ∃ sourceFile b₁ signature b₂ innerClasses b₃ raw b₄ bootstrap,
      Yields (textAttribute "SourceFile" tree.sourceFile) b sourceFile b₁ ∧
      Yields (textAttribute "Signature" tree.signature) b₁ signature b₂ ∧
      Yields (listAttribute "InnerClasses" InnerClass.encode tree.innerClasses) b₂ innerClasses b₃ ∧
      Yields (rawAttributes tree.attributes) b₃ raw b₄ ∧
      Yields (listAttribute "BootstrapMethods" (fun entry => pure entry.encode)
        b₄.bootstrap.toList) b₄ bootstrap b' ∧
      attributes = sourceFile ++ signature ++ innerClasses ++ raw ++ bootstrap := by
  constructor
  · intro hy
    obtain ⟨sourceFile, b₁, hsource, hy⟩ := yields_bind.mp hy
    obtain ⟨signature, b₂, hsignature, hy⟩ := yields_bind.mp hy
    obtain ⟨innerClasses, b₃, hinner, hy⟩ := yields_bind.mp hy
    obtain ⟨raw, b₄, hraw, hy⟩ := yields_bind.mp hy
    obtain ⟨entries, _, hentries, hy⟩ := yields_bind.mp hy
    obtain ⟨bootstrap, b₅, hbootstrap, hp⟩ := yields_bind.mp hy
    obtain ⟨rfl, rfl⟩ := yields_pure.mp hp
    obtain ⟨rfl, rfl⟩ : b₄.bootstrap.toList = entries ∧ b₄ = _ := yields_pure.mp hentries
    exact ⟨sourceFile, b₁, signature, b₂, innerClasses, b₃, raw, b₄, bootstrap, hsource, hsignature,
      hinner, hraw, hbootstrap, rfl⟩
  · rintro ⟨sourceFile, b₁, signature, b₂, innerClasses, b₃, raw, b₄, bootstrap, hsource,
      hsignature, hinner, hraw, hbootstrap, rfl⟩
    refine yields_bind.mpr ⟨_, _, hsource, yields_bind.mpr ⟨_, _, hsignature, ?_⟩⟩
    refine yields_bind.mpr ⟨_, _, hinner, yields_bind.mpr ⟨_, _, hraw, ?_⟩⟩
    exact yields_bind.mpr ⟨_, b₄, yields_pure.mpr ⟨rfl, rfl⟩, yields_bind.mpr ⟨_, _, hbootstrap,
      yields_pure.mpr ⟨rfl, rfl⟩⟩⟩

theorem encodeAttributes_grows {attributes : List Bytes}
    (hy : Yields tree.encodeAttributes b attributes b') :
    b.Within b' ∧ (b.Reachable → b'.Reachable) := by
  obtain ⟨_, b₁, _, b₂, _, b₃, _, b₄, _, h₁, h₂, h₃, h₄, h₅, -⟩ := yields_encodeAttributes.mp hy
  have l₁ := lawful_textAttribute "SourceFile" tree.sourceFile
  have l₂ := lawful_textAttribute "Signature" tree.signature
  have l₃ := lawful_listAttribute lawful_encodeInnerClass "InnerClasses" tree.innerClasses
  have l₄ := lawful_rawAttributes tree.attributes
  have l₅ := lawful_bootstrapAttribute b₄.bootstrap.toList
  exact ⟨(l₁.grows h₁).trans <| (l₂.grows h₂).trans <| (l₃.grows h₃).trans <|
    (l₄.grows h₄).trans <| l₅.grows h₅,
    fun hr => l₅.reaches (l₄.reaches (l₃.reaches (l₂.reaches (l₁.reaches hr h₁) h₂) h₃) h₄) h₅⟩

/-- The attributes of a class do not add to the bootstrap table. -/
theorem encodeAttributes_again {attributes : List Bytes} {b₀ : Builder}
    (hy : Yields tree.encodeAttributes b₀ attributes b) (hw : b.Within b')
    (hb : b'.bootstrap = b.bootstrap) : Yields tree.encodeAttributes b' attributes b' := by
  obtain ⟨sourceFile, b₁, signature, b₂, innerClasses, b₃, raw, b₄, bootstrap, hsource, hsignature,
    hinner, hraw, hbootstrap, rfl⟩ := yields_encodeAttributes.mp hy
  have h₄ := ((lawful_bootstrapAttribute _).grows hbootstrap).trans hw
  have h₃ := ((lawful_rawAttributes _).grows hraw).trans h₄
  have h₂ := ((lawful_listAttribute lawful_encodeInnerClass _ _).grows hinner).trans h₃
  have h₁ := ((lawful_textAttribute _ _).grows hsignature).trans h₂
  have hsame : b'.bootstrap = b₄.bootstrap := hb.trans (bootstrap_of_bootstrapAttribute hbootstrap)
  refine yields_encodeAttributes.mpr ⟨sourceFile, b', signature, b', innerClasses, b', raw, b',
    bootstrap, (lawful_textAttribute _ _).again hsource h₁,
    (lawful_textAttribute _ _).again hsignature h₂,
    (lawful_listAttribute lawful_encodeInnerClass _ _).again hinner h₃,
    (lawful_rawAttributes _).again hraw h₄, ?_, rfl⟩
  rw [hsame]
  exact (lawful_bootstrapAttribute _).again hbootstrap hw

/-- A class that is written leaves a pool that has grown and has all that it needs. -/
theorem encodes_of_encodeBody {start : Builder} {body : Bytes}
    (hy : Yields (tree.encodeBody recompute hierarchy) start body b) :
    start.Within b ∧ (start.Reachable → b.Reachable) ∧
      ∃ encoded, Encodes recompute hierarchy tree b encoded ∧ body = encoded.encode := by
  obtain ⟨name, b₁, h₁, hy⟩ := yields_bind.mp hy
  obtain ⟨superName, b₂, h₂, hy⟩ := yields_bind.mp hy
  obtain ⟨interfaces, b₃, h₃, hy⟩ := yields_bind.mp hy
  obtain ⟨fields, b₄, h₄, hy⟩ := yields_bind.mp hy
  obtain ⟨methods, b₅, h₅, hy⟩ := yields_bind.mp hy
  obtain ⟨attributes, b₆, h₆, hp⟩ := yields_bind.mp hy
  obtain ⟨rfl, rfl⟩ := yields_pure.mp hp
  have l₁ := lawful_classRef tree.name
  have l₂ := lawful_classRef? tree.superName
  have l₃ := lawful_mapM lawful_classRef tree.interfaces
  have l₄ := lawful_mapM lawful_encodeField tree.fields
  have l₅ := lawful_mapM (lawful_encodeMethod (tree.setting recompute hierarchy)) tree.methods
  obtain ⟨w₅, r₅⟩ := encodeAttributes_grows h₆
  have w₄ := (l₅.grows h₅).trans w₅
  have w₃ := (l₄.grows h₄).trans w₄
  have w₂ := (l₃.grows h₃).trans w₃
  have w₁ := (l₂.grows h₂).trans w₂
  refine ⟨(l₁.grows h₁).trans w₁, fun hr => r₅ (l₅.reaches (l₄.reaches (l₃.reaches
    (l₂.reaches (l₁.reaches hr h₁) h₂) h₃) h₄) h₅),
      ⟨_, name, superName, interfaces, fields, methods,
    attributes⟩, ?_, rfl⟩
  exact ⟨rfl, l₁.again h₁ w₁, l₂.again h₂ w₂,
    (forall₂_of_mapM lawful_classRef h₃).imp fun _ _ hy => (lawful_classRef _).again hy w₃,
    (forall₂_of_mapM lawful_encodeField h₄).imp fun _ _ hy => (lawful_encodeField _).again hy w₄,
    (forall₂_of_mapM (lawful_encodeMethod _) h₅).imp fun _ _ hy =>
      (lawful_encodeMethod _ _).again hy w₅,
    encodeAttributes_again h₆ (.refl _) rfl⟩

/-- In a pool that has grown by nothing but constants, the class is written in the same way. -/
theorem Encodes.again (h : Encodes recompute hierarchy tree b encoded) (hw : b.Within b')
    (hb : b'.bootstrap = b.bootstrap) : Encodes recompute hierarchy tree b' encoded where
  access := h.access
  name := (lawful_classRef _).again h.name hw
  superName := (lawful_classRef? _).again h.superName hw
  interfaces := h.interfaces.imp fun _ _ hy => (lawful_classRef _).again hy hw
  fields := h.fields.imp fun _ _ hy => (lawful_encodeField _).again hy hw
  methods := h.methods.imp fun _ _ hy => (lawful_encodeMethod _ _).again hy hw
  attributes := encodeAttributes_again h.attributes hw hb

/-- A pool that has all that a class needs stays as it is when the class is written. -/
theorem Encodes.yields (h : Encodes recompute hierarchy tree b encoded) :
    Yields (tree.encodeBody recompute hierarchy) b encoded.encode b := by
  refine yields_bind.mpr ⟨_, b, h.name, yields_bind.mpr ⟨_, b, h.superName, ?_⟩⟩
  refine yields_bind.mpr ⟨_, b, yields_mapM h.interfaces, ?_⟩
  refine yields_bind.mpr ⟨_, b, yields_mapM h.fields, ?_⟩
  refine yields_bind.mpr ⟨_, b, yields_mapM h.methods, ?_⟩
  refine yields_bind.mpr ⟨_, b, h.attributes, yields_pure.mpr ⟨?_, rfl⟩⟩
  rw [EncodedClass.encode, h.access]

end Class
end ClassTree
