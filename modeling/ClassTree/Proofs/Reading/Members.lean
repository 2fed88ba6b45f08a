import ClassTree.Proofs.Code.Recovery
import ClassTree.Proofs.Reading.Attributes

namespace ClassTree

open Pool Build Reader

variable {b : Builder}

namespace Field

variable {field : Field} {stored : StoredMember} {found : RawMember} {table : Table}

/-- Flags have a meaning, the value is one of a constant, and attributes that are carried along are
not those that are interpreted. -/
structure Canonical (field : Field) : Prop where
  access : field.access = .ofBits .ofField field.access.bits
  value : ∀ value ∈ field.value, value.Canonical
  attributes : ∀ entry ∈ field.attributes, entry.name ≠ "ConstantValue" ∧ entry.name ≠ "Signature"

theorem addAttribute_value {info : Cursor} {value : Literal}
    (h : info.parse (do table.literal (← Reader.u16)) = .ok value) :
    field.addAttribute table "ConstantValue" info = .ok { field with value := some value } := by
  change (Cursor.parse _ _ >>= _) = _
  rw [h]
  rfl

theorem addAttribute_signature {info : Cursor} {signature : String}
    (h : info.parse (readText table) = .ok signature) :
    field.addAttribute table "Signature" info = .ok { field with signature := some signature } := by
  change (Cursor.parse _ _ >>= _) = _
  rw [h]
  rfl

theorem addAttribute_other {name : String} {info : Cursor} (hvalue : name ≠ "ConstantValue")
    (hsignature : name ≠ "Signature") : field.addAttribute table name info =
      .ok { field with attributes := field.attributes ++ [⟨name, info.rest⟩] } := by
  unfold addAttribute
  split
  · exact absurd rfl hvalue
  · exact absurd rfl hsignature
  · rfl

/-- A field is read as it was written. -/
theorem ofRaw_of_stored (h : field.StoredAs b stored) (hf : stored.FoundAs found)
    (hc : field.Canonical) : Field.ofRaw b.table found = .ok field := by
  obtain ⟨value, signature, hall, hvalue, hsignature⟩ := h.attributes
  let step (field : Field) (entry : String × Cursor) : Except Error Field :=
    field.addAttribute b.table entry.1 entry.2
  have hvalue' : Interprets step value
      { field with value := none, signature := none, attributes := [] }
      { field with signature := none, attributes := [] } := by
    refine hvalue.interprets hc.value (fun hnone => by rw [hnone]) fun info value hsome hparse => ?_
    rw [hsome]
    exact addAttribute_value hparse
  have hsignature' : Interprets step signature { field with signature := none, attributes := [] }
      { field with attributes := [] } := by
    refine hsignature.interprets (fun _ _ => trivial) (fun hnone => by rw [hnone])
      fun info signature hsome hparse => ?_
    rw [hsome]
    exact addAttribute_signature hparse
  have hkept : Interprets step field.attributes { field with attributes := [] } field :=
    @interprets_kept _ step _ (fun attributes => { field with attributes }) (fun entry hm _ _ =>
      addAttribute_other (hc.attributes entry hm).1 (hc.attributes entry hm).2) []
  have hattributes := hf.attributes
  rw [hall] at hattributes
  have hrun := (hvalue'.append hsignature').append hkept _ hattributes
  unfold ofRaw
  rw [hf.access, hf.name, hf.descriptor, h.access, h.name, h.descriptor, ← hc.access]
  exact hrun

end Field

namespace Method

variable {method : Method} {setting : Code.Setting} {stored : StoredMember} {found : RawMember}
  {owner : String} {table : Table} {skip : Skip} {skipFrames : Bool}

/-- Flags have a meaning, the code is canonical, and attributes that are carried along are not those
that are interpreted. -/
structure Canonical (method : Method) : Prop where
  access : method.access = .ofBits .ofMethod method.access.bits
  code : ∀ insn ∈ method.body.code, insn.Canonical
  attributes : ∀ entry ∈ method.attributes,
    entry.name ≠ "Code" ∧ entry.name ≠ "Exceptions" ∧ entry.name ≠ "Signature"

/-- The code of a method is laid out like this when it is written without flags. -/
def LaidOutAs (b : Builder) (setting : Code.Setting) (method : Method) (laidOut : Code.LaidOut) :
    Prop :=
  Yields (Code.widen (setting.displayName method) (method.body.code.any Instruction.isFrame)
    method.body) b laidOut b

/-- Everything that is counted in the method can be. -/
structure Fits (b : Builder) (setting : Code.Setting) (method : Method) : Prop where
  exceptions : method.exceptions.length < 0x10000
  code : ∀ laidOut, method.LaidOutAs b setting laidOut → laidOut.Fits method

def writesCode (method : Method) : Bool :=
  method.hasCode && !method.body.code.isEmpty

/-- If code is written for the method, it is read as the code that was laid out, with labels at
their offsets. -/
def RestoresCode (b : Builder) (setting : Code.Setting) (method found : Method) : Prop :=
  method.writesCode = true → ∃ laidOut place,
    method.LaidOutAs b setting laidOut ∧ Code.Laid b laidOut.code laidOut.offsets ∧
    Code.Recovers setting.version.usesFrames laidOut method found place

/-- If code is written for the method, its elements are laid out in order, some jumps widened, and
every label stands in one place. -/
def KeepsCode (b : Builder) (setting : Code.Setting) (method : Method) : Prop :=
  method.writesCode = true → ∀ laidOut, method.LaidOutAs b setting laidOut →
    (∃ parts, List.Forall₂ Code.Widens method.body.code parts ∧
      laidOut.code = parts.flatten.map Code.Site.insn) ∧
    (laidOut.code.filterMap Instruction.placed?).Nodup

/-- The method that is read is the one that was written. -/
structure Restores (b : Builder) (setting : Code.Setting) (method found : Method) : Prop where
  access : found.access = method.access
  name : found.name = method.name
  descriptor : found.descriptor = method.descriptor
  signature : found.signature = method.signature
  exceptions : found.exceptions = method.exceptions
  attributes : found.attributes = method.attributes
  code : method.RestoresCode b setting found

theorem addAttribute_code {info : Cursor} {listing : Code.Listing} {after : Method}
    (h : info.parse (Code.readListing owner method table skip) = .ok listing)
    (ha : listing.addTo method = .ok after) :
    method.addAttribute owner table skip "Code" info = .ok after := by
  change (Cursor.parse _ _ >>= _) = _
  rw [h]
  exact ha

theorem addAttribute_exceptions {info : Cursor} {exceptions : List String}
    (h : info.parse (Reader.counted (readException table)) = .ok exceptions) :
    method.addAttribute owner table skip "Exceptions" info =
      .ok { method with exceptions := method.exceptions ++ exceptions } := by
  change (Cursor.parse _ _ >>= _) = _
  rw [show (counted do table.className (← Reader.u16)) = counted (readException table) from rfl, h]
  rfl

theorem addAttribute_signature {info : Cursor} {signature : String}
    (h : info.parse (readText table) = .ok signature) :
    method.addAttribute owner table skip "Signature" info =
      .ok { method with signature := some signature } := by
  change (Cursor.parse _ _ >>= _) = _
  rw [h]
  rfl

theorem addAttribute_other {name : String} {info : Cursor} (hcode : name ≠ "Code")
    (hexceptions : name ≠ "Exceptions") (hsignature : name ≠ "Signature") :
    method.addAttribute owner table ⟨false, skipFrames⟩ name info =
      .ok { method with attributes := method.attributes ++ [⟨name, info.rest⟩] } := by
  unfold addAttribute
  split
  · exact absurd rfl hcode
  · exact absurd rfl hexceptions
  · exact absurd rfl hsignature
  · rfl
  · rfl

def step (owner : String) (table : Table) (skip : Skip) (method : Method)
    (entry : String × Cursor) : Except Error Method :=
  method.addAttribute owner table skip entry.1 entry.2

/-- The code of a method that has just been declared is restored, and nothing else changes. -/
theorem exists_interprets_code {code : List RawAttribute} (hr : b.Reachable)
    (hrecompute : setting.recompute = ⟨false, false⟩) (hsize : b.bootstrap.size ≤ 0x10000)
    (hc : method.Canonical) (hf : method.Fits b setting) (hfits : ∀ entry ∈ code, entry.Fits)
    (h : method.StoresCode b setting code) : ∃ after,
      Interprets (step setting.owner b.table ⟨false, false⟩) code
        (declared method.access method.name method.descriptor) after ∧
      after.header = declared method.access method.name method.descriptor ∧ after.attributes = [] ∧
      method.RestoresCode b setting after := by
  unfold StoresCode at h
  split at h
  · obtain ⟨info, rfl, hy⟩ := h
    have hlength : info.length < 0x100000000 := hfits _ (List.mem_singleton_self _)
    obtain ⟨laidOut, listing, after, -, hwiden, hparse, hadd, hrecovers⟩ :=
      @Code.exists_recovers _ _ _ _ (declared method.access method.name method.descriptor) hr
        hrecompute hc.code hsize hf.code hlength hy ⟨rfl, rfl, rfl⟩ rfl rfl
    have hafter := (Code.Listing.addTo_eq_ok.mp hadd).2
    refine ⟨after, interprets_one fun base => addAttribute_code (hparse base) hadd, ?_, ?_, fun _ =>
      ⟨laidOut, _, hwiden, (Code.laid_of_widen hwiden).1, hrecovers⟩⟩
    · rw [hafter]
      rfl
    · rw [hafter]
      rfl
  · rename_i hnone
    obtain rfl := h
    exact ⟨_, interprets_nil, rfl, rfl, fun hwrites => absurd hwrites hnone⟩

/-- Once the code of a method has been added to its declaration, the rest is read as it was
written. -/
theorem ofRaw_of_interprets {after : Method} {code exceptions signature : List RawAttribute}
    (hafter : Interprets (step owner b.table ⟨false, skipFrames⟩) code
      (declared method.access method.name method.descriptor) after)
    (hheader : after.header = declared method.access method.name method.descriptor)
    (hnone : after.attributes = []) (hc : method.access = .ofBits .ofMethod method.access.bits)
    (hkept : ∀ entry ∈ method.attributes,
      entry.name ≠ "Code" ∧ entry.name ≠ "Exceptions" ∧ entry.name ≠ "Signature")
    (hcount : method.exceptions.length < 0x10000)
    (h : method.StoredAs b setting stored) (hfound : stored.FoundAs found)
    (hall : stored.attributes = code ++ exceptions ++ signature ++ method.attributes)
    (hexceptions : Holds "Exceptions" (Reader.counted (readException b.table))
      (FitEntries fun _ => True) (nonempty? method.exceptions) exceptions)
    (hsignature : Holds "Signature" (readText b.table) (fun _ => True) method.signature signature) :
    Method.ofRaw owner b.table ⟨false, skipFrames⟩ found =
      .ok { after with exceptions := method.exceptions, signature := method.signature,
                       attributes := method.attributes } := by
  have hexceptions' : Interprets (step owner b.table ⟨false, skipFrames⟩) exceptions after
      { after with exceptions := method.exceptions } := by
    have hempty : after.exceptions = [] := congrArg Method.exceptions hheader
    refine hexceptions.interprets
      (fitEntries_nonempty? ⟨hcount, fun _ _ => trivial⟩) (fun hn => ?_)
      fun info entries hsome hparse => ?_
    · rw [eq_nil_of_nonempty?_eq_none hn, ← hempty]
    · rw [step, addAttribute_exceptions hparse, hempty, List.nil_append,
        eq_of_mem_nonempty? hsome]
  have hsignature' : Interprets (step owner b.table ⟨false, skipFrames⟩) signature
      { after with exceptions := method.exceptions }
      { after with exceptions := method.exceptions, signature := method.signature } := by
    have hempty : after.signature = none := congrArg Method.signature hheader
    refine hsignature.interprets (fun _ _ => trivial) (fun hn => by rw [hn, ← hempty])
      fun info entries hsome hparse => ?_
    rw [step, addAttribute_signature hparse, hsome]
  have hraw : Interprets (step owner b.table ⟨false, skipFrames⟩) method.attributes
      { after with exceptions := method.exceptions, signature := method.signature }
      { after with exceptions := method.exceptions, signature := method.signature,
                   attributes := method.attributes } := by
    have hraw := @interprets_kept _ (step owner b.table ⟨false, skipFrames⟩) method.attributes
      (fun attributes =>
        { after with exceptions := method.exceptions, signature := method.signature,
                                      attributes }) (fun entry hm _ _ =>
        addAttribute_other (hkept entry hm).1 (hkept entry hm).2.1 (hkept entry hm).2.2) []
    rwa [List.nil_append, ← hnone] at hraw
  have hattributes := hfound.attributes
  rw [hall] at hattributes
  have hrun := ((hafter.append hexceptions').append hsignature').append hraw _ hattributes
  unfold ofRaw
  rw [hfound.access, hfound.name, hfound.descriptor, h.access, h.name, h.descriptor, ← hc]
  exact hrun

/-- A method is read as it was written. -/
theorem exists_ofRaw_of_stored (hr : b.Reachable) (hrecompute : setting.recompute = ⟨false, false⟩)
    (hsize : b.bootstrap.size ≤ 0x10000) (hc : method.Canonical) (hf : method.Fits b setting)
    (hfits : FitAttributes stored.attributes) (h : method.StoredAs b setting stored)
    (hfound : stored.FoundAs found) : ∃ restored,
      Method.ofRaw setting.owner b.table ⟨false, false⟩ found = .ok restored ∧
      method.Restores b setting restored := by
  obtain ⟨code, exceptions, signature, hall, hcode, hexceptions, hsignature⟩ := h.attributes
  obtain ⟨after, hafter, hheader, hnone, hrestores⟩ := exists_interprets_code hr hrecompute hsize hc
    hf (fun entry hm => hfits.2 entry (by rw [hall]; simp [hm])) hcode
  have haccess : after.access = method.access :=
    (congrArg Method.access hheader :)
  have hname : after.name = method.name :=
    (congrArg Method.name hheader :)
  have hdescriptor : after.descriptor = method.descriptor :=
    (congrArg Method.descriptor hheader :)
  refine ⟨_, ofRaw_of_interprets hafter hheader hnone hc.access hc.attributes hf.exceptions h hfound
    hall hexceptions hsignature, ⟨haccess, hname, hdescriptor, rfl, rfl, rfl, fun hwrites => ?_⟩⟩
  obtain ⟨laidOut, place, hlaid, hplaced, hrecovers⟩ := hrestores hwrites
  exact ⟨laidOut, place, hlaid, hplaced,
    hrecovers.of_sameCode ⟨rfl, rfl, rfl⟩ rfl rfl⟩

/-- A method whose labels are those that its list has handed out keeps its code. -/
theorem keepsCode_of_stored (hrecompute : setting.recompute = ⟨false, false⟩)
    (howns : method.body.Owns) (h : method.StoredAs b setting stored) :
    method.KeepsCode b setting := by
  intro hwrites laidOut hlaid
  obtain ⟨code, exceptions, signature, hall, hcode, -, -⟩ := h.attributes
  rw [StoresCode, if_pos (show (method.hasCode && _) = true from hwrites)] at hcode
  obtain ⟨info, -, hy⟩ := hcode
  obtain ⟨prepared, b₁, hprepare, -⟩ := yields_bind.mp hy
  obtain ⟨-, -, -, hlabels, -, -, -⟩ := Code.prepared_of_prepare hrecompute hprepare
  obtain ⟨sites, hwidest⟩ := Code.widest_of_widen howns hlaid
  obtain ⟨parts, hparts, rfl⟩ := hwidest.parts
  exact ⟨⟨parts, hparts, hwidest.code⟩, hwidest.nodup howns (nodup_placed hlabels)⟩

end Method

end ClassTree
