import ClassTree.Proofs.Pool.Codec
import ClassTree.Proofs.Pool.Lookup
import ClassTree.Proofs.Writing.Encoded

namespace ClassTree

open Pool Build BigEndian Reader

variable {table : Table} {b : Builder}

namespace RawAttribute

/-- The bytes are those of the attribute, the name of which is in the table. -/
def EncodedAs (table : Table) (entry : RawAttribute) (bytes : Bytes) : Prop :=
  ∃ index, table.text index = .ok entry.name ∧
    bytes = u16 index ++ u32 (UInt32.ofNat entry.info.length) ++ entry.info

/-- This is what is read for the attribute, wherever in the file it is. -/
def FoundAs (entry : RawAttribute) (found : String × Cursor) : Prop :=
  ∃ base, found = (entry.name, ⟨entry.info, 0, base⟩)

def Fits (entry : RawAttribute) : Prop :=
  entry.info.length < 0x100000000

end RawAttribute

theorem encodedAs_attributeBytes {name : String} {info bytes : Bytes}
    (hy : Yields (attributeBytes name info) b bytes b) (hs : b.Sound) :
    RawAttribute.EncodedAs b.table ⟨name, info⟩ bytes := by
  obtain ⟨index, middle, hindex, hp⟩ := yields_bind.mp hy
  obtain ⟨rfl, rfl⟩ := yields_pure.mp hp
  exact ⟨index, text_found hindex (.refl _) hs, rfl⟩

/-- An attribute takes more bytes than its contents. -/
theorem RawAttribute.EncodedAs.length_eq {entry : RawAttribute} {bytes : Bytes}
    (h : entry.EncodedAs table bytes) : bytes.length = entry.info.length + 6 := by
  obtain ⟨index, -, rfl⟩ := h
  rw [List.length_append, List.length_append, length_u16, length_u32]
  omega

theorem length_le_of_encodedAs {attributes : List RawAttribute} {encoded : List Bytes}
    (h : List.Forall₂ (RawAttribute.EncodedAs table) attributes encoded) {entry : RawAttribute}
    (hm : entry ∈ attributes) : entry.info.length ≤ (counted id encoded).length := by
  rw [BigEndian.counted, List.flatMap_id, List.length_append]
  refine Nat.le_add_left_of_le ?_
  induction h with
  | nil => cases hm
  | cons hfirst _ ih =>
    rw [List.flatten_cons, List.length_append]
    rcases List.mem_cons.mp hm with rfl | hm
    · have := hfirst.length_eq
      omega
    · exact Nat.le_add_left_of_le (ih hm)

/-- Attributes of which there are not too many, each of which is not too long. -/
def FitAttributes (attributes : List RawAttribute) : Prop :=
  attributes.length < 0x10000 ∧ ∀ entry ∈ attributes, entry.Fits

theorem forall₂_and_mem {α β : Type} {R : α → β → Prop} {P : α → Prop} {l : List α} {l' : List β}
    (h : List.Forall₂ R l l') (hp : ∀ a ∈ l, P a) : List.Forall₂ (fun a c => P a ∧ R a c) l l' := by
  induction h with
  | nil => exact .nil
  | cons hr _ ih =>
    exact .cons ⟨hp _ List.mem_cons_self, hr⟩ (ih fun a hm => hp a (List.mem_cons_of_mem _ hm))

theorem readsAs_attributes {attributes : List RawAttribute} {encoded : List Bytes}
    (h : List.Forall₂ (RawAttribute.EncodedAs table) attributes encoded)
    (hf : FitAttributes attributes) (p : Nat) :
    ReadsAs (readAttributes table) p (counted id encoded)
      (List.Forall₂ RawAttribute.FoundAs attributes) := by
  refine readsAs_counted ((forall₂_and_mem h hf.2).imp fun entry bytes he p => ?_) hf.1 p
  obtain ⟨hfits, index, hname, rfl⟩ := he
  rw [id_eq, List.append_assoc]
  refine (reads_u16 index p).bind_as ((reads_lift hname _).bind_as ((reads_u32 _ _).bind_as ?_))
  rw [UInt32.toNat_ofNat_of_lt' hfits]
  refine (readsAs_part _ _).map fun cursor hc => ?_
  obtain ⟨base, rfl⟩ := hc
  exact ⟨base, rfl⟩

/-- Field or method as it is stored: its attributes have names and contents. -/
structure StoredMember where
  access : UInt16
  name : String
  descriptor : String
  attributes : List RawAttribute

namespace StoredMember

structure EncodedAs (table : Table) (member : StoredMember) (encoded : EncodedMember) : Prop where
  access : encoded.access = member.access
  name : table.text encoded.name = .ok member.name
  descriptor : table.text encoded.descriptor = .ok member.descriptor
  attributes : List.Forall₂ (RawAttribute.EncodedAs table) member.attributes encoded.attributes

structure FoundAs (member : StoredMember) (found : RawMember) : Prop where
  access : found.access = member.access
  name : found.name = member.name
  descriptor : found.descriptor = member.descriptor
  attributes : List.Forall₂ RawAttribute.FoundAs member.attributes found.attributes

end StoredMember

theorem readsAs_members {members : List StoredMember} {encoded : List EncodedMember}
    (h : List.Forall₂ (StoredMember.EncodedAs table) members encoded)
    (hl : members.length < 0x10000) (hf : ∀ member ∈ members, FitAttributes member.attributes)
    (p : Nat) :
    ReadsAs (readMembers table) p (counted EncodedMember.encode encoded)
      (List.Forall₂ StoredMember.FoundAs members) := by
  refine readsAs_counted ((forall₂_and_mem h hf).imp fun member bytes he p => ?_) hl p
  obtain ⟨hfits, haccess, hname, hdescriptor, hattributes⟩ := he
  rw [EncodedMember.encode, List.append_assoc, List.append_assoc]
  refine (reads_u16 _ p).bind_as ((reads_u16 _ _).bind_as ((reads_lift hname _).bind_as
    ((reads_u16 _ _).bind_as ((reads_lift hdescriptor _).bind_as ?_))))
  exact (readsAs_attributes hattributes hfits _).map fun found hfound => ⟨haccess, rfl, rfl, hfound⟩

end ClassTree
