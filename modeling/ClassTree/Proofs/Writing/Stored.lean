import ClassTree.Proofs.Writing.Contents

namespace ClassTree

open Pool Build BigEndian Reader

variable {b : Builder} {recompute : Code.Recompute} {hierarchy : Hierarchy} {tree : Class}
  {stored : StoredClass} {encoded : EncodedClass} {version : Version}

/-- What readers of class files find: the parts, with attributes that have not been interpreted. -/
abbrev Parts := Header × Table × List RawMember × List RawMember × List (String × Cursor)

/-- The parts of a class file, after its version. -/
def readContents (version : Version) : Reader Parts := do
  let constants ← Constants.read
  let header ← readHeader version ⟨constants, #[]⟩
  let fields ← readMembers ⟨constants, #[]⟩
  let methods ← readMembers ⟨constants, #[]⟩
  let attributes ← readAttributes ⟨constants, #[]⟩
  return (header, ⟨constants, #[]⟩, fields, methods, attributes)

namespace StoredClass

structure Fits (b : Builder) (stored : StoredClass) : Prop where
  constants : ∀ constant ∈ b.constants.toList, constant.Fits
  places : b.constants.next < 0x10000
  interfaces : stored.interfaces.length < 0x10000
  fields : stored.fields.length < 0x10000
  methods : stored.methods.length < 0x10000
  members : ∀ member ∈ stored.fields ++ stored.methods, FitAttributes member.attributes
  attributes : FitAttributes stored.attributes

structure FoundAs (b : Builder) (version : Version) (stored : StoredClass) (parts : Parts) :
    Prop where
  header : parts.1 = ⟨version, .ofBits .ofClass stored.access, stored.name, stored.superName,
    stored.interfaces⟩
  table : parts.2.1 = ⟨b.constants, #[]⟩
  fields : List.Forall₂ StoredMember.FoundAs stored.fields parts.2.2.1
  methods : List.Forall₂ StoredMember.FoundAs stored.methods parts.2.2.2.1
  attributes : List.Forall₂ RawAttribute.FoundAs stored.attributes parts.2.2.2.2

theorem EncodedAs.reads_header {table : Table} (h : stored.EncodedAs table encoded)
    (hl : stored.interfaces.length < 0x10000) (p : Nat) :
    Reads (readHeader version table) p (u16 encoded.access ++ u16 encoded.name ++
      u16 encoded.superName ++ counted u16 encoded.interfaces)
      ⟨version, .ofBits .ofClass stored.access, stored.name, stored.superName,
        stored.interfaces⟩ := by
  have hinterfaces := reads_counted (h.interfaces.flip.imp fun index name hname p =>
    (reads_u16 index p).bind_nil (reads_lift hname _)) (h.interfaces.length_eq ▸ hl)
  rw [List.append_assoc, List.append_assoc, h.access]
  exact (reads_u16 _ p).bind ((reads_u16 _ _).bind ((reads_lift h.name _).bind
    ((reads_u16 _ _).bind ((reads_lift h.superName _).bind ((hinterfaces _).map _)))))

/-- What fits is read as it is stored. -/
theorem EncodedAs.readsAs_contents (h : stored.EncodedAs b.table encoded) (hr : b.Reachable)
    (hf : stored.Fits b) (p : Nat) :
    ReadsAs (readContents version) p (b.constants.encode ++ encoded.encode)
      (stored.FoundAs b version) := by
  have hmembers : ∀ member, member ∈ stored.fields ∨ member ∈ stored.methods →
      FitAttributes member.attributes := fun member hm => hf.members member (List.mem_append.mpr hm)
  refine (hr.built.reads hf.constants hf.places p).bind_as ?_
  rw [EncodedClass.encode, List.append_assoc, List.append_assoc]
  refine (h.reads_header hf.interfaces _).bind_as ?_
  refine (readsAs_members h.fields hf.fields (fun m hm => hmembers m (.inl hm)) _).bind
    fun fields hfields => ?_
  refine (readsAs_members h.methods hf.methods (fun m hm => hmembers m (.inr hm)) _).bind
    fun methods hmethods => ?_
  exact (readsAs_attributes h.attributes hf.attributes _).map fun attributes hattributes =>
    ⟨rfl, rfl, hfields, hmethods, hattributes⟩

end StoredClass

namespace Class

theorem write_eq_ok {bytes : Bytes} : tree.write recompute hierarchy = .ok bytes ↔
    ∃ body b, Yields (tree.encodeBody recompute hierarchy) tree.startingPool body b ∧
      bytes = u32 magic ++ tree.version.encode ++ b.constants.encode ++ body := by
  unfold write
  change (match (tree.encodeBody recompute hierarchy).exec tree.startingPool with
    | (.ok body, builder) => _
    | (.error error, _) => _) = _ ↔ _
  unfold Yields
  rcases (tree.encodeBody recompute hierarchy).exec tree.startingPool with ⟨fault | body, b⟩
  · exact iff_of_false nofun nofun
  · constructor
    · intro h
      exact ⟨body, b, rfl, (Except.ok.inj h).symm⟩
    · rintro ⟨_, _, h, rfl⟩
      cases h
      rfl

/-- The pool of the class, if it has one, is that of a class file. -/
def HasReadPool (tree : Class) : Prop :=
  ∀ table ∈ tree.pool, ∃ cursor cursor', Constants.read.run cursor = .ok (table.constants, cursor')

theorem HasReadPool.reachable (h : tree.HasReadPool) : tree.startingPool.Reachable := by
  unfold startingPool
  split
  · rename_i table hpool
    obtain ⟨cursor, cursor', hread⟩ := h table hpool
    exact .seeded hread
  · exact .empty

/-- A class file that is written stores the class, and that is what is read, if it fits. -/
theorem stored_of_write {bytes : Bytes} (hpool : tree.HasReadPool)
    (h : tree.write recompute hierarchy = .ok bytes) : ∃ b stored contents,
      b.Reachable ∧ tree.startingPool.Within b ∧ tree.StoredAs b recompute hierarchy stored ∧
      bytes = u32 magic ++ tree.version.encode ++ contents ∧
      (stored.Fits b → ∀ version p, ReadsAs (readContents version) p contents
        (stored.FoundAs b version)) := by
  obtain ⟨body, b, hy, rfl⟩ := write_eq_ok.mp h
  obtain ⟨hw, hreach, encoded, hencodes, rfl⟩ := encodes_of_encodeBody hy
  have hr := hreach hpool.reachable
  obtain ⟨stored, hstored, hencoded⟩ := hencodes.exists_stored hr
  exact ⟨b, stored, _, hr, hw, hstored, List.append_assoc _ _ _,
    fun hf version p => hencoded.readsAs_contents hr hf p⟩

end Class
end ClassTree
