import ClassTree.Instruction
import ClassTree.Proofs.StackMap.RoundTrip

namespace ClassTree.StackMap

open Pool Reader

variable {table : Table} {name : Pool.Index → String} {types initial : List EncodedType}
  {frames : List (Nat × EncodedFrame)} {ν : Type}

/-- A type in the words of a tree, given the names of its classes and what its offsets stand for. -/
def inWords (name : Pool.Index → String) (place : Nat → ν) (type : EncodedType) :
    VerificationType String ν :=
  type.traverse (m := Id) name fun offset => place offset.toNat

/-- The frames as elements of a method's code, by offset. -/
def elementsOf (name : Pool.Index → String) (label : Nat → Label)
    (frames : List (Nat × EncodedFrame)) : List (Nat × Instruction Label) :=
  frames.map fun entry =>
    (entry.1, .frame (entry.2.locals.map (inWords name label))
      (entry.2.stack.map (inWords name label)))

/-- The elements that a method's code gets for frames that have been read. -/
def labelled (label : Nat → Label) (read : List (Nat × OffsetFrame)) :
    List (Nat × Instruction Label) :=
  read.map fun entry => (entry.1, Instruction.mapLabels label (.frame entry.2.locals entry.2.stack))

/-- Every class among the types has this name. -/
def Named (table : Table) (name : Pool.Index → String) (types : List EncodedType) : Prop :=
  ∀ index, .object index ∈ types → table.className index = .ok (name index)

def asRead (name : Pool.Index → String) (frame : EncodedFrame) : OffsetFrame :=
  ⟨frame.locals.map (inWords name id), frame.stack.map (inWords name id)⟩

theorem mapCreation_inWords (label : Nat → Label) (type : EncodedType) :
    (inWords name id type).mapCreation label = inWords name label type := by
  cases type <;> rfl

theorem shows_inWords (h : Named table name types) :
    List.Forall₂ (ShowsType table) types (types.map (inWords name id)) := by
  refine List.forall₂_map_right_iff.mpr (List.forall₂_same.mpr fun type hm => ?_)
  cases type with
  | object index =>
    rw [ShowsType, VerificationType.traverse, h index hm]
    rfl
  | _ => rfl

theorem shows_asRead {frame : EncodedFrame} (h : Named table name (frame.locals ++ frame.stack)) :
    Shows table frame (asRead name frame) :=
  ⟨shows_inWords fun index hm => h index (List.mem_append_left _ hm),
    shows_inWords fun index hm => h index (List.mem_append_right _ hm)⟩

theorem labelled_asRead (label : Nat → Label) (frames : List (Nat × EncodedFrame)) :
    labelled label (frames.map fun entry => (entry.1, asRead name entry.2)) =
      elementsOf name label frames := by
  unfold labelled elementsOf
  rw [List.map_map]
  refine List.map_congr_left fun entry _ => ?_
  have hlist : ∀ types : List EncodedType,
      (types.map (inWords name id)).map (VerificationType.mapCreation label) =
        types.map (inWords name label) := by
    intro types
    rw [List.map_map]
    exact List.map_congr_left fun type _ => mapCreation_inWords label type
  simp only [Function.comp_apply, Instruction.mapLabels, asRead, hlist]

/-- Frames at ascending offsets are recovered from their entries, in order, each at its offset with
exactly its locals and its stack; and so they are from a table that begins with their number, if
that can be written. -/
theorem frames_recovered (label : Nat → Label) (hinitial : Named table name initial)
    (hnamed : ∀ entry ∈ frames, Named table name (entry.2.locals ++ entry.2.stack))
    (hascending : frames.Pairwise fun entry later => entry.1 < later.1)
    (hfits : ∀ entry ∈ frames, entry.1 < 0x10000 ∧ Fits entry.2) (p : Nat) :
    Reads (labelled label <$> readFrom table (initial.map (inWords name id)) none []
        frames.length) p
        ((entries ⟨initial, []⟩ frames).flatMap Entry.encode) (elementsOf name label frames) ∧
      (frames.length < 0x10000 →
        Reads (labelled label <$> StackMap.read table (initial.map (inWords name id))) p
          (BigEndian.counted id ((entries ⟨initial, []⟩ frames).map Entry.encode))
          (elementsOf name label frames)) := by
  have hshown : List.Forall₂ (Shown table) frames
      (frames.map fun entry => (entry.1, asRead name entry.2)) :=
    List.forall₂_map_right_iff.mpr (List.forall₂_same.mpr fun entry hm =>
      ⟨rfl, shows_asRead (hnamed entry hm)⟩)
  have hstart : Shows table ⟨initial, []⟩ ⟨initial.map (inWords name id), []⟩ :=
    ⟨shows_inWords hinitial, .nil⟩
  rw [← labelled_asRead]
  constructor
  · exact (reads_entries hshown hstart (by simp) hascending hfits [] p).map _
  · exact fun hcount => (reads_table hshown hstart hascending hfits hcount p).map _

namespace Varied

def pool : Table :=
  ⟨[.utf8 "A", .classRef 1].foldl Constants.add .empty, #[]⟩

def told : List (Nat × EncodedFrame) :=
  [(0, ⟨[.object 2], []⟩),
    (5, ⟨[.object 2, .integer], []⟩),
    (70, ⟨[.object 2, .integer], [.uninitialized 64]⟩),
    (71, ⟨[.object 2], []⟩),
    (140, ⟨[.top, .long], [.object 2, .float]⟩)]

example : (entries ⟨[.object 2], []⟩ told).map Entry.change =
    [.same, .append [.integer], .sameWithStack (.uninitialized 64), .chop 1,
      .full [.top, .long] [.object 2, .float]] := by
  decide +kernel

theorem named (types : List EncodedType) (h : ∀ type ∈ types, ∀ index, type = .object index →
    index = 2) : Named pool (fun _ => "A") types := by
  intro index hm
  rw [h _ hm index rfl]
  decide +kernel

/-- They are recovered, the creation at offset 64 with its label. -/
theorem varied_recovered :
    Named pool (fun _ => "A") [.object 2] ∧
    (∀ entry ∈ told, Named pool (fun _ => "A") (entry.2.locals ++ entry.2.stack)) ∧
    (told.Pairwise fun entry later => entry.1 < later.1) ∧
    (∀ entry ∈ told, entry.1 < 0x10000 ∧ Fits entry.2) ∧ told.length < 0x10000 ∧
    Reads (labelled Label.mk <$> StackMap.read pool [.object "A"]) 0
      (BigEndian.counted id ((entries ⟨[.object 2], []⟩ told).map Entry.encode))
      [(0, .frame [.object "A"] []),
        (5, .frame [.object "A", .integer] []),
        (70, .frame [.object "A", .integer] [.uninitialized ⟨64⟩]),
        (71, .frame [.object "A"] []),
        (140, .frame [.top, .long] [.object "A", .float])] := by
  have hinitial : Named pool (fun _ => "A") [.object 2] := named _ (by simp)
  have hnamed : ∀ entry ∈ told, Named pool (fun _ => "A") (entry.2.locals ++ entry.2.stack) := by
    intro entry hm
    refine named _ ?_
    simp only [told, List.mem_cons, List.not_mem_nil, or_false] at hm
    rcases hm with rfl | rfl | rfl | rfl | rfl <;> simp
  have hascending : told.Pairwise fun entry later => entry.1 < later.1 := by decide
  have hfits : ∀ entry ∈ told, entry.1 < 0x10000 ∧ Fits entry.2 := by
    intro entry hm
    simp only [told, List.mem_cons, List.not_mem_nil, or_false] at hm
    rcases hm with rfl | rfl | rfl | rfl | rfl <;> exact ⟨by decide, by decide, by decide⟩
  have hcount : told.length < 0x10000 := by decide
  exact ⟨hinitial, hnamed, hascending, hfits, hcount,
    (frames_recovered Label.mk hinitial hnamed hascending hfits 0).2 hcount⟩

end Varied

namespace Full

variable {previous : EncodedFrame}

/-- The number of frames at all of the 0x10000 offsets is written as none. -/
theorem counted_full (hfull : frames.length = 0x10000) :
    BigEndian.counted id ((entries previous frames).map Entry.encode) =
      BigEndian.u16 0 ++ (entries previous frames).flatMap Entry.encode := by
  have hlength : ((entries previous frames).map Entry.encode).length = 0x10000 := by
    simp [entries, hfull]
  rw [BigEndian.counted, hlength, List.flatMap_id, ← List.flatMap_def]
  rfl

theorem read_full (hfull : frames.length = 0x10000) (table : Table)
    (locals : List (VerificationType String Nat)) :
    (StackMap.read table locals).run
        ⟨BigEndian.counted id ((entries previous frames).map Entry.encode), 0, 0⟩ =
      .ok ([], ⟨(entries previous frames).flatMap Entry.encode, 2, 0⟩) := by
  rw [counted_full hfull]
  have hcount := reads_u16 0 0 ((entries previous frames).flatMap Entry.encode) 0
  exact run_bind_eq_ok.mpr ⟨_, _, hcount, rfl⟩

def everywhere : List (Nat × EncodedFrame) :=
  (List.range 0x10000).map fun offset => (offset, ⟨[], []⟩)

/-- With a frame at each offset, none is recovered. -/
theorem full_notRecovered :
    Named Varied.pool (fun _ => "A") [] ∧
    (∀ entry ∈ everywhere, Named Varied.pool (fun _ => "A") (entry.2.locals ++ entry.2.stack)) ∧
    (everywhere.Pairwise fun entry later => entry.1 < later.1) ∧
    (∀ entry ∈ everywhere, entry.1 < 0x10000 ∧ Fits entry.2) ∧
    (∃ after, (labelled Label.mk <$> StackMap.read Varied.pool []).run
      ⟨BigEndian.counted id ((entries ⟨[], []⟩ everywhere).map Entry.encode), 0, 0⟩ =
        .ok ([], after)) ∧
    (elementsOf (fun _ => "A") Label.mk everywhere).length = 0x10000 ∧
    ¬ Reads (labelled Label.mk <$> StackMap.read Varied.pool []) 0
      (BigEndian.counted id ((entries ⟨[], []⟩ everywhere).map Entry.encode))
      (elementsOf (fun _ => "A") Label.mk everywhere) := by
  have hfull : everywhere.length = 0x10000 := by rw [everywhere, List.length_map, List.length_range]
  have helements : (elementsOf (fun _ => "A") Label.mk everywhere).length = 0x10000 := by
    rw [elementsOf, List.length_map, hfull]
  have hread : (labelled Label.mk <$> StackMap.read Varied.pool []).run
      ⟨BigEndian.counted id ((entries ⟨[], []⟩ everywhere).map Entry.encode), 0, 0⟩ =
        .ok ([], ⟨(entries ⟨[], []⟩ everywhere).flatMap Entry.encode, 2, 0⟩) := by
    rw [StateT.run_map, read_full hfull]
    rfl
  refine ⟨nofun, ?_, ?_, ?_, ⟨_, hread⟩, helements, fun h => ?_⟩
  · intro entry hm
    obtain ⟨offset, -, rfl⟩ := List.mem_map.mp hm
    exact nofun
  · exact List.pairwise_map.mpr List.pairwise_lt_range
  · intro entry hm
    obtain ⟨offset, ho, rfl⟩ := List.mem_map.mp hm
    exact ⟨List.mem_range.mp ho, Nat.zero_lt_succ _, Nat.zero_lt_succ _⟩
  · have hother := h [] 0
    rw [List.append_nil, hread] at hother
    have hnone := congrArg List.length (Prod.mk.inj (Except.ok.inj hother)).1
    rw [helements] at hnone
    cases hnone

end Full
end ClassTree.StackMap
