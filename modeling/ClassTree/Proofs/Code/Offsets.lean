import ClassTree.Proofs.Code.Placement
import ClassTree.Proofs.Code.Sections

namespace ClassTree.Code

open Pool Build BigEndian Reader StackMap

variable {b b' : Builder} {laidOut : LaidOut}

namespace LaidOut

def offsetOf (laidOut : LaidOut) (label : Label) : Nat :=
  (LabelOffsets.ofCode laidOut.code laidOut.offsets).at label

def resolve (laidOut : LaidOut) (entry : Instruction Label × Nat) : Nat × Instruction Nat :=
  (laidOut.offsets.getD entry.2 0, entry.1.mapLabels laidOut.offsetOf)

def elements (laidOut : LaidOut) : List (Nat × Instruction Nat) :=
  laidOut.code.zipIdx.map laidOut.resolve

def instructions (laidOut : LaidOut) : List (Nat × Instruction Nat) :=
  (laidOut.elements.filter fun entry => !entry.2.isMarker).map fun entry =>
    (entry.1, normal entry.2)

theorem readBack_eq (laidOut : LaidOut) : readBack laidOut.offsets
    (.ofCode laidOut.code laidOut.offsets) laidOut.code.zipIdx = laidOut.instructions := by
  have hreal : (fun entry : Nat × Instruction Nat => !entry.2.isMarker) ∘ laidOut.resolve =
      fun entry => !entry.1.isMarker := by
    funext entry
    simp [resolve]
  rw [instructions, elements, List.filter_map, List.map_map, readBack, hreal]
  rfl

theorem map_fst_instructions (laidOut : LaidOut) : laidOut.instructions.map Prod.fst =
    (laidOut.code.zipIdx.filter fun entry => !entry.1.isMarker).map
      fun entry => laidOut.offsets.getD entry.2 0 := by
  rw [← readBack_eq, readBack, List.map_map]
  rfl

theorem map_snd_elements (laidOut : LaidOut) : laidOut.elements.map Prod.snd =
    laidOut.code.map (Instruction.mapLabels laidOut.offsetOf) := by
  conv_rhs => rw [← List.zipIdx_map_fst 0 laidOut.code]
  rw [elements, List.map_map, List.map_map]
  rfl

theorem offsetLines_eq (laidOut : LaidOut) :
    offsetLines (.ofCode laidOut.code laidOut.offsets) laidOut.code =
      linesAt (laidOut.elements.map Prod.snd) := by
  rw [map_snd_elements, offsetLines, linesAt, List.filterMap_map]
  congr 1
  funext insn
  cases insn <;> rfl

end LaidOut

/-- Whatever offset an element has, an instruction starts there, or the code ends. -/
theorem Laid.boundary (h : Laid b laidOut.code laidOut.offsets) {index : Nat}
    (hi : index ≤ laidOut.code.length) :
    laidOut.offsets.getD index 0 ∈ laidOut.instructions.map Prod.fst ++
      [laidOut.offsets.length] := by
  induction hn : laidOut.code.length - index generalizing index with
  | zero =>
    obtain rfl : index = laidOut.code.length := by omega
    rw [← h.length_eq]
    simp
  | succ n ih =>
    have hlt : index < laidOut.code.length := by omega
    have hget := List.getElem?_eq_getElem hlt
    cases hm : laidOut.code[index].isMarker with
    | true =>
      have hnext := h.next hget
      have hzero := size_marker hm hnext.1
      rw [show laidOut.offsets.getD index 0 = laidOut.offsets.getD (index + 1) 0 by omega]
      exact ih (by omega) (by omega)
    | false =>
      refine List.mem_append_left _ ?_
      rw [LaidOut.map_fst_instructions]
      refine List.mem_map.mpr ⟨(laidOut.code[index], index), List.mem_filter.mpr ⟨?_, by simp [hm]⟩,
        rfl⟩
      exact List.mk_mem_zipIdx_iff_getElem?.mpr hget

/-- So it is with labels. -/
theorem Laid.at_boundary (h : Laid b laidOut.code laidOut.offsets) (label : Label) :
    laidOut.offsetOf label ∈ laidOut.instructions.map Prod.fst ++ [laidOut.offsets.length] := by
  rw [LaidOut.offsetOf, labelOffsets_at h, Std.HashMap.getD_eq_getD_getElem?]
  refine h.boundary ?_
  cases hp : (Flow.Positions.ofCode laidOut.code)[label]? with
  | none => exact Nat.zero_le _
  | some index =>
    have hat := (Flow.Positions.getElem?_ofCode.mp hp).1
    exact Nat.le_of_lt (List.getElem?_eq_some_iff.mp hat).1

section Frames

/-- The frame at an offset; of several frames there, the last one counts. -/
def lastFrame? (elements : List (Nat × Instruction Nat)) (offset : Nat) : Option OffsetFrame :=
  ((framesAt elements).filter (·.1 = offset)).getLast?.map Prod.snd

theorem lastFrame?_append_frame (elements : List (Nat × Instruction Nat)) (place offset : Nat)
    (locals stack : List (VerificationType String Nat)) :
    lastFrame? (elements ++ [(place, .frame locals stack)]) offset =
      if place = offset then some ⟨locals, stack⟩ else lastFrame? elements offset := by
  have hlast : framesAt [(place, .frame locals stack)] = [(place, ⟨locals, stack⟩)] := rfl
  rw [lastFrame?, Listing.framesAt_append, hlast, List.filter_append]
  split
  · rename_i he
    rw [List.filter_cons_of_pos (by simpa using he), List.filter_nil, List.getLast?_concat]
    rfl
  · rename_i hne
    rw [List.filter_cons_of_neg (by simpa using hne), List.filter_nil, List.append_nil]
    rfl

theorem lastFrame?_append_other {insn : Instruction Nat} (h : insn.isFrame = false)
    (elements : List (Nat × Instruction Nat)) (place offset : Nat) :
    lastFrame? (elements ++ [(place, insn)]) offset = lastFrame? elements offset := by
  have hnone : framesAt [(place, insn)] = [] := by
    cases insn with
    | frame => cases h
    | _ => rfl
  rw [lastFrame?, Listing.framesAt_append, hnone, List.append_nil]
  rfl

/-- The entry of a table is read as this frame in every pool that has grown from this one. -/
def ShowsFrom (b : Builder) (encoded : EncodedFrame) (frame : OffsetFrame) : Prop :=
  ∀ {b' : Builder}, b.Within b' → b'.Sound → Shows b'.table encoded frame

theorem ShowsFrom.mono {encoded : EncodedFrame} {frame : OffsetFrame}
    (h : ShowsFrom b encoded frame) (hw : b.Within b') : ShowsFrom b' encoded frame :=
  fun hw' hs => h (hw.trans hw') hs

theorem showsFrom_mono {encoded : Option EncodedFrame} {frame : Option OffsetFrame}
    (hw : b.Within b') (h : Option.Rel (ShowsFrom b) encoded frame) :
    Option.Rel (ShowsFrom b') encoded frame := by
  cases h with
  | none => exact .none
  | some hs => exact .some (hs.mono hw)

/-- The frames in a table are the last ones at their offsets, before the end of the code. -/
def PlacesLast (b : Builder) (laidOut : LaidOut) (entries : List (Instruction Label × Nat))
    (table : FrameTable) : Prop :=
  ∀ offset, Option.Rel (ShowsFrom b) table[offset]?
    (if offset < laidOut.offsets.length then lastFrame? (entries.map laidOut.resolve) offset
      else none)

theorem PlacesLast.mono {entries : List (Instruction Label × Nat)} {table : FrameTable}
    (h : PlacesLast b laidOut entries table) (hw : b.Within b') :
    PlacesLast b' laidOut entries table :=
  fun offset => showsFrom_mono hw (h offset)

/-- What an element does to a table of frames: it adds one, or leaves it as it is. -/
def AddsFrame (b : Builder) (laidOut : LaidOut) (entry : Instruction Label × Nat)
    (table table' : FrameTable) : Prop :=
  (∃ locals stack encoded, (laidOut.resolve entry).2 = .frame locals stack ∧
    (laidOut.resolve entry).1 < laidOut.offsets.length ∧
    table' = table.insert (laidOut.resolve entry).1 encoded ∧ ShowsFrom b encoded ⟨locals, stack⟩) ∨
  table' = table ∧ ((laidOut.resolve entry).2.isFrame = true →
    laidOut.offsets.length ≤ (laidOut.resolve entry).1)

theorem PlacesLast.add {entries : List (Instruction Label × Nat)} {entry : Instruction Label × Nat}
    {table table' : FrameTable} (h : PlacesLast b laidOut entries table)
    (ha : AddsFrame b laidOut entry table table') :
    PlacesLast b laidOut (entries ++ [entry]) table' := by
  intro offset
  have hsame := h offset
  rw [List.map_append, List.map_singleton]
  unfold AddsFrame at ha
  generalize laidOut.resolve entry = found at ha
  obtain ⟨place, insn⟩ := found
  rcases ha with ⟨locals, stack, encoded, rfl, hlt, rfl, hshows⟩ | ⟨rfl, hout⟩
  · rw [lastFrame?_append_frame, Std.TreeMap.getElem?_insert]
    by_cases he : place = offset
    · rw [if_pos (Nat.compare_eq_eq.mpr he), if_pos he, if_pos (he ▸ hlt)]
      exact .some hshows
    · rwa [if_neg (fun hc => he (Nat.compare_eq_eq.mp hc)), if_neg he]
  · cases hf : insn.isFrame with
    | false => rwa [lastFrame?_append_other hf]
    | true =>
      cases insn with
      | frame locals stack =>
        rw [lastFrame?_append_frame]
        by_cases he : place = offset
        · have hend : ¬ offset < laidOut.offsets.length := Nat.not_lt.mpr (he ▸ hout hf)
          rw [if_neg hend] at hsame ⊢
          exact hsame
        · rwa [if_neg he]
      | _ => cases hf

theorem placesLast_foldlM {step : FrameTable → Instruction Label × Nat → Build FrameTable}
    (hlawful : ∀ table entry, Lawful (step table entry))
    (hstep : ∀ {table entry table' b b'}, Yields (step table entry) b table' b' →
      AddsFrame b' laidOut entry table table')
    {entries : List (Instruction Label × Nat)} {table : FrameTable}
    (hy : Yields (entries.foldlM step ∅) b table b') : PlacesLast b' laidOut entries table := by
  induction entries using List.reverseRecOn generalizing table b' with
  | nil =>
    obtain ⟨rfl, -⟩ := yields_pure.mp hy
    intro offset
    rw [Std.TreeMap.getElem?_emptyc]
    split <;> exact .none
  | append_singleton entries entry ih =>
    rw [List.foldlM_append] at hy
    obtain ⟨before, middle, hbefore, hy⟩ := yields_bind.mp hy
    rw [List.foldlM_cons] at hy
    obtain ⟨after, middle', hadd, hp⟩ := yields_bind.mp hy
    obtain ⟨rfl, rfl⟩ := yields_pure.mp hp
    exact ((ih hbefore).mono ((hlawful before entry).grows hadd)).add (hstep hadd)

/-- Frames placed by hand are those that are written. -/
theorem placesLast_placedFrames (hlaid : Laid b laidOut.code laidOut.offsets)
    (hshort : laidOut.offsets.length ≤ maxLength) {table : FrameTable} {b₁ b₂ : Builder}
    (hy : Yields (placedFrames laidOut) b₁ table b₂) :
    PlacesLast b₂ laidOut laidOut.code.zipIdx table := by
  refine placesLast_foldlM (lawful_addPlaced laidOut) ?_ hy
  rintro table ⟨insn, index⟩ table' b b' hy
  dsimp only at hy
  split at hy
  · rename_i locals stack
    split at hy
    · rename_i hlt
      obtain ⟨encoded, middle, hencode, hp⟩ := yields_bind.mp hy
      obtain ⟨rfl, rfl⟩ := yields_pure.mp hp
      refine .inl ⟨_, _, encoded, rfl, hlt, rfl, fun hw hs => ?_⟩
      refine shows_frame (fun _ _ label _ => ?_) hencode hw hs
      rw [labelOffsets_at hlaid]
      exact Nat.lt_of_le_of_lt (Nat.le_trans (hlaid.le_length _) hshort) (by decide)
    · rename_i hout
      obtain ⟨rfl, rfl⟩ := yields_pure.mp hy
      exact .inr ⟨rfl, fun _ => Nat.le_of_not_lt hout⟩
  · rename_i hother
    obtain ⟨rfl, rfl⟩ := yields_pure.mp hy
    refine .inr ⟨rfl, fun hf => ?_⟩
    cases insn with
    | frame locals stack => exact absurd rfl (hother locals stack)
    | _ => cases hf

/-- What is read of a table has the frames that are in it. -/
theorem PlacesLast.mem_iff {entries : List (Instruction Label × Nat)} {table : FrameTable}
    {read : List (Nat × OffsetFrame)} (h : PlacesLast b laidOut entries table) (hs : b.Sound)
    (hread : List.Forall₂ (Shown b.table) table.toList read) {offset : Nat} {frame : OffsetFrame} :
    (offset, frame) ∈ read ↔ offset < laidOut.offsets.length ∧
      lastFrame? (entries.map laidOut.resolve) offset = some frame := by
  have hrel := h offset
  have hshows : ∀ {encoded}, table[offset]? = some encoded →
      ((offset, frame) ∈ read ↔ Shows b.table encoded frame) := by
    intro encoded hat
    have hin := Std.TreeMap.mem_toList_iff_getElem?_eq_some.mpr hat
    constructor
    · intro hm
      obtain ⟨⟨_, other⟩, hm', rfl, hshows⟩ := exists_of_mem_left hread.flip hm
      have hother := Std.TreeMap.mem_toList_iff_getElem?_eq_some.mp hm'
      obtain rfl := Option.some.inj (hat.symm.trans hother)
      exact hshows
    · intro hshows
      obtain ⟨⟨_, other⟩, hm, rfl, hother⟩ := exists_shown_of_mem hread hin
      obtain rfl := hshows.unique hother
      exact hm
  generalize hat : table[offset]? = encoded at hrel
  generalize hlast : (if offset < laidOut.offsets.length then
    lastFrame? (entries.map laidOut.resolve) offset else none) = last at hrel
  have hiff : offset < laidOut.offsets.length ∧
      lastFrame? (entries.map laidOut.resolve) offset = some frame ↔ last = some frame := by
    rw [← hlast]
    split
    · rename_i hlt
      exact and_iff_right hlt
    · rename_i hge
      exact iff_of_false (fun hc => hge hc.1) nofun
  rw [hiff]
  cases hrel with
  | none =>
    refine iff_of_false (fun hm => ?_) nofun
    obtain ⟨⟨_, other⟩, hm', rfl, -⟩ := exists_of_mem_left hread.flip hm
    exact absurd (hat.symm.trans (Std.TreeMap.mem_toList_iff_getElem?_eq_some.mp hm')) nofun
  | some hfrom =>
    have hfound := hfrom (.refl _) hs
    rw [hshows hat, Option.some.injEq]
    exact ⟨hfound.unique, fun he => he ▸ hfound⟩

theorem ascending_of_shown {table : FrameTable} {read : List (Nat × OffsetFrame)}
    (h : List.Forall₂ (Shown b.table) table.toList read) :
    read.Pairwise fun entry later => entry.1 < later.1 := by
  have hkeys : table.toList.map Prod.fst = read.map Prod.fst :=
    List.forall₂_eq_eq_eq ▸ (List.forall₂_map_left_iff.mpr
      (List.forall₂_map_right_iff.mpr (h.imp fun _ _ hs => hs.1)))
  rw [← List.pairwise_map, ← hkeys, List.pairwise_map]
  exact Std.TreeMap.ordered_keys_toList.imp fun hlt => Nat.compare_eq_lt.mp hlt

end Frames

end ClassTree.Code
