import ClassTree.Proofs.Code.Rereading
import ClassTree.Proofs.Reading.Labels

namespace ClassTree.Code

open Pool Build StackMap

variable {b : Builder} {laidOut : LaidOut} {method found : Method} {usesFrames : Bool}
  {frames : List (Nat × OffsetFrame)}

/-- What is read of an instruction refers to nothing that this does not refer to. -/
theorem references_normal {insn : Instruction Nat} {offset : Nat}
    (h : offset ∈ (normal insn).references) : offset ∈ insn.references := by
  cases insn with
  | lookupSwitch default cases =>
    rcases List.mem_cons.mp h with rfl | h
    · exact List.mem_cons_self
    · obtain ⟨entry, hm, rfl⟩ := List.mem_map.mp h
      exact List.mem_cons_of_mem _ (List.mem_map_of_mem (List.mem_mergeSort.mp hm))
  | _ => exact h

def LaidOut.boundaries (laidOut : LaidOut) : List Nat :=
  laidOut.instructions.map Prod.fst ++ [laidOut.offsets.length]

theorem mem_elements {entry : Nat × Instruction Nat} (h : entry ∈ laidOut.elements)
    (hlaid : Laid b laidOut.code laidOut.offsets) : entry.1 ∈ laidOut.boundaries ∧
      ∀ offset ∈ entry.2.references, offset ∈ laidOut.boundaries := by
  obtain ⟨⟨insn, index⟩, hm, rfl⟩ := List.mem_map.mp h
  have hindex := (List.getElem?_eq_some_iff.mp (List.mk_mem_zipIdx_iff_getElem?.mp hm)).1
  refine ⟨hlaid.boundary (Nat.le_of_lt hindex), fun offset hoffset => ?_⟩
  rw [LaidOut.resolve, Instruction.references_mapLabels] at hoffset
  obtain ⟨label, -, rfl⟩ := List.mem_map.mp hoffset
  exact hlaid.at_boundary label

/-- So it is with what the tables refer to. -/
theorem mentions_tables (hlaid : Laid b laidOut.code laidOut.offsets)
    (hframes : FramesRead usesFrames laidOut frames) {offset : Nat}
    (h : offset ∈ (laidOut.tables method frames).flatMap CodeTable.mentions) :
    offset ∈ laidOut.boundaries := by
  have hat : ∀ label, laidOut.labelOffsets.at label ∈ laidOut.boundaries := hlaid.at_boundary
  rw [LaidOut.flatMap_tables] at h
  rcases List.mem_append.mp h with h | h
  · rcases List.mem_append.mp h with h | h
    · rcases List.mem_append.mp h with h | h
      · obtain ⟨entries, he, hm⟩ := List.mem_flatMap.mp h
        obtain rfl := eq_of_mem_nonempty? (Option.mem_toList.mp he)
        obtain ⟨line, hl, rfl⟩ := List.mem_map.mp hm
        obtain ⟨insn, -, hi⟩ := List.mem_filterMap.mp hl
        cases insn with
        | line number start =>
          obtain rfl := Option.some.inj hi
          exact hat start
        | _ => cases hi
      · obtain ⟨entries, he, hm⟩ := List.mem_flatMap.mp h
        obtain ⟨originals, -, rfl⟩ := Option.map_eq_some_iff.mp (Option.mem_toList.mp he)
        obtain ⟨entry, hin, hm⟩ := List.mem_flatMap.mp hm
        obtain ⟨original, -, rfl⟩ := List.mem_map.mp hin
        rcases List.mem_cons.mp hm with rfl | hm
        · exact hat original.start
        · obtain rfl := List.mem_singleton.mp hm
          exact hat original.stop
    · obtain ⟨entries, -, hm⟩ := List.mem_flatMap.mp h
      cases hm
  · obtain ⟨entries, he, hm⟩ := List.mem_flatMap.mp h
    obtain rfl := eq_of_mem_nonempty? (Option.mem_toList.mp he)
    obtain ⟨entry, hin, hm⟩ := List.mem_flatMap.mp hm
    obtain ⟨hplace, hcreated⟩ :=
      mem_elements (mem_of_lastFrame? (hframes.mem_iff.mp hin).2.2) hlaid
    rcases List.mem_append.mp hm with hm | hm
    · exact hcreated _ hm
    · obtain rfl := List.mem_singleton.mp hm
      exact hplace

/-- Whatever the code that is read refers to, is where an instruction starts or the code ends. -/
theorem mentions_listing (hlaid : Laid b laidOut.code laidOut.offsets)
    (hframes : FramesRead usesFrames laidOut frames) {offset : Nat}
    (h : offset ∈ (laidOut.listing method frames).mentions) : offset ∈ laidOut.boundaries := by
  rcases List.mem_append.mp h with h | h
  · rcases List.mem_append.mp h with h | h
    · obtain ⟨entry, he, hm⟩ := List.mem_flatMap.mp h
      obtain ⟨element, hin, rfl⟩ := List.mem_map.mp he
      exact (mem_elements (List.mem_filter.mp hin).1 hlaid).2 _ (references_normal hm)
    · obtain ⟨handler, hh, hm⟩ := List.mem_flatMap.mp h
      obtain ⟨original, -, rfl⟩ := List.mem_map.mp hh
      simp only [OffsetHandler.mentions, List.mem_cons, List.not_mem_nil, or_false] at hm
      rcases hm with rfl | rfl | rfl <;> exact hlaid.at_boundary _
  · exact mentions_tables hlaid hframes h

theorem misplaced?_listing (hlaid : Laid b laidOut.code laidOut.offsets)
    (hframes : FramesRead usesFrames laidOut frames) :
    (laidOut.listing method frames).misplaced? = none := by
  refine Listing.misplaced?_eq_none.mpr fun offset hm => ?_
  rcases List.mem_append.mp (mentions_listing hlaid hframes hm) with hstart | hend
  · exact .inr hstart
  · exact .inl (List.mem_singleton.mp hend)

/-- The elements of code that was read, with the offsets at which they stand and with offsets in
place of labels. -/
def LaidOut.placedIn (laidOut : LaidOut) (place : Label → Nat) (found : Method) :
    List (Nat × Instruction Nat) :=
  resolved place
    (standing laidOut.offsets.length (laidOut.instructions.map Prod.fst) found.body.code)

structure Recovers (usesFrames : Bool) (laidOut : LaidOut) (method found : Method)
    (place : Label → Nat) : Prop where
  maxStack : found.maxStack = method.maxStack
  maxLocals : found.maxLocals = method.maxLocals
  /-- Every label stands at its place. -/
  labels : ∀ label ∈ found.mentions, (place label, .label label) ∈
    standing laidOut.offsets.length (laidOut.instructions.map Prod.fst) found.body.code
  /-- No label stands anywhere else. -/
  single : ∀ {offset label}, (offset, .label label) ∈ laidOut.placedIn place found → label = offset
  instructions : (laidOut.placedIn place found).filter (fun entry => !entry.2.isMarker) =
    laidOut.instructions
  /-- At each offset there are the same lines in the same order. -/
  lines : ∀ offset, (linesAt ((laidOut.placedIn place found).map Prod.snd)).filter (·.1 = offset) =
    (linesAt (laidOut.elements.map Prod.snd)).filter (·.1 = offset)
  /-- Frames are kept by versions that use them, the last one at each offset in the code. -/
  frames : ∀ entry, entry ∈ framesAt (laidOut.placedIn place found) ↔ usesFrames = true ∧
    entry.1 < laidOut.offsets.length ∧ lastFrame? laidOut.elements entry.1 = some entry.2
  ascending : (framesAt (laidOut.placedIn place found)).Pairwise
    fun entry later => entry.1 < later.1
  handlers : found.handlers.map (resolveHandler place) =
    offsetHandlers laidOut.labelOffsets method.handlers
  /-- Variables keep their signatures if these can be told apart. -/
  variables_ : (∀ entries ∈ method.localVariables,
      ((properVariables laidOut.labelOffsets entries).map fun entry =>
        (resolveVariable laidOut.offsetOf entry).1.key).Nodup) →
    found.localVariables.map (List.map (resolveVariable place)) =
      method.localVariables.map fun entries =>
        (properVariables laidOut.labelOffsets entries).map (resolveVariable laidOut.offsetOf)

theorem variables_listing (h : ∀ entries ∈ method.localVariables,
    ((properVariables laidOut.labelOffsets entries).map fun entry =>
      (resolveVariable laidOut.offsetOf entry).1.key).Nodup) :
    (if (laidOut.listing method frames).hasVariables then
      some ((laidOut.listing method frames).signatureEntries.foldl Listing.addSignature
        ((laidOut.listing method frames).variableEntries.map fun entry => (entry, none)))
      else none) =
      method.localVariables.map fun entries =>
        (properVariables laidOut.labelOffsets entries).map (resolveVariable laidOut.offsetOf) := by
  rw [LaidOut.hasVariables_listing, LaidOut.signatureEntries_listing,
    LaidOut.variableEntries_listing]
  cases hv : method.localVariables with
  | none => rfl
  | some entries =>
    have hkeys := h entries hv
    rw [Option.isSome_some, if_pos rfl, Option.getD_some, Option.map_some]
    have hfold := @foldl_addSignature
      ((properVariables laidOut.labelOffsets entries).map (resolveVariable laidOut.offsetOf))
      (by rwa [List.map_map])
    rw [List.map_map, List.filterMap_map] at hfold
    rw [offsetVariables, List.map_map]
    exact congrArg some hfold

/-- Code that is added to a method without any is the code that was laid out. -/
theorem recovers_addTo {declared : Method} (hframes : FramesRead usesFrames laidOut frames)
    (hascending : Ascending (laidOut.listing method frames).instructions
      (laidOut.listing method frames).length)
    (hh : declared.handlers = []) (hv : declared.localVariables = none)
    (ha : (laidOut.listing method frames).addTo declared = .ok found) :
    Recovers usesFrames laidOut method found (laidOut.listing method frames).placeOf := by
  have hp := (Listing.addTo_eq_ok.mp ha).1
  have hplaced : laidOut.placedIn (laidOut.listing method frames).placeOf found =
      (laidOut.listing method frames).placed := Listing.resolved_addTo hascending ha
  have hframesAt : framesAt (laidOut.listing method frames).placed = frames :=
    (Listing.framesAt_eq hascending hp
      (by rw [LaidOut.frameEntries_listing]; exact hframes.ascending)).trans
        LaidOut.frameEntries_listing
  have hfound := (Listing.addTo_eq_ok.mp ha).2
  exact
    { maxStack := by rw [hfound]; rfl
      maxLocals := by rw [hfound]; rfl
      labels := fun label hm => Listing.label_mem_standing hascending hh hv ha hm
      single := fun hm => (Listing.eq_of_label_mem_placed hascending (hplaced ▸ hm)).1
      instructions := by rw [hplaced, Listing.filter_placed hascending]; rfl
      lines := fun offset => by
        rw [hplaced, Listing.placed, map_snd_standing, Listing.filter_linesAt hascending hp,
          LaidOut.lineEntries_listing, LaidOut.labelOffsets, LaidOut.offsetLines_eq]
      frames := fun entry => by rw [hplaced, hframesAt, hframes.mem_iff]
      ascending := by rw [hplaced, hframesAt]; exact hframes.ascending
      handlers := Listing.resolveHandler_addTo hh ha
      variables_ := fun hkeys =>
        (Listing.resolveVariable_addTo hv ha).trans (variables_listing hkeys) }

/-- Nothing but the code of a method matters for this. -/
theorem Recovers.of_sameCode {other : Method} {place : Label → Nat}
    (h : Recovers usesFrames laidOut method found place) (hsame : Method.SameCode other found)
    (hstack : other.maxStack = found.maxStack) (hlocals : other.maxLocals = found.maxLocals) :
    Recovers usesFrames laidOut method other place := by
  have hmentions : other.mentions = found.mentions := by
    unfold Method.mentions Method.variableList
    rw [hsame.body, hsame.handlers, hsame.localVariables]
  have hplaced : laidOut.placedIn place other = laidOut.placedIn place found := by
    rw [LaidOut.placedIn, LaidOut.placedIn, hsame.body]
  exact
    { maxStack := hstack.trans h.maxStack
      maxLocals := hlocals.trans h.maxLocals
      labels := by rw [hmentions, hsame.body]; exact h.labels
      single := hplaced ▸ h.single
      instructions := hplaced ▸ h.instructions
      lines := hplaced ▸ h.lines
      frames := hplaced ▸ h.frames
      ascending := hplaced ▸ h.ascending
      handlers := hsame.handlers ▸ h.handlers
      variables_ := hsame.localVariables ▸ h.variables_ }

/-- What is written for a method is read as the code that was laid out for it, whatever has been
found of the method before. -/
theorem exists_recovers {setting : Setting} {info : Bytes} {declared : Method} (hr : b.Reachable)
    (hc : setting.recompute = ⟨false, false⟩)
    (hcan : ∀ insn ∈ method.body.code, insn.Canonical) (hsize : b.bootstrap.size ≤ 0x10000)
    (hf : ∀ laidOut, Yields (widen (setting.displayName method)
      (method.body.code.any Instruction.isFrame) method.body) b laidOut b → laidOut.Fits method)
    (hlength : info.length < 0x100000000) (hy : Yields (attributeInfo setting method) b info b)
    (hd : Method.SameDeclaration declared method) (hh : declared.handlers = [])
    (hv : declared.localVariables = none) :
    ∃ laidOut listing found, method.checkLabels (setting.displayName method) = .ok () ∧
      Yields (widen (setting.displayName method) (method.body.code.any Instruction.isFrame)
        method.body) b laidOut b ∧
      (∀ base, Cursor.parse ⟨info, 0, base⟩ (readListing setting.owner declared b.table
        ⟨false, false⟩) = .ok listing) ∧ listing.addTo declared = .ok found ∧
      Recovers setting.version.usesFrames laidOut method found listing.placeOf := by
  obtain ⟨laidOut, frames, hlabels, hwiden, hframes, hparse⟩ :=
    exists_readListing hr hc hcan hsize hf hlength hy
  obtain ⟨cursor, hrun⟩ := Reader.parse_eq_ok.mp (hparse 0)
  obtain ⟨hlaid, -⟩ := laid_of_widen hwiden
  have ha : (laidOut.listing method frames).addTo declared =
      .ok ((laidOut.listing method frames).addedTo declared) :=
    Listing.addTo_eq_ok.mpr ⟨misplaced?_listing hlaid hframes, rfl⟩
  refine ⟨laidOut, _, _, hlabels, hwiden, fun base => ?_, ha,
    recovers_addTo hframes (ascending_readListing hrun) hh hv ha⟩
  rw [hd.readListing_eq]
  exact hparse base

end ClassTree.Code
