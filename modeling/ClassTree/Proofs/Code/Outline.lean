import ClassTree.Proofs.Code.Placement

namespace ClassTree

variable {ι : Type}

namespace Body

def numberedFrom (before : Nat) : List (Instruction ι) → List (Nat × Instruction ι)
  | [] => []
  | insn :: code =>
    (before, insn) :: numberedFrom (if insn.isMarker then before else before + 1) code

/-- Number of instructions before the place where the label is first placed. -/
def placeOf (body : Body) (label : Label) : Nat :=
  (body.code.takeWhile fun insn => insn.placed? != some label).countP fun insn => !insn.isMarker

def outline (body : Body) : List (Nat × Instruction Nat) :=
  ((numberedFrom 0 body.code).filter fun entry => entry.2.placed?.isNone).map fun entry =>
    (entry.1, entry.2.mapLabels body.placeOf)

/-- The element that places a label is found with the number of instructions before it. -/
theorem exists_mem_numberedFrom {code : List (Instruction Label)} {label : Label}
    (h : ∃ insn ∈ code, insn.placed? = some label) (before : Nat) :
    ∃ insn, (before + (code.takeWhile fun insn => insn.placed? != some label).countP
      fun insn => !insn.isMarker, insn) ∈ numberedFrom before code ∧
        insn.placed? = some label := by
  induction code generalizing before with
  | nil =>
    obtain ⟨insn, hm, -⟩ := h
    cases hm
  | cons first code ih =>
    by_cases hp : first.placed? = some label
    · rw [List.takeWhile_cons_of_neg (by simpa using hp)]
      exact ⟨first, List.mem_cons_self, hp⟩
    · obtain ⟨insn, hm, hlabel⟩ := h
      have hrest : ∃ insn ∈ code, insn.placed? = some label := by
        rcases List.mem_cons.mp hm with rfl | hm
        · exact absurd hlabel hp
        · exact ⟨insn, hm, hlabel⟩
      obtain ⟨insn, hm, hlabel⟩ := ih hrest (if first.isMarker then before else before + 1)
      refine ⟨insn, List.mem_cons_of_mem _ ?_, hlabel⟩
      rw [List.takeWhile_cons_of_pos (by simpa using hp), List.countP_cons]
      cases hmarker : first.isMarker with
      | true => simpa [hmarker] using hm
      | false =>
        rw [hmarker, if_neg Bool.false_ne_true] at hm
        rwa [Nat.add_assoc, Nat.add_comm 1] at hm

end Body

namespace Code

variable {stop : Nat}

/-- Elements that stand at ascending offsets have before them the instructions that start before
these offsets. -/
theorem numberedFrom_eq {before starts : List Nat} {code : List (Instruction ι)}
    (hsorted : (before ++ starts).Pairwise (· < ·))
    (hstop : ∀ start ∈ before ++ starts, start < stop)
    (hcount : code.countP (fun insn => !insn.isMarker) = starts.length) :
    Body.numberedFrom before.length code = (standing stop starts code).map fun entry =>
      ((before ++ starts).countP (· < entry.1), entry.2) := by
  induction code generalizing before starts with
  | nil => rfl
  | cons insn code ih =>
    have hhead : (before ++ starts).countP (· < starts.headD stop) = before.length := by
      cases starts with
      | nil => simpa using hstop
      | cons start starts =>
        obtain ⟨-, hstarts, hbefore⟩ := List.pairwise_append.mp hsorted
        have hnone : (start :: starts).countP (· < start) = 0 := by
          refine List.countP_eq_zero.mpr fun later hm => ?_
          rcases List.mem_cons.mp hm with rfl | hm
          · simp
          · simpa using Nat.le_of_lt (List.rel_of_pairwise_cons hstarts hm)
        have hall : before.countP (· < start) = before.length :=
          List.countP_eq_length.mpr fun earlier hm => by
            simpa using hbefore earlier hm start List.mem_cons_self
        rw [List.countP_append, List.headD_cons, hall, hnone, Nat.add_zero]
    rw [Body.numberedFrom, standing, List.map_cons, hhead]
    congr 1
    cases hm : insn.isMarker with
    | true =>
      exact ih hsorted hstop (by simpa [hm] using hcount)
    | false =>
      cases starts with
      | nil => simp [hm] at hcount
      | cons start starts =>
        have := @ih (before ++ [start]) starts (by simpa using hsorted) (by simpa using hstop)
          (by simpa [hm] using hcount)
        simpa using this

theorem numberedFrom_map {ι' : Type} (f : ι → ι') (before : Nat) (code : List (Instruction ι)) :
    Body.numberedFrom before (code.map (Instruction.mapLabels f)) =
      (Body.numberedFrom before code).map fun entry => (entry.1, entry.2.mapLabels f) := by
  induction code generalizing before with
  | nil => rfl
  | cons insn code ih =>
    rw [List.map_cons, Body.numberedFrom, Body.numberedFrom, List.map_cons, ih,
      Instruction.isMarker_mapLabels]

namespace Listing

variable {listing : Listing} {method method' : Method} {offset : Nat}

def rank (listing : Listing) (offset : Nat) : Nat :=
  (listing.instructions.map Prod.fst).countP (· < offset)

theorem countP_elements (h : Ascending listing.instructions listing.length) :
    listing.elements.countP (fun insn => !insn.isMarker) = listing.instructions.length := by
  have helements : listing.elements = listing.placed.map Prod.snd := map_snd_standing.symm
  rw [helements, List.countP_map, List.countP_eq_length_filter, ← filter_placed h]
  rfl

theorem numberedFrom_elements (h : Ascending listing.instructions listing.length) :
    Body.numberedFrom 0 listing.elements =
      listing.placed.map fun entry => (listing.rank entry.1, entry.2) := by
  have hcount : listing.elements.countP (fun insn => !insn.isMarker) =
      (listing.instructions.map Prod.fst).length := by
    rw [countP_elements h, List.length_map]
  exact @numberedFrom_eq _ _ [] _ _ h.sorted h.before hcount

def body (listing : Listing) : Body :=
  ⟨listing.elements.map (Instruction.mapLabels listing.labelAt),
    (Numbering.ofList listing.mentions).size⟩

theorem numberedFrom_body (h : Ascending listing.instructions listing.length) :
    Body.numberedFrom 0 listing.body.code = listing.placed.map fun entry =>
      (listing.rank entry.1, entry.2.mapLabels listing.labelAt) := by
  rw [body, numberedFrom_map, numberedFrom_elements h, List.map_map]
  rfl

/-- The label of an offset is placed after the instructions before that offset. -/
theorem placeOf_body (h : Ascending listing.instructions listing.length)
    (hp : listing.misplaced? = none) (hm : offset ∈ listing.mentions) :
    listing.body.placeOf (listing.labelAt offset) = listing.rank offset := by
  have hplaced : ∃ insn ∈ listing.body.code, insn.placed? = some (listing.labelAt offset) := by
    obtain ⟨insn, hi, hlabel⟩ := List.mem_filterMap.mp ((mem_placedOffsets h hp).mpr hm)
    refine ⟨_, List.mem_map_of_mem hi, ?_⟩
    rw [Instruction.placed?_mapLabels, hlabel]
    rfl
  obtain ⟨insn, hi, hlabel⟩ := Body.exists_mem_numberedFrom hplaced 0
  rw [numberedFrom_body h, Nat.zero_add] at hi
  obtain ⟨⟨place, insn'⟩, hentry, he⟩ := List.mem_map.mp hi
  obtain ⟨hrank, rfl⟩ := Prod.mk.inj he
  cases insn' with
  | label other =>
    obtain ⟨rfl, hin⟩ := eq_of_label_mem_placed h hentry
    obtain rfl := labelAt_inj hin hm (Option.some.inj hlabel)
    exact hrank.symm
  | _ => cases hlabel

def notes (listing : Listing) (offset : Nat) : List (Instruction Nat) :=
  ((byOffset listing.lineEntries).getD offset []).map (.line · offset) ++
    (match (Std.HashMap.ofList listing.frameEntries)[offset]? with
      | some frame => [.frame frame.locals frame.stack]
      | none => [])

/-- The elements other than labels, with the offsets at which they stand. -/
def content (listing : Listing) : List (Nat × Instruction Nat) :=
  listing.instructions.flatMap (fun entry => (listing.notes entry.1 ++ [entry.2]).map (entry.1, ·))
    ++ (listing.notes listing.length).map (listing.length, ·)

theorem filter_marks (offset : Nat) :
    (listing.marks offset).filter (fun insn => insn.placed?.isNone) = listing.notes offset := by
  have hmarks : listing.marks offset = (if (Numbering.ofList listing.mentions).contains offset then
      [Instruction.label offset] else []) ++ listing.notes offset :=
    List.append_assoc _ _ _
  have hnotes : ∀ insn ∈ listing.notes offset, insn.placed?.isNone = true := by
    intro insn hi
    rcases List.mem_append.mp hi with hi | hi
    · obtain ⟨number, -, rfl⟩ := List.mem_map.mp hi
      rfl
    · split at hi
      · obtain rfl := List.mem_singleton.mp hi
        rfl
      · cases hi
  rw [hmarks, List.filter_append, List.filter_eq_self.mpr hnotes]
  split <;> rfl

theorem notes_eq_nil (h : ¬ listing.MarksEnd) : listing.notes listing.length = [] := by
  obtain ⟨hlines, hframes⟩ := not_or.mp h
  have hline : (byOffset listing.lineEntries).getD listing.length [] = [] :=
    Std.HashMap.getD_eq_fallback (mt mem_byOffset.mp hlines)
  have hframe : (Std.HashMap.ofList listing.frameEntries)[listing.length]? = none :=
    Std.HashMap.getElem?_eq_none (by simpa using hframes)
  rw [notes, hline, hframe]
  rfl

theorem filter_placed_content (h : Ascending listing.instructions listing.length) :
    listing.placed.filter (fun entry => entry.2.placed?.isNone) = listing.content := by
  have hmap : ∀ (offset : Nat) (code : List (Instruction Nat)),
      (code.map (offset, ·)).filter (fun entry => entry.2.placed?.isNone) =
        (code.filter fun insn => insn.placed?.isNone).map (offset, ·) := by
    intro offset code
    rw [List.filter_map]
    rfl
  have hending : listing.ending.filter (fun insn => insn.placed?.isNone) =
      listing.notes listing.length := by
    have hlabel : (if (Numbering.ofList listing.mentions).contains listing.length then
        [Instruction.label listing.length] else []).filter
          (fun insn => insn.placed?.isNone) = [] := by
      split <;> rfl
    rw [ending, List.filter_append, hlabel, List.append_nil]
    split
    · exact filter_marks _
    · rename_i hends
      refine (notes_eq_nil fun hmarks => hends ?_).symm
      simpa [MarksEnd, mem_byOffset] using hmarks
  rw [placed_eq h, content, List.filter_append, List.filter_flatMap, hmap, hending]
  congr 1
  refine List.flatMap_congr fun entry hm => ?_
  have hreal : entry.2.placed? = none := by
    have hmarker := h.real entry hm
    cases hi : entry.2 with
    | label _ => rw [hi] at hmarker; cases hmarker
    | _ => rfl
  rw [hmap, List.filter_append, filter_marks]
  simp [hreal]

/-- The outline of added code is what was read, with numbers of instructions for offsets. -/
theorem outline_body (h : Ascending listing.instructions listing.length)
    (hp : listing.misplaced? = none) : listing.body.outline =
      listing.content.map fun entry =>
        (listing.rank entry.1, entry.2.mapLabels listing.rank) := by
  have hplaced : ∀ entry ∈ listing.placed, (entry.2.mapLabels listing.labelAt).mapLabels
      listing.body.placeOf = entry.2.mapLabels listing.rank := by
    intro entry hm
    have hi : entry.2 ∈ listing.elements := by
      have hmap := List.mem_map_of_mem (f := Prod.snd) hm
      rwa [placed, map_snd_standing] at hmap
    rw [Instruction.mapLabels_mapLabels]
    exact Instruction.mapLabels_congr fun offset ho =>
      placeOf_body h hp (mentions_elements h hp hi offset ho)
  rw [Body.outline, numberedFrom_body h, ← filter_placed_content h, List.filter_map, List.map_map]
  have hlabels : ((fun entry : Nat × Instruction Label => entry.2.placed?.isNone) ∘ fun entry =>
      (listing.rank entry.1, entry.2.mapLabels listing.labelAt)) =
        fun entry : Nat × Instruction Nat => entry.2.placed?.isNone := by
    funext entry
    rw [Function.comp_apply, Instruction.placed?_mapLabels, Option.isNone_map]
  rw [hlabels]
  refine List.map_congr_left fun entry hm => ?_
  exact Prod.ext rfl (hplaced entry (List.mem_of_mem_filter hm))

/-- Where handlers and variables are, in numbers of instructions. -/
theorem resolveHandler_addedTo (h : Ascending listing.instructions listing.length)
    (hp : listing.misplaced? = none) (hh : method.handlers = []) :
    (listing.addedTo method).handlers.map (resolveHandler listing.body.placeOf) =
      listing.handlers.map fun handler => ⟨listing.rank handler.start, listing.rank handler.stop,
        listing.rank handler.handler, handler.catchType⟩ := by
  rw [addedTo, hh, List.nil_append, List.map_map]
  refine List.map_congr_left fun handler hm => ?_
  have hin : ∀ offset ∈ handler.mentions, offset ∈ listing.mentions := fun offset ho =>
    List.mem_append_left _ (List.mem_append_right _ (List.mem_flatMap.mpr ⟨handler, hm, ho⟩))
  simp only [Function.comp_apply, resolveHandler]
  rw [placeOf_body h hp (hin _ (by simp [OffsetHandler.mentions])),
    placeOf_body h hp (hin _ (by simp [OffsetHandler.mentions])),
    placeOf_body h hp (hin _ (by simp [OffsetHandler.mentions]))]

theorem resolveVariable_addedTo (h : Ascending listing.instructions listing.length)
    (hp : listing.misplaced? = none) (hv : method.localVariables = none) :
    (listing.addedTo method).localVariables.map (List.map (resolveVariable listing.body.placeOf)) =
      if listing.hasVariables then some ((listing.signatureEntries.foldl addSignature
        (listing.variableEntries.map fun entry => (entry, none))).map fun entry =>
          ({ entry.1 with start := listing.rank entry.1.start, stop := listing.rank entry.1.stop },
            entry.2))
      else none := by
  rw [addedTo, variablesFor]
  split
  · rw [Option.map_some, List.map_map]
    refine congrArg some (List.map_congr_left fun entry hm => ?_)
    have hentry : entry.1 ∈ listing.variableEntries := by
      have hmap := List.mem_map_of_mem (f := Prod.fst) hm
      rw [map_fst_foldl_addSignature, List.map_map] at hmap
      simpa using hmap
    obtain ⟨hstart, hstop⟩ := mem_mentions_of_variable hentry
    simp only [Function.comp_apply, resolveVariable]
    rw [placeOf_body h hp hstart, placeOf_body h hp hstop]
  · rw [hv]
    rfl

end Listing
end Code
end ClassTree
