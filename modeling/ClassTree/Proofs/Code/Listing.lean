import ClassTree.Code.Labels
import ClassTree.Code.Listing
import ClassTree.Proofs.Code.Starts
import ClassTree.Proofs.Numbering
import Mathlib.Data.List.Nodup

namespace ClassTree

/-- The labels that a method mentions are among those handed out for its code. -/
def Method.HandedOut (method : Method) : Prop :=
  ∀ label ∈ method.mentions, label.index < method.body.labels

/-- Labels that are referred to are placed exactly once, none is placed twice, and all of them have
been handed out. -/
structure Method.LabelsSound (method : Method) : Prop where
  resolved : ∀ label ∈ method.references, method.body.placed.count label = 1
  nodup : method.body.placed.Nodup
  handedOut : method.HandedOut

/-- A new label is none of those that the method mentions. -/
theorem Method.HandedOut.freshLabel_not_mem {method : Method} (h : method.HandedOut) :
    method.body.freshLabel.1 ∉ method.mentions :=
  fun hm => Nat.lt_irrefl _ (h _ hm)

namespace Instruction

variable {ι ι' : Type}

theorem creation?_mapCreation {κ : Type} (f : ι → ι') (types : List (VerificationType κ ι)) :
    (types.map (VerificationType.mapCreation f)).filterMap VerificationType.creation? =
      (types.filterMap VerificationType.creation?).map f := by
  rw [List.filterMap_map, List.map_filterMap]
  congr 1
  funext type
  cases type <;> rfl

theorem references_mapLabels (f : ι → ι') (insn : Instruction ι) :
    (insn.mapLabels f).references = insn.references.map f := by
  cases insn with
  | frame locals stack =>
    change (locals.map _ ++ stack.map _).filterMap _ = _
    rw [← List.map_append, creation?_mapCreation]
    rfl
  | lookupSwitch default cases =>
    simp [mapLabels, references, Function.comp_def]
  | _ => simp [mapLabels, references]

theorem isFrame_mapLabels (f : ι → ι') (insn : Instruction ι) :
    (insn.mapLabels f).isFrame = insn.isFrame := by
  cases insn <;> rfl

theorem mem_mentions {insn : Instruction ι} {label : ι} :
    label ∈ insn.mentions ↔ insn.placed? = some label ∨ label ∈ insn.references := by
  cases insn with
  | label other => simp [mentions, placed?, references, eq_comm]
  | _ => simp [mentions, placed?]

end Instruction

theorem Method.mem_mentions {method : Method} {label : Label} :
    label ∈ method.mentions ↔ label ∈ method.body.placed ∨ label ∈ method.references := by
  simp only [mentions, references, Body.placed, List.mem_append, List.mem_flatMap,
    Instruction.mem_mentions, List.mem_filterMap]
  grind

namespace Code.Listing

variable {listing : Listing} {method method' : Method} {offset : Nat}

/-- A line or a frame is at the end of the code. -/
def MarksEnd (listing : Listing) : Prop :=
  listing.length ∈ listing.lineEntries.map Prod.fst ∨
    listing.length ∈ listing.frameEntries.map Prod.fst

instance (listing : Listing) : Decidable listing.MarksEnd :=
  inferInstanceAs (Decidable (_ ∨ _))

/-- Entries are found by the offsets that they are at. -/
theorem mem_byOffset {α : Type} {entries : List (Nat × α)} :
    offset ∈ byOffset entries ↔ offset ∈ entries.map Prod.fst := by
  unfold byOffset
  rw [List.foldl_reverse]
  induction entries with
  | nil => simp
  | cons first rest ih => grind

theorem mem_of_mem_byOffset {α : Type} {entries : List (Nat × α)} {entry : α}
    (h : entry ∈ (byOffset entries).getD offset []) : (offset, entry) ∈ entries := by
  unfold byOffset at h
  rw [List.foldl_reverse] at h
  induction entries generalizing entry with
  | nil => simp at h
  | cons first rest ih =>
    rw [List.foldr_cons, Std.HashMap.getD_insert] at h
    split at h
    · rename_i he
      obtain rfl := eq_of_beq he
      rcases List.mem_cons.mp h with rfl | hm
      · exact List.mem_cons_self
      · exact List.mem_cons_of_mem _ (ih hm)
    · exact List.mem_cons_of_mem _ (ih h)

/-- What has a line or a frame, or is referred to, has a label. -/
theorem mem_mentions_of_line (h : offset ∈ listing.lineEntries.map Prod.fst) :
    offset ∈ listing.mentions := by
  obtain ⟨entry, hm, rfl⟩ := List.mem_map.mp h
  obtain ⟨table, ht, hm⟩ := List.mem_flatMap.mp hm
  refine List.mem_append_right _ (List.mem_flatMap.mpr ⟨table, ht, ?_⟩)
  cases table with
  | lines entries => exact List.mem_map_of_mem hm
  | _ => cases hm

theorem mem_mentions_of_frame {frame : StackMap.OffsetFrame}
    (h : (offset, frame) ∈ listing.frameEntries) : offset ∈ listing.mentions ∧
      ∀ creation ∈ (frame.locals ++ frame.stack).filterMap VerificationType.creation?,
        creation ∈ listing.mentions := by
  obtain ⟨table, ht, hm⟩ := List.mem_flatMap.mp h
  cases table with
  | frames entries =>
    have hmention : ∀ place ∈ (frame.locals ++ frame.stack).filterMap
        VerificationType.creation? ++ [offset], place ∈ listing.mentions := by
      intro place hp
      refine List.mem_append_right _ (List.mem_flatMap.mpr ⟨_, ht, ?_⟩)
      exact List.mem_flatMap.mpr ⟨_, hm, hp⟩
    exact ⟨hmention offset (by simp), fun place hp => hmention place (List.mem_append_left _ hp)⟩
  | _ => cases hm

theorem mem_mentions_of_marksEnd (h : listing.MarksEnd) : listing.length ∈ listing.mentions := by
  rcases h with h | h
  · exact mem_mentions_of_line h
  · obtain ⟨⟨offset, frame⟩, hm, ho⟩ := List.mem_map.mp h
    exact ho ▸ (mem_mentions_of_frame hm).1

/-- What precedes an instruction places the label of its offset, if that has one. -/
theorem placed_markers (labels : Numbering Nat) (lines : Std.HashMap Nat (List UInt16))
    (frames : Std.HashMap Nat StackMap.OffsetFrame) (offset : Nat) :
    (markers labels lines frames offset).filterMap Instruction.placed? =
      if labels.contains offset then [offset] else [] := by
  have hlines : ((lines.getD offset []).map (Instruction.line · offset)).filterMap
      Instruction.placed? = [] := by
    rw [List.filterMap_map, List.filterMap_eq_nil_iff]
    exact fun _ _ => rfl
  rw [markers, List.filterMap_append, List.filterMap_append, hlines]
  cases frames[offset]? <;> split <;> rfl

def placedOffsets (listing : Listing) : List Nat :=
  listing.elements.filterMap Instruction.placed?

theorem contains_ofList {things : List Nat} :
    (Numbering.ofList things).contains offset = true ↔ offset ∈ things :=
  Std.HashMap.contains_iff_mem.trans Numbering.mem_ofList

/-- Labels are placed where instructions start that something refers to, and at the end. -/
theorem placedOffsets_eq (h : Ascending listing.instructions listing.length) :
    listing.placedOffsets = (listing.instructions.map Prod.fst).filter (· ∈ listing.mentions) ++
      (if listing.MarksEnd then [listing.length] else []) ++
      (if listing.length ∈ listing.mentions then [listing.length] else []) := by
  have hstart : ∀ entry ∈ listing.instructions,
      (markers (.ofList listing.mentions) (byOffset listing.lineEntries)
        (Std.HashMap.ofList listing.frameEntries) entry.1 ++ [entry.2]).filterMap
          Instruction.placed? = if entry.1 ∈ listing.mentions then [entry.1] else [] := by
    intro entry hm
    have hnone : entry.2.placed? = none := by
      have hreal := h.real entry hm
      cases hi : entry.2 with
      | label _ => rw [hi] at hreal; cases hreal
      | _ => rfl
    simp [List.filterMap_append, placed_markers, Numbering.mem_ofList, hnone]
  have hends : ((byOffset listing.lineEntries).contains listing.length ||
      (Std.HashMap.ofList listing.frameEntries).contains listing.length) = true ↔
        listing.MarksEnd := by
    simp [MarksEnd, mem_byOffset]
  have hfilter : ∀ entries : List (Nat × Instruction Nat),
      entries.flatMap (fun entry => if entry.1 ∈ listing.mentions then [entry.1] else []) =
        (entries.map Prod.fst).filter (· ∈ listing.mentions) := by
    intro entries
    induction entries with
    | nil => rfl
    | cons entry entries ih =>
      rw [List.flatMap_cons, List.map_cons, List.filter_cons, ih]
      by_cases hm : entry.1 ∈ listing.mentions <;> simp [hm]
  rw [placedOffsets, elements, List.filterMap_append, List.filterMap_append, List.filterMap_flatMap,
    List.flatMap_congr hstart, hfilter]
  congr 2
  · by_cases he : listing.MarksEnd
    · rw [if_pos (hends.mpr he), if_pos he, placed_markers,
        if_pos (contains_ofList.mpr (mem_mentions_of_marksEnd he))]
    · rw [if_neg (fun hc => he (hends.mp hc)), if_neg he]
      rfl
  · simp only [contains_ofList]
    split <;> rfl

/-- Labels are placed once each, unless a line or a frame is at the end of the code. -/
theorem nodup_placedOffsets (h : Ascending listing.instructions listing.length) :
    listing.placedOffsets.Nodup ↔ ¬ listing.MarksEnd := by
  rw [placedOffsets_eq h]
  constructor
  · intro hn he
    rw [if_pos he, if_pos (mem_mentions_of_marksEnd he)] at hn
    exact (List.nodup_append.mp hn).2.2 listing.length (by simp) listing.length (by simp) rfl
  · intro he
    rw [if_neg he, List.append_nil]
    have hstarts : (listing.instructions.map Prod.fst).Nodup := h.sorted.imp Nat.ne_of_lt
    refine List.nodup_append.mpr ⟨hstarts.filter _, ?_, ?_⟩
    · split
      · exact List.nodup_singleton _
      · exact .nil
    · intro start hs stop ht
      obtain rfl : stop = listing.length := by
        split at ht
        · exact List.mem_singleton.mp ht
        · cases ht
      exact Nat.ne_of_lt (h.before start (List.mem_of_mem_filter hs))

/-- Nothing is misplaced if all offsets that need a label are starts of instructions, or the end of
the code. -/
theorem misplaced?_eq_none : listing.misplaced? = none ↔ ∀ offset ∈ listing.mentions,
    offset = listing.length ∨ offset ∈ listing.instructions.map Prod.fst := by
  unfold misplaced?
  rw [List.min?_eq_none_iff, List.filter_eq_nil_iff]
  refine forall₂_congr fun offset _ => ?_
  have hstarts := @contains_ofList offset (listing.instructions.map Prod.fst)
  rw [starts, ← hstarts]
  cases (Numbering.ofList (listing.instructions.map Prod.fst)).contains offset <;> simp

theorem start_or_end (hp : listing.misplaced? = none) (hm : offset ∈ listing.mentions) :
    offset = listing.length ∨ offset ∈ listing.instructions.map Prod.fst :=
  misplaced?_eq_none.mp hp offset hm

/-- Whatever needs a label is where one is placed. -/
theorem mem_placedOffsets (h : Ascending listing.instructions listing.length)
    (hp : listing.misplaced? = none) :
    offset ∈ listing.placedOffsets ↔ offset ∈ listing.mentions := by
  rw [placedOffsets_eq h]
  constructor
  · intro hm
    simp only [List.mem_append] at hm
    rcases hm with (hm | hm) | hm
    · exact of_decide_eq_true (List.mem_filter.mp hm).2
    · split at hm
      · rename_i he
        obtain rfl := List.mem_singleton.mp hm
        exact mem_mentions_of_marksEnd he
      · cases hm
    · split at hm
      · rename_i hin
        obtain rfl := List.mem_singleton.mp hm
        exact hin
      · cases hm
  · intro hm
    rcases start_or_end hp hm with rfl | hs
    · exact List.mem_append_right _ (by simp [hm])
    · refine List.mem_append_left _ (List.mem_append_left _ ?_)
      exact List.mem_filter.mpr ⟨hs, decide_eq_true hm⟩

theorem references_markers {insn : Instruction Nat} (hi : insn ∈ markers (.ofList listing.mentions)
    (byOffset listing.lineEntries) (Std.HashMap.ofList listing.frameEntries) offset) :
    ∀ place ∈ insn.references, place ∈ listing.mentions := by
  rw [markers, List.mem_append, List.mem_append] at hi
  rcases hi with (hi | hi) | hi
  · split at hi
    · obtain rfl := List.mem_singleton.mp hi
      nofun
    · cases hi
  · obtain ⟨line, hl, rfl⟩ := List.mem_map.mp hi
    intro place hm
    obtain rfl : place = offset := by simpa [Instruction.references] using hm
    exact mem_mentions_of_line (List.mem_map_of_mem (mem_of_mem_byOffset hl))
  · split at hi
    · rename_i frame hf
      obtain rfl := List.mem_singleton.mp hi
      exact (mem_mentions_of_frame (mem_of_ofList hf)).2
    · cases hi

/-- Whatever an element refers to needs a label. -/
theorem references_elements {insn : Instruction Nat} (hi : insn ∈ listing.elements) :
    ∀ place ∈ insn.references, place ∈ listing.mentions := by
  rw [elements, List.mem_append, List.mem_append] at hi
  rcases hi with (hi | hi) | hi
  · obtain ⟨entry, he, hi⟩ := List.mem_flatMap.mp hi
    rcases List.mem_append.mp hi with hi | hi
    · exact references_markers hi
    · obtain rfl := List.mem_singleton.mp hi
      intro place hp
      refine List.mem_append_left _ (List.mem_append_left _ ?_)
      exact List.mem_flatMap.mpr ⟨entry, he, hp⟩
  · split at hi
    · exact references_markers hi
    · cases hi
  · split at hi
    · obtain rfl := List.mem_singleton.mp hi
      nofun
    · cases hi

/-- Signatures leave the variables where they are. -/
theorem map_fst_addSignature (entries : List (VariableEntry × Option String))
    (signature : VariableEntry) : (addSignature entries signature).map Prod.fst =
      entries.map Prod.fst := by
  unfold addSignature
  dsimp only
  split
  · rename_i index _
    refine List.ext_getElem? fun i => ?_
    rw [List.getElem?_map, List.getElem?_map, List.getElem?_modify]
    split <;> cases entries[i]? <;> rfl
  · rfl

theorem map_fst_foldl_addSignature (signatures : List VariableEntry)
    (entries : List (VariableEntry × Option String)) :
    (signatures.foldl addSignature entries).map Prod.fst = entries.map Prod.fst := by
  induction signatures generalizing entries with
  | nil => rfl
  | cons signature signatures ih => rw [List.foldl_cons, ih, map_fst_addSignature]

theorem mem_mentions_of_variable {entry : VariableEntry} (h : entry ∈ listing.variableEntries) :
    entry.start ∈ listing.mentions ∧ entry.stop ∈ listing.mentions := by
  obtain ⟨table, ht, hm⟩ := List.mem_flatMap.mp h
  cases table with
  | localVariables entries =>
    have hmention : ∀ place ∈ [entry.start, entry.stop], place ∈ listing.mentions := by
      intro place hp
      refine List.mem_append_right _ (List.mem_flatMap.mpr ⟨_, ht, ?_⟩)
      exact List.mem_flatMap.mpr ⟨_, hm, hp⟩
    exact ⟨hmention _ (by simp), hmention _ (by simp)⟩
  | _ => cases hm

def labelAt (listing : Listing) (offset : Nat) : Label :=
  ⟨(Numbering.ofList listing.mentions).getD offset 0⟩

def variablesFor (listing : Listing) (method : Method) : Option (List LocalVariable) :=
  if listing.hasVariables then
    some ((listing.signatureEntries.foldl addSignature
      (listing.variableEntries.map fun entry => (entry, none))).map fun (entry, signature) =>
        { name := entry.name, descriptor := entry.type, signature,
          start := listing.labelAt entry.start, stop := listing.labelAt entry.stop,
          slot := entry.slot })
  else method.localVariables

def addedTo (listing : Listing) (method : Method) : Method :=
  { method with
    maxStack := listing.maxStack
    maxLocals := listing.maxLocals
    body := ⟨listing.elements.map (Instruction.mapLabels listing.labelAt),
      (Numbering.ofList listing.mentions).size⟩
    handlers := method.handlers ++ listing.handlers.map fun handler =>
      ⟨listing.labelAt handler.start, listing.labelAt handler.stop,
        listing.labelAt handler.handler, handler.catchType⟩
    localVariables := listing.variablesFor method }

/-- What a method is given by the contents of a code attribute. -/
theorem addTo_eq_ok : listing.addTo method = .ok method' ↔
    listing.misplaced? = none ∧ method' = listing.addedTo method := by
  unfold addTo
  cases hp : listing.misplaced? with
  | some offset =>
    refine iff_of_false (fun h => ?_) (fun h => nomatch h.1)
    obtain ⟨_, ht, -⟩ := bind_eq_ok.mp h
    exact throw_ne_ok ht
  | none => exact ⟨fun h => ⟨rfl, (pure_eq_ok.mp h).symm⟩, fun h => pure_eq_ok.mpr h.2.symm⟩

/-- Variables that are given to a method live between offsets that have labels. -/
theorem mentions_variablesFor (hnone : method.localVariables = none) {entry : LocalVariable}
    (hm : entry ∈ (listing.variablesFor method).getD []) :
    ∀ label ∈ entry.mentions, ∃ offset ∈ listing.mentions, label = listing.labelAt offset := by
  intro label hl
  unfold variablesFor at hm
  split at hm
  · rw [Option.getD_some] at hm
    obtain ⟨⟨found, signature⟩, hf, rfl⟩ := List.mem_map.mp hm
    have hfound : found ∈ listing.variableEntries := by
      have hmap := List.mem_map_of_mem (f := Prod.fst) hf
      rw [map_fst_foldl_addSignature, List.map_map] at hmap
      simpa using hmap
    obtain ⟨hstart, hstop⟩ := mem_mentions_of_variable hfound
    rcases List.mem_cons.mp hl with rfl | hl
    · exact ⟨_, hstart, rfl⟩
    · obtain rfl := List.mem_singleton.mp hl
      exact ⟨_, hstop, rfl⟩
  · rw [hnone] at hm
    cases hm

theorem labelAt_inj {first second : Nat} (hf : first ∈ listing.mentions)
    (hs : second ∈ listing.mentions) (h : listing.labelAt first = listing.labelAt second) :
    first = second :=
  Numbering.getD_ofList_inj hf hs (congrArg Label.index h)

/-- The labels of an offset are those handed out. -/
theorem exists_labelAt_iff {label : Label} :
    (∃ offset ∈ listing.mentions, label = listing.labelAt offset) ↔
      label.index < (Numbering.ofList listing.mentions).size := by
  constructor
  · rintro ⟨offset, ho, rfl⟩
    exact Numbering.getD_ofList_lt ho
  · intro hlt
    obtain ⟨offset, ho, hn⟩ := Numbering.exists_of_lt_size hlt
    exact ⟨offset, ho, congrArg Label.mk hn.symm⟩

theorem placed_addTo (h : listing.addTo method = .ok method') :
    method'.body.placed = listing.placedOffsets.map listing.labelAt := by
  obtain ⟨-, rfl⟩ := addTo_eq_ok.mp h
  rw [Body.placed, addedTo, placedOffsets, List.filterMap_map, List.map_filterMap]
  congr 1
  funext insn
  exact Instruction.placed?_mapLabels _ _

/-- Labels of added code are placed once each, unless a line or a frame is at its end. -/
theorem nodup_placed_addTo (ha : Ascending listing.instructions listing.length)
    (h : listing.addTo method = .ok method') :
    method'.body.placed.Nodup ↔ ¬ listing.MarksEnd := by
  have hp := (addTo_eq_ok.mp h).1
  rw [placed_addTo h, ← nodup_placedOffsets ha]
  refine ⟨List.Nodup.of_map _, fun hn => ?_⟩
  refine hn.map_on fun first hf second hs he => ?_
  exact labelAt_inj ((mem_placedOffsets ha hp).mp hf) ((mem_placedOffsets ha hp).mp hs) he

/-- A method has sound labels after code was added to it, unless a line or a frame is at the end of
that code, or the method still mentions labels beyond those of that code. -/
theorem labelsSound_addTo (ha : Ascending listing.instructions listing.length)
    (h : listing.addTo method = .ok method') : method'.LabelsSound ↔
      ¬ listing.MarksEnd ∧ method'.HandedOut := by
  obtain ⟨hp, hmethod⟩ := addTo_eq_ok.mp h
  have hlabels : method'.body.labels = (Numbering.ofList listing.mentions).size := by
    rw [hmethod, addedTo]
  have hplaced := placed_addTo h
  have hnodup := nodup_placed_addTo ha h
  refine ⟨fun hs => ⟨hnodup.mp hs.nodup, hs.handedOut⟩, ?_⟩
  rintro ⟨he, hout⟩
  refine ⟨fun label hm => ?_, hnodup.mpr he, hout⟩
  obtain ⟨offset, ho, rfl⟩ := exists_labelAt_iff.mpr
    (hlabels ▸ hout label (Method.mem_mentions.mpr (.inr hm)))
  refine List.count_eq_one_of_mem (hnodup.mpr he) ?_
  rw [hplaced]
  exact List.mem_map_of_mem ((mem_placedOffsets ha hp).mpr ho)

/-- A method to which code was added for the first time only mentions labels of that code. -/
theorem handedOut_addTo (ha : Ascending listing.instructions listing.length)
    (hh : method.handlers = []) (hv : method.localVariables = none)
    (h : listing.addTo method = .ok method') : method'.HandedOut := by
  obtain ⟨hp, hmethod⟩ := addTo_eq_ok.mp h
  have hbody : method'.body = ⟨listing.elements.map (Instruction.mapLabels listing.labelAt),
      (Numbering.ofList listing.mentions).size⟩ := by rw [hmethod, addedTo]
  intro label hm
  rw [hbody]
  refine exists_labelAt_iff.mp ?_
  rcases Method.mem_mentions.mp hm with hm | hm
  · rw [placed_addTo h] at hm
    obtain ⟨offset, ho, rfl⟩ := List.mem_map.mp hm
    exact ⟨offset, (mem_placedOffsets ha hp).mp ho, rfl⟩
  rw [Method.references, List.mem_append, List.mem_append] at hm
  rcases hm with (hm | hm) | hm
  · obtain ⟨insn, hi, hl⟩ := List.mem_flatMap.mp hm
    rw [hbody] at hi
    obtain ⟨element, he, rfl⟩ := List.mem_map.mp hi
    rw [Instruction.references_mapLabels] at hl
    obtain ⟨offset, ho, rfl⟩ := List.mem_map.mp hl
    exact ⟨offset, references_elements he offset ho, rfl⟩
  · obtain ⟨handler, hi, hl⟩ := List.mem_flatMap.mp hm
    rw [hmethod, addedTo, hh, List.nil_append] at hi
    obtain ⟨found, hf, rfl⟩ := List.mem_map.mp hi
    have hin : ∀ offset ∈ found.mentions, offset ∈ listing.mentions := fun offset ho =>
      List.mem_append_left _ (List.mem_append_right _ (List.mem_flatMap.mpr ⟨found, hf, ho⟩))
    have hl : label ∈ found.mentions.map listing.labelAt := hl
    obtain ⟨offset, ho, rfl⟩ := List.mem_map.mp hl
    exact ⟨offset, hin offset ho, rfl⟩
  · obtain ⟨entry, hi, hl⟩ := List.mem_flatMap.mp hm
    rw [hmethod] at hi
    exact mentions_variablesFor hv hi label hl

end Code.Listing
end ClassTree
