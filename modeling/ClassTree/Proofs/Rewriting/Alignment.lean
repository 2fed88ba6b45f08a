import ClassTree.Proofs.Code.Outline
import ClassTree.Proofs.Rewriting.Kept
import ClassTree.Proofs.Writing.Renamed

namespace ClassTree.Code

open Pool Build

variable {ι : Type} {b : Builder} {laidOut : LaidOut} {stop : Nat}

section Standing

variable {starts : List Nat} {code : List (Instruction ι)}

/-- The instructions among elements stand where instructions start. -/
theorem filter_standing (h : code.countP (fun insn => !insn.isMarker) = starts.length) :
    (standing stop starts code).filter (fun entry => !entry.2.isMarker) =
      starts.zip (code.filter fun insn => !insn.isMarker) := by
  induction code generalizing starts with
  | nil =>
    obtain rfl : starts = [] := List.length_eq_zero_iff.mp h.symm
    rfl
  | cons insn code ih =>
    rw [standing]
    cases hm : insn.isMarker with
    | true =>
      rw [List.filter_cons_of_neg (by simp [hm]), List.filter_cons_of_neg (by simp [hm])]
      exact ih (by simpa [hm] using h)
    | false =>
      rw [List.filter_cons_of_pos (by simp [hm]), List.filter_cons_of_pos (by simp [hm])]
      cases starts with
      | nil => simp [hm] at h
      | cons start starts =>
        rw [List.zip_cons_cons]
        exact congrArg ((start, insn) :: ·) (ih (by simpa [hm] using h))

/-- What precedes an instruction stands where that starts, wherever instructions have been moved
to. -/
theorem standing_zip {entries : List (Nat × Instruction ι)} {before : Nat → List (Instruction ι)}
    (hbefore : ∀ offset, ∀ insn ∈ before offset, insn.isMarker = true)
    (hreal : ∀ entry ∈ entries, entry.2.isMarker = false) (h : starts.length = entries.length) :
    standing stop starts (entries.flatMap (fun entry => before entry.1 ++ [entry.2]) ++ code) =
      (starts.zip entries).flatMap (fun pair => (before pair.2.1 ++ [pair.2.2]).map (pair.1, ·)) ++
        standing stop [] code := by
  induction entries generalizing starts with
  | nil =>
    obtain rfl : starts = [] := List.length_eq_zero_iff.mp h
    rfl
  | cons entry entries ih =>
    cases starts with
    | nil => cases h
    | cons start starts =>
      obtain ⟨hfirst, hrest⟩ := List.forall_mem_cons.mp hreal
      rw [List.flatMap_cons, List.zip_cons_cons, List.flatMap_cons, List.append_assoc,
        List.append_assoc, standing_markers (hbefore entry.1), List.singleton_append, standing,
        if_neg (by simp [hfirst]), List.tail_cons, ih hrest (Nat.succ.inj h)]
      simp

end Standing

section Laid

def startsOf (offsets : Offsets) (entries : List (Instruction Label × Nat)) : List Nat :=
  (entries.filter fun entry => !entry.1.isMarker).map fun entry => offsets.getD entry.2 0

theorem Laid.headD_startsOf (h : Laid b laidOut.code laidOut.offsets)
    {rest : List (Instruction Label)} {index : Nat} (hrest : laidOut.code.drop index = rest)
    (hle : index ≤ laidOut.code.length) :
    (startsOf laidOut.offsets (rest.zipIdx index)).headD laidOut.offsets.length =
      laidOut.offsets.getD index 0 := by
  induction rest generalizing index with
  | nil =>
    obtain rfl : index = laidOut.code.length := Nat.le_antisymm hle (List.drop_eq_nil_iff.mp hrest)
    exact h.length_eq
  | cons insn rest ih =>
    obtain ⟨hat, hdrop⟩ := drop_eq_cons hrest
    cases hm : insn.isMarker with
    | true =>
      rw [List.zipIdx_cons, startsOf, List.filter_cons_of_neg (by simp [hm])]
      exact (ih hdrop (List.getElem?_eq_some_iff.mp hat).1).trans (h.marker hat hm)
    | false =>
      rw [List.zipIdx_cons, startsOf, List.filter_cons_of_pos (by simp [hm])]
      rfl

/-- Elements that are laid out stand where they should. -/
theorem Laid.standing_eq (h : Laid b laidOut.code laidOut.offsets) :
    standing laidOut.offsets.length (laidOut.instructions.map Prod.fst) laidOut.code =
      laidOut.code.zipIdx.map fun entry => (laidOut.offsets.getD entry.2 0, entry.1) := by
  suffices hall : ∀ (rest : List (Instruction Label)) (index : Nat),
      laidOut.code.drop index = rest → index ≤ laidOut.code.length →
      standing laidOut.offsets.length (startsOf laidOut.offsets (rest.zipIdx index)) rest =
        (rest.zipIdx index).map fun entry => (laidOut.offsets.getD entry.2 0, entry.1) by
    rw [LaidOut.map_fst_instructions]
    exact hall laidOut.code 0 List.drop_zero (Nat.zero_le _)
  intro rest
  induction rest with
  | nil => exact fun _ _ _ => rfl
  | cons insn rest ih =>
    intro index hrest hle
    obtain ⟨hat, hdrop⟩ := drop_eq_cons hrest
    have hlater := ih (index + 1) hdrop (List.getElem?_eq_some_iff.mp hat).1
    rw [standing, h.headD_startsOf hrest hle, List.zipIdx_cons, List.map_cons, ← hlater]
    cases hm : insn.isMarker with
    | true => rw [startsOf, List.filter_cons_of_neg (by simp [hm])]; rfl
    | false => rw [startsOf, List.filter_cons_of_pos (by simp [hm])]; rfl

theorem Laid.elements_eq (h : Laid b laidOut.code laidOut.offsets) : laidOut.elements =
    resolved laidOut.offsetOf
      (standing laidOut.offsets.length (laidOut.instructions.map Prod.fst) laidOut.code) := by
  rw [h.standing_eq, resolved, List.map_map]
  rfl

/-- A label that is placed once is where it stands. -/
theorem Laid.offsetOf_eq (h : Laid b laidOut.code laidOut.offsets)
    (hnodup : (laidOut.code.filterMap Instruction.placed?).Nodup) {offset : Nat} {label : Label}
    (hm : (offset, .label label) ∈ standing laidOut.offsets.length
      (laidOut.instructions.map Prod.fst) laidOut.code) : laidOut.offsetOf label = offset := by
  rw [h.standing_eq] at hm
  obtain ⟨⟨insn, index⟩, hin, he⟩ := List.mem_map.mp hm
  obtain ⟨rfl, rfl⟩ := Prod.mk.inj he
  have hat := List.mk_mem_zipIdx_iff_getElem?.mp hin
  have hplaced : label ∈ laidOut.code.filterMap Instruction.placed? :=
    List.mem_filterMap.mpr ⟨_, List.mem_of_getElem? hat, rfl⟩
  obtain ⟨place, -, hunique, hfound⟩ :=
    @exists_at_of_once _ _ laidOut.offsets (List.count_eq_one_of_mem hnodup hplaced)
  rw [LaidOut.offsetOf, hfound, hunique index hat]

end Laid

section Relaid

variable {listing : Listing} {method : Method} {offset place : Nat}

/-- Entries whose keys are told apart, one group for each of them. -/
theorem filter_flatMap_of_mem {α β : Type} {entries : List (Nat × α)}
    (h : (entries.map Prod.fst).Nodup) (group : Nat × α → List β) {entry : Nat × α}
    (hm : entry ∈ entries) :
    (entries.flatMap fun entry => (group entry).map (entry.1, ·)).filter (·.1 = entry.1) =
      (group entry).map (entry.1, ·) := by
  have hother : ∀ other : Nat × α, other.1 ≠ entry.1 →
      ((group other).map (other.1, ·)).filter (·.1 = entry.1) = [] := fun other hne =>
    List.filter_eq_nil_iff.mpr (by simp [hne])
  induction entries with
  | nil => cases hm
  | cons first rest ih =>
    obtain ⟨hout, hrest⟩ := List.nodup_cons.mp h
    rw [List.flatMap_cons, List.filter_append]
    rcases List.mem_cons.mp hm with rfl | hm
    · have hnone : (rest.flatMap fun entry => (group entry).map (entry.1, ·)).filter
          (·.1 = entry.1) = [] := by
        rw [List.filter_flatMap, List.flatMap_eq_nil_iff]
        exact fun other ho => hother other fun he => hout (he ▸ List.mem_map_of_mem ho)
      rw [hnone, List.append_nil, List.filter_eq_self.mpr (by simp)]
    · rw [hother first fun he => hout (he ▸ List.mem_map_of_mem hm), List.nil_append, ih hrest hm]

theorem Listing.ending_eq (h : ¬ listing.MarksEnd) : listing.ending =
    if listing.length ∈ listing.mentions then [.label listing.length] else [] := by
  have hnone : ((byOffset listing.lineEntries).contains listing.length ||
      (Std.HashMap.ofList listing.frameEntries).contains listing.length) ≠ true :=
    fun hc => h (by simpa [MarksEnd, mem_byOffset] using hc)
  rw [ending, if_neg hnone, List.nil_append]
  simp only [contains_ofList]

theorem Listing.frame?_eq_none (h : listing.frameEntries = []) :
    (Std.HashMap.ofList listing.frameEntries)[offset]? = none := by
  rw [h]
  simp

/-- The code of a method is that of a listing without frames. Everything that has a label there is
referred to. -/
structure Listing.Gives (listing : Listing) (method : Method) : Prop where
  ascending : Ascending listing.instructions listing.length
  proper : listing.misplaced? = none
  unframed : listing.frameEntries = []
  body : method.body = listing.body
  referenced : ∀ offset ∈ listing.mentions, listing.labelAt offset ∈ method.references

namespace Listing.Gives

variable (h : listing.Gives method)
include h

theorem code_eq :
    method.body.code = listing.elements.map (Instruction.mapLabels listing.labelAt) := by
  rw [h.body]
  rfl

theorem placed_eq : method.body.placed = listing.placedOffsets.map listing.labelAt := by
  rw [Body.placed, h.code_eq, placedOffsets, List.filterMap_map, List.map_filterMap]
  exact congrArg (List.filterMap · listing.elements)
    (funext fun insn => Instruction.placed?_mapLabels _ insn)

/-- Labels that are placed are those of offsets. -/
theorem exists_of_placed {label : Label} (hl : label ∈ method.body.placed) :
    ∃ offset ∈ listing.mentions, label = listing.labelAt offset := by
  rw [h.placed_eq] at hl
  obtain ⟨offset, ho, rfl⟩ := List.mem_map.mp hl
  exact ⟨offset, (mem_placedOffsets h.ascending h.proper).mp ho, rfl⟩

theorem owns : method.body.Owns := by
  intro label hl
  rw [h.body]
  exact exists_labelAt_iff.mp (h.exists_of_placed hl)

theorem isFrame_code : ∀ insn ∈ method.body.code, insn.isFrame = false := by
  have hmarks : ∀ offset, ∀ insn ∈ listing.marks offset, insn.isFrame = false := by
    intro offset insn hi
    rcases mem_marks.mp hi with ⟨rfl, -⟩ | ⟨number, -, rfl⟩ | ⟨frame, hf, -⟩
    · rfl
    · rfl
    · rw [frame?_eq_none h.unframed] at hf
      cases hf
  intro insn hi
  rw [h.code_eq] at hi
  obtain ⟨element, he, rfl⟩ := List.mem_map.mp hi
  rw [Instruction.isFrame_mapLabels]
  rw [elements_eq, List.mem_append, List.mem_flatMap] at he
  rcases he with ⟨entry, hentry, he⟩ | he
  · rcases List.mem_append.mp he with he | he
    · exact hmarks _ _ he
    · obtain rfl := List.mem_singleton.mp he
      have hreal := h.ascending.real entry hentry
      cases hinsn : entry.2 with
      | frame => rw [hinsn] at hreal; cases hreal
      | _ => rfl
  · exact hmarks _ _ (mem_ending he)

end Listing.Gives

structure Relaid (b : Builder) (listing : Listing) (method : Method) (laidOut : LaidOut) : Prop
    extends listing.Gives method where
  placed : ∀ label ∈ method.references, label ∈ method.body.placed
  nodup : method.body.placed.Nodup
  code : laidOut.code = method.body.code
  laid : Laid b laidOut.code laidOut.offsets
  starts : Ascending laidOut.instructions laidOut.offsets.length

def LaidOut.moves (laidOut : LaidOut) (listing : Listing) : List (Nat × Nat) :=
  laidOut.boundaries.zip listing.boundaries

def LaidOut.moved (laidOut : LaidOut) (listing : Listing) (offset : Nat) : Nat :=
  laidOut.offsetOf (listing.labelAt offset)

namespace Relaid

variable (h : Relaid b listing method laidOut)
include h

theorem length_eq : (laidOut.instructions.map Prod.fst).length = listing.instructions.length := by
  have hcount : (laidOut.code.zipIdx.filter fun entry => !entry.1.isMarker).length =
      laidOut.code.countP fun insn => !insn.isMarker := by
    conv_rhs => rw [← List.zipIdx_map_fst 0 laidOut.code]
    rw [List.countP_map, List.countP_eq_length_filter]
    rfl
  have hmarker : (fun insn : Instruction Label => !insn.isMarker) ∘
      Instruction.mapLabels listing.labelAt = fun insn => !insn.isMarker := by
    funext insn
    rw [Function.comp_apply, Instruction.isMarker_mapLabels]
  rw [LaidOut.map_fst_instructions, List.length_map, hcount, h.code, h.code_eq, List.countP_map,
    hmarker, Listing.countP_elements h.ascending]

theorem moves_eq : laidOut.moves listing = (laidOut.instructions.map Prod.fst).zip
    (listing.instructions.map Prod.fst) ++ [(laidOut.offsets.length, listing.length)] :=
  List.zip_append (by rw [h.length_eq, List.length_map])

theorem last_mem_moves : (laidOut.offsets.length, listing.length) ∈ laidOut.moves listing := by
  rw [h.moves_eq]
  exact List.mem_append_right _ (List.mem_singleton_self _)

theorem map_fst_moves : (laidOut.moves listing).map Prod.fst = laidOut.boundaries := by
  refine List.map_fst_zip (Nat.le_of_eq ?_)
  rw [LaidOut.boundaries, Listing.boundaries, List.length_append, List.length_append, h.length_eq,
    List.length_map]
  rfl

theorem map_snd_moves : (laidOut.moves listing).map Prod.snd = listing.boundaries := by
  refine List.map_snd_zip (Nat.le_of_eq ?_)
  rw [LaidOut.boundaries, Listing.boundaries, List.length_append, List.length_append, h.length_eq,
    List.length_map]
  rfl

theorem nodup_moves : ((laidOut.moves listing).map Prod.fst).Nodup := by
  rw [h.map_fst_moves]
  exact (Listing.sorted_boundaries (show Ascending (laidOut.listing method []).instructions _ from
    h.starts)).imp Nat.ne_of_lt

/-- The elements stand where they were moved to. -/
theorem standing_elements : standing laidOut.offsets.length (laidOut.instructions.map Prod.fst)
      listing.elements =
    ((laidOut.instructions.map Prod.fst).zip listing.instructions).flatMap (fun move =>
      (listing.marks move.2.1 ++ [move.2.2]).map (move.1, ·)) ++
      listing.ending.map (laidOut.offsets.length, ·) := by
  have hmarks : ∀ offset, ∀ insn ∈ listing.marks offset, insn.isMarker = true :=
    fun _ _ => Listing.isMarker_marks
  rw [Listing.elements_eq, standing_zip hmarks h.ascending.real h.length_eq,
    Listing.standing_nil fun _ hm => Listing.isMarker_marks (Listing.mem_ending hm)]

theorem elements_eq : laidOut.elements = (standing laidOut.offsets.length
    (laidOut.instructions.map Prod.fst) listing.elements).map fun entry =>
      (entry.1, entry.2.mapLabels (laidOut.moved listing)) := by
  rw [h.laid.elements_eq, h.code, h.code_eq, standing_map, resolved, List.map_map]
  refine List.map_congr_left fun entry _ => Prod.ext rfl ?_
  exact Instruction.mapLabels_mapLabels _ _ _

theorem label_mem_standing (hm : (place, offset) ∈ laidOut.moves listing)
    (ho : offset ∈ listing.mentions) : (place, .label offset) ∈ standing laidOut.offsets.length
      (laidOut.instructions.map Prod.fst) listing.elements := by
  rw [h.standing_elements]
  rw [h.moves_eq, List.mem_append, List.zip_map_right] at hm
  rcases hm with hm | hm
  · obtain ⟨⟨start, entry⟩, hin, he⟩ := List.mem_map.mp hm
    obtain ⟨rfl, rfl⟩ := Prod.mk.inj he
    refine List.mem_append_left _ (List.mem_flatMap.mpr ⟨(start, entry), hin, ?_⟩)
    exact List.mem_map_of_mem (List.mem_append_left _ (Listing.mem_marks.mpr (.inl ⟨rfl, ho⟩)))
  · obtain ⟨rfl, rfl⟩ := Prod.mk.inj (List.mem_singleton.mp hm)
    refine List.mem_append_right _ (List.mem_map_of_mem (List.mem_append_right _ ?_))
    rw [if_pos (Listing.contains_ofList.mpr ho)]
    exact List.mem_singleton_self _

/-- The label of an offset goes where that does. -/
theorem moved_eq (hm : (place, offset) ∈ laidOut.moves listing) (ho : offset ∈ listing.mentions) :
    laidOut.moved listing offset = place := by
  refine h.laid.offsetOf_eq ?_ ?_
  · rw [h.code]
    exact h.nodup
  · rw [h.code, h.code_eq, standing_map]
    exact List.mem_map.mpr ⟨_, h.label_mem_standing hm ho, rfl⟩

theorem exists_move (ho : offset ∈ listing.mentions) :
    (laidOut.moved listing offset, offset) ∈ laidOut.moves listing := by
  obtain ⟨index, hat⟩ := List.mem_iff_getElem?.mp (Listing.mem_boundaries h.proper ho)
  have hlt : index < laidOut.boundaries.length := by
    have hlt := (List.getElem?_eq_some_iff.mp hat).1
    rw [Listing.boundaries, List.length_append, List.length_map, ← h.length_eq] at hlt
    rw [LaidOut.boundaries, List.length_append]
    exact hlt
  have hm : (laidOut.boundaries[index], offset) ∈ laidOut.moves listing :=
    List.mem_of_getElem? (List.getElem?_zip_eq_some.mpr
      ⟨List.getElem?_eq_getElem hlt, hat⟩)
  rwa [← h.moved_eq hm ho] at hm

/-- Different offsets go to different places. -/
theorem eq_of_moves {other : Nat} (hm : (place, offset) ∈ laidOut.moves listing)
    (hother : (place, other) ∈ laidOut.moves listing) : offset = other :=
  (Prod.mk.inj (List.inj_on_of_nodup_map h.nodup_moves hm hother rfl)).2

theorem moved_inj {other : Nat} (ho : offset ∈ listing.mentions) (hother : other ∈ listing.mentions)
    (he : laidOut.moved listing offset = laidOut.moved listing other) : offset = other :=
  h.eq_of_moves (h.exists_move ho) (he ▸ h.exists_move hother)

theorem exists_of_mentions {label : Label} (hl : label ∈ method.mentions) :
    ∃ offset ∈ listing.mentions, label = listing.labelAt offset := by
  rcases Method.mem_mentions.mp hl with hl | hl
  · exact h.exists_of_placed hl
  · exact h.exists_of_placed (h.placed label hl)

theorem handedOut : method.HandedOut := by
  intro label hl
  rw [h.body]
  exact Listing.exists_labelAt_iff.mp (h.exists_of_mentions hl)

end Relaid

/-- Nothing changes in code that is laid out so when it is read: no jump is wide, switches are in
the order of their keys, no handler has an empty range, and variables, none of which ends before it
starts, are told apart. -/
structure LaidOut.Neat (laidOut : LaidOut) (method : Method) : Prop where
  instructions : ∀ insn ∈ laidOut.code,
    normal (insn.mapLabels laidOut.offsetOf) = insn.mapLabels laidOut.offsetOf
  ranges : ∀ handler ∈ method.handlers,
    laidOut.offsetOf handler.start < laidOut.offsetOf handler.stop
  variables_ : ∀ entry ∈ method.variableList,
    laidOut.offsetOf entry.start ≤ laidOut.offsetOf entry.stop
  keys : (method.variableList.map fun entry =>
    (resolveVariable laidOut.offsetOf entry).1.key).Nodup

namespace LaidOut.Neat

variable (h : laidOut.Neat method)
include h

theorem offsetHandlers_eq : offsetHandlers laidOut.labelOffsets method.handlers =
    method.handlers.map (resolveHandler laidOut.offsetOf) := by
  rw [offsetHandlers, List.filter_eq_self.mpr]
  · rfl
  · exact fun handler hm => decide_eq_true (h.ranges handler hm)

theorem properVariables_eq : properVariables laidOut.labelOffsets method.variableList =
    method.variableList :=
  List.filter_eq_self.mpr fun entry hm => decide_eq_true (h.variables_ entry hm)

theorem instructions_eq : laidOut.instructions =
    laidOut.elements.filter fun entry => !entry.2.isMarker := by
  rw [LaidOut.instructions]
  refine (List.map_congr_left fun entry hm => ?_).trans (List.map_id _)
  obtain ⟨⟨insn, index⟩, hin, rfl⟩ := List.mem_map.mp (List.mem_filter.mp hm).1
  have hcode := List.mem_of_getElem? (List.mk_mem_zipIdx_iff_getElem?.mp hin)
  exact Prod.ext rfl (h.instructions insn hcode)

theorem handlers_renamed : (laidOut.listing method []).handlers.map (fun handler =>
      ⟨(laidOut.listing method []).labelAt handler.start,
        (laidOut.listing method []).labelAt handler.stop,
        (laidOut.listing method []).labelAt handler.handler, handler.catchType⟩) =
    method.handlers.map (TryCatch.mapLabels
      ((laidOut.listing method []).labelAt ∘ laidOut.offsetOf)) := by
  change (offsetHandlers laidOut.labelOffsets method.handlers).map _ = _
  rw [h.offsetHandlers_eq, List.map_map]
  rfl

theorem variables_renamed {declared : Method} (hnone : declared.localVariables = none) :
    (laidOut.listing method []).variablesFor declared =
      method.localVariables.map (·.map (LocalVariable.mapLabels
        ((laidOut.listing method []).labelAt ∘ laidOut.offsetOf))) := by
  have hvariables := @variables_listing laidOut method [] fun entries he => by
    have hproper := h.properVariables_eq
    have hkeys := h.keys
    rw [Method.variableList, he, Option.getD_some] at hproper hkeys
    rwa [hproper]
  rw [Listing.variablesFor]
  rw [LaidOut.hasVariables_listing] at hvariables ⊢
  cases hv : method.localVariables with
  | none => exact hnone
  | some entries =>
    have hproper := h.properVariables_eq
    rw [Method.variableList, hv, Option.getD_some] at hproper
    rw [hv, Option.isSome_some, if_pos rfl, Option.map_some, Option.some.injEq, hproper]
      at hvariables
    rw [Option.isSome_some, if_pos rfl, hvariables, List.map_map]
    rfl

end LaidOut.Neat

section Mentions

variable {insn : Instruction Label} {label : Label}

/-- Handlers and variables are mentioned as they are referred to. -/
theorem LaidOut.Neat.mem_mentions_handlers (h : laidOut.Neat method) :
    place ∈ (offsetHandlers laidOut.labelOffsets method.handlers).flatMap OffsetHandler.mentions ↔
      ∃ label ∈ method.handlers.flatMap TryCatch.mentions, laidOut.offsetOf label = place := by
  rw [h.offsetHandlers_eq, List.flatMap_map, ← List.mem_map, List.map_flatMap]
  rfl

theorem LaidOut.Neat.mem_mentions_variables (h : laidOut.Neat method) :
    place ∈ (offsetVariables laidOut.labelOffsets method.variableList).flatMap
        (fun entry => [entry.start, entry.stop]) ↔
      ∃ label ∈ method.variableList.flatMap LocalVariable.mentions,
        laidOut.offsetOf label = place := by
  rw [offsetVariables, h.properVariables_eq, List.flatMap_map, ← List.mem_map, List.map_flatMap]
  rfl

theorem mem_mentions_lines : place ∈ (offsetLines laidOut.labelOffsets laidOut.code).map Prod.fst ↔
    ∃ number label, .line number label ∈ laidOut.code ∧ laidOut.offsetOf label = place := by
  constructor
  · intro hm
    obtain ⟨line, hl, rfl⟩ := List.mem_map.mp hm
    obtain ⟨insn, hi, he⟩ := List.mem_filterMap.mp hl
    cases insn with
    | line number start =>
      obtain rfl := Option.some.inj he
      exact ⟨number, start, hi, rfl⟩
    | _ => cases he
  · rintro ⟨number, label, hi, rfl⟩
    exact List.mem_map.mpr ⟨(_, number), List.mem_filterMap.mpr ⟨_, hi, rfl⟩, rfl⟩

theorem LaidOut.Neat.mem_mentions_instructions (h : laidOut.Neat method) :
    place ∈ laidOut.instructions.flatMap (fun entry => entry.2.references) ↔
      ∃ insn ∈ laidOut.code, insn.isMarker = false ∧
        ∃ label ∈ insn.references, laidOut.offsetOf label = place := by
  rw [h.instructions_eq, LaidOut.elements]
  simp only [List.mem_flatMap, List.mem_filter, List.mem_map]
  constructor
  · rintro ⟨-, ⟨⟨⟨insn, index⟩, hin, rfl⟩, hreal⟩, hm⟩
    rw [LaidOut.resolve, Instruction.references_mapLabels] at hm
    rw [LaidOut.resolve, Instruction.isMarker_mapLabels] at hreal
    exact ⟨insn,
      List.mem_of_getElem? (List.mk_mem_zipIdx_iff_getElem?.mp hin), by simpa using hreal,
      List.mem_map.mp hm⟩
  · rintro ⟨insn, hin, hreal, hl⟩
    obtain ⟨index, hat⟩ := List.mem_iff_getElem?.mp hin
    refine ⟨_, ⟨⟨(insn, index), List.mk_mem_zipIdx_iff_getElem?.mpr hat, rfl⟩, ?_⟩, ?_⟩
    · rw [LaidOut.resolve, Instruction.isMarker_mapLabels, hreal]
      rfl
    · rw [LaidOut.resolve, Instruction.references_mapLabels]
      exact List.mem_map.mpr hl

/-- What is mentioned of a method without frames is where what it refers to stands. -/
theorem LaidOut.Neat.mem_mentions (h : laidOut.Neat method)
    (hcode : laidOut.code = method.body.code)
    (hframes : ∀ insn ∈ laidOut.code, insn.isFrame = false) :
    place ∈ (laidOut.listing method []).mentions ↔
      ∃ label ∈ method.references, laidOut.offsetOf label = place := by
  have htables : place ∈ (laidOut.tables method []).flatMap CodeTable.mentions ↔
      place ∈ (offsetLines laidOut.labelOffsets laidOut.code).map Prod.fst ∨
        place ∈ (offsetVariables laidOut.labelOffsets method.variableList).flatMap
          fun entry => [entry.start, entry.stop] := by
    rw [LaidOut.flatMap_tables, List.append_assoc, List.append_assoc, List.mem_append]
    refine or_congr ?_ ?_
    · conv_rhs => rw [← flatMap_nonempty? (offsetLines _ _), List.map_flatMap]
      rfl
    · simp only [CodeTable.mentions, LaidOut.flatMap_toList_nil]
      cases hv : method.localVariables <;> simp [Method.variableList, hv, offsetVariables,
        properVariables, nonempty?]
  have hreferences : (∃ label ∈ method.body.code.flatMap Instruction.references,
      laidOut.offsetOf label = place) ↔
      (∃ insn ∈ laidOut.code, insn.isMarker = false ∧
        ∃ label ∈ insn.references, laidOut.offsetOf label = place) ∨
      ∃ number label, .line number label ∈ laidOut.code ∧ laidOut.offsetOf label = place := by
    rw [← hcode]
    constructor
    · rintro ⟨label, hl, he⟩
      obtain ⟨insn, hi, hl⟩ := List.mem_flatMap.mp hl
      cases hm : insn.isMarker with
      | false => exact .inl ⟨insn, hi, hm, label, hl, he⟩
      | true =>
        cases insn with
        | line number start =>
          obtain rfl := List.mem_singleton.mp hl
          exact .inr ⟨number, label, hi, he⟩
        | label => cases hl
        | frame => cases hframes _ hi
        | _ => cases hm
    · rintro (⟨insn, hi, -, label, hl, he⟩ | ⟨number, label, hi, he⟩)
      · exact ⟨label, List.mem_flatMap.mpr ⟨insn, hi, hl⟩, he⟩
      · exact ⟨label, List.mem_flatMap.mpr ⟨_, hi, List.mem_singleton_self _⟩, he⟩
  rw [Listing.mentions, List.mem_append, List.mem_append]
  change (place ∈ laidOut.instructions.flatMap (fun entry => entry.2.references) ∨
    place ∈ (offsetHandlers laidOut.labelOffsets method.handlers).flatMap OffsetHandler.mentions) ∨
    place ∈ (laidOut.tables method []).flatMap CodeTable.mentions ↔ _
  rw [htables, h.mem_mentions_instructions, h.mem_mentions_handlers, mem_mentions_lines,
    h.mem_mentions_variables, Method.references]
  simp only [List.mem_append, or_and_right, exists_or, hreferences]
  grind

end Mentions

namespace Relaid

variable (h : Relaid b listing method laidOut) (hneat : laidOut.Neat method)
include h

theorem not_marksEnd : ¬ listing.MarksEnd :=
  (Listing.nodup_placedOffsets h.ascending).mp (List.Nodup.of_map _ (h.placed_eq ▸ h.nodup))

/-- Lines go where the instructions after them go. -/
theorem linesAt_elements : linesAt (laidOut.elements.map Prod.snd) =
    (laidOut.moves listing).flatMap fun move =>
      ((Listing.byOffset listing.lineEntries).getD move.2 []).map (move.1, ·) := by
  have hmap : ∀ code : List (Instruction Nat), linesAt (code.map (Instruction.mapLabels
      (laidOut.moved listing))) = (linesAt code).map fun line =>
        (laidOut.moved listing line.1, line.2) := by
    intro code
    rw [linesAt, linesAt, List.filterMap_map, List.map_filterMap]
    refine congrArg (List.filterMap · code) (funext fun insn => ?_)
    cases insn <;> rfl
  have hsnd : laidOut.elements.map Prod.snd =
      listing.elements.map (Instruction.mapLabels (laidOut.moved listing)) := by
    rw [h.elements_eq, List.map_map]
    conv_rhs => rw [← @map_snd_standing _ laidOut.offsets.length
      (laidOut.instructions.map Prod.fst) listing.elements, List.map_map]
    rfl
  rw [hsnd, hmap, Listing.linesAt_elements h.ascending, ← h.map_snd_moves, List.flatMap_map,
    List.map_flatMap]
  refine List.flatMap_congr fun move hm => ?_
  rw [← Listing.getD_byOffset, List.map_map]
  refine List.map_congr_left fun number hn => Prod.ext ?_ rfl
  exact h.moved_eq hm (Listing.mem_mentions_of_line
    (List.mem_map_of_mem (Listing.mem_of_mem_byOffset hn)))

theorem lines_eq (hm : (place, offset) ∈ laidOut.moves listing) :
    (Listing.byOffset (laidOut.listing method []).lineEntries).getD place [] =
      (Listing.byOffset listing.lineEntries).getD offset [] := by
  have hgroup := filter_flatMap_of_mem h.nodup_moves (fun move =>
    (Listing.byOffset listing.lineEntries).getD move.2 []) hm
  rw [← h.linesAt_elements, ← LaidOut.offsetLines_eq] at hgroup
  have hlines : (laidOut.listing method []).lineEntries = _ := LaidOut.lineEntries_listing
  rw [← LaidOut.labelOffsets, ← hlines, ← Listing.getD_byOffset] at hgroup
  exact List.map_injective_iff.mpr (Prod.mk_right_injective place) hgroup

theorem addTo_eq (declared : Method) : (laidOut.listing method []).addTo declared =
    .ok ((laidOut.listing method []).addedTo declared) := by
  have hframes : FramesRead false laidOut [] := ⟨.nil, by simp⟩
  exact Listing.addTo_eq_ok.mpr ⟨misplaced?_listing h.laid hframes, rfl⟩

include hneat

/-- Offsets that have a label still do, and no others. -/
theorem mem_mentions_iff (hm : (place, offset) ∈ laidOut.moves listing) :
    place ∈ (laidOut.listing method []).mentions ↔ offset ∈ listing.mentions := by
  rw [hneat.mem_mentions h.code (h.code ▸ h.isFrame_code)]
  constructor
  · rintro ⟨label, hl, he⟩
    obtain ⟨other, ho, rfl⟩ := h.exists_of_placed (h.placed label hl)
    have hother := h.exists_move ho
    rw [LaidOut.moved, he] at hother
    exact h.eq_of_moves hother hm ▸ ho
  · exact fun ho => ⟨_, h.referenced offset ho, h.moved_eq hm ho⟩

/-- What precedes an instruction goes with it. -/
theorem marks_eq (hm : (place, offset) ∈ laidOut.moves listing) :
    (laidOut.listing method []).marks place =
      (listing.marks offset).map (Instruction.mapLabels (laidOut.moved listing)) := by
  rw [Listing.marks, Listing.marks, Listing.markers, Listing.markers, h.lines_eq hm,
    Listing.frame?_eq_none LaidOut.frameEntries_listing, Listing.frame?_eq_none h.unframed]
  by_cases ho : offset ∈ listing.mentions
  · rw [if_pos (Listing.contains_ofList.mpr ((h.mem_mentions_iff hneat hm).mpr ho)),
      if_pos (Listing.contains_ofList.mpr ho), List.append_nil, List.append_nil, List.map_append,
      List.map_map, ← h.moved_eq hm ho]
    rfl
  · have hlines : (Listing.byOffset listing.lineEntries).getD offset [] = [] :=
      List.eq_nil_iff_forall_not_mem.mpr fun number hn => ho (Listing.mem_mentions_of_line
        (List.mem_map_of_mem (Listing.mem_of_mem_byOffset hn)))
    rw [if_neg (mt Listing.contains_ofList.mp (mt (h.mem_mentions_iff hneat hm).mp ho)),
      if_neg (mt Listing.contains_ofList.mp ho), hlines]
    rfl

theorem ending_eq : (laidOut.listing method []).ending =
    listing.ending.map (Instruction.mapLabels (laidOut.moved listing)) := by
  have hlast := h.last_mem_moves
  have hunmarked : ¬ (laidOut.listing method []).MarksEnd := by
    rintro (hline | hframe)
    · have hlines : (Listing.byOffset listing.lineEntries).getD listing.length [] = [] :=
        Std.HashMap.getD_eq_fallback fun hm => h.not_marksEnd (.inl (Listing.mem_byOffset.mp hm))
      have hgroup := Listing.getD_byOffset (laidOut.listing method []).lineEntries
        laidOut.offsets.length
      rw [h.lines_eq hlast, hlines] at hgroup
      obtain ⟨line, hl, he⟩ := List.mem_map.mp hline
      exact List.filter_eq_nil_iff.mp hgroup.symm line hl (decide_eq_true he)
    · rw [LaidOut.frameEntries_listing] at hframe
      cases hframe
  rw [Listing.ending_eq hunmarked, Listing.ending_eq h.not_marksEnd]
  change (if laidOut.offsets.length ∈ (laidOut.listing method []).mentions then
    [Instruction.label laidOut.offsets.length] else []) = _
  by_cases ho : listing.length ∈ listing.mentions
  · rw [if_pos ((h.mem_mentions_iff hneat hlast).mpr ho), if_pos ho, ← h.moved_eq hlast ho]
    rfl
  · rw [if_neg (mt (h.mem_mentions_iff hneat hlast).mp ho), if_neg ho]
    rfl

theorem instructions_eq : laidOut.instructions =
    ((laidOut.instructions.map Prod.fst).zip listing.instructions).map fun move =>
      (move.1, move.2.2.mapLabels (laidOut.moved listing)) := by
  have hreal : listing.elements.filter (fun insn => !insn.isMarker) =
      listing.instructions.map Prod.snd := by
    rw [← @map_snd_standing _ listing.length (listing.instructions.map Prod.fst) listing.elements,
      List.filter_map]
    exact congrArg (List.map Prod.snd) (Listing.filter_placed h.ascending)
  have hmarker : (fun entry : Nat × Instruction Nat => !entry.2.isMarker) ∘
      (fun entry : Nat × Instruction Nat => (entry.1, entry.2.mapLabels (laidOut.moved listing))) =
        fun entry => !entry.2.isMarker := by
    funext entry
    rw [Function.comp_apply, Instruction.isMarker_mapLabels]
  have hcount := (Listing.countP_elements h.ascending).trans h.length_eq.symm
  conv_lhs => rw [hneat.instructions_eq, h.elements_eq, List.filter_map, hmarker,
    filter_standing hcount, hreal, List.zip_map_right, List.map_map]
  rfl

/-- The elements of the code stand where they are found when it is read again. -/
theorem placed_eq : (laidOut.listing method []).placed = laidOut.elements := by
  have hstarts : Ascending (laidOut.listing method []).instructions
      (laidOut.listing method []).length := h.starts
  rw [Listing.placed_eq hstarts, h.ending_eq hneat, h.elements_eq, h.standing_elements,
    List.map_append, List.map_flatMap, List.map_map, List.map_map]
  congr 1
  change laidOut.instructions.flatMap _ = _
  conv_lhs => rw [h.instructions_eq hneat, List.flatMap_map]
  refine List.flatMap_congr fun move hm => ?_
  have hmove : (move.1, move.2.1) ∈ laidOut.moves listing := by
    rw [h.moves_eq, List.zip_map_right]
    exact List.mem_append_left _ (List.mem_map_of_mem (f := Prod.map id Prod.fst) hm)
  rw [h.marks_eq hneat hmove, List.map_map, List.map_append, List.map_append, List.map_map]
  rfl

theorem code_renamed : (laidOut.listing method []).body.code =
    method.body.code.map (Instruction.mapLabels
      ((laidOut.listing method []).labelAt ∘ laidOut.offsetOf)) := by
  have helements : (laidOut.listing method []).elements =
      method.body.code.map (Instruction.mapLabels laidOut.offsetOf) := by
    rw [← h.code, ← laidOut.map_snd_elements, ← h.placed_eq hneat]
    exact map_snd_standing.symm
  rw [Listing.body, helements, List.map_map]
  exact List.map_congr_left fun insn _ => Instruction.mapLabels_mapLabels _ _ _

/-- The method that is read again is the one that was read before, but for the names of its
labels. -/
theorem renamed {found : Method} (hfound : found =
    { (laidOut.listing method []).addedTo
        (.declared method.access method.name method.descriptor) with
      exceptions := method.exceptions, signature := method.signature,
      attributes := method.attributes }) : method.Renamed found where
  before := h.handedOut
  after := by
    have hadd := h.addTo_eq (.declared method.access method.name method.descriptor)
    have hsame : Method.SameCode found ((laidOut.listing method []).addedTo
        (.declared method.access method.name method.descriptor)) := by
      rw [hfound]
      exact ⟨rfl, rfl, rfl⟩
    exact hsame.handedOut.mpr (Listing.handedOut_addTo h.starts rfl rfl hadd)
  renamed := by
    refine ⟨(laidOut.listing method []).labelAt ∘ laidOut.offsetOf, ?_, ?_⟩
    · intro first hf second hs he
      obtain ⟨offset, ho, rfl⟩ := h.exists_of_mentions hf
      obtain ⟨other, hother, rfl⟩ := h.exists_of_mentions hs
      have hin : ∀ {offset}, offset ∈ listing.mentions →
          laidOut.moved listing offset ∈ (laidOut.listing method []).mentions := fun ho =>
        (h.mem_mentions_iff hneat (h.exists_move ho)).mpr ho
      rw [h.moved_inj ho hother (Listing.labelAt_inj (hin ho) (hin hother) he)]
    · rw [hfound]
      exact (Method.mk.injEq ..).mpr ⟨rfl, rfl, rfl, rfl, rfl,
        congrArg (Body.mk · _) (h.code_renamed hneat), hneat.handlers_renamed,
        hneat.variables_renamed rfl, rfl, rfl, rfl⟩

end Relaid

end Relaid

end ClassTree.Code
