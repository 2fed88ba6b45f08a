import ClassTree.Proofs.Code.Renaming

namespace ClassTree

namespace Code

variable {ι ι' : Type} {stop : Nat} {starts : List Nat} {code : List (Instruction ι)}

/-- Elements with the offsets at which they stand, given where the instructions start and where the
code ends. A marker stands where the next instruction starts. -/
def standing (stop : Nat) : List Nat → List (Instruction ι) → List (Nat × Instruction ι)
  | _, [] => []
  | starts, insn :: code =>
    (starts.headD stop, insn) :: standing stop (if insn.isMarker then starts else starts.tail) code

theorem standing_map (f : ι → ι') : standing stop starts (code.map (Instruction.mapLabels f)) =
    (standing stop starts code).map fun entry => (entry.1, entry.2.mapLabels f) := by
  induction code generalizing starts with
  | nil => rfl
  | cons insn code ih =>
    rw [List.map_cons, standing, standing, List.map_cons, ih, Instruction.isMarker_mapLabels]

theorem map_snd_standing : (standing stop starts code).map Prod.snd = code := by
  induction code generalizing starts with
  | nil => rfl
  | cons insn code ih => rw [standing, List.map_cons, ih]

theorem standing_markers {markers : List (Instruction ι)}
    (h : ∀ insn ∈ markers, insn.isMarker = true) :
    standing stop starts (markers ++ code) =
      markers.map (starts.headD stop, ·) ++ standing stop starts code := by
  induction markers with
  | nil => rfl
  | cons insn markers ih =>
    obtain ⟨hfirst, hrest⟩ := List.forall_mem_cons.mp h
    rw [List.cons_append, standing, if_pos hfirst, ih hrest]
    rfl

/-- What precedes an instruction stands where that starts. -/
theorem standing_flatMap {entries : List (Nat × Instruction ι)}
    {before : Nat → List (Instruction ι)}
    (hbefore : ∀ offset, ∀ insn ∈ before offset, insn.isMarker = true)
    (hreal : ∀ entry ∈ entries, entry.2.isMarker = false) :
    standing stop (entries.map Prod.fst)
        (entries.flatMap (fun entry => before entry.1 ++ [entry.2]) ++ code) =
      entries.flatMap (fun entry => (before entry.1 ++ [entry.2]).map (entry.1, ·)) ++
        standing stop [] code := by
  induction entries with
  | nil => rfl
  | cons entry entries ih =>
    obtain ⟨hfirst, hrest⟩ := List.forall_mem_cons.mp hreal
    rw [List.flatMap_cons, List.flatMap_cons, List.append_assoc, List.append_assoc,
      standing_markers (hbefore entry.1), List.singleton_append, List.map_cons, standing,
      if_neg (by simp [hfirst]), List.tail_cons, ih hrest]
    simp

/-- Entries whose keys are told apart, one group for each key. -/
theorem filter_flatMap_groups {β : Type} {keys : List Nat} (h : keys.Nodup) (group : Nat → List β)
    (key : Nat) : (keys.flatMap fun k => (group k).map (k, ·)).filter (·.1 = key) =
      if key ∈ keys then (group key).map (key, ·) else [] := by
  induction keys with
  | nil => rfl
  | cons k keys ih =>
    obtain ⟨hout, hrest⟩ := List.nodup_cons.mp h
    rw [List.flatMap_cons, List.filter_append, ih hrest]
    by_cases hk : k = key
    · subst hk
      have hall : ((group k).map (k, ·)).filter (·.1 = k) = (group k).map (k, ·) :=
        List.filter_eq_self.mpr (by simp)
      rw [hall, if_neg hout, if_pos List.mem_cons_self, List.append_nil]
    · have hnone : ((group k).map (k, ·)).filter (·.1 = key) = [] :=
        List.filter_eq_nil_iff.mpr (by simp [hk])
      rw [hnone, List.nil_append]
      by_cases hm : key ∈ keys
      · rw [if_pos hm, if_pos (List.mem_cons_of_mem _ hm)]
      · rw [if_neg hm, if_neg (by simp [hm, Ne.symm hk])]

def linesAt (code : List (Instruction Nat)) : List (Nat × UInt16) :=
  code.filterMap fun
    | .line number start => some (start, number)
    | _ => none

def framesAt (elements : List (Nat × Instruction Nat)) : List (Nat × StackMap.OffsetFrame) :=
  elements.filterMap fun entry =>
    match entry.2 with
    | .frame locals stack => some (entry.1, ⟨locals, stack⟩)
    | _ => none

def resolved (place : ι → Nat) (elements : List (Nat × Instruction ι)) :
    List (Nat × Instruction Nat) :=
  elements.map fun entry => (entry.1, entry.2.mapLabels place)

namespace Listing

variable {listing : Listing} {offset : Nat}

def marks (listing : Listing) (offset : Nat) : List (Instruction Nat) :=
  markers (.ofList listing.mentions) (byOffset listing.lineEntries) (.ofList listing.frameEntries)
    offset

def ending (listing : Listing) : List (Instruction Nat) :=
  (if (byOffset listing.lineEntries).contains listing.length ||
      (Std.HashMap.ofList listing.frameEntries).contains listing.length then
    listing.marks listing.length else []) ++
  (if (Numbering.ofList listing.mentions).contains listing.length then [.label listing.length]
    else [])

theorem elements_eq (listing : Listing) : listing.elements =
    listing.instructions.flatMap (fun entry => listing.marks entry.1 ++ [entry.2]) ++
      listing.ending :=
  List.append_assoc _ _ _

/-- The elements with the offsets at which they stand. -/
def placed (listing : Listing) : List (Nat × Instruction Nat) :=
  standing listing.length (listing.instructions.map Prod.fst) listing.elements

theorem mem_marks {insn : Instruction Nat} : insn ∈ listing.marks offset ↔
    insn = .label offset ∧ offset ∈ listing.mentions ∨
    (∃ number ∈ (byOffset listing.lineEntries).getD offset [], insn = .line number offset) ∨
    ∃ frame, (Std.HashMap.ofList listing.frameEntries)[offset]? = some frame ∧
      insn = .frame frame.locals frame.stack := by
  unfold marks markers
  rw [List.mem_append, List.mem_append, or_assoc]
  refine or_congr ?_ (or_congr ?_ ?_)
  · split
    · rename_i h
      simp [contains_ofList.mp h]
    · rename_i h
      simp [mt contains_ofList.mpr h]
  · rw [List.mem_map]
    exact exists_congr fun number => and_congr_right fun _ => eq_comm
  · cases (Std.HashMap.ofList listing.frameEntries)[offset]? with
    | none => simp
    | some frame => simp

theorem isMarker_marks {insn : Instruction Nat} (h : insn ∈ listing.marks offset) :
    insn.isMarker = true := by
  rcases mem_marks.mp h with ⟨rfl, -⟩ | ⟨_, -, rfl⟩ | ⟨_, -, rfl⟩ <;> rfl

theorem mem_ending {insn : Instruction Nat} (h : insn ∈ listing.ending) :
    insn ∈ listing.marks listing.length := by
  rcases List.mem_append.mp h with h | h
  · split at h
    · exact h
    · cases h
  · split at h
    · rename_i hm
      obtain rfl := List.mem_singleton.mp h
      exact mem_marks.mpr (.inl ⟨rfl, contains_ofList.mp hm⟩)
    · cases h

theorem standing_nil {code : List (Instruction ι)} (h : ∀ insn ∈ code, insn.isMarker = true) :
    standing stop [] code = code.map (stop, ·) := by
  have hall : standing stop [] (code ++ []) = code.map (stop, ·) ++ standing stop [] [] :=
    standing_markers h
  rwa [List.append_nil, standing, List.append_nil] at hall

theorem placed_eq (h : Ascending listing.instructions listing.length) : listing.placed =
    listing.instructions.flatMap (fun entry =>
      (listing.marks entry.1 ++ [entry.2]).map (entry.1, ·)) ++
      listing.ending.map (listing.length, ·) := by
  have hmarks : ∀ offset, ∀ insn ∈ listing.marks offset, insn.isMarker = true :=
    fun _ _ => isMarker_marks
  rw [placed, elements_eq, standing_flatMap hmarks h.real,
    standing_nil fun _ hm => isMarker_marks (mem_ending hm)]

/-- The instructions stand where they were found. -/
theorem filter_placed (h : Ascending listing.instructions listing.length) :
    listing.placed.filter (fun entry => !entry.2.isMarker) = listing.instructions := by
  have hmarks : ∀ (place : Nat) (code : List (Instruction Nat)),
      (∀ insn ∈ code, insn.isMarker = true) →
      (code.map (place, ·)).filter (fun entry => !entry.2.isMarker) = [] := by
    intro place code hall
    refine List.filter_eq_nil_iff.mpr fun entry hm => ?_
    obtain ⟨insn, hi, rfl⟩ := List.mem_map.mp hm
    simp [hall insn hi]
  rw [placed_eq h, List.filter_append, hmarks _ _ fun _ hm => isMarker_marks (mem_ending hm),
    List.append_nil]
  have hreal := h.real
  generalize listing.instructions = entries at hreal
  clear h
  induction entries with
  | nil => rfl
  | cons entry entries ih =>
    obtain ⟨hfirst, hrest⟩ := List.forall_mem_cons.mp hreal
    rw [List.flatMap_cons, List.filter_append, ih hrest, List.map_append, List.filter_append,
      hmarks _ _ fun _ hm => isMarker_marks hm]
    simp [hfirst]

theorem mem_placed (h : Ascending listing.instructions listing.length)
    {entry : Nat × Instruction Nat} (hm : entry ∈ listing.placed) :
    entry ∈ listing.instructions ∨ entry.2 ∈ listing.marks entry.1 := by
  rw [placed_eq h, List.mem_append, List.mem_flatMap] at hm
  rcases hm with ⟨found, hf, hm⟩ | hm
  · obtain ⟨insn, hi, rfl⟩ := List.mem_map.mp hm
    rcases List.mem_append.mp hi with hi | hi
    · exact .inr hi
    · obtain rfl := List.mem_singleton.mp hi
      exact .inl hf
  · obtain ⟨insn, hi, rfl⟩ := List.mem_map.mp hm
    exact .inr (mem_ending hi)

/-- A label stands at the offset that it is for. -/
theorem eq_of_label_mem_placed (h : Ascending listing.instructions listing.length) {label : Nat}
    (hm : (offset, .label label) ∈ listing.placed) : label = offset ∧
    offset ∈ listing.mentions := by
  rcases mem_placed h hm with hm | hm
  · cases h.real _ hm
  · rcases mem_marks.mp hm with ⟨he, hin⟩ | ⟨_, -, he⟩ | ⟨_, -, he⟩
    · exact ⟨by simpa using he, hin⟩
    · cases he
    · cases he

/-- Every offset that needs a label has one that stands there. -/
theorem label_mem_placed (h : Ascending listing.instructions listing.length)
    (hp : listing.misplaced? = none) (hm : offset ∈ listing.mentions) :
    (offset, .label offset) ∈ listing.placed := by
  rw [placed_eq h, List.mem_append, List.mem_flatMap]
  rcases start_or_end hp hm with rfl | hs
  · refine .inr (List.mem_map.mpr ⟨_, List.mem_append_right _ ?_, rfl⟩)
    rw [if_pos (contains_ofList.mpr hm)]
    exact List.mem_singleton_self _
  · obtain ⟨entry, he, rfl⟩ := List.mem_map.mp hs
    exact .inl ⟨entry, he, List.mem_map.mpr
      ⟨_, List.mem_append_left _ (mem_marks.mpr (.inl ⟨rfl, hm⟩)), rfl⟩⟩

theorem getD_byOffset {α : Type} (entries : List (Nat × α)) (offset : Nat) :
    ((byOffset entries).getD offset []).map (offset, ·) = entries.filter (·.1 = offset) := by
  unfold byOffset
  rw [List.foldl_reverse]
  induction entries with
  | nil => simp
  | cons entry entries ih =>
    rw [List.foldr_cons, Std.HashMap.getD_insert]
    by_cases he : entry.1 = offset
    · subst he
      rw [if_pos (beq_self_eq_true _), List.map_cons, ih, List.filter_cons_of_pos (by simp)]
    · rw [if_neg (by simpa using he), ih, List.filter_cons_of_neg (by simpa using he)]

def boundaries (listing : Listing) : List Nat :=
  listing.instructions.map Prod.fst ++ [listing.length]

theorem sorted_boundaries (h : Ascending listing.instructions listing.length) :
    listing.boundaries.Pairwise (· < ·) := by
  refine List.pairwise_append.mpr ⟨h.sorted, List.pairwise_singleton _ _, ?_⟩
  intro start hs stop ht
  obtain rfl := List.mem_singleton.mp ht
  exact h.before start hs

theorem mem_boundaries (hp : listing.misplaced? = none) (hm : offset ∈ listing.mentions) :
    offset ∈ listing.boundaries := by
  rcases start_or_end hp hm with rfl | hs
  · simp [boundaries]
  · exact List.mem_append_left _ hs

theorem linesAt_append (code more : List (Instruction Nat)) :
    linesAt (code ++ more) = linesAt code ++ linesAt more :=
  List.filterMap_append

theorem linesAt_marks (offset : Nat) : linesAt (listing.marks offset) =
    listing.lineEntries.filter (·.1 = offset) := by
  have hlabel : linesAt (if (Numbering.ofList listing.mentions).contains offset then
      [Instruction.label offset] else []) = [] := by split <;> rfl
  rw [← getD_byOffset, marks, markers, linesAt_append, linesAt_append, hlabel, List.nil_append]
  have hlines : ∀ numbers : List UInt16,
      linesAt (numbers.map (Instruction.line · offset)) = numbers.map (offset, ·) := by
    intro numbers
    rw [linesAt, List.filterMap_map, ← List.filterMap_eq_map]
    rfl
  rw [hlines]
  cases (Std.HashMap.ofList listing.frameEntries)[offset]? <;> exact List.append_nil _

theorem linesAt_real {insn : Instruction Nat} (h : insn.isMarker = false) :
    linesAt [insn] = [] := by
  cases insn with
  | line => cases h
  | _ => rfl

/-- Lines are in the order of their offsets. -/
theorem linesAt_elements (h : Ascending listing.instructions listing.length) :
    linesAt listing.elements = listing.boundaries.flatMap fun offset =>
      listing.lineEntries.filter (·.1 = offset) := by
  have hinstructions : linesAt (listing.instructions.flatMap fun entry =>
      listing.marks entry.1 ++ [entry.2]) = (listing.instructions.map Prod.fst).flatMap
        fun offset => listing.lineEntries.filter (·.1 = offset) := by
    have hreal := h.real
    generalize listing.instructions = entries at hreal
    clear h
    induction entries with
    | nil => rfl
    | cons entry entries ih =>
      obtain ⟨hfirst, hrest⟩ := List.forall_mem_cons.mp hreal
      rw [List.flatMap_cons, linesAt_append, ih hrest, linesAt_append, linesAt_marks,
        linesAt_real hfirst, List.append_nil]
      rfl
  have hending : linesAt listing.ending =
      listing.lineEntries.filter (·.1 = listing.length) := by
    have hlabel : linesAt (if (Numbering.ofList listing.mentions).contains listing.length then
        [Instruction.label listing.length] else []) = [] := by split <;> rfl
    rw [ending, linesAt_append, hlabel, List.append_nil]
    split
    · exact linesAt_marks _
    · rename_i hnone
      rw [Bool.or_eq_true, not_or] at hnone
      refine (List.filter_eq_nil_iff.mpr fun entry hm => ?_).symm
      intro he
      refine hnone.1 (Std.HashMap.contains_iff_mem.mpr (mem_byOffset.mpr ?_))
      exact List.mem_map.mpr ⟨entry, hm, of_decide_eq_true he⟩
  rw [elements_eq, linesAt_append, hinstructions, hending, boundaries, List.flatMap_append]
  simp

/-- At each offset there are the lines that were found for it. -/
theorem filter_linesAt (h : Ascending listing.instructions listing.length)
    (hp : listing.misplaced? = none) (offset : Nat) :
    (linesAt listing.elements).filter (·.1 = offset) =
      listing.lineEntries.filter (·.1 = offset) := by
  have hgroups : linesAt listing.elements = listing.boundaries.flatMap fun offset =>
      ((byOffset listing.lineEntries).getD offset []).map (offset, ·) := by
    rw [linesAt_elements h]
    exact List.flatMap_congr fun offset _ => (getD_byOffset _ _).symm
  rw [hgroups, filter_flatMap_groups ((sorted_boundaries h).imp Nat.ne_of_lt), ← getD_byOffset]
  split
  · rfl
  · rename_i hout
    rw [getD_byOffset, eq_comm, List.filter_eq_nil_iff]
    intro entry hm he
    refine hout (mem_boundaries hp (mem_mentions_of_line ?_))
    exact List.mem_map.mpr ⟨entry, hm, of_decide_eq_true he⟩

theorem framesAt_append (elements more : List (Nat × Instruction Nat)) :
    framesAt (elements ++ more) = framesAt elements ++ framesAt more :=
  List.filterMap_append

theorem framesAt_marks (offset : Nat) : framesAt ((listing.marks offset).map (offset, ·)) =
    (Std.HashMap.ofList listing.frameEntries)[offset]?.toList.map (offset, ·) := by
  have hlabel : framesAt ((if (Numbering.ofList listing.mentions).contains offset then
      [Instruction.label offset] else []).map (offset, ·)) = [] := by split <;> rfl
  have hlines : ∀ numbers : List UInt16,
      framesAt ((numbers.map (Instruction.line · offset)).map (offset, ·)) = [] := by
    intro numbers
    refine List.filterMap_eq_nil_iff.mpr fun entry hm => ?_
    obtain ⟨insn, hi, rfl⟩ := List.mem_map.mp hm
    obtain ⟨number, -, rfl⟩ := List.mem_map.mp hi
    rfl
  rw [marks, markers, List.map_append, List.map_append, framesAt_append, framesAt_append, hlabel,
    hlines, List.nil_append]
  cases (Std.HashMap.ofList listing.frameEntries)[offset]? <;> rfl

theorem framesAt_real {insn : Instruction Nat} (h : insn.isMarker = false) :
    framesAt [(offset, insn)] = [] := by
  cases insn with
  | frame => cases h
  | _ => rfl

theorem framesAt_placed (h : Ascending listing.instructions listing.length) :
    framesAt listing.placed = listing.boundaries.flatMap fun offset =>
      (Std.HashMap.ofList listing.frameEntries)[offset]?.toList.map (offset, ·) := by
  have hinstructions : framesAt (listing.instructions.flatMap fun entry =>
      (listing.marks entry.1 ++ [entry.2]).map (entry.1, ·)) =
        (listing.instructions.map Prod.fst).flatMap fun offset =>
          (Std.HashMap.ofList listing.frameEntries)[offset]?.toList.map (offset, ·) := by
    have hreal := h.real
    generalize listing.instructions = entries at hreal
    clear h
    induction entries with
    | nil => rfl
    | cons entry entries ih =>
      obtain ⟨hfirst, hrest⟩ := List.forall_mem_cons.mp hreal
      rw [List.flatMap_cons, framesAt_append, ih hrest, List.map_append, framesAt_append,
        framesAt_marks, List.map_singleton, framesAt_real hfirst, List.append_nil]
      rfl
  have hending : framesAt (listing.ending.map (listing.length, ·)) =
      (Std.HashMap.ofList listing.frameEntries)[listing.length]?.toList.map
        (listing.length, ·) := by
    have hlabel : framesAt ((if (Numbering.ofList listing.mentions).contains listing.length then
        [Instruction.label listing.length] else []).map (listing.length, ·)) = [] := by
      split <;> rfl
    rw [ending, List.map_append, framesAt_append, hlabel, List.append_nil]
    split
    · exact framesAt_marks _
    · rename_i hnone
      rw [Bool.or_eq_true, not_or] at hnone
      rw [Std.HashMap.getElem?_eq_none fun hm => hnone.2 (Std.HashMap.contains_iff_mem.mpr hm)]
      rfl
  rw [placed_eq h, framesAt_append, hinstructions, hending, boundaries, List.flatMap_append]
  simp

/-- Frames at ascending offsets stand where they were found. -/
theorem framesAt_eq (h : Ascending listing.instructions listing.length)
    (hp : listing.misplaced? = none)
    (hf : listing.frameEntries.Pairwise fun entry later => entry.1 < later.1) :
    framesAt listing.placed = listing.frameEntries := by
  have hat : ∀ (offset : Nat) (frame : StackMap.OffsetFrame),
      (Std.HashMap.ofList listing.frameEntries)[offset]? = some frame ↔
        (offset, frame) ∈ listing.frameEntries := by
    refine fun offset frame => ⟨mem_of_ofList, fun hm => ?_⟩
    refine Std.HashMap.getElem?_ofList_of_mem (beq_self_eq_true _) (hf.imp fun hlt => ?_) hm
    simpa using Nat.ne_of_lt hlt
  have hsorted : (framesAt listing.placed).Pairwise fun entry later => entry.1 < later.1 := by
    rw [framesAt_placed h, List.pairwise_flatMap]
    constructor
    · intro offset _
      cases (Std.HashMap.ofList listing.frameEntries)[offset]? <;> simp
    · refine (sorted_boundaries h).imp fun hlt first hfirst second hsecond => ?_
      obtain ⟨_, -, rfl⟩ := List.mem_map.mp hfirst
      obtain ⟨_, -, rfl⟩ := List.mem_map.mp hsecond
      exact hlt
  have hmem : ∀ entry, entry ∈ framesAt listing.placed ↔ entry ∈ listing.frameEntries := by
    rintro ⟨offset, frame⟩
    rw [framesAt_placed h, ← hat]
    simp only [List.mem_flatMap, List.mem_map, Option.mem_toList, Prod.mk.injEq]
    constructor
    · rintro ⟨_, -, _, hm, rfl, rfl⟩
      exact hm
    · intro hm
      exact ⟨offset, mem_boundaries hp (mem_mentions_of_frame ((hat _ _).mp hm)).1, frame, hm, rfl,
        rfl⟩
  have hne : ∀ {entry later : Nat × StackMap.OffsetFrame}, entry.1 < later.1 → entry ≠ later := by
    rintro entry _ hlt rfl
    exact Nat.lt_irrefl _ hlt
  refine List.Perm.eq_of_pairwise
    (fun _ _ _ _ hlt hgt => absurd hlt (Nat.lt_asymm hgt)) hsorted hf ?_
  exact (List.perm_ext_iff_of_nodup (hsorted.imp hne) (hf.imp hne)).mpr hmem

end Listing

def VariableEntry.key (entry : VariableEntry) : UInt16 × String × Nat × Nat :=
  (entry.slot, entry.name, entry.start, entry.stop)

def signatureOf (entry : VariableEntry × Option String) : Option VariableEntry :=
  entry.2.map fun signature =>
    ⟨entry.1.start, entry.1.stop, entry.1.name, signature, entry.1.slot⟩

theorem modify_append {α : Type} (before after : List α) (a : α) (f : α → α) :
    (before ++ a :: after).modify before.length f = before ++ f a :: after := by
  induction before with
  | nil => rfl
  | cons first before ih => exact congrArg (first :: ·) ih

/-- A signature goes to the first variable with its key. -/
theorem addSignature_first {before after : List (VariableEntry × Option String)}
    {entry signature : VariableEntry} {old : Option String} (hkey : entry.key = signature.key)
    (hbefore : ∀ other ∈ before, other.1.key ≠ signature.key) :
    Listing.addSignature (before ++ (entry, old) :: after) signature =
      before ++ (entry, some signature.type) :: after := by
  have habout : ∀ other : VariableEntry × Option String,
      (other.1.slot == signature.slot && other.1.name == signature.name &&
        other.1.start == signature.start && other.1.stop == signature.stop) = true ↔
          other.1.key = signature.key := by
    intro other
    simp [VariableEntry.key, and_assoc]
  have hfind : (before ++ (entry, old) :: after).findIdx? (fun other =>
      other.1.slot == signature.slot && other.1.name == signature.name &&
        other.1.start == signature.start && other.1.stop == signature.stop) =
          some before.length := by
    have hnone : before.findIdx? (fun other => other.1.slot == signature.slot &&
        other.1.name == signature.name && other.1.start == signature.start &&
          other.1.stop == signature.stop) = none :=
      List.findIdx?_eq_none_iff.mpr fun other hm =>
        Bool.eq_false_iff.mpr (mt (habout other).mp (hbefore other hm))
    rw [List.findIdx?_append, hnone, List.findIdx?_cons, if_pos ((habout (entry, old)).mpr hkey)]
    simp
  unfold Listing.addSignature
  dsimp only
  rw [hfind]
  exact modify_append before after _ _

/-- Signatures that were taken from variables with different keys go back to these. -/
theorem foldl_addSignature {entries : List (VariableEntry × Option String)}
    (hkeys : (entries.map fun entry => entry.1.key).Nodup) :
    (entries.filterMap signatureOf).foldl Listing.addSignature
      (entries.map fun entry => (entry.1, none)) = entries := by
  suffices hall : ∀ before : List (VariableEntry × Option String),
      ((before ++ entries).map fun entry => entry.1.key).Nodup →
      (entries.filterMap signatureOf).foldl Listing.addSignature
        (before ++ entries.map fun entry => (entry.1, none)) = before ++ entries from
    hall [] hkeys
  clear hkeys
  induction entries with
  | nil => exact fun _ _ => rfl
  | cons entry entries ih =>
    intro before hkeys
    obtain ⟨entry, signature⟩ := entry
    have hlater := ih (before ++ [(entry, signature)]) (by simpa using hkeys)
    rw [List.append_assoc, List.append_assoc, List.singleton_append, List.singleton_append]
      at hlater
    cases signature with
    | none => exact hlater
    | some signature =>
      have hsigned : signatureOf (entry, some signature) =
        some ⟨entry.start, entry.stop, entry.name, signature, entry.slot⟩ := rfl
      rw [List.map_append, List.map_cons] at hkeys
      have hstep := @addSignature_first before (entries.map fun entry => (entry.1, none)) entry
        ⟨entry.start, entry.stop, entry.name, signature, entry.slot⟩ none rfl fun other hm he =>
          (List.nodup_append.mp hkeys).2.2 _ (List.mem_map_of_mem hm) _ List.mem_cons_self he
      rw [List.filterMap_cons_some hsigned, List.foldl_cons, List.map_cons, hstep]
      exact hlater

def resolveHandler (place : Label → Nat) (handler : TryCatch) : OffsetHandler :=
  ⟨place handler.start, place handler.stop, place handler.handler, handler.catchType⟩

def resolveVariable (place : Label → Nat) (entry : LocalVariable) : VariableEntry × Option String :=
  (⟨place entry.start, place entry.stop, entry.name, entry.descriptor, entry.slot⟩, entry.signature)

namespace Listing

variable {listing : Listing} {method method' : Method} {offset : Nat}

def placeOf (listing : Listing) (label : Label) : Nat :=
  (listing.mentions.find? fun offset => listing.labelAt offset = label).getD 0

theorem placeOf_labelAt (hm : offset ∈ listing.mentions) :
    listing.placeOf (listing.labelAt offset) = offset := by
  unfold placeOf
  cases hf : listing.mentions.find? fun other => listing.labelAt other = listing.labelAt offset with
  | none => exact absurd (List.find?_eq_none.mp hf offset hm) (by simp)
  | some other =>
    exact labelAt_inj (List.mem_of_find?_eq_some hf) hm (by simpa using List.find?_some hf)

theorem mentions_elements (h : Ascending listing.instructions listing.length)
    (hp : listing.misplaced? = none) {insn : Instruction Nat} (hi : insn ∈ listing.elements) :
    ∀ place ∈ insn.mentions, place ∈ listing.mentions := by
  intro place hm
  rcases Instruction.mem_mentions.mp hm with hm | hm
  · exact (mem_placedOffsets h hp).mp (List.mem_filterMap.mpr ⟨insn, hi, hm⟩)
  · exact references_elements hi place hm

/-- Added code is the code that was read, with offsets for its labels. -/
theorem resolved_addTo (h : Ascending listing.instructions listing.length)
    (ha : listing.addTo method = .ok method') :
    resolved listing.placeOf (standing listing.length (listing.instructions.map Prod.fst)
      method'.body.code) = listing.placed := by
  obtain ⟨hp, rfl⟩ := addTo_eq_ok.mp ha
  rw [addedTo, standing_map, resolved, List.map_map, ← placed]
  refine (List.map_congr_left fun entry hm => ?_).trans (List.map_id _)
  have hi : entry.2 ∈ listing.elements := by
    have hmap := List.mem_map_of_mem (f := Prod.snd) hm
    rwa [placed, map_snd_standing] at hmap
  exact Prod.ext rfl (Instruction.mapLabels_mapLabels_of fun label hl =>
    placeOf_labelAt (mentions_elements h hp hi label hl))

/-- Every label of a method that code was added to stands at its offset. -/
theorem label_mem_standing (h : Ascending listing.instructions listing.length)
    (hh : method.handlers = []) (hv : method.localVariables = none)
    (ha : listing.addTo method = .ok method') {label : Label} (hm : label ∈ method'.mentions) :
    (listing.placeOf label, .label label) ∈ standing listing.length
      (listing.instructions.map Prod.fst) method'.body.code := by
  have hout := handedOut_addTo h hh hv ha label hm
  obtain ⟨hp, rfl⟩ := addTo_eq_ok.mp ha
  obtain ⟨offset, ho, rfl⟩ := exists_labelAt_iff.mpr hout
  rw [placeOf_labelAt ho, addedTo, standing_map]
  exact List.mem_map.mpr ⟨_, label_mem_placed h hp ho, rfl⟩

theorem resolveHandler_addTo (hh : method.handlers = [])
    (ha : listing.addTo method = .ok method') :
    method'.handlers.map (resolveHandler listing.placeOf) = listing.handlers := by
  obtain ⟨-, rfl⟩ := addTo_eq_ok.mp ha
  rw [addedTo, hh, List.nil_append, List.map_map]
  refine (List.map_congr_left fun handler hm => ?_).trans (List.map_id _)
  have hin : ∀ offset ∈ handler.mentions, offset ∈ listing.mentions := fun offset ho =>
    List.mem_append_left _ (List.mem_append_right _ (List.mem_flatMap.mpr ⟨handler, hm, ho⟩))
  simp only [Function.comp_apply, resolveHandler, id_eq]
  rw [placeOf_labelAt (hin _ (by simp [OffsetHandler.mentions])),
    placeOf_labelAt (hin _ (by simp [OffsetHandler.mentions])),
    placeOf_labelAt (hin _ (by simp [OffsetHandler.mentions]))]

theorem resolveVariable_addTo (hv : method.localVariables = none)
    (ha : listing.addTo method = .ok method') :
    method'.localVariables.map (List.map (resolveVariable listing.placeOf)) =
      if listing.hasVariables then some (listing.signatureEntries.foldl addSignature
        (listing.variableEntries.map fun entry => (entry, none))) else none := by
  obtain ⟨-, rfl⟩ := addTo_eq_ok.mp ha
  rw [addedTo, variablesFor]
  split
  · rw [Option.map_some, List.map_map]
    refine congrArg some ((List.map_congr_left fun entry hm => ?_).trans (List.map_id _))
    have hentry : entry.1 ∈ listing.variableEntries := by
      have hmap := List.mem_map_of_mem (f := Prod.fst) hm
      rw [map_fst_foldl_addSignature, List.map_map] at hmap
      simpa using hmap
    obtain ⟨hstart, hstop⟩ := mem_mentions_of_variable hentry
    simp only [Function.comp_apply, resolveVariable, id_eq]
    rw [placeOf_labelAt hstart, placeOf_labelAt hstop]
  · rw [hv]
    rfl

end Listing
end Code
end ClassTree
