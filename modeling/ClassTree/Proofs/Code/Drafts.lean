import ClassTree.Proofs.Code.FrameTable
import ClassTree.Proofs.Code.LabelUses
import ClassTree.Proofs.Code.Rounds
import ClassTree.Proofs.Code.Splitting
import Mathlib.Logic.Relation

namespace ClassTree

variable {method : Method} {label : Label}

namespace Method

theorem labelsSound_of_owns (howns : method.body.Owns) (hnodup : method.body.placed.Nodup)
    (hreferences : ∀ label ∈ method.references, label ∈ method.body.placed) :
    method.LabelsSound where
  resolved := fun label hm => by rw [hnodup.count, if_pos (hreferences label hm)]
  nodup := hnodup
  handedOut := fun label hm => howns label ((mem_mentions.mp hm).elim id (hreferences label))

namespace LabelsSound

theorem mem_placed (h : method.LabelsSound) (hm : label ∈ method.mentions) :
    label ∈ method.body.placed := by
  rcases mem_mentions.mp hm with hplaced | hr
  · exact hplaced
  · exact List.count_pos_iff.mp (Nat.lt_of_lt_of_eq Nat.one_pos (h.resolved label hr).symm)

theorem count_eq_one (h : method.LabelsSound) (hm : label ∈ method.mentions) :
    method.body.placed.count label = 1 := by
  rw [h.nodup.count, if_pos (h.mem_placed hm)]

theorem owns (h : method.LabelsSound) : method.body.Owns :=
  fun label hm => h.handedOut label (mem_mentions.mpr (.inl hm))

/-- Other code will do if it places all labels that the code before did. -/
theorem recoded {body : Body} (h : method.LabelsSound) (howns : body.Owns)
    (hnodup : body.placed.Nodup) (hkeeps : ∀ label ∈ method.body.placed, label ∈ body.placed)
    (hcode : ∀ label ∈ body.code.flatMap Instruction.references, label ∈ body.placed) :
    ({ method with body } : Method).LabelsSound := by
  refine labelsSound_of_owns howns hnodup fun label hm => ?_
  rcases List.mem_append.mp hm with hm | hvariables
  · rcases List.mem_append.mp hm with hm | hhandlers
    · exact hcode label hm
    · exact hkeeps label (h.mem_placed (Code.mem_mentions_of_mem_handlers hhandlers))
  · exact hkeeps label (h.mem_placed (Code.mem_mentions_of_mem_variables hvariables))

/-- Other handlers will do if they refer to what is placed. -/
theorem rehandled {handlers : List TryCatch} (h : method.LabelsSound)
    (hhandlers : ∀ label ∈ handlers.flatMap TryCatch.mentions, label ∈ method.body.placed) :
    ({ method with handlers } : Method).LabelsSound := by
  refine labelsSound_of_owns h.owns h.nodup fun label hm => ?_
  rcases List.mem_append.mp hm with hm | hvariables
  · rcases List.mem_append.mp hm with hcode | hm
    · exact h.mem_placed (Code.mem_mentions_of_mem_references hcode)
    · exact hhandlers label hm
  · exact h.mem_placed (Code.mem_mentions_of_mem_variables hvariables)

end LabelsSound
end Method

namespace Code

open Pool Build ClassTree.Flow

/-- A method while it is written, and the runs of unreached code that have been replaced in it. -/
structure Draft where
  method : Method
  runs : List DeadRun

namespace Draft

def recoded (draft : Draft) (body : Body) : Draft :=
  { draft with method := { draft.method with body } }

/-- The draft with code that is never reached replaced. -/
def replaced (draft : Draft) (frames : Array (Option SlotFrame)) (offsets : Offsets) : Draft :=
  let replaced := replaceDead draft.method.body.code draft.method.body.labels frames offsets
  ⟨{ draft.method with body := ⟨replaced.1, replaced.2.1⟩ }, replaced.2.2⟩

/-- The draft with runs cut out of its handlers. -/
def split (draft : Draft) (offsets : Offsets) : Draft :=
  { draft with method := { draft.method with
      handlers := splitHandlers (.ofCode draft.method.body.code offsets) draft.runs
        draft.method.handlers } }

/-- A pass over a draft: removing frames, a round of widening, replacing what is never reached, or
splitting handlers. Which of them are made, and with which frames and offsets, does not matter. -/
inductive Pass : Draft → Draft → Prop
  | unframe (draft : Draft) : Pass draft (draft.recoded (unframed draft.method.body))
  | widen (draft : Draft) (offsets : Offsets) :
      Pass draft (draft.recoded
        (widenFar (isFar offsets draft.method.body.code) draft.method.body))
  | replace (draft : Draft) (frames : Array (Option SlotFrame)) (offsets : Offsets) :
      Pass draft (draft.replaced frames offsets)
  | split (draft : Draft) (offsets : Offsets) : Pass draft (draft.split offsets)

abbrev Passes : Draft → Draft → Prop :=
  Relation.ReflTransGen Pass

/-- Labels of the draft are sound, and runs are between labels that are placed. -/
structure Closed (draft : Draft) : Prop where
  labels : draft.method.LabelsSound
  runs : ∀ run ∈ draft.runs, run.start ∈ draft.method.body.placed ∧
    run.stop ∈ draft.method.body.placed

end Draft

section Widening

variable {body : Body}

/-- A round of widening on its own. -/
theorem widening_widenFar {far : Instruction Label × Nat → Bool} (hn : Narrow far) (h : body.Owns) :
    ∃ sites, Widening body sites (widenFar far body).labels ∧
      (widenFar far body).code = sites.map Site.insn := by
  obtain ⟨sites, labels, hround, he⟩ :=
    Site.exists_round hn (body.code.map (⟨·, true⟩)) body.labels fun entry hm _ => by
      obtain ⟨insn, -, he⟩ := List.mem_map.mp (List.fst_mem_of_mem_zipIdx hm)
      exact congrArg Site.original he.symm
  rw [bodyOf_original] at he
  rw [he]
  exact ⟨sites, (widening_start h).step hround, rfl⟩

theorem placed_widenFar {far : Instruction Label × Nat → Bool} {sites : List Site}
    (h : (widenFar far body).code = sites.map Site.insn) :
    (widenFar far body).placed = Site.placed sites := by
  rw [Body.placed, h, List.filterMap_map]
  rfl

end Widening

section Replacing

variable {frames : Array (Option SlotFrame)} {offsets : Offsets} {labels labels' : Nat}
  {code : List (Instruction Label)} {runs : List DeadRun} {stop : Nat}
  {elements inner placed filling : List (Instruction Label × Nat)}
  {element : Instruction Label × Nat}

theorem length_placesOf (label : Label) (placed : List (Instruction Label × Nat)) :
    (placesOf label placed).length =
      ((placed.map Prod.fst).filterMap Instruction.placed?).count label := by
  induction placed with
  | nil => rfl
  | cons element placed ih =>
    rw [placesOf_cons, List.length_append, ih]
    cases hp : element.1.placed? with
    | none => simp [placesOf, hp]
    | some other => by_cases he : other = label <;> simp [placesOf, hp, he, Nat.add_comm]

/-- A label that was there before is placed as often as before. -/
theorem Filled.count_eq (h : Filled frames offsets labels elements placed labels' runs)
    (hold : label.index < labels) :
    ((placed.map Prod.fst).filterMap Instruction.placed?).count label =
      ((elements.map Prod.fst).filterMap Instruction.placed?).count label := by
  have hlocated : (located offsets elements).map Prod.fst = elements.map Prod.fst := by
    simp [located, Function.comp_def]
  rw [← length_placesOf, h.placesOf_eq hold, length_placesOf, hlocated]

/-- Two labels are handed out for each run. -/
theorem Filled.labels_eq (h : Filled frames offsets labels elements placed labels' runs) :
    labels' = labels + 2 * runs.length := by
  induction h with
  | nil => rfl
  | keep _ _ ih => exact ih
  | run _ _ _ _ ih =>
    rw [ih, List.length_cons]
    omega

theorem Run.mem_cases (h : Run frames offsets inner filling stop) (hm : element ∈ filling) :
    (∃ index, (element.1, index) ∈ inner) ∨ ∃ op, element.1 = .plain op := by
  have hnops : ∀ {offset count}, element ∈ nops offset count → ∃ op, element.1 = .plain op := by
    intro offset count hm
    obtain ⟨place, -, rfl⟩ := List.mem_map.mp hm
    exact ⟨.nop, rfl⟩
  induction h with
  | last =>
    rcases List.mem_append.mp hm with hm | hm
    · exact .inr (hnops hm)
    · exact .inr ⟨.athrow, by rw [List.mem_singleton.mp hm]⟩
  | dead _ _ ih =>
    rcases List.mem_append.mp hm with hm | hm
    · exact .inr (hnops hm)
    · exact (ih hm).imp_left fun ⟨index, hi⟩ => ⟨index, .tail _ hi⟩
  | @marker _ _ _ insn index _ _ ih =>
    rcases List.mem_cons.mp hm with rfl | hm
    · exact .inl ⟨index, .head _⟩
    · exact (ih hm).imp_left fun ⟨index, hi⟩ => ⟨index, .tail _ hi⟩

/-- What has not been there before refers to nothing. -/
theorem Filled.mem_cases (h : Filled frames offsets labels elements placed labels' runs)
    (hm : element ∈ placed) :
    (∃ index, (element.1, index) ∈ elements) ∨ element.1.references = [] := by
  induction h with
  | nil => cases hm
  | @keep _ _ _ _ _ insn index _ _ ih =>
    rcases List.mem_cons.mp hm with rfl | hm
    · exact .inl ⟨index, .head _⟩
    · exact (ih hm).imp_left fun ⟨index, hi⟩ => ⟨index, .tail _ hi⟩
  | run _ run _ _ ih =>
    rw [List.cons_append, List.mem_cons, List.mem_append, List.mem_cons] at hm
    rcases hm with rfl | hm | rfl | hm
    · exact .inr rfl
    · rcases run.mem_cases hm with ⟨index, hi⟩ | ⟨op, he⟩
      · exact .inl ⟨index, List.mem_append_left _ hi⟩
      · exact .inr (by rw [he]; rfl)
    · exact .inr rfl
    · exact (ih hm).imp_left fun ⟨index, hi⟩ => ⟨index, List.mem_append_right _ hi⟩

theorem Filled.mem_runs (h : Filled frames offsets labels elements placed labels' runs)
    {run : DeadRun} (hr : run ∈ runs) :
    .label run.start ∈ placed.map Prod.fst ∧ .label run.stop ∈ placed.map Prod.fst := by
  induction h with
  | nil => cases hr
  | keep _ _ ih =>
    obtain ⟨hstart, hstop⟩ := ih hr
    exact ⟨.tail _ hstart, .tail _ hstop⟩
  | run _ _ _ _ ih =>
    rcases List.mem_cons.mp hr with rfl | hr
    · simp
    · obtain ⟨hstart, hstop⟩ := ih hr
      simp only [List.cons_append, List.map_cons, List.map_append, List.mem_cons, List.mem_append]
      exact ⟨.inr (.inr (.inr hstart)), .inr (.inr (.inr hstop))⟩

/-- Labels that are placed have been there before or are those of a run. -/
theorem Filled.index_lt (h : Filled frames offsets labels code.zipIdx placed labels' runs)
    (hold : ∀ label, .label label ∈ code → label.index < labels)
    (hm : label ∈ (placed.map Prod.fst).filterMap Instruction.placed?) : label.index < labels' := by
  rw [h.labels_eq]
  by_cases hnew : labels ≤ label.index
  · have hmem : label ∈ Code.newLabels labels placed :=
      List.mem_filter.mpr ⟨hm, by simpa using hnew⟩
    rw [h.newLabels (Nat.le_refl _)] at hmem
    · obtain ⟨index, hindex, rfl⟩ := List.mem_map.mp hmem
      exact (List.mem_range'_1.mp hindex).2
    · rintro ⟨insn, index⟩ hm label rfl
      exact hold label (List.fst_mem_of_mem_zipIdx hm)
  · omega

/-- No label is placed twice, if that was so before. -/
theorem Filled.nodup (h : Filled frames offsets labels code.zipIdx placed labels' runs)
    (hold : ∀ label, .label label ∈ code → label.index < labels)
    (hnodup : (code.filterMap Instruction.placed?).Nodup) :
    ((placed.map Prod.fst).filterMap Instruction.placed?).Nodup := by
  refine List.nodup_iff_count.mpr fun label => ?_
  by_cases hnew : labels ≤ label.index
  · have hcount := List.nodup_iff_count.mp (h.nodup_newLabels hold) label
    rwa [Code.newLabels, List.count_filter (by simpa using hnew)] at hcount
  · rw [h.count_eq (Nat.lt_of_not_le hnew), List.zipIdx_map_fst]
    exact List.nodup_iff_count.mp hnodup label

end Replacing

section Splitting

variable {offsets : LabelOffsets} {runs : List DeadRun} {handlers : List TryCatch}
  {P : Label → Prop}

/-- What has been cut so far, and what is left, is between labels of some kind. -/
structure Cut.Between (P : Label → Prop) (cut : Cut) : Prop where
  parts : ∀ part ∈ cut.parts, ∀ label ∈ part.mentions, P label
  start : P cut.start

theorem Cut.Between.step {cut : Cut} {handler : TryCatch} {run : DeadRun} (h : cut.Between P)
    (hhandler : P handler.handler) (hrun : P run.start ∧ P run.stop)
    (stop : Nat) : (Cut.step offsets handler stop cut run).Between P := by
  unfold Cut.step
  dsimp only
  split
  · exact h
  · refine ⟨fun part hm => ?_, hrun.2⟩
    dsimp only at hm
    split at hm
    · rcases List.mem_cons.mp hm with rfl | hm
      · exact TryCatch.forall_mem_mentions.mpr ⟨h.start, hrun.1, hhandler⟩
      · exact h.parts part hm
    · exact h.parts part hm

/-- Parts of handlers are between labels of the handlers and of the runs. -/
theorem mentions_splitHandlers (hhandlers : ∀ label ∈ handlers.flatMap TryCatch.mentions, P label)
    (hruns : ∀ run ∈ runs, P run.start ∧ P run.stop) :
    ∀ label ∈ (splitHandlers offsets runs handlers).flatMap TryCatch.mentions, P label := by
  intro label hl
  obtain ⟨part, hm, hl⟩ := List.mem_flatMap.mp hl
  obtain ⟨handler, hh, hm⟩ := List.mem_flatMap.mp hm
  obtain ⟨hstart, hstop, hhandler⟩ := TryCatch.forall_mem_mentions.mp fun label hl =>
    hhandlers label (List.mem_flatMap.mpr ⟨handler, hh, hl⟩)
  have hcut : (runs.foldl (Cut.step offsets handler (offsets.at handler.stop))
      ⟨[], handler.start, offsets.at handler.start⟩).Between P :=
    List.foldlRecOn runs _ ⟨nofun, hstart⟩
      fun cut h run hr => h.step hhandler (hruns run hr) _
  have hpart : ∀ label ∈ part.mentions, P label := by
    rcases List.mem_append.mp hm with hm | hm
    · exact hcut.parts part (List.mem_reverse.mp hm)
    · split at hm
      · obtain rfl := List.mem_singleton.mp hm
        exact TryCatch.forall_mem_mentions.mpr ⟨hcut.start, hstop, hhandler⟩
      · cases hm
  exact hpart label hl

end Splitting

namespace Draft

variable {draft draft' : Draft}

theorem Closed.recoded {body : Body} (h : draft.Closed) (howns : body.Owns)
    (hnodup : body.placed.Nodup) (hkeeps : ∀ label ∈ draft.method.body.placed, label ∈ body.placed)
    (hcode : ∀ label ∈ body.code.flatMap Instruction.references, label ∈ body.placed) :
    (draft.recoded body).Closed :=
  ⟨h.labels.recoded howns hnodup hkeeps hcode,
    fun run hr => (h.runs run hr).imp (hkeeps _) (hkeeps _)⟩

theorem Closed.unframe (h : draft.Closed) :
    (draft.recoded (unframed draft.method.body)).Closed := by
  have hplaced := placed_unframed draft.method.body
  refine h.recoded ?_ (hplaced ▸ h.labels.nodup) (fun label hm => hplaced ▸ hm) fun label hm => ?_
  · exact fun label hm => h.labels.owns label (hplaced ▸ hm)
  · obtain ⟨insn, hi, hl⟩ := List.mem_flatMap.mp hm
    have hmem : label ∈ draft.method.body.code.flatMap Instruction.references :=
      List.mem_flatMap.mpr ⟨insn, List.mem_of_mem_filter hi, hl⟩
    exact hplaced ▸ h.labels.mem_placed (mem_mentions_of_mem_references hmem)

theorem Closed.widen (h : draft.Closed) (offsets : Offsets) :
    (draft.recoded
      (widenFar (isFar offsets draft.method.body.code) draft.method.body)).Closed := by
  have howns := h.labels.owns
  obtain ⟨sites, hw, hsites⟩ :=
    widening_widenFar (narrow_isFar offsets draft.method.body.code) howns
  have hplaced := placed_widenFar hsites
  refine h.recoded (fun label hm => hw.below label (hplaced ▸ hm))
    (hplaced ▸ hw.nodup howns h.labels.nodup) (fun label hm => ?_) fun label hm => ?_
  · rw [hplaced, ← List.count_pos_iff, hw.same label (howns label hm)]
    exact List.count_pos_iff.mpr hm
  · obtain ⟨insn, hi, hl⟩ := List.mem_flatMap.mp hm
    rw [hsites] at hi
    obtain ⟨site, hs, rfl⟩ := List.mem_map.mp hi
    have honce := hw.once_of_mem howns
      (fun label hm => h.labels.count_eq_one (mem_mentions_of_mem_references hm)) hs hl
    rw [hplaced]
    exact List.count_pos_iff.mp (by omega)

theorem Closed.replace (h : draft.Closed) (frames : Array (Option SlotFrame)) (offsets : Offsets) :
    (draft.replaced frames offsets).Closed := by
  obtain ⟨placed, hfilled, hcode⟩ :=
    exists_filled draft.method.body.code draft.method.body.labels frames offsets
  have hplaced : (draft.replaced frames offsets).method.body.placed =
      (placed.map Prod.fst).filterMap Instruction.placed? :=
    congrArg (List.filterMap Instruction.placed?) hcode
  have hold : ∀ label, .label label ∈ draft.method.body.code →
      label.index < draft.method.body.labels :=
    fun label hm => h.labels.owns label (List.mem_filterMap.mpr ⟨_, hm, rfl⟩)
  have hkeeps : ∀ label ∈ draft.method.body.placed,
      label ∈ (draft.replaced frames offsets).method.body.placed := by
    intro label hm
    rw [hplaced, ← List.count_pos_iff, hfilled.count_eq (h.labels.owns label hm),
      List.zipIdx_map_fst]
    exact List.count_pos_iff.mpr hm
  refine ⟨h.labels.recoded ?_ ?_ hkeeps fun label hm => ?_, fun run hr => ?_⟩
  · exact fun label hm => hfilled.index_lt hold (hplaced ▸ hm)
  · exact hplaced ▸ hfilled.nodup hold h.labels.nodup
  · obtain ⟨insn, hi, hl⟩ := List.mem_flatMap.mp hm
    obtain ⟨element, he, rfl⟩ := List.mem_map.mp (hcode ▸ hi)
    rcases hfilled.mem_cases he with ⟨index, hm⟩ | hnone
    · have hmem : label ∈ draft.method.body.code.flatMap Instruction.references :=
        List.mem_flatMap.mpr ⟨_, List.fst_mem_of_mem_zipIdx hm, hl⟩
      exact hkeeps label (h.labels.mem_placed (mem_mentions_of_mem_references hmem))
    · rw [hnone] at hl
      cases hl
  · obtain ⟨hstart, hstop⟩ := hfilled.mem_runs hr
    rw [hplaced]
    exact ⟨List.mem_filterMap.mpr ⟨_, hstart, rfl⟩, List.mem_filterMap.mpr ⟨_, hstop, rfl⟩⟩

theorem Closed.split (h : draft.Closed) (offsets : Offsets) : (draft.split offsets).Closed where
  labels := h.labels.rehandled (mentions_splitHandlers
    (fun _ hm => h.labels.mem_placed (mem_mentions_of_mem_handlers hm)) h.runs)
  runs := h.runs

theorem Pass.closed (hp : Pass draft draft') (h : draft.Closed) : draft'.Closed := by
  cases hp with
  | unframe => exact h.unframe
  | widen offsets => exact h.widen offsets
  | replace frames offsets => exact h.replace frames offsets
  | split offsets => exact h.split offsets

theorem Passes.closed (hp : Passes draft draft') (h : draft.Closed) : draft'.Closed := by
  induction hp with
  | refl => exact h
  | tail _ hpass ih => exact hpass.closed ih

/-- What is mentioned in a draft is placed once, is in the tables of positions and offsets, and
nothing else is looked up there. -/
structure Resolved (draft : Draft) : Prop where
  once : ∀ label ∈ draft.method.mentions, draft.method.body.placed.count label = 1
  entries : ∀ label ∈ draft.method.mentions, ∃ index,
    draft.method.body.code[index]? = some (.label label) ∧
    (Positions.ofCode draft.method.body.code)[label]? = some index ∧
    ∀ offsets, (LabelOffsets.ofCode draft.method.body.code offsets)[label]? =
      some (offsets.getD index 0)
  positions : FindsPositions draft.method (.ofCode draft.method.body.code)
  offsets : ∀ offsets,
    FindsOffsets draft.method draft.runs (.ofCode draft.method.body.code offsets)

theorem Closed.resolved (h : draft.Closed) : draft.Resolved := by
  have hentries := fun label (hm : label ∈ draft.method.mentions) =>
    exists_entry_of_once (h.labels.count_eq_one hm)
  have hoffsets : ∀ offsets, ∀ label ∈ draft.method.mentions,
      label ∈ LabelOffsets.ofCode draft.method.body.code offsets := by
    intro offsets label hm
    obtain ⟨index, -, -, hoffset⟩ := hentries label hm
    exact Std.HashMap.mem_iff_isSome_getElem?.mpr (by rw [hoffset offsets]; rfl)
  refine ⟨fun label => h.labels.count_eq_one, hentries, findsPositions fun label hm => ?_,
    fun offsets => findsOffsets (hoffsets offsets) fun run hr => hoffsets offsets run.stop ?_⟩
  · obtain ⟨index, -, hposition, -⟩ := hentries label hm
    exact Std.HashMap.mem_iff_isSome_getElem?.mpr (by rw [hposition]; rfl)
  · exact Method.mem_mentions.mpr (.inl (h.runs run hr).2)

end Draft

open Draft

section Preparing

variable {name : String} {hasFrames : Bool} {body : Body} {b b' : Builder} {laidOut : LaidOut}
  {draft : Draft} {prepared : Prepared} {setting : Setting}

theorem Rounds.passes {n : Nat} {outcome : Except Error LaidOut × Builder}
    (h : Rounds name hasFrames n body b outcome) (ho : outcome = (.ok laidOut, b'))
    (hbody : draft.method.body = body) :
    Passes draft (draft.recoded ⟨laidOut.code, laidOut.labels⟩) := by
  induction h generalizing draft with
  | reached =>
    subst hbody
    cases ho
    exact .refl
  | again _ _ _ _ _ ih =>
    subst hbody
    exact .head (.widen draft _) (@ih (draft.recoded _) ho rfl)
  | _ => cases ho

theorem passes_of_widen (howns : draft.method.body.Owns)
    (hy : Yields (widen name hasFrames draft.method.body) b laidOut b') :
    Passes draft (draft.recoded ⟨laidOut.code, laidOut.labels⟩) := by
  obtain ⟨n, -, hrounds⟩ := rounds_widen name hasFrames howns b
  exact hrounds.passes hy rfl

theorem passes_of_withoutDead {flow : TypeFlow} {table : FrameTable}
    (hbody : draft.method.body = ⟨laidOut.code, laidOut.labels⟩)
    (hy : Yields (withoutDead laidOut flow draft.method.handlers table) b prepared b') :
    ∃ labels runs, Passes draft ⟨{ draft.method with
      body := ⟨prepared.code, labels⟩, handlers := prepared.handlers }, runs⟩ := by
  have hreplace : Pass draft (draft.replaced flow.frames laidOut.offsets) := .replace draft _ _
  unfold Draft.replaced at hreplace
  rw [hbody] at hreplace
  unfold withoutDead at hy
  generalize replaceDead laidOut.code laidOut.labels flow.frames laidOut.offsets = replaced
    at hy hreplace
  obtain ⟨code, labels, runs⟩ := replaced
  dsimp only at hy hreplace
  split at hy
  · obtain ⟨rfl, -⟩ := yields_pure.mp hy
    exact ⟨labels, runs, .single hreplace⟩
  · obtain ⟨dead, b₁, -, hy⟩ := yields_bind.mp hy
    obtain ⟨offsets, b₂, -, hy⟩ := yields_bind.mp hy
    obtain ⟨rfl, -⟩ := yields_pure.mp hy
    exact ⟨labels, runs, .tail (.single hreplace) (.split _ offsets)⟩

/-- The code whose jumps are widened: without its frames, if these are computed. -/
def entryBody (setting : Setting) (method : Method) : Body :=
  if setting.computesFrames then unframed method.body else method.body

theorem passes_entryBody (setting : Setting) (draft : Draft) :
    Passes draft (draft.recoded (entryBody setting draft.method)) := by
  unfold entryBody
  split
  · exact .single (.unframe draft)
  · exact .refl

theorem owns_entryBody (howns : method.body.Owns) (setting : Setting) :
    (entryBody setting method).Owns := by
  unfold entryBody
  split
  · exact fun label hm => howns label (placed_unframed method.body ▸ hm)
  · exact howns

theorem passes_of_prepare (howns : method.body.Owns)
    (hy : Yields (prepare setting method) b prepared b') :
    ∃ labels runs, Passes ⟨method, []⟩ ⟨{ method with
      body := ⟨prepared.code, labels⟩, handlers := prepared.handlers }, runs⟩ := by
  have hentry := passes_entryBody setting ⟨method, []⟩
  have howns' := owns_entryBody howns setting
  cases hc : setting.computesFrames with
  | true =>
    rw [entryBody, if_pos hc] at howns' hentry
    obtain ⟨laidOut, program, flow, hstages⟩ := stages_prepare hc hy
    obtain ⟨table, b₁, b₂, hwiden, -, hdead⟩ := hstages.steps
    have hwidened := @passes_of_widen _ _ _ _ _ ⟨{ method with body := _ }, []⟩ howns' hwiden
    obtain ⟨labels, runs, hpasses⟩ := @passes_of_withoutDead _ _ _
      ⟨{ method with body := ⟨laidOut.code, laidOut.labels⟩ }, []⟩ _ _ _ rfl hdead
    exact ⟨labels, runs, (hentry.trans hwidened).trans hpasses⟩
  | false =>
    obtain ⟨_, b₁, -, hy⟩ := yields_bind.mp hy
    rw [if_neg (by simp [hc])] at hy
    obtain ⟨laidOut, b₂, hwiden, hy⟩ := yields_bind.mp hy
    obtain ⟨_, b₃, -, hy⟩ := yields_bind.mp hy
    dsimp only at hy
    have hwidened := @passes_of_widen _ _ _ _ _ ⟨method, []⟩ howns hwiden
    split at hy
    all_goals
      obtain ⟨frames, b₄, -, hp⟩ := yields_bind.mp hy
      obtain ⟨rfl, -⟩ := yields_pure.mp hp
      exact ⟨laidOut.labels, [], hwidened⟩

/-- Whatever is computed while a method is written, and however many rounds of widening that takes:
after each pass every label that code, handlers and variables mention is placed exactly once, so
that no position and no offset of a label is missing where one is looked up. -/
theorem labels_stay_placed (hlabels : method.checkLabels (setting.displayName method) = .ok ())
    (howns : method.body.Owns) :
    (∀ draft, Passes ⟨method, []⟩ draft → draft.Resolved) ∧
    ∀ b,
      (∃ n, Rounds (setting.displayName method) hasFrames n (entryBody setting method) b
        ((widen (setting.displayName method) hasFrames (entryBody setting method)).exec b)) ∧
      (∀ laidOut b', Yields (widen (setting.displayName method) hasFrames
          (entryBody setting method)) b laidOut b' →
        Passes ⟨method, []⟩ ⟨{ method with body := ⟨laidOut.code, laidOut.labels⟩ }, []⟩) ∧
      ∀ prepared b', Yields (prepare setting method) b prepared b' →
        ∃ labels runs, Passes ⟨method, []⟩ ⟨{ method with
          body := ⟨prepared.code, labels⟩, handlers := prepared.handlers }, runs⟩ := by
  obtain ⟨hnodup, hreferences⟩ := Method.checkLabels_eq_ok.mp hlabels
  have hclosed : Draft.Closed ⟨method, []⟩ :=
    ⟨Method.labelsSound_of_owns howns hnodup hreferences, nofun⟩
  refine ⟨fun draft hp => (hp.closed hclosed).resolved, fun b => ⟨?_, fun laidOut b' hy => ?_,
    fun prepared b' => passes_of_prepare howns⟩⟩
  · obtain ⟨n, -, hrounds⟩ :=
      rounds_widen (setting.displayName method) hasFrames (owns_entryBody howns setting) b
    exact ⟨n, hrounds⟩
  · exact (passes_entryBody setting ⟨method, []⟩).trans
      (@passes_of_widen _ _ _ _ _ ⟨{ method with body := _ }, []⟩ (owns_entryBody howns setting) hy)

end Preparing

/-- A method with a handler and a variable around an instruction that nothing leads to. -/
def guarded : Method :=
  { Method.declared (.ofBits .ofMethod 8) "m" "()V" with
    body := ⟨covered, 3⟩, handlers := [covering]
    localVariables := some [⟨"x", "I", none, ⟨1⟩, ⟨0⟩, 0⟩] }

namespace Guarded

def setting : Setting :=
  ⟨"A", ⟨50, 0⟩, ⟨false, true⟩, .library⟩

/-- The method when the instruction has been replaced. -/
def replaced : Draft where
  method := { guarded with
    body := ⟨[.label ⟨1⟩, .jump .goto ⟨0⟩, .label ⟨3⟩, .plain .athrow, .label ⟨4⟩, .label ⟨0⟩,
      .plain .returnVoid, .label ⟨2⟩, .plain .athrow], 5⟩ }
  runs := [⟨⟨3⟩, ⟨4⟩, 3⟩]

def places : Offsets :=
  #[0, 0, 3, 3, 4, 4, 4, 5, 5, 6]

theorem replaced_eq :
    (⟨guarded, []⟩ : Draft).replaced coveredFrames #[0, 0, 3, 4, 4, 5, 5, 6] = replaced :=
  rfl

/-- The handler is split around the byte that was replaced. -/
theorem handlers_split : (replaced.split places).method.handlers =
    [{ covering with stop := ⟨3⟩ }, { covering with start := ⟨4⟩ }] := by
  change splitHandlers _ [⟨⟨3⟩, ⟨4⟩, 3⟩] [covering] = _
  simp [splitHandlers, splitHandler, Cut.step, covering, places, replaced, LabelOffsets.at,
    LabelOffsets.ofCode, Std.HashMap.getD_insert]

/-- The second part of the handler starts at a label that was put there, and found. -/
theorem split_resolved :
    guarded.checkLabels (setting.displayName guarded) = .ok () ∧ guarded.body.Owns ∧
    Passes ⟨guarded, []⟩ (replaced.split places) ∧
    ⟨4⟩ ∈ (replaced.split places).method.handlers.map TryCatch.start ∧
    (LabelOffsets.ofCode (replaced.split places).method.body.code places)[(⟨4⟩ : Label)]? =
      some 4 := by
  have hlabels : guarded.checkLabels (setting.displayName guarded) = .ok () :=
    Method.checkLabels_of_nodup (by decide) (by decide) _
  have howns : guarded.body.Owns := by
    unfold Body.Owns
    decide
  have hpasses : Passes ⟨guarded, []⟩ (replaced.split places) := by
    refine .tail (.single ?_) (.split replaced places)
    exact replaced_eq ▸ .replace _ _ _
  have hresolved := (@labels_stay_placed _ false setting hlabels howns).1 _ hpasses
  have hstart : ⟨4⟩ ∈ (replaced.split places).method.handlers.map TryCatch.start := by
    rw [handlers_split]
    decide
  have hat : (replaced.split places).method.body.code[4]? = some (.label ⟨4⟩) := rfl
  have hmentioned : ⟨4⟩ ∈ (replaced.split places).method.mentions :=
    Method.mem_mentions.mpr (.inl (List.mem_filterMap.mpr ⟨_, List.mem_of_getElem? hat, rfl⟩))
  obtain ⟨index, hi, -, hoffset⟩ := hresolved.entries ⟨4⟩ hmentioned
  obtain rfl := Positions.index_unique (Nat.le_of_eq (hresolved.once ⟨4⟩ hmentioned)) hi hat
  exact ⟨hlabels, howns, hpasses, hstart, hoffset places⟩

end Guarded

end Code
end ClassTree
