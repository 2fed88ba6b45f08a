import ClassTree.Proofs.Code.DeadCode
import ClassTree.Proofs.Code.Widening
import ClassTree.Proofs.Flow.Renaming

namespace ClassTree

open Instruction (mapLabels)

/-- A renaming that keeps labels apart, and takes the labels that come next to those that come next
after the renaming. -/
structure Renaming (g : Label → Label) (labels labels' : Nat) : Prop where
  injective : Function.Injective g
  fresh : ∀ k, g ⟨labels + k⟩ = ⟨labels' + k⟩

variable {g : Label → Label} {labels labels' : Nat}

theorem Renaming.next (h : Renaming g labels labels') : g ⟨labels⟩ = ⟨labels'⟩ :=
  h.fresh 0

/-- After the same number of labels has been handed out on both sides. -/
theorem Renaming.after (h : Renaming g labels labels') (count : Nat) :
    Renaming g (labels + count) (labels' + count) where
  injective := h.injective
  fresh := by
    intro k
    rw [Nat.add_assoc, Nat.add_assoc]
    exact h.fresh (count + k)

namespace Code

open Pool Build ClassTree.Flow

theorem LabelOffsets.at_map (hg : Function.Injective g) (code : List (Instruction Label))
    (offsets : Offsets) (label : Label) :
    (LabelOffsets.ofCode (code.map (mapLabels g)) offsets).at (g label) =
      (LabelOffsets.ofCode code offsets).at label := by
  rw [LabelOffsets.at, LabelOffsets.at, Std.HashMap.getD_eq_getD_getElem?,
    Std.HashMap.getD_eq_getD_getElem?, getElem?_labelOffsets, getElem?_labelOffsets,
    Positions.getElem?_ofCode_map hg]

theorem size_mapLabels (offset : Nat) (insn : Instruction Label) :
    size offset (mapLabels g insn) = size offset insn := by
  cases insn with
  | tableSwitch => simp only [mapLabels, size, List.length_map]
  | lookupSwitch => simp only [mapLabels, size, List.length_map]
  | _ => rfl

theorem layout_map (g : Label → Label) (code : List (Instruction Label)) :
    layout (code.map (mapLabels g)) = layout code := by
  simp only [layout, List.foldlM_map, size_mapLabels]

theorem isJumpBeyond_mapLabels {positions positions' : Positions}
    (h : positions.Follows g positions') (offsets : Offsets) (index : Nat)
    (insn : Instruction Label) : isJumpBeyond offsets positions' index (insn.mapLabels g) =
      isJumpBeyond offsets positions index insn := by
  cases insn with
  | jump op target => simp only [mapLabels, isJumpBeyond, h.getD]
  | _ => rfl

theorem isConditional_mapLabels (insn : Instruction Label) :
    isConditional (insn.mapLabels g) = isConditional insn := by
  cases insn <;> rfl

structure Body.Follows (g : Label → Label) (body body' : Body) : Prop where
  code : body'.code = body.code.map (mapLabels g)
  labels : Renaming g body.labels body'.labels

section

variable {body body' : Body}

theorem Body.Follows.cons (h : Body.Follows g body body') (insn : Instruction Label) :
    Body.Follows g { body with code := insn :: body.code }
      { body' with code := insn.mapLabels g :: body'.code } :=
  ⟨congrArg (insn.mapLabels g :: ·) h.code, h.labels⟩

/-- A jump is widened in the same way, with the next label on either side. -/
theorem Body.Follows.widened (h : Body.Follows g body body') (insn : Instruction Label) :
    Body.Follows g (widened insn body) (widened (insn.mapLabels g) body') := by
  cases insn with
  | jump op target =>
    by_cases hg : op = .goto
    · subst hg
      exact h.cons (.jump .gotoWide target)
    · by_cases hj : op = .jsr
      · subst hj
        exact h.cons (.jump .jsrWide target)
      · rw [mapLabels, widened_across hg hj, widened_across hg hj]
        refine ⟨?_, h.labels.after 1⟩
        rw [h.code, ← h.labels.next]
        rfl
  | _ => exact h.cons _

theorem Body.Follows.widenFar {far far' : Instruction Label × Nat → Bool}
    (h : Body.Follows g body body')
    (hf : ∀ entry, far' (entry.1.mapLabels g, entry.2) = far entry) :
    Body.Follows g (widenFar far body) (widenFar far' body') := by
  unfold Code.widenFar
  rw [h.code, List.zipIdx_map]
  generalize body.code.zipIdx = entries
  induction entries with
  | nil => exact ⟨rfl, h.labels⟩
  | cons entry entries ih =>
    rw [List.map_cons, List.foldr_cons, List.foldr_cons]
    unfold widenIf
    rw [show far' (Prod.map (mapLabels g) id entry) = far entry from hf entry]
    split
    · exact ih.widened entry.1
    · exact ih.cons entry.1

theorem Body.Follows.isFar (h : Body.Follows g body body') (offsets : Offsets)
    (entry : Instruction Label × Nat) :
    isFar offsets body'.code (entry.1.mapLabels g, entry.2) = isFar offsets body.code entry := by
  rw [h.code]
  exact isJumpBeyond_mapLabels (Positions.getElem?_ofCode_map h.labels.injective body.code) _ _ _

theorem Body.Follows.isFarCondition (h : Body.Follows g body body') (offsets : Offsets)
    (entry : Instruction Label × Nat) :
    isFarCondition offsets body'.code (entry.1.mapLabels g, entry.2) =
      isFarCondition offsets body.code entry := by
  rw [Code.isFarCondition, Code.isFarCondition, h.isFar, isConditional_mapLabels]

end

structure LaidOut.Follows (g : Label → Label) (laidOut laidOut' : LaidOut) : Prop where
  code : laidOut'.code = laidOut.code.map (mapLabels g)
  labels : Renaming g laidOut.labels laidOut'.labels
  offsets : laidOut'.offsets = laidOut.offsets

theorem any_mapLabels {p p' : Instruction Label × Nat → Bool}
    (h : ∀ entry, p' (entry.1.mapLabels g, entry.2) = p entry) (code : List (Instruction Label)) :
    (code.map (mapLabels g)).zipIdx.any p' = code.zipIdx.any p := by
  rw [List.zipIdx_map, List.any_map]
  exact congrArg (code.zipIdx.any ·) (funext h)

/-- Widening does not depend on labels. -/
theorem Body.Follows.widen {body body' : Body} (h : Body.Follows g body body') (method : String)
    (hasFrames : Bool) : Build.Alike (LaidOut.Follows g) (widen method hasFrames body)
      (widen method hasFrames body') := by
  induction body using rounds_induction generalizing body' with
  | step body ih =>
    rw [widen_eq, widen_eq]
    have hlayout : Build.Alike Eq (layout body.code) (layout body'.code) := by
      rw [h.code, layout_map]
      exact .refl _
    refine hlayout.bind_of_yields fun {_ offsets _} hl _ he => ?_
    subst he
    have hany := any_mapLabels (h.isFar offsets) body.code
    have hcondition := any_mapLabels (h.isFarCondition offsets) body.code
    rw [← h.code] at hany hcondition
    rw [hany, hcondition]
    split
    · exact alike_throw _ _
    · rename_i hshort
      split
      · rename_i hfar
        split
        · exact alike_throw _ _
        · exact ih hl hshort hfar (h.widenFar (h.isFar offsets))
      · exact alike_pure ⟨h.code, h.labels, rfl⟩

theorem alike_widen (h : Renaming g labels labels') (method : String) (hasFrames : Bool)
    (code : List (Instruction Label)) : Build.Alike (LaidOut.Follows g)
      (widen method hasFrames ⟨code, labels⟩)
      (widen method hasFrames ⟨code.map (mapLabels g), labels'⟩) :=
  Body.Follows.widen ⟨rfl, h⟩ method hasFrames

def Reached.mapLabels (g : Label → Label) (entry : Reached) : Reached :=
  { entry with insn := entry.insn.mapLabels g }

theorem reachStep_mapLabels (frames : Array (Option SlotFrame)) (offsets : Offsets)
    (element : Instruction Label × Nat) (known : List Reached × Bool) :
    reachStep frames offsets (Prod.map (mapLabels g) id element)
        (Prod.map (List.map (Reached.mapLabels g)) id known) =
      Prod.map (List.map (Reached.mapLabels g)) id (reachStep frames offsets element known) := by
  simp only [reachStep, Prod.map, id, Instruction.isMarker_mapLabels, List.map_cons,
    Reached.mapLabels]

/-- What is known of the elements is the same. -/
theorem reach_map (code : List (Instruction Label)) (frames : Array (Option SlotFrame))
    (offsets : Offsets) : reach (code.map (mapLabels g)) frames offsets =
      (reach code frames offsets).map (Reached.mapLabels g) := by
  have hfold : ∀ elements : List (Instruction Label × Nat),
      (elements.map (Prod.map (mapLabels g) id)).foldr (reachStep frames offsets) ([], false) =
        Prod.map (List.map (Reached.mapLabels g)) id
          (elements.foldr (reachStep frames offsets) ([], false)) := by
    intro elements
    induction elements with
    | nil => rfl
    | cons element elements ih =>
      rw [List.map_cons, List.foldr_cons, ih, reachStep_mapLabels]
      rfl
  rw [reach_eq, reach_eq, List.zipIdx_map, hfold]
  rfl

def DeadRun.mapLabels (g : Label → Label) (run : DeadRun) : DeadRun :=
  ⟨g run.start, g run.stop, run.startOffset⟩

namespace Replacement

structure Follows (g : Label → Label) (state state' : Replacement) : Prop where
  code : state'.code = state.code.map (Instruction.mapLabels g)
  labels : Renaming g state.labels state'.labels
  runs : state'.runs = state.runs.map (DeadRun.mapLabels g)
  current : state'.current = state.current.map (Prod.map g id)

variable {state state' : Replacement}

theorem Follows.enter (h : Follows g state state') (offset : Nat) :
    Follows g (state.enter offset) (state'.enter offset) := by
  have hcurrent := h.current
  cases hc : state.current with
  | some run =>
    rw [hc] at hcurrent
    simp only [Replacement.enter, hc, hcurrent]
    exact h
  | none =>
    rw [hc] at hcurrent
    simp only [Replacement.enter, hc, hcurrent]
    refine ⟨?_, h.labels.after 1, h.runs, ?_⟩
    · rw [List.map_cons, ← h.code, ← h.labels.next]
      rfl
    · rw [← h.labels.next]
      rfl

theorem Follows.leave (h : Follows g state state') : Follows g state.leave state'.leave := by
  have hcurrent := h.current
  cases hc : state.current with
  | none =>
    rw [hc] at hcurrent
    simp only [Replacement.leave, hc, hcurrent]
    exact h
  | some run =>
    rw [hc] at hcurrent
    simp only [Replacement.leave, hc, hcurrent]
    refine ⟨?_, h.labels.after 1, ?_, rfl⟩
    · rw [List.map_cons, ← h.code, ← h.labels.next]
      rfl
    · rw [List.map_cons, ← h.runs, ← h.labels.next]
      rfl

theorem Follows.step (h : Follows g state state') (entry : Reached) :
    Follows g (state.step entry) (state'.step (entry.mapLabels g)) := by
  have hin := h.enter entry.offset
  have hnops : ∀ count, (List.replicate count (Instruction.plain Opcode.nop)).map
      (Instruction.mapLabels g) = List.replicate count (.plain .nop) := fun _ => List.map_replicate
  unfold Replacement.step
  by_cases hlive : (!entry.isDead) = true
  · rw [if_pos hlive, if_pos (show (!(entry.mapLabels g).isDead) = true from hlive)]
    exact ⟨by rw [List.map_cons, ← h.code]; rfl, h.labels, h.runs, h.current⟩
  rw [if_neg hlive, if_neg (show ¬ (!(entry.mapLabels g).isDead) = true from hlive)]
  by_cases hlast : entry.isLast = true
  · rw [if_pos hlast, if_pos (show (entry.mapLabels g).isLast = true from hlast)]
    refine Follows.leave ⟨?_, hin.labels, hin.runs, hin.current⟩
    rw [List.map_append, List.map_cons, hnops, ← hin.code]
    rfl
  · rw [if_neg hlast, if_neg (show ¬ (entry.mapLabels g).isLast = true from hlast)]
    refine ⟨?_, hin.labels, hin.runs, hin.current⟩
    rw [List.map_append, hnops, ← hin.code]
    rfl

theorem Follows.foldl (h : Follows g state state') (entries : List Reached) :
    Follows g (entries.foldl Replacement.step state)
      ((entries.map (Reached.mapLabels g)).foldl Replacement.step state') := by
  induction entries generalizing state state' with
  | nil => exact h
  | cons entry entries ih => exact ih (h.step entry)

end Replacement

/-- The same is replaced. -/
theorem replaceDead_map (h : Renaming g labels labels') (code : List (Instruction Label))
    (frames : Array (Option SlotFrame)) (offsets : Offsets) :
    (replaceDead (code.map (mapLabels g)) labels' frames offsets).1 =
        (replaceDead code labels frames offsets).1.map (mapLabels g) ∧
      (replaceDead (code.map (mapLabels g)) labels' frames offsets).2.2 =
        (replaceDead code labels frames offsets).2.2.map (DeadRun.mapLabels g) := by
  have hstart : Replacement.Follows g ⟨[], labels, [], none⟩ ⟨[], labels', [], none⟩ :=
    ⟨rfl, h, rfl, rfl⟩
  have hfinal := hstart.foldl (reach code frames offsets)
  rw [← reach_map] at hfinal
  constructor
  · unfold replaceDead
    rw [List.map_reverse, ← hfinal.code]
  · unfold replaceDead
    rw [List.map_reverse, ← hfinal.runs]

def Cut.mapLabels (g : Label → Label) (cut : Cut) : Cut :=
  ⟨cut.parts.map (TryCatch.mapLabels g), g cut.start, cut.startOffset⟩

variable {found found' : LabelOffsets}

theorem Cut.step_mapLabels (h : ∀ label, found'.at (g label) = found.at label)
    (handler : TryCatch) (stop : Nat) (cut : Cut) (run : DeadRun) :
    Cut.step found' (handler.mapLabels g) stop (cut.mapLabels g) (run.mapLabels g) =
      (Cut.step found handler stop cut run).mapLabels g := by
  simp only [Cut.step, Cut.mapLabels, DeadRun.mapLabels, h]
  split
  · rfl
  · simp only [apply_ite (List.map (TryCatch.mapLabels g)), List.map_cons]
    rfl

theorem splitHandler_mapLabels (h : ∀ label, found'.at (g label) = found.at label)
    (runs : List DeadRun) (handler : TryCatch) :
    splitHandler found' (runs.map (DeadRun.mapLabels g)) (handler.mapLabels g) =
      (splitHandler found runs handler).map (TryCatch.mapLabels g) := by
  have hcut : ∀ cut : Cut, (runs.map (DeadRun.mapLabels g)).foldl
      (Cut.step found' (handler.mapLabels g) (found.at handler.stop)) (cut.mapLabels g) =
        (runs.foldl (Cut.step found handler (found.at handler.stop)) cut).mapLabels g := by
    induction runs with
    | nil => exact fun cut => rfl
    | cons run runs ih =>
      intro cut
      rw [List.map_cons, List.foldl_cons, Cut.step_mapLabels h, ih]
      rfl
  have hstart := hcut ⟨[], handler.start, found.at handler.start⟩
  unfold splitHandler
  simp only [TryCatch.mapLabels, h] at hstart ⊢
  rw [show (⟨[], g handler.start, found.at handler.start⟩ : Cut) =
    Cut.mapLabels g ⟨[], handler.start, found.at handler.start⟩ from rfl, hstart]
  simp only [Cut.mapLabels, List.map_append, List.map_reverse,
    apply_ite (List.map (TryCatch.mapLabels g))]
  rfl

/-- Handlers are cut at the same places. -/
theorem splitHandlers_map (h : ∀ label, found'.at (g label) = found.at label)
    (runs : List DeadRun) (handlers : List TryCatch) :
    splitHandlers found' (runs.map (DeadRun.mapLabels g)) (handlers.map (TryCatch.mapLabels g)) =
      (splitHandlers found runs handlers).map (TryCatch.mapLabels g) := by
  simp only [splitHandlers, List.flatMap_map, List.map_flatMap, splitHandler_mapLabels h]

end Code
end ClassTree
