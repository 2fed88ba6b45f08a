import ClassTree.Proofs.Code.DeadCode

namespace ClassTree.Code

open Pool Build

def width (offsets : Offsets) (index : Nat) : Nat :=
  offsets.getD (index + 1) 0 - offsets.getD index 0

/-- Whether an element is an instruction that is never reached. -/
def isUnreached (frames : Array (Option Flow.SlotFrame)) (element : Instruction Label × Nat) :
    Bool :=
  !element.1.isMarker && (frames.getD element.2 none).isNone

def isUnreachedNext (frames : Array (Option Flow.SlotFrame)) :
    List (Instruction Label × Nat) → Bool
  | [] => false
  | element :: rest =>
    if element.1.isMarker then isUnreachedNext frames rest else isUnreached frames element

def nops (offset count : Nat) : List (Instruction Label × Nat) :=
  (List.range' offset count).map (.plain .nop, ·)

/-- What the elements of a run become, with offsets: as many bytes, of which only the last one does
something. What is no instruction stays. -/
inductive Run (frames : Array (Option Flow.SlotFrame)) (offsets : Offsets) :
    List (Instruction Label × Nat) → List (Instruction Label × Nat) → Nat → Prop
  | last {insn : Instruction Label} {index : Nat} (dead : isUnreached frames (insn, index) = true) :
      Run frames offsets [(insn, index)]
        (nops (offsets.getD index 0) (width offsets index - 1) ++
          [(.plain .athrow, offsets.getD (index + 1) 0 - 1)])
        (offsets.getD (index + 1) 0)
  | dead {elements filling : List (Instruction Label × Nat)} {stop : Nat}
      {insn : Instruction Label} {index : Nat} (dead : isUnreached frames (insn, index) = true)
      (rest : Run frames offsets elements filling stop) :
      Run frames offsets ((insn, index) :: elements)
        (nops (offsets.getD index 0) (width offsets index) ++ filling) stop
  | marker {elements filling : List (Instruction Label × Nat)} {stop : Nat}
      {insn : Instruction Label} {index : Nat} (marker : insn.isMarker = true)
      (rest : Run frames offsets elements filling stop) :
      Run frames offsets ((insn, index) :: elements)
        ((insn, offsets.getD index 0) :: filling) stop

/-- What the elements of code become, with offsets. Runs are as long as can be and start with an
instruction; new labels are numbered from `labels` on. -/
inductive Filled (frames : Array (Option Flow.SlotFrame)) (offsets : Offsets) :
    Nat → List (Instruction Label × Nat) → List (Instruction Label × Nat) → Nat → List DeadRun →
      Prop
  | nil {labels : Nat} : Filled frames offsets labels [] [] labels []
  | keep {elements placed : List (Instruction Label × Nat)} {labels labels' : Nat}
      {runs : List DeadRun} {insn : Instruction Label} {index : Nat}
      (live : isUnreached frames (insn, index) = false)
      (rest : Filled frames offsets labels elements placed labels' runs) :
      Filled frames offsets labels ((insn, index) :: elements)
        ((insn, offsets.getD index 0) :: placed) labels' runs
  | run {elements placed inner filling : List (Instruction Label × Nat)}
      {labels labels' stop : Nat} {runs : List DeadRun} {insn : Instruction Label} {index : Nat}
      (dead : isUnreached frames (insn, index) = true)
      (run : Run frames offsets ((insn, index) :: inner) filling stop)
      (maximal : isUnreachedNext frames elements = false)
      (rest : Filled frames offsets (labels + 2) elements placed labels' runs) :
      Filled frames offsets labels ((insn, index) :: inner ++ elements)
        ((.label ⟨labels⟩, offsets.getD index 0) :: filling ++
          (.label ⟨labels + 1⟩, stop) :: placed)
        labels' (⟨⟨labels⟩, ⟨labels + 1⟩, offsets.getD index 0⟩ :: runs)

variable {b b' : Builder} {code : List (Instruction Label)} {offsets : Offsets}
  {frames : Array (Option Flow.SlotFrame)} {labels labels' : Nat} {runs : List DeadRun}
  {elements inner rest placed filling : List (Instruction Label × Nat)} {stop : Nat}

theorem map_fst_nops (offset count : Nat) :
    (nops offset count).map Prod.fst = List.replicate count (.plain .nop) := by
  simp [nops, Function.comp_def]

def entryOf (frames : Array (Option Flow.SlotFrame)) (offsets : Offsets)
    (element : Instruction Label × Nat) (rest : List (Instruction Label × Nat)) : Reached where
  insn := element.1
  size := width offsets element.2
  offset := offsets.getD element.2 0
  isDead := isUnreached frames element
  isLast := isUnreached frames element && !isUnreachedNext frames rest

def reachedOf (frames : Array (Option Flow.SlotFrame)) (offsets : Offsets)
    (elements : List (Instruction Label × Nat)) : List Reached :=
  (elements.foldr (reachStep frames offsets) ([], false)).1

theorem foldr_reachStep_snd (elements : List (Instruction Label × Nat)) :
    (elements.foldr (reachStep frames offsets) ([], false)).2 =
      isUnreachedNext frames elements := by
  induction elements with
  | nil => rfl
  | cons element rest ih =>
    rw [List.foldr_cons, isUnreachedNext, ← ih]
    rfl

theorem reachedOf_cons (element : Instruction Label × Nat)
    (rest : List (Instruction Label × Nat)) : reachedOf frames offsets (element :: rest) =
      entryOf frames offsets element rest :: reachedOf frames offsets rest := by
  rw [entryOf, ← @foldr_reachStep_snd offsets]
  rfl

namespace Replacement

variable {state : Replacement} {entry : Reached}

theorem step_live (h : entry.isDead = false) (state : Replacement) :
    state.step entry = { state with code := entry.insn :: state.code } := by
  rw [step, h]
  rfl

/-- An instruction that is not reached starts a run, or there is one. -/
theorem step_enter (h : entry.isDead = true) (state : Replacement) :
    state.step entry = (state.enter entry.offset).step entry := by
  have hagain : (state.enter entry.offset).enter entry.offset = state.enter entry.offset := by
    unfold enter
    cases hc : state.current with
    | some run => simp only [hc]
    | none => rfl
  unfold step
  simp only [h, hagain, Bool.not_true, Bool.false_eq_true, if_false]

theorem step_dead {run : Label × Nat} (hcurrent : state.current = some run)
    (hdead : entry.isDead = true) (hlast : entry.isLast = false) : state.step entry =
      { state with code := List.replicate entry.size (.plain .nop) ++ state.code } := by
  simp [step, hdead, hlast, enter, hcurrent]

theorem step_last {start : Label} {offset : Nat} (hcurrent : state.current = some (start, offset))
    (hdead : entry.isDead = true) (hlast : entry.isLast = true) : state.step entry =
      ⟨.label ⟨state.labels⟩ :: .plain .athrow ::
          List.replicate (entry.size - 1) (.plain .nop) ++ state.code,
        state.labels + 1, ⟨start, ⟨state.labels⟩, offset⟩ :: state.runs, none⟩ := by
  simp [step, hdead, hlast, enter, leave, hcurrent]

end Replacement

/-- The outcome of replacing what is left, if there is no run that has not ended. -/
def Replacement.Fills (frames : Array (Option Flow.SlotFrame)) (offsets : Offsets)
    (elements : List (Instruction Label × Nat)) (state : Replacement) : Prop :=
  ∃ placed labels runs, Filled frames offsets state.labels elements placed labels runs ∧
    (reachedOf frames offsets elements).foldl Replacement.step state =
      ⟨(placed.map Prod.fst).reverse ++ state.code, labels, runs.reverse ++ state.runs, none⟩

/-- The outcome of replacing what is left, if there is a run that has not ended. -/
def Replacement.EndsRun (frames : Array (Option Flow.SlotFrame)) (offsets : Offsets)
    (elements : List (Instruction Label × Nat)) (start : Label) (offset : Nat)
    (state : Replacement) : Prop :=
  ∃ inner rest filling stop placed labels runs, elements = inner ++ rest ∧
    Run frames offsets inner filling stop ∧ isUnreachedNext frames rest = false ∧
    Filled frames offsets (state.labels + 1) rest placed labels runs ∧
    (reachedOf frames offsets elements).foldl Replacement.step state =
      ⟨(filling.map Prod.fst ++ .label ⟨state.labels⟩ :: placed.map Prod.fst).reverse ++ state.code,
        labels, runs.reverse ++ ⟨start, ⟨state.labels⟩, offset⟩ :: state.runs, none⟩

theorem Run.cons_of_append {element : Instruction Label × Nat}
    (h : Run frames offsets inner filling stop) (he : element :: elements = inner ++ rest) :
    ∃ more, inner = element :: more ∧ elements = more ++ rest := by
  rcases List.cons_eq_append_iff.mp he with ⟨rfl, -⟩ | ⟨more, rfl, rfl⟩
  · cases h
  · exact ⟨more, rfl, rfl⟩

/-- A run that has started goes on with an element. -/
theorem Replacement.EndsRun.cons {element : Instruction Label × Nat} {state : Replacement}
    {start : Label} {offset : Nat} (part : List (Instruction Label × Nat))
    (h : ∀ state : Replacement, state.current = some (start, offset) →
      state.EndsRun frames offsets elements start offset)
    (hcurrent : state.current = some (start, offset))
    (hstep : state.step (entryOf frames offsets element elements) =
      { state with code := (part.map Prod.fst).reverse ++ state.code })
    (hrun : ∀ {inner filling stop}, Run frames offsets inner filling stop →
      Run frames offsets (element :: inner) (part ++ filling) stop) :
    state.EndsRun frames offsets (element :: elements) start offset := by
  obtain ⟨inner, rest, filling, stop, placed, labels, runs, rfl, hinner, hmax, hrest, he⟩ :=
    h { state with code := (part.map Prod.fst).reverse ++ state.code } hcurrent
  refine ⟨_, rest, _, stop, placed, labels, runs, rfl, hrun hinner, hmax, hrest, ?_⟩
  rw [reachedOf_cons, List.foldl_cons, hstep, he]
  simp

/-- A run that has started goes on with an element, and ends with it if it has to. -/
theorem Replacement.endsRun_cons {insn : Instruction Label} {index : Nat}
    (hfills : ∀ state : Replacement, state.current = none → state.Fills frames offsets elements)
    (hends : ∀ (state : Replacement) (start : Label) (offset : Nat),
      state.current = some (start, offset) → isUnreachedNext frames elements = true →
        state.EndsRun frames offsets elements start offset) {state : Replacement} {start : Label}
    {offset : Nat} (hcurrent : state.current = some (start, offset))
    (hnext : isUnreachedNext frames ((insn, index) :: elements) = true) :
    state.EndsRun frames offsets ((insn, index) :: elements) start offset := by
  by_cases hmarker : insn.isMarker = true
  · rw [isUnreachedNext, if_pos hmarker] at hnext
    have hlive : (entryOf frames offsets (insn, index) elements).isDead = false := by
      change (!insn.isMarker && _) = false
      rw [hmarker]
      rfl
    exact .cons [(insn, offsets.getD index 0)]
      (fun other hc => hends other start offset hc hnext) hcurrent (step_live hlive state)
      (.marker hmarker)
  · rw [isUnreachedNext, if_neg hmarker] at hnext
    have hdead : (entryOf frames offsets (insn, index) elements).isDead = true := hnext
    have hlast : (entryOf frames offsets (insn, index) elements).isLast =
        !isUnreachedNext frames elements := by
      change (isUnreached frames (insn, index) && _) = _
      rw [hnext, Bool.true_and]
    cases hmore : isUnreachedNext frames elements with
    | true =>
      rw [hmore] at hlast
      refine .cons (nops (offsets.getD index 0) (width offsets index))
        (fun other hc => hends other start offset hc hmore) hcurrent ?_ (.dead hnext)
      rw [step_dead hcurrent hdead hlast, map_fst_nops, List.reverse_replicate]
      rfl
    | false =>
      rw [hmore] at hlast
      have hstep := step_last hcurrent hdead hlast
      obtain ⟨placed, labels, runs, hfilled, he⟩ :=
        hfills (state.step (entryOf frames offsets (insn, index) elements)) (by rw [hstep])
      rw [hstep] at he hfilled
      refine ⟨[(insn, index)], elements, _, _, placed, labels, runs, rfl, .last hnext, hmore,
        hfilled, ?_⟩
      rw [reachedOf_cons, List.foldl_cons, hstep, he]
      simp [entryOf, map_fst_nops]

/-- Runs are replaced, also one that has started before. -/
theorem Replacement.fills (frames : Array (Option Flow.SlotFrame)) (offsets : Offsets)
    (elements : List (Instruction Label × Nat)) :
    (∀ state : Replacement, state.current = none → state.Fills frames offsets elements) ∧
    ∀ (state : Replacement) (start : Label) (offset : Nat), state.current = some (start, offset) →
      isUnreachedNext frames elements = true →
        state.EndsRun frames offsets elements start offset := by
  -- both at once: what starts a run leads from the first to the second, what ends it back
  induction elements with
  | nil => exact ⟨fun state hc => ⟨[], _, [], .nil, by cases state; cases hc; rfl⟩, nofun⟩
  | cons element elements ih =>
    obtain ⟨insn, index⟩ := element
    obtain ⟨hfills, hends⟩ := ih
    refine ⟨fun state hcurrent => ?_, fun state start offset => endsRun_cons hfills hends⟩
    unfold Fills
    cases hdead : isUnreached frames (insn, index) with
    | false =>
      have hlive : (entryOf frames offsets (insn, index) elements).isDead = false := hdead
      obtain ⟨placed, labels, runs, hfilled, he⟩ :=
        hfills (state.step (entryOf frames offsets (insn, index) elements))
          (by rw [step_live hlive]; exact hcurrent)
      rw [step_live hlive] at he hfilled
      refine ⟨_, labels, runs, .keep hdead hfilled, ?_⟩
      rw [reachedOf_cons, List.foldl_cons, step_live hlive, he]
      simp [entryOf]
    | true =>
      -- the element starts a run, which then goes on with it
      have hstart : state.enter (offsets.getD index 0) =
          ⟨.label ⟨state.labels⟩ :: state.code, state.labels + 1, state.runs,
            some (⟨state.labels⟩, offsets.getD index 0)⟩ := by
        unfold enter
        rw [hcurrent]
      have hnext : isUnreachedNext frames ((insn, index) :: elements) = true := by
        rw [isUnreachedNext, if_neg, hdead]
        intro hmarker
        rw [isUnreached, hmarker] at hdead
        cases hdead
      have hcurrent' : (state.enter (offsets.getD index 0)).current =
          some (⟨state.labels⟩, offsets.getD index 0) := by rw [hstart]
      obtain ⟨inner, rest, filling, stop, placed, labels, runs, hcut, hrun, hmax, hrest, he⟩ :=
        endsRun_cons hfills hends hcurrent' hnext
      obtain ⟨more, rfl, rfl⟩ := hrun.cons_of_append hcut
      rw [hstart] at he hrest
      refine ⟨_, labels, _, .run hdead hrun hmax hrest, ?_⟩
      have hdead' : (entryOf frames offsets (insn, index) (more ++ rest)).isDead = true := hdead
      rw [reachedOf_cons, List.foldl_cons] at he ⊢
      rw [step_enter hdead']
      change List.foldl step (step (state.enter (offsets.getD index 0)) _) _ = _
      rw [hstart, he]
      simp

/-- Replaced code, with offsets. -/
theorem exists_filled (code : List (Instruction Label)) (labels : Nat)
    (frames : Array (Option Flow.SlotFrame)) (offsets : Offsets) :
    ∃ placed, Filled frames offsets labels code.zipIdx placed
        (replaceDead code labels frames offsets).2.1 (replaceDead code labels frames offsets).2.2 ∧
      (replaceDead code labels frames offsets).1 = placed.map Prod.fst := by
  obtain ⟨placed, labels', runs, hfilled, he⟩ :=
    (Replacement.fills frames offsets code.zipIdx).1 ⟨[], labels, [], none⟩ rfl
  rw [reachedOf, ← reach_eq] at he
  refine ⟨placed, ?_, ?_⟩
  · simpa [replaceDead, he] using hfilled
  · simp [replaceDead, he]

inductive Chained (b : Builder) : Nat → List (Instruction Label × Nat) → Nat → Prop
  | nil (offset : Nat) : Chained b offset [] offset
  | cons {placed : List (Instruction Label × Nat)} {insn : Instruction Label}
      {offset width stop : Nat} (size : Yields (Code.size offset insn) b width b)
      (rest : Chained b (offset + width) placed stop) :
      Chained b offset ((insn, offset) :: placed) stop

theorem Chained.append {start middle : Nat} (h : Chained b start filling middle)
    (h' : Chained b middle placed stop) : Chained b start (filling ++ placed) stop := by
  induction h with
  | nil => exact h'
  | cons size _ ih => exact .cons size (ih h')

theorem chained_nops (b : Builder) (offset count : Nat) :
    Chained b offset (nops offset count) (offset + count) := by
  induction count generalizing offset with
  | zero => exact .nil offset
  | succ count ih =>
    have hsize : Yields (size offset (.plain .nop)) b 1 b := rfl
    have hend : offset + (count + 1) = offset + 1 + count := by omega
    rw [hend]
    exact .cons hsize (ih (offset + 1))

theorem Chained.foldlM {offset : Nat} (h : Chained b offset placed stop) (start : Offsets) :
    Yields ((placed.map Prod.fst).foldlM (fun (offsets, offset) insn =>
      return (offsets.push offset, offset + (← size offset insn))) (start, offset)) b
      (start ++ (placed.map Prod.snd).toArray, stop) b := by
  induction h generalizing start with
  | nil => exact yields_pure.mpr ⟨by simp, rfl⟩
  | @cons placed insn offset width stop size _ ih =>
    rw [List.map_cons, List.foldlM_cons]
    refine yields_bind.mpr ⟨(start.push offset, offset + width), b, ?_, ?_⟩
    · exact yields_bind.mpr ⟨width, b, size, yields_pure.mpr ⟨rfl, rfl⟩⟩
    · have hpush : start ++ (((insn, offset) :: placed).map Prod.snd).toArray =
          start.push offset ++ (placed.map Prod.snd).toArray := Array.ext' (by simp)
      rw [hpush]
      exact ih (start.push offset)

/-- Offsets of elements that end at an offset. -/
def offsetsOf (placed : List (Instruction Label × Nat)) (stop : Nat) : Offsets :=
  (placed.map Prod.snd ++ [stop]).toArray

theorem getD_offsetsOf {element : Instruction Label × Nat} {index : Nat}
    (h : placed[index]? = some element) (stop : Nat) :
    (offsetsOf placed stop).getD index 0 = element.2 := by
  have hlt := (List.getElem?_eq_some_iff.mp h).1
  rw [offsetsOf, Array.getD_eq_getD_getElem?, List.getElem?_toArray,
    List.getElem?_append_left (by rwa [List.length_map]), List.getElem?_map, h]
  rfl

/-- Elements without gaps are where a layout puts them. -/
theorem Chained.layout (h : Chained b 0 placed stop) :
    Yields (layout (placed.map Prod.fst)) b (offsetsOf placed stop) b := by
  refine yields_bind.mpr ⟨_, b, h.foldlM #[], yields_pure.mpr ⟨?_, rfl⟩⟩
  simp [offsetsOf]

theorem eq_of_cons_eq_zipIdx {insn : Instruction Label} {index i : Nat}
    (h : (insn, index) :: elements = (code.drop i).zipIdx i) :
    index = i ∧ code[i]? = some insn ∧ elements = (code.drop (i + 1)).zipIdx (i + 1) := by
  cases hd : code.drop i with
  | nil =>
    rw [hd] at h
    cases h
  | cons first others =>
    obtain ⟨hat, hrest⟩ := drop_eq_cons hd
    rw [hd, List.zipIdx_cons] at h
    obtain ⟨hfirst, rfl⟩ := List.cons.inj h
    obtain ⟨rfl, rfl⟩ := Prod.mk.inj hfirst
    exact ⟨rfl, hat, by rw [hrest]⟩

theorem isMarker_of_isUnreached {element : Instruction Label × Nat}
    (h : isUnreached frames element = true) : element.1.isMarker = false := by
  have := (Bool.and_eq_true_iff.mp h).1
  simpa using this

variable {insn : Instruction Label} {index i : Nat}

/-- An instruction gives way to as many bytes. -/
theorem Laid.chained_nops (h : Laid b code offsets) (hi : code[index]? = some insn) :
    Chained b (offsets.getD index 0) (nops (offsets.getD index 0) (width offsets index))
      (offsets.getD (index + 1) 0) := by
  have hn := Code.chained_nops b (offsets.getD index 0) (width offsets index)
  rwa [width, Nat.add_sub_of_le (h.next hi).2] at hn

theorem Laid.chained_cons (h : Laid b code offsets) (hi : code[index]? = some insn)
    (hrest : Chained b (offsets.getD (index + 1) 0) placed stop) :
    Chained b (offsets.getD index 0) ((insn, offsets.getD index 0) :: placed) stop := by
  refine .cons (h.next hi).1 ?_
  rwa [Nat.add_sub_of_le (h.next hi).2]

/-- A run takes up as many bytes as it did. -/
theorem Run.chained (h : Run frames offsets inner filling stop) (hl : Laid b code offsets)
    (hc : inner ++ rest = (code.drop i).zipIdx i) :
    Chained b (offsets.getD i 0) filling stop ∧ stop = offsets.getD (i + inner.length) 0 := by
  induction h generalizing i with
  | @last insn index dead =>
    obtain ⟨rfl, hi, -⟩ := eq_of_cons_eq_zipIdx hc
    refine ⟨?_, rfl⟩
    have hpos := hl.size_pos hi (isMarker_of_isUnreached dead)
    have hbefore : offsets.getD index 0 + (width offsets index - 1) =
        offsets.getD (index + 1) 0 - 1 := by
      rw [width]
      omega
    have hsize : Yields (size (offsets.getD (index + 1) 0 - 1) (.plain .athrow)) b 1 b := rfl
    have hend : offsets.getD (index + 1) 0 - 1 + 1 = offsets.getD (index + 1) 0 := by omega
    refine (hbefore ▸ Code.chained_nops b _ _).append (.cons hsize ?_)
    rw [hend]
    exact .nil _
  | dead _ _ ih =>
    obtain ⟨rfl, hi, hrest⟩ := eq_of_cons_eq_zipIdx hc
    obtain ⟨hchained, hstop⟩ := ih hrest
    rw [List.length_cons, Nat.add_comm _ 1, ← Nat.add_assoc]
    exact ⟨(hl.chained_nops hi).append hchained, hstop⟩
  | marker _ _ ih =>
    obtain ⟨rfl, hi, hrest⟩ := eq_of_cons_eq_zipIdx hc
    obtain ⟨hchained, hstop⟩ := ih hrest
    rw [List.length_cons, Nat.add_comm _ 1, ← Nat.add_assoc]
    exact ⟨hl.chained_cons hi hchained, hstop⟩

theorem eq_of_append_eq_zipIdx (h : inner ++ rest = (code.drop i).zipIdx i) :
    rest = (code.drop (i + inner.length)).zipIdx (i + inner.length) := by
  obtain ⟨front, back, hcode, rfl, rfl⟩ := List.zipIdx_eq_append_iff.mp h.symm
  rw [List.length_zipIdx, ← List.drop_drop, hcode, List.drop_left]

/-- Whatever has not been replaced is where it was, and there are no gaps. -/
theorem Filled.chained (h : Filled frames offsets labels elements placed labels' runs)
    (hl : Laid b code offsets) (hc : elements = (code.drop i).zipIdx i) :
    Chained b (offsets.getD i 0) placed (offsets.getD (i + elements.length) 0) := by
  induction h generalizing i with
  | nil => exact .nil _
  | keep _ _ ih =>
    obtain ⟨rfl, hi, hrest⟩ := eq_of_cons_eq_zipIdx hc
    rw [List.length_cons, Nat.add_comm _ 1, ← Nat.add_assoc]
    exact hl.chained_cons hi (ih hrest)
  | @run elements placed inner filling labels labels' stop runs insn index dead run _ _ ih =>
    obtain ⟨hfilling, hstop⟩ := run.chained hl hc
    have hrest := ih (eq_of_append_eq_zipIdx hc)
    obtain ⟨rfl, -, -⟩ := eq_of_cons_eq_zipIdx hc
    rw [← hstop] at hrest
    rw [List.length_append, ← Nat.add_assoc]
    -- new labels take no bytes
    have hstart : Yields (size (offsets.getD index 0) (.label ⟨labels⟩)) b 0 b := rfl
    have hend : Yields (size stop (.label ⟨labels + 1⟩)) b 0 b := rfl
    exact .cons hstart (hfilling.append (.cons hend hrest))

def newLabels (base : Nat) (placed : List (Instruction Label × Nat)) : List Label :=
  ((placed.map Prod.fst).filterMap Instruction.placed?).filter (base ≤ ·.index)

theorem newLabels_append (base : Nat) (placed more : List (Instruction Label × Nat)) :
    newLabels base (placed ++ more) = newLabels base placed ++ newLabels base more := by
  simp [newLabels]

theorem newLabels_cons_old {base offset : Nat}
    (hold : ∀ label, insn = .label label → label.index < base)
    (placed : List (Instruction Label × Nat)) :
    newLabels base ((insn, offset) :: placed) = newLabels base placed := by
  cases hi : insn with
  | label label =>
    have hlt := hold label hi
    simp [newLabels, Instruction.placed?, Nat.not_le.mpr hlt]
  | _ => rfl

theorem newLabels_cons_new {base offset : Nat} {label : Label} (hnew : base ≤ label.index)
    (placed : List (Instruction Label × Nat)) :
    newLabels base ((.label label, offset) :: placed) = label :: newLabels base placed := by
  simp [newLabels, Instruction.placed?, hnew]

theorem newLabels_nops (base offset count : Nat) : newLabels base (nops offset count) = [] := by
  rw [newLabels, map_fst_nops, List.filterMap_replicate_of_none rfl]
  rfl

theorem Run.newLabels {base : Nat} (h : Run frames offsets inner filling stop)
    (hold : ∀ element ∈ inner, ∀ label, element.1 = .label label → label.index < base) :
    newLabels base filling = [] := by
  induction h with
  | last => rw [newLabels_append, newLabels_nops]; rfl
  | dead _ _ ih =>
    rw [newLabels_append, newLabels_nops, ih fun element hm => hold element (.tail _ hm)]
    rfl
  | marker _ _ ih =>
    rw [newLabels_cons_old (hold _ (.head _)), ih fun element hm => hold element (.tail _ hm)]

/-- New labels are numbered one after another. -/
theorem Filled.newLabels {base : Nat}
    (h : Filled frames offsets labels elements placed labels' runs) (hbase : base ≤ labels)
    (hold : ∀ element ∈ elements, ∀ label, element.1 = .label label → label.index < base) :
    newLabels base placed = (List.range' labels (2 * runs.length)).map Label.mk := by
  induction h with
  | nil => rfl
  | keep _ _ ih =>
    rw [newLabels_cons_old (hold _ (.head _))]
    exact ih hbase fun element hm => hold element (.tail _ hm)
  | @run elements placed inner filling labels labels' stop runs insn index _ run _ _ ih =>
    have hrun := run.newLabels fun element hm => hold element (List.mem_append_left _ hm)
    have hrest := ih (by omega) fun element hm => hold element (List.mem_append_right _ hm)
    rw [List.cons_append, newLabels_cons_new hbase, newLabels_append, hrun,
      newLabels_cons_new (by exact Nat.le_succ_of_le hbase), hrest, List.length_cons, Nat.mul_succ]
    rfl

theorem Filled.nodup_newLabels (h : Filled frames offsets labels code.zipIdx placed labels' runs)
    (hold : ∀ label, .label label ∈ code → label.index < labels) :
    (Code.newLabels labels placed).Nodup := by
  rw [h.newLabels (Nat.le_refl _)]
  · exact List.Pairwise.map Label.mk (fun _ _ hne heq => hne (Label.mk.inj heq))
      (List.nodup_range' 1)
  · rintro ⟨insn, index⟩ hm label rfl
    exact hold label (List.fst_mem_of_mem_zipIdx hm)

/-- A new label that is placed is at its offset. -/
theorem at_new {base : Nat} (h : (newLabels base placed).Nodup) {label : Label} {offset : Nat}
    (hm : (.label label, offset) ∈ placed) (hnew : base ≤ label.index) (stop : Nat) :
    (LabelOffsets.ofCode (placed.map Prod.fst) (offsetsOf placed stop)).at label = offset := by
  have hcount : ((placed.map Prod.fst).filterMap Instruction.placed?).count label = 1 := by
    have hmem : label ∈ (placed.map Prod.fst).filterMap Instruction.placed? :=
      List.mem_filterMap.mpr ⟨.label label, List.mem_map_of_mem hm, rfl⟩
    have hle := List.nodup_iff_count.mp h label
    rw [newLabels, List.count_filter (by simpa using hnew)] at hle
    exact Nat.le_antisymm hle (List.count_pos_iff.mpr hmem)
  obtain ⟨index, -, hunique, hat⟩ := @exists_at_of_once _ _ (offsetsOf placed stop) hcount
  obtain ⟨j, hj⟩ := List.getElem?_of_mem hm
  obtain rfl := hunique j (by rw [List.getElem?_map, hj]; rfl)
  rw [hat, getD_offsetsOf hj]

/-- Runs start and end where their labels are, and each is before the next one. -/
theorem Filled.ordered (h : Filled frames offsets labels elements placed labels' runs)
    (hl : Laid b code offsets) (hc : elements = (code.drop i).zipIdx i) {place : Label → Nat}
    (hat : ∀ label offset, (.label label, offset) ∈ placed → labels ≤ label.index →
      place label = offset) :
    (∀ run ∈ runs, offsets.getD i 0 ≤ run.startOffset ∧ place run.start = run.startOffset ∧
      run.startOffset < place run.stop) ∧
    runs.Pairwise fun run later => place run.stop ≤ later.startOffset := by
  induction h generalizing i with
  | nil => exact ⟨nofun, .nil⟩
  | keep _ _ ih =>
    obtain ⟨rfl, hi, hrest⟩ := eq_of_cons_eq_zipIdx hc
    obtain ⟨hruns, hordered⟩ := ih hrest fun label offset hm => hat label offset (.tail _ hm)
    refine ⟨fun run hm => ?_, hordered⟩
    obtain ⟨hfrom, hlabels⟩ := hruns run hm
    exact ⟨Nat.le_trans (hl.next hi).2 hfrom, hlabels⟩
  | @run elements placed inner filling labels labels' stop runs insn index dead run _ _ ih =>
    obtain ⟨-, hstop⟩ := run.chained hl hc
    obtain ⟨hruns, hordered⟩ := ih (eq_of_append_eq_zipIdx hc) fun label offset hm hle =>
      hat label offset (by simp [hm]) (by omega)
    have hstart : place ⟨labels⟩ = offsets.getD index 0 := hat _ _ (by simp) (Nat.le_refl _)
    have hend : place ⟨labels + 1⟩ = stop := hat _ _ (by simp) (Nat.le_succ _)
    have hlength := congrArg List.length hc
    rw [List.length_append, List.length_cons, List.length_zipIdx, List.length_drop] at hlength
    obtain ⟨rfl, hi, -⟩ := eq_of_cons_eq_zipIdx hc
    have hpos := hl.size_pos hi (isMarker_of_isUnreached dead)
    have hlt : offsets.getD index 0 < stop := by
      rw [hstop]
      exact Nat.lt_of_lt_of_le hpos (hl.le_of_le (by rw [List.length_cons]; omega)
        (by rw [List.length_cons]; omega))
    rw [← hstop] at hruns
    constructor
    · intro run hm
      rcases List.mem_cons.mp hm with rfl | hm
      · exact ⟨Nat.le_refl _, hstart, hend ▸ hlt⟩
      · obtain ⟨hfrom, hlabels⟩ := hruns run hm
        exact ⟨by omega, hlabels⟩
    · refine List.pairwise_cons.mpr ⟨fun later hm => ?_, hordered⟩
      rw [hend]
      exact (hruns later hm).1

/-- Replacing what is never reached keeps the layout: the code that results is laid out so that all
else is where it was, also if the pool has grown. Runs are apart and in order, each between its new
labels. -/
theorem replaceDead_keeps_layout {b₁ : Builder} (h : Yields (layout code) b offsets b₁)
    (labels : Nat) (frames : Array (Option Flow.SlotFrame)) :
    let replaced := replaceDead code labels frames offsets
    ∃ placed, Filled frames offsets labels code.zipIdx placed replaced.2.1 replaced.2.2 ∧
      replaced.1 = placed.map Prod.fst ∧
      (∀ b', b₁.Within b' → Yields (layout replaced.1) b' (offsetsOf placed offsets.length) b') ∧
      ((∀ label, .label label ∈ code → label.index < labels) →
        let place := (LabelOffsets.ofCode replaced.1 (offsetsOf placed offsets.length)).at
        (∀ run ∈ replaced.2.2, place run.start = run.startOffset ∧
          run.startOffset < place run.stop) ∧
        replaced.2.2.Pairwise fun run later => place run.stop ≤ later.startOffset) := by
  intro replaced
  obtain ⟨placed, hfilled, hcode⟩ := exists_filled code labels frames offsets
  have hlaid := laid_of_layout h
  have hwhole : code.zipIdx = (code.drop 0).zipIdx 0 := rfl
  refine ⟨placed, hfilled, hcode, fun b' hw => ?_, fun hold => ?_⟩
  · have hchained := hfilled.chained (hlaid.mono hw) hwhole
    rw [hlaid.first, List.length_zipIdx, Nat.zero_add, ← hlaid.length_eq] at hchained
    rw [hcode]
    exact hchained.layout
  · rw [hcode]
    obtain ⟨hruns, hordered⟩ := hfilled.ordered hlaid hwhole fun label offset hm hnew =>
      at_new (hfilled.nodup_newLabels hold) hm hnew offsets.length
    exact ⟨fun run hm => (hruns run hm).2, hordered⟩

def jumpedOver : List (Instruction Label) :=
  [.jump .goto ⟨0⟩, .int .sipush 300, .line 7 ⟨0⟩, .plain .pop, .label ⟨0⟩, .plain .returnVoid]

def jumpedOverFrames : Array (Option Flow.SlotFrame) :=
  #[some ⟨[], []⟩, none, none, none, some ⟨[], []⟩, some ⟨[], []⟩]

/-- Four bytes are one run, with a line number inside. -/
theorem jumpedOver_replaced :
    let replaced := replaceDead jumpedOver 1 jumpedOverFrames #[0, 3, 6, 6, 7, 7, 8]
    replaced.1 = [.jump .goto ⟨0⟩, .label ⟨1⟩, .plain .nop, .plain .nop, .plain .nop, .line 7 ⟨0⟩,
      .plain .athrow, .label ⟨2⟩, .label ⟨0⟩, .plain .returnVoid] ∧
    ∃ placed, Filled jumpedOverFrames #[0, 3, 6, 6, 7, 7, 8] 1 jumpedOver.zipIdx placed 3
        [⟨⟨1⟩, ⟨2⟩, 3⟩] ∧
      Yields (layout replaced.1) .empty (offsetsOf placed 8) .empty ∧
      (LabelOffsets.ofCode replaced.1 (offsetsOf placed 8)).at ⟨1⟩ = 3 := by
  have hlaid : Yields (layout jumpedOver) .empty #[0, 3, 6, 6, 7, 7, 8] .empty := rfl
  obtain ⟨placed, hfilled, -, hagain, hruns⟩ := replaceDead_keeps_layout hlaid 1 jumpedOverFrames
  refine ⟨rfl, placed, hfilled, hagain _ (.refl _), ?_⟩
  refine ((hruns ?_).1 ⟨⟨1⟩, ⟨2⟩, 3⟩ (List.mem_singleton_self _)).1
  intro label hm
  obtain rfl : label = ⟨0⟩ := by simpa [jumpedOver] using hm
  decide

end ClassTree.Code
