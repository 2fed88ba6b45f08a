import ClassTree.Proofs.Code.DeadRuns

namespace ClassTree.Code

open Pool Build

/-- The byte at an offset is in the range of a handler. -/
def Guards (place : Label → Nat) (handler : TryCatch) (offset : Nat) : Prop :=
  place handler.start ≤ offset ∧ offset < place handler.stop

instance (place : Label → Nat) (handler : TryCatch) (offset : Nat) :
    Decidable (Guards place handler offset) :=
  inferInstanceAs (Decidable (_ ∧ _))

/-- Where what is thrown at an offset is handled, and what is caught there, in the order in which
handlers are tried. -/
def guarding (place : Label → Nat) (handlers : List TryCatch) (offset : Nat) :
    List (Label × Option String) :=
  (handlers.filter fun handler => Guards place handler offset).map fun handler =>
    (handler.handler, handler.catchType)

/-- The byte at an offset is in one of the runs. -/
def InRun (place : Label → Nat) (runs : List DeadRun) (offset : Nat) : Prop :=
  ∃ run ∈ runs, run.startOffset ≤ offset ∧ offset < place run.stop

/-- Runs start where their labels are and are not empty, and each one ends before the next one. -/
structure Separate (place : Label → Nat) (runs : List DeadRun) : Prop where
  placed : ∀ run ∈ runs, place run.start = run.startOffset ∧ run.startOffset < place run.stop
  ordered : runs.Pairwise fun run later => place run.stop ≤ later.startOffset

/-- What is left of a handler outside of runs: no byte is lost, and none is guarded twice. -/
structure Remains (place : Label → Nat) (runs : List DeadRun) (handler : TryCatch)
    (parts : List TryCatch) : Prop where
  covers : ∀ offset, (∃ part ∈ parts, Guards place part offset) ↔
    Guards place handler offset ∧ ¬ InRun place runs offset
  nonempty : ∀ part ∈ parts, place part.start < place part.stop
  carries : ∀ part ∈ parts, part.handler = handler.handler ∧ part.catchType = handler.catchType
  ordered : parts.Pairwise fun part later => place part.stop ≤ place later.start

section Cutting

variable {place : Label → Nat} {run : DeadRun} {runs : List DeadRun} {handler : TryCatch}
  {handlers parts : List TryCatch} {offset : Nat}

theorem inRun_cons : InRun place (run :: runs) offset ↔
    (run.startOffset ≤ offset ∧ offset < place run.stop) ∨ InRun place runs offset := by
  simp [InRun]

theorem Separate.tail (h : Separate place (run :: runs)) : Separate place runs :=
  ⟨fun other hm => h.placed other (.tail _ hm), (List.pairwise_cons.mp h.ordered).2⟩

theorem Remains.le_start (h : Remains place runs handler parts) {part : TryCatch}
    (hm : part ∈ parts) : place handler.start ≤ place part.start :=
  ((h.covers _).mp ⟨part, hm, Nat.le_refl _, h.nonempty part hm⟩).1.1

/-- Without runs, the whole range is left. -/
theorem remains_nil (place : Label → Nat) (handler : TryCatch) : Remains place [] handler
    (if place handler.start < place handler.stop then [handler] else []) := by
  split
  · rename_i hlt
    exact ⟨fun offset => by simp [InRun], by simpa using hlt, by simp, List.pairwise_singleton _ _⟩
  · refine ⟨fun offset => ?_, by simp, by simp, .nil⟩
    have hnone : ¬ Guards place handler offset := by
      unfold Guards
      omega
    simp [hnone]

/-- A run outside of the range takes nothing away. -/
theorem Remains.skip (h : Remains place runs handler parts)
    (hout : place run.stop ≤ place handler.start ∨ place handler.stop ≤ run.startOffset) :
    Remains place (run :: runs) handler parts := by
  refine ⟨fun offset => ?_, h.nonempty, h.carries, h.ordered⟩
  rw [h.covers, inRun_cons]
  constructor
  · intro ⟨hguards, hnot⟩
    refine ⟨hguards, ?_⟩
    unfold Guards at hguards
    intro hin
    rcases hin with hin | hin
    · omega
    · exact hnot hin
  · exact fun ⟨hguards, hnot⟩ => ⟨hguards, fun hin => hnot (.inr hin)⟩

/-- A run inside of the range leaves what is before it, if anything, and what is left after it. -/
theorem Remains.cut (h : Remains place runs { handler with start := run.stop } parts)
    (hs : Separate place (run :: runs)) (hstart : place handler.start < place run.stop)
    (hstop : run.startOffset < place handler.stop) :
    Remains place (run :: runs) handler
      ((if place handler.start < run.startOffset then [{ handler with stop := run.start }] else [])
        ++ parts) := by
  obtain ⟨hplace, hlt⟩ := hs.placed run List.mem_cons_self
  have hlater : ∀ offset, offset < run.startOffset → ¬ InRun place runs offset := by
    intro offset hbefore hin
    obtain ⟨later, hm, hfrom, -⟩ := hin
    have := (List.pairwise_cons.mp hs.ordered).1 later hm
    omega
  have hfirst : ∀ part ∈ parts, place run.stop ≤ place part.start := fun part => h.le_start
  have hcovers : ∀ offset, (∃ part ∈ parts, Guards place part offset) ↔
      (place run.stop ≤ offset ∧ offset < place handler.stop) ∧ ¬ InRun place runs offset :=
    h.covers
  split
  · rename_i hbefore
    refine ⟨fun offset => ?_, ?_, ?_, ?_⟩
    · have hguards : Guards place { handler with stop := run.start } offset ↔
          place handler.start ≤ offset ∧ offset < run.startOffset := by
        rw [Guards, hplace]
      rw [List.singleton_append, List.exists_mem_cons_iff, hguards, hcovers, inRun_cons, Guards]
      by_cases hrest : InRun place runs offset
      · have hafter : ¬ offset < run.startOffset := fun hlt => hlater offset hlt hrest
        simp [hrest, hafter]
      · simp only [hrest, not_false_eq_true, and_true, or_false]
        omega
    · intro part hm
      rcases List.mem_cons.mp hm with rfl | hm
      · exact hplace ▸ hbefore
      · exact h.nonempty part hm
    · intro part hm
      rcases List.mem_cons.mp hm with rfl | hm
      · exact ⟨rfl, rfl⟩
      · exact h.carries part hm
    · refine List.pairwise_cons.mpr ⟨fun part hm => ?_, h.ordered⟩
      have := hfirst part hm
      exact hplace ▸ by omega
  · rename_i hinside
    refine ⟨fun offset => ?_, h.nonempty, h.carries, h.ordered⟩
    rw [List.nil_append, hcovers, inRun_cons, Guards]
    by_cases hrest : InRun place runs offset
    · simp [hrest]
    · simp only [hrest, not_false_eq_true, and_true, or_false]
      omega

def Cut.finished (offsets : LabelOffsets) (handler : TryCatch) (cut : Cut) : List TryCatch :=
  cut.parts.reverse ++
    if cut.startOffset < offsets.at handler.stop then [{ handler with start := cut.start }] else []

/-- Cutting runs out one after another leaves what is outside of all of them. -/
theorem Cut.remains_foldl {offsets : LabelOffsets} (hs : Separate offsets.at runs) {cut : Cut}
    (hat : offsets.at cut.start = cut.startOffset) :
    ∃ parts, (runs.foldl (Cut.step offsets handler (offsets.at handler.stop)) cut).finished offsets
        handler = cut.parts.reverse ++ parts ∧
      Remains offsets.at runs { handler with start := cut.start } parts := by
  induction runs generalizing cut with
  | nil => exact ⟨_, rfl, hat ▸ remains_nil offsets.at { handler with start := cut.start }⟩
  | cons run runs ih =>
    rw [List.foldl_cons]
    by_cases hout : offsets.at run.stop ≤ cut.startOffset ∨
      offsets.at handler.stop ≤ run.startOffset
    · rw [step, if_pos hout]
      obtain ⟨parts, he, hr⟩ := ih hs.tail hat
      exact ⟨parts, he, hr.skip (hat ▸ hout)⟩
    · rw [step, if_neg hout]
      obtain ⟨parts, he, hr⟩ := @ih hs.tail ⟨if cut.startOffset < run.startOffset then
        { handler with start := cut.start, stop := run.start } :: cut.parts else cut.parts,
        run.stop, offsets.at run.stop⟩ rfl
      have hcut := @Remains.cut _ _ _ { handler with start := cut.start } _ hr hs
        (by change offsets.at cut.start < _; omega) (by change _ < offsets.at handler.stop; omega)
      refine ⟨_, he.trans ?_, hcut⟩
      change _ = cut.parts.reverse ++ ((if offsets.at cut.start < _ then _ else _) ++ parts)
      rw [hat]
      split <;> simp

theorem remains_splitHandler {offsets : LabelOffsets} (hs : Separate offsets.at runs)
    (handler : TryCatch) :
    Remains offsets.at runs handler (splitHandler offsets runs handler) := by
  obtain ⟨parts, he, hr⟩ := @Cut.remains_foldl _ handler _ hs
    ⟨[], handler.start, offsets.at handler.start⟩ rfl
  have heq : splitHandler offsets runs handler = parts := he
  rwa [heq]

theorem guarding_append (place : Label → Nat) (handlers parts : List TryCatch) (offset : Nat) :
    guarding place (handlers ++ parts) offset =
      guarding place handlers offset ++ guarding place parts offset := by
  simp [guarding]

theorem guarding_eq_nil : guarding place handlers offset = [] ↔
    ∀ handler ∈ handlers, ¬ Guards place handler offset := by
  simp [guarding]

/-- Outside of runs, there is one part for a handler that guards a byte. -/
theorem Remains.guarding_eq (h : Remains place runs handler parts)
    (hout : ¬ InRun place runs offset) :
    guarding place parts offset = guarding place [handler] offset := by
  by_cases hguards : Guards place handler offset
  · obtain ⟨part, hm, hpart⟩ := (h.covers offset).mpr ⟨hguards, hout⟩
    obtain ⟨hhandler, htype⟩ := h.carries part hm
    obtain ⟨before, after, rfl⟩ := List.append_of_mem hm
    obtain ⟨-, hordered, hbefore⟩ := List.pairwise_append.mp h.ordered
    have hfirst : guarding place before offset = [] := by
      refine guarding_eq_nil.mpr fun other ho hg => ?_
      have := hbefore other ho part List.mem_cons_self
      exact Nat.not_lt_of_le (Nat.le_trans this hpart.1) hg.2
    have hlast : guarding place after offset = [] := by
      refine guarding_eq_nil.mpr fun other ho hg => ?_
      have := (List.pairwise_cons.mp hordered).1 other ho
      exact Nat.not_lt_of_le (Nat.le_trans this hg.1) hpart.2
    rw [guarding_append, hfirst, List.nil_append, ← List.singleton_append, guarding_append, hlast,
      List.append_nil]
    simp [guarding, hguards, hpart, hhandler, htype]
  · have hparts : guarding place parts offset = [] :=
      guarding_eq_nil.mpr fun part hm hg => hguards ((h.covers offset).mp ⟨part, hm, hg⟩).1
    rw [hparts]
    simp [guarding, hguards]

theorem forall₂_splitHandlers {offsets : LabelOffsets} (hs : Separate offsets.at runs)
    (handlers : List TryCatch) : ∃ parts, splitHandlers offsets runs handlers = parts.flatten ∧
      List.Forall₂ (Remains offsets.at runs) handlers parts := by
  refine ⟨handlers.map (splitHandler offsets runs), List.flatMap_def, ?_⟩
  exact List.forall₂_map_right_iff.mpr (List.forall₂_same.mpr fun handler _ =>
    remains_splitHandler hs handler)

/-- Outside of runs, the same handlers are tried in the same order. -/
theorem guarding_flatten {pieces : List (List TryCatch)}
    (h : List.Forall₂ (Remains place runs) handlers pieces) (hout : ¬ InRun place runs offset) :
    guarding place pieces.flatten offset = guarding place handlers offset := by
  induction h with
  | nil => rfl
  | cons hr _ ih =>
    rw [List.flatten_cons, guarding_append, hr.guarding_eq hout, ih, ← guarding_append,
      List.singleton_append]

/-- Inside of runs, nothing is guarded. -/
theorem not_guards_flatten {pieces : List (List TryCatch)}
    (h : List.Forall₂ (Remains place runs) handlers pieces) (hin : InRun place runs offset) :
    ∀ part ∈ pieces.flatten, ¬ Guards place part offset := by
  intro part hm hg
  obtain ⟨parts, hparts, hm⟩ := List.mem_flatten.mp hm
  obtain ⟨handler, -, hr⟩ := exists_of_mem_left h.flip hparts
  exact ((hr.covers offset).mp ⟨part, hm, hg⟩).2 hin

end Cutting

section Runs

variable {b : Builder} {code : List (Instruction Label)} {offsets : Offsets}
  {frames : Array (Option Flow.SlotFrame)} {labels labels' : Nat} {runs : List DeadRun}
  {elements inner rest placed filling : List (Instruction Label × Nat)} {stop i : Nat}

theorem Run.isUnreached (h : Run frames offsets inner filling stop) :
    ∀ element ∈ inner, element.1.isMarker = false → isUnreached frames element = true := by
  induction h with
  | last dead =>
    intro element hm _
    exact List.mem_singleton.mp hm ▸ dead
  | dead dead _ ih =>
    intro element hm hreal
    rcases List.mem_cons.mp hm with rfl | hm
    · exact dead
    · exact ih element hm hreal
  | marker marker _ ih =>
    intro element hm hreal
    rcases List.mem_cons.mp hm with rfl | hm
    · exact absurd (marker.symm.trans hreal) (by decide)
    · exact ih element hm hreal

theorem bounds_of_mem (h : inner ++ rest = (code.drop i).zipIdx i)
    {element : Instruction Label × Nat} (hm : element ∈ inner) :
    i ≤ element.2 ∧ element.2 < i + inner.length := by
  obtain ⟨front, back, -, rfl, -⟩ := List.zipIdx_eq_append_iff.mp h.symm
  rw [List.length_zipIdx]
  obtain ⟨hle, hlt, -⟩ := List.mem_zipIdx hm
  exact ⟨hle, hlt⟩

/-- The bytes of an instruction are in a run if it is never reached, and else in none. -/
theorem Filled.inRun_iff (h : Filled frames offsets labels elements placed labels' runs)
    (hl : Laid b code offsets) (hc : elements = (code.drop i).zipIdx i) {place : Label → Nat}
    (hat : ∀ label offset, (.label label, offset) ∈ placed → labels ≤ label.index →
      place label = offset) {insn : Instruction Label} {index offset : Nat}
    (hm : (insn, index) ∈ elements) (hreal : insn.isMarker = false)
    (hfrom : offsets.getD index 0 ≤ offset) (hto : offset < offsets.getD (index + 1) 0) :
    InRun place runs offset ↔ isUnreached frames (insn, index) = true := by
  have hlength := congrArg List.length hc
  rw [List.length_zipIdx, List.length_drop] at hlength
  induction h generalizing i with
  | nil => cases hm
  | @keep elements placed labels labels' runs first k live rest ih =>
    obtain ⟨rfl, -, hrest⟩ := eq_of_cons_eq_zipIdx hc
    rw [List.length_cons] at hlength
    have hat' := fun label offset hm => hat label offset (.tail _ hm)
    rcases List.mem_cons.mp hm with he | hm
    · obtain ⟨rfl, rfl⟩ := Prod.mk.inj he
      rw [live]
      refine iff_of_false (fun hin => ?_) (by decide)
      obtain ⟨run, hrun, hstart, -⟩ := hin
      have := ((rest.ordered hl hrest hat').1 run hrun).1
      omega
    · exact ih hrest hat' hm (by omega)
  | @run elements placed inner filling labels labels' stop runs first k dead run _ rest ih =>
    obtain ⟨-, hstop⟩ := run.chained hl hc
    have hrest := eq_of_append_eq_zipIdx hc
    have hat' : ∀ label offset, (.label label, offset) ∈ placed → labels + 2 ≤ label.index →
        place label = offset :=
          fun label offset hm hle => hat label offset (by simp [hm]) (by omega)
    have hend : place ⟨labels + 1⟩ = stop := hat _ _ (by simp) (Nat.le_succ _)
    rw [List.length_append] at hlength
    rw [inRun_cons, hend]
    rcases List.mem_append.mp hm with hm | hm
    · obtain ⟨hle, hlt⟩ := bounds_of_mem hc hm
      obtain ⟨rfl, -, -⟩ := eq_of_cons_eq_zipIdx hc
      have hbefore := hl.le_of_le hle (by simp only at hlt; omega)
      have hafter := hl.le_of_le (Nat.succ_le_of_lt hlt) (by omega)
      refine iff_of_true (.inl ⟨Nat.le_trans hbefore hfrom, ?_⟩) (run.isUnreached _ hm hreal)
      rw [hstop]
      exact Nat.lt_of_lt_of_le hto hafter
    · have hmem := hm
      rw [hrest] at hmem
      obtain ⟨hle, hlt, -⟩ := List.mem_zipIdx hmem
      rw [List.length_drop] at hlt
      have hbefore := hl.le_of_le hle (by omega)
      rw [← hstop] at hbefore
      exact (or_iff_right fun hin => by omega).trans (ih hrest hat' hm (by omega))

def placesOf (label : Label) (placed : List (Instruction Label × Nat)) : List Nat :=
  (placed.filter fun element => element.1.placed? = some label).map Prod.snd

theorem placesOf_append (label : Label) (placed filling : List (Instruction Label × Nat)) :
    placesOf label (placed ++ filling) = placesOf label placed ++ placesOf label filling := by
  simp [placesOf]

theorem placesOf_cons (label : Label) (element : Instruction Label × Nat)
    (placed : List (Instruction Label × Nat)) :
    placesOf label (element :: placed) = placesOf label [element] ++ placesOf label placed :=
  placesOf_append label [element] placed

theorem placesOf_nops (label : Label) (offset count : Nat) :
    placesOf label (nops offset count) = [] := by
  have hnone : ∀ element ∈ nops offset count, ¬ element.1.placed? = some label := by
    intro element hm
    obtain ⟨place, -, rfl⟩ := List.mem_map.mp hm
    nofun
  rw [placesOf, List.filter_eq_nil_iff.mpr (by simpa using hnone)]
  rfl

/-- A label is at the last one of its offsets. -/
theorem getElem?_ofCode_placed (label : Label) (h : ∀ (i : Nat) element,
      placed[i]? = some element → offsets.getD i 0 = element.2) :
    (LabelOffsets.ofCode (placed.map Prod.fst) offsets)[label]? =
      (placesOf label placed).getLast? := by
  induction placed using List.reverseRecOn with
  | nil => simp [LabelOffsets.ofCode, placesOf]
  | append_singleton placed element ih =>
    obtain ⟨insn, offset⟩ := element
    have hlast : offsets.getD placed.length 0 = offset :=
      h placed.length _ List.getElem?_concat_length
    have hbefore := ih fun i element hi => h i element <| by
      rwa [List.getElem?_append_left (List.getElem?_eq_some_iff.mp hi).1]
    rw [placesOf_append]
    simp only [LabelOffsets.ofCode, List.map_append, List.map_cons, List.map_nil,
      List.zipIdx_append, List.foldl_append, List.length_map] at hbefore ⊢
    cases hp : insn.placed? with
    | none =>
      have hnone : placesOf label [(insn, offset)] = [] := by simp [placesOf, hp]
      rw [hnone, List.append_nil, ← hbefore]
      cases insn with
      | label other => cases hp
      | _ => rfl
    | some other =>
      obtain rfl := Instruction.eq_of_placed? hp
      by_cases hne : other = label
      · subst hne
        rw [Array.getD_eq_getD_getElem?] at hlast
        simp [placesOf, Instruction.placed?, hlast]
      · have hnone : placesOf label [(.label other, offset)] = [] := by
          simp [placesOf, Instruction.placed?, hne]
        rw [hnone, List.append_nil, ← hbefore]
        simp [Std.HashMap.getElem?_insert, hne]

def located (offsets : Offsets) (elements : List (Instruction Label × Nat)) :
    List (Instruction Label × Nat) :=
  elements.map fun element => (element.1, offsets.getD element.2 0)

theorem located_cons (offsets : Offsets) (insn : Instruction Label) (index : Nat)
    (elements : List (Instruction Label × Nat)) : located offsets ((insn, index) :: elements) =
      (insn, offsets.getD index 0) :: located offsets elements :=
  rfl

theorem located_append (offsets : Offsets) (inner rest : List (Instruction Label × Nat)) :
    located offsets (inner ++ rest) = located offsets inner ++ located offsets rest :=
  List.map_append

theorem placesOf_of_isUnreached {element : Instruction Label × Nat} (label : Label) (offset : Nat)
    (h : isUnreached frames element = true) : placesOf label [(element.1, offset)] = [] := by
  have hreal := isMarker_of_isUnreached h
  obtain ⟨insn, k⟩ := element
  cases insn with
  | label other => cases hreal
  | _ => rfl

/-- No label is moved by what becomes of a run. -/
theorem Run.placesOf_eq (h : Run frames offsets inner filling stop) (label : Label) :
    placesOf label filling = placesOf label (located offsets inner) := by
  induction h with
  | last dead =>
    rw [placesOf_append, placesOf_nops]
    exact (placesOf_of_isUnreached label _ dead).symm
  | @dead elements filling stop insn k dead _ ih =>
    have hnone := placesOf_of_isUnreached label (offsets.getD k 0) dead
    rw [placesOf_append, placesOf_nops, ih, located_cons, placesOf_cons _ (insn, _), hnone]
  | marker _ _ ih => rw [placesOf_cons, ih, located_cons, ← placesOf_cons]

/-- No label that was there before is moved. -/
theorem Filled.placesOf_eq (h : Filled frames offsets labels elements placed labels' runs)
    {label : Label} (hold : label.index < labels) :
    placesOf label placed = placesOf label (located offsets elements) := by
  have hnew : ∀ {new offset : Nat}, labels ≤ new →
      placesOf label [(.label ⟨new⟩, offset)] = [] := by
    intro new offset hle
    have hne : (⟨new⟩ : Label) ≠ label := fun he => by
      rw [← he] at hold
      exact Nat.not_lt_of_le hle hold
    simp [placesOf, Instruction.placed?, hne]
  induction h with
  | nil => rfl
  | keep _ _ ih => rw [placesOf_cons, ih hold hnew, located_cons, ← placesOf_cons]
  | run _ run _ _ ih =>
    rw [List.cons_append, placesOf_cons, hnew (Nat.le_refl _), List.nil_append, placesOf_append,
      placesOf_cons _ (_, _) _, hnew (Nat.le_succ _), List.nil_append, run.placesOf_eq,
      ih (by omega) fun hle => hnew (by omega), ← placesOf_append, ← located_append]

/-- A label that was there before is where it was. -/
theorem Filled.at_eq (h : Filled frames offsets labels code.zipIdx placed labels' runs)
    {label : Label} (hold : label.index < labels) (stop : Nat) :
    (LabelOffsets.ofCode (placed.map Prod.fst) (offsetsOf placed stop)).at label =
      (LabelOffsets.ofCode code offsets).at label := by
  have hplace : ∀ (i : Nat) element, (located offsets code.zipIdx)[i]? = some element →
      offsets.getD i 0 = element.2 := by
    intro i element hi
    simp only [located, List.getElem?_map, List.getElem?_zipIdx, Option.map_map,
      Option.map_eq_some_iff, Function.comp_apply, Nat.zero_add] at hi
    obtain ⟨insn, -, rfl⟩ := hi
    rfl
  have hcode : (located offsets code.zipIdx).map Prod.fst = code := by
    simp [located, Function.comp_def]
  have hbefore := getElem?_ofCode_placed label hplace
  rw [hcode] at hbefore
  rw [LabelOffsets.at, LabelOffsets.at, Std.HashMap.getD_eq_getD_getElem?,
    Std.HashMap.getD_eq_getD_getElem?, hbefore, ← h.placesOf_eq hold,
    getElem?_ofCode_placed label fun i element hi => getD_offsetsOf hi stop]

/-- Handlers guard the same bytes if their labels are at the same places. -/
theorem guarding_congr {place place' : Label → Nat} {handlers : List TryCatch}
    (h : ∀ handler ∈ handlers, place handler.start = place' handler.start ∧
      place handler.stop = place' handler.stop) (offset : Nat) :
    guarding place handlers offset = guarding place' handlers offset := by
  unfold guarding
  congr 1
  refine List.filter_congr fun handler hm => ?_
  obtain ⟨hstart, hstop⟩ := h handler hm
  exact decide_eq_decide.mpr (by rw [Guards, Guards, hstart, hstop])

/-- Ranges of handlers are cut exactly where runs are: from each handler, in order, what is left is
what it guarded outside of them. Cut where unreached code was replaced, every instruction that is
reached is guarded as it was, and what took the place of one that is not is not guarded at all; this
takes that the labels of the code are not those that mark the runs. -/
theorem splitHandlers_exact {b₁ b' : Builder} (h : Yields (layout code) b offsets b₁)
    (hw : b₁.Within b') (frames : Array (Option Flow.SlotFrame)) :
    let replaced := replaceDead code labels frames offsets
    ∃ offsets', Yields (layout replaced.1) b' offsets' b' ∧
      let before := (LabelOffsets.ofCode code offsets).at
      let found := LabelOffsets.ofCode replaced.1 offsets'
      (∀ (runs : List DeadRun) (handlers : List TryCatch), Separate found.at runs →
        ∃ parts, splitHandlers found runs handlers = parts.flatten ∧
          List.Forall₂ (Remains found.at runs) handlers parts) ∧
      ((∀ label, .label label ∈ code → label.index < labels) →
        Separate found.at replaced.2.2 ∧
        ∀ handlers : List TryCatch,
          (∀ handler ∈ handlers, handler.start.index < labels ∧ handler.stop.index < labels) →
          let split := splitHandlers found replaced.2.2 handlers
          ∀ (insn : Instruction Label) (index offset : Nat), code[index]? = some insn →
            insn.isMarker = false → offsets.getD index 0 ≤ offset →
            offset < offsets.getD (index + 1) 0 →
            (InRun found.at replaced.2.2 offset ↔ isUnreached frames (insn, index) = true) ∧
            (isUnreached frames (insn, index) = false →
              guarding found.at split offset = guarding before handlers offset) ∧
            (isUnreached frames (insn, index) = true →
              ∀ part ∈ split, ¬ Guards found.at part offset)) := by
  intro replaced
  obtain ⟨placed, hfilled, hreplaced⟩ := exists_filled code labels frames offsets
  have hlaid := laid_of_layout h
  have hwhole : code.zipIdx = (code.drop 0).zipIdx 0 := rfl
  have hchained := hfilled.chained (hlaid.mono hw) hwhole
  rw [hlaid.first, List.length_zipIdx, Nat.zero_add, ← hlaid.length_eq] at hchained
  refine ⟨offsetsOf placed offsets.length, ?_, ?_⟩
  · rw [show replaced.1 = placed.map Prod.fst from hreplaced]
    exact hchained.layout
  intro before found
  refine ⟨fun runs handlers hseparate => forall₂_splitHandlers hseparate handlers, fun hcode => ?_⟩
  have hfound :
      found = LabelOffsets.ofCode (placed.map Prod.fst) (offsetsOf placed offsets.length) :=
    congrArg (LabelOffsets.ofCode · _) hreplaced
  have hnew : ∀ label offset, (.label label, offset) ∈ placed → labels ≤ label.index →
      (LabelOffsets.ofCode (placed.map Prod.fst) (offsetsOf placed offsets.length)).at label =
        offset :=
    fun label offset hm hle => at_new (hfilled.nodup_newLabels hcode) hm hle _
  obtain ⟨hruns, hordered⟩ := hfilled.ordered hlaid hwhole hnew
  have hseparate : Separate found.at replaced.2.2 :=
    hfound ▸ ⟨fun run hm => (hruns run hm).2, hordered⟩
  refine ⟨hseparate, fun handlers hhandlers => ?_⟩
  intro split insn index offset hi hreal hfrom hto
  obtain ⟨parts, hsplit, hparts⟩ := forall₂_splitHandlers hseparate handlers
  have hm : (insn, index) ∈ code.zipIdx := by
    rw [List.mem_zipIdx_iff_getElem?]
    exact hi
  have hin : InRun found.at replaced.2.2 offset ↔ isUnreached frames (insn, index) = true :=
    hfound ▸ hfilled.inRun_iff hlaid hwhole hnew hm hreal hfrom hto
  refine ⟨hin, fun hlive => ?_, fun hdead => ?_⟩
  · have hout : ¬ InRun found.at replaced.2.2 offset := by
      rw [hin, hlive]
      decide
    have hsame : ∀ handler ∈ handlers, found.at handler.start = before handler.start ∧
        found.at handler.stop = before handler.stop := by
      intro handler hm
      obtain ⟨hstart, hstop⟩ := hhandlers handler hm
      rw [hfound]
      exact ⟨hfilled.at_eq hstart _, hfilled.at_eq hstop _⟩
    rw [show split = parts.flatten from hsplit, guarding_flatten hparts hout]
    exact guarding_congr hsame offset
  · rw [show split = parts.flatten from hsplit]
    exact not_guards_flatten hparts (hin.mpr hdead)

end Runs

/-- Code with an instruction that nothing leads to, in the range of a handler. -/
def covered : List (Instruction Label) :=
  [.label ⟨1⟩, .jump .goto ⟨0⟩, .plain .pop, .label ⟨0⟩, .plain .returnVoid, .label ⟨2⟩,
    .plain .athrow]

def coveredFrames : Array (Option Flow.SlotFrame) :=
  #[some ⟨[], []⟩, some ⟨[], []⟩, none, some ⟨[], []⟩, some ⟨[], []⟩,
    some ⟨[], [.object "java/lang/Exception"]⟩, some ⟨[], [.object "java/lang/Exception"]⟩]

def covering : TryCatch :=
  ⟨⟨1⟩, ⟨2⟩, ⟨2⟩, some "java/lang/Exception"⟩

/-- The jump before the byte that was replaced and the return after it are guarded as before, the
byte is not. -/
theorem covered_split :
    let replaced := replaceDead covered 3 coveredFrames #[0, 0, 3, 4, 4, 5, 5, 6]
    replaced.2.2 = [⟨⟨3⟩, ⟨4⟩, 3⟩] ∧
    ∃ offsets', Yields (layout replaced.1) .empty offsets' .empty ∧
      let found := LabelOffsets.ofCode replaced.1 offsets'
      let split := splitHandlers found replaced.2.2 [covering]
      Separate found.at replaced.2.2 ∧
      (∃ parts, split = parts.flatten ∧
        List.Forall₂ (Remains found.at replaced.2.2) [covering] parts) ∧
      guarding found.at split 0 = [(⟨2⟩, some "java/lang/Exception")] ∧
      guarding found.at split 4 = [(⟨2⟩, some "java/lang/Exception")] ∧
      ∀ part ∈ split, ¬ Guards found.at part 3 := by
  intro replaced
  have hlaid : Yields (layout covered) .empty #[0, 0, 3, 4, 4, 5, 5, 6] .empty := rfl
  have hcode : ∀ label, .label label ∈ covered → label.index < 3 := by
    intro label hm
    have : label = ⟨1⟩ ∨ label = ⟨0⟩ ∨ label = ⟨2⟩ := by simpa [covered] using hm
    rcases this with rfl | rfl | rfl <;> decide
  obtain ⟨offsets', hagain, hremains, howned⟩ :=
    splitHandlers_exact hlaid (.refl _) coveredFrames
  obtain ⟨hseparate, hcompared⟩ := howned hcode
  have hinstructions := hcompared [covering] (by simp [covering])
  have hbefore : ∀ offset < 5, guarding (LabelOffsets.ofCode covered #[0, 0, 3, 4, 4, 5, 5, 6]).at
      [covering] offset = [(⟨2⟩, some "java/lang/Exception")] := by
    intro offset hlt
    simp [guarding, Guards, covering, covered, LabelOffsets.at, LabelOffsets.ofCode,
      Std.HashMap.getD_insert, hlt]
  refine ⟨rfl, offsets', hagain, hseparate, hremains _ _ hseparate, ?_, ?_, ?_⟩
  · rw [← hbefore 0 (by decide)]
    exact (hinstructions (.jump .goto ⟨0⟩) 1 0 rfl rfl (by decide) (by decide)).2.1 rfl
  · rw [← hbefore 4 (by decide)]
    exact (hinstructions (.plain .returnVoid) 4 4 rfl rfl (by decide) (by decide)).2.1 rfl
  · exact (hinstructions (.plain .pop) 2 3 rfl rfl (by decide) (by decide)).2.2 rfl

end ClassTree.Code
