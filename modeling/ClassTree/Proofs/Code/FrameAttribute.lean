import ClassTree.Code.Listing
import ClassTree.Proofs.Code.Lawful
import ClassTree.Proofs.Descriptor.Reading
import ClassTree.Proofs.Hierarchy.Join

namespace ClassTree.Code

open Pool Build ClassTree.Flow ClassTree.Frame StackMap BigEndian

variable {setting : Setting} {method : Method} {b b' b'' : Builder} {offsets : Offsets}

/-- What is written for a method ends with a stack map table that is read as these frames. -/
def HoldsFrames (owner : String) (method : Method) (table : Table) (info : Bytes)
    (frames : List (Nat × OffsetFrame)) : Prop :=
  ∃ before index contents,
    info = before ++ (u16 index ++ u32 (UInt32.ofNat contents.length) ++ contents) ∧
    table.text index = .ok "StackMapTable" ∧
    ∀ base, readTable owner method table ⟨false, false⟩ "StackMapTable" ⟨contents, 0, base⟩ =
      .ok (some (.frames frames))

theorem HoldsFrames.append {owner : String} {table : Table} {info : Bytes}
    {frames : List (Nat × OffsetFrame)} (h : HoldsFrames owner method table info frames)
    (before : Bytes) : HoldsFrames owner method table (before ++ info) frames := by
  obtain ⟨front, index, contents, rfl, hname, hread⟩ := h
  exact ⟨before ++ front, index, contents, (List.append_assoc _ _ _).symm, hname, hread⟩

theorem HoldsFrames.counted {owner : String} {table : Table} {attributes : List Bytes}
    {frames : List (Nat × OffsetFrame)}
    (h : HoldsFrames owner method table attributes.flatten frames) (others : List Bytes) :
    HoldsFrames owner method table (BigEndian.counted id (others ++ attributes)) frames := by
  rw [BigEndian.counted, List.flatMap_id, List.flatten_append, ← List.append_assoc]
  exact h.append _

/-- Something is known of each local on entry, and none of them has been created in the method. -/
theorem entryLocals_spec (context : Context) :
    ∀ type ∈ (context.entryLocals : List SlotType), type ≠ .top ∧ type.creation? = none := by
  intro type hm
  rcases List.mem_append.mp hm with hm | hm
  · split at hm
    · cases hm
    · obtain rfl := List.mem_singleton.mp hm
      unfold Context.receiver
      split <;> exact ⟨nofun, rfl⟩
  · obtain ⟨field, -, rfl⟩ := List.mem_map.mp hm
    cases field with
    | base kind => cases kind <;> exact ⟨nofun, rfl⟩
    | ref type => exact ⟨nofun, rfl⟩

theorem toFrame_initial (context : Context) :
    (SlotFrame.initial context).toFrame = ⟨context.entryLocals, []⟩ := by
  rw [SlotFrame.toFrame, SlotFrame.initial, ofSlots, compact_expand,
    trim_of_ne_top fun type hm => (entryLocals_spec context type hm).1]
  rfl

/-- The locals on entry are written as they are. -/
theorem shows_initial {context : Context} {encoded : EncodedFrame}
    (hy : Yields (encodeFrame offsets (.initial context)) b encoded b') (hw : b'.Within b'')
    (hs : b''.Sound) : Shows b''.table encoded ⟨context.entryLocals, []⟩ := by
  have hspec := entryLocals_spec context
  have hshows := (shows_encodeFrame (fun type hm i hi => ?_) hy hw hs).1
  · have hlocals : (shown offsets (.initial context)) = ⟨context.entryLocals, []⟩ := by
      simp only [shown, toFrame_initial, List.map_nil, Frame.mk.injEq, and_true]
      refine (List.map_congr_left fun type hm => ?_).trans (List.map_id _)
      have hnone := (hspec type hm).2
      cases type with
      | uninitialized => cases hnone
      | _ => rfl
    rwa [hlocals] at hshows
  · rw [toFrame_initial, List.append_nil] at hm
    cases (hspec type hm).2.symm.trans hi

theorem exists_shown {table : Table} {frames : List (Nat × EncodedFrame)}
    (h : ∀ entry ∈ frames, ∃ frame, Shows table entry.2 frame) :
    ∃ read, List.Forall₂ (Shown table) frames read := by
  induction frames with
  | nil => exact ⟨[], .nil⟩
  | cons entry frames ih =>
    obtain ⟨read, hread⟩ := ih fun other hm => h other (List.mem_cons_of_mem _ hm)
    obtain ⟨frame, hframe⟩ := h entry List.mem_cons_self
    exact ⟨(entry.1, frame) :: read, .cons ⟨rfl, hframe⟩ hread⟩

/-- The attribute for some frames is read as these frames, if they and their entries can be
counted. -/
theorem exists_frameContents {frames : FrameTable} {attributes : List Bytes}
    (hy : Yields (frameAttribute setting method offsets frames) b attributes b')
    (hw : b'.Within b'') (hs : b''.Sound)
    (hframes : ∀ {offset encoded}, frames[offset]? = some encoded →
      offset < 0x10000 ∧ ∃ frame, Shows b''.table encoded frame)
    (hne : frames.isEmpty = false) : ∃ index contents locals read,
      attributes = [u16 index ++ u32 (UInt32.ofNat contents.length) ++ contents] ∧
      b''.table.text index = .ok "StackMapTable" ∧
      entryLocals setting.owner method = .ok locals ∧
      List.Forall₂ (Shown b''.table) frames.toList read ∧
      (frames.toList.length < 0x10000 → (∀ entry ∈ frames.toList, Fits entry.2) →
        Reader.Reads (StackMap.read b''.table locals) 0 contents read) := by
  unfold frameAttribute at hy
  rw [if_neg (by simp [hne])] at hy
  obtain ⟨context, _, hcontext, hy⟩ := yields_bind.mp hy
  obtain ⟨initial, b₁, hinitial, hy⟩ := yields_bind.mp hy
  obtain ⟨attribute_, b₂, hattribute, hp⟩ := yields_bind.mp hy
  obtain ⟨rfl, rfl⟩ := yields_pure.mp hp
  obtain ⟨name, b₃, hname, hp⟩ := yields_bind.mp hattribute
  obtain ⟨rfl, rfl⟩ := yields_pure.mp hp
  have hlater := (lawful_text "StackMapTable").grows hname
  have hentries : ∀ entry ∈ frames.toList, entry.1 < 0x10000 ∧
      ∃ frame, Shows b''.table entry.2 frame :=
    fun entry hm => hframes (Std.TreeMap.mem_toList_iff_getElem?_eq_some.mp hm)
  have hascending : frames.toList.Pairwise fun entry later => entry.1 < later.1 :=
    Std.TreeMap.ordered_keys_toList.imp fun hlt => Nat.compare_eq_lt.mp hlt
  obtain ⟨read, hshown⟩ := exists_shown fun entry hm => (hentries entry hm).2
  unfold contextOf at hcontext
  split at hcontext
  · rename_i type htype
    obtain ⟨rfl, rfl⟩ := yields_pure.mp hcontext
    have hstart := shows_initial hinitial (hlater.trans hw) hs
    refine ⟨name, counted id ((entries initial frames.toList).map Entry.encode),
      (Context.ofMethod setting.owner method type).entryLocals, read, rfl, text_found hname hw hs,
        ?_,
      hshown, fun hcount hfits => reads_table hshown hstart hascending
        (fun entry hm => ⟨(hentries entry hm).1, hfits entry hm⟩) hcount 0⟩
    rw [entryLocals, htype]
  · exact absurd hcontext not_yields_throw

theorem frameAttribute_holds {frames : FrameTable} {attributes : List Bytes}
    (hy : Yields (frameAttribute setting method offsets frames) b attributes b')
    (hw : b'.Within b'') (hs : b''.Sound)
    (hframes : ∀ {offset encoded}, frames[offset]? = some encoded →
      offset < maxLength ∧ Fits encoded ∧ ∃ frame, Shows b''.table encoded frame)
    (hne : frames.isEmpty = false) : ∃ read,
      HoldsFrames setting.owner method b''.table attributes.flatten read ∧
      List.Forall₂ (Shown b''.table) frames.toList read := by
  obtain ⟨index, contents, locals, read, rfl, hname, hlocals, hshown, hreads⟩ :=
    exists_frameContents hy hw hs (fun hat => ⟨Nat.lt_trans (hframes hat).1 (by decide),
      (hframes hat).2.2⟩) hne
  have hentries : ∀ entry ∈ frames.toList, entry.1 < maxLength ∧ Fits entry.2 := fun entry hm =>
    have hentry := hframes (Std.TreeMap.mem_toList_iff_getElem?_eq_some.mp hm)
    ⟨hentry.1, hentry.2.1⟩
  have hcount : frames.toList.length ≤ maxLength :=
    length_le_of_ascending (Std.TreeMap.ordered_keys_toList.imp fun hlt => Nat.compare_eq_lt.mp hlt)
      fun entry hm => (hentries entry hm).1
  have hreads :=
    hreads (Nat.lt_of_le_of_lt hcount (by decide)) fun entry hm => (hentries entry hm).2
  refine ⟨read, ⟨[], index, contents, by simp, hname, fun base => ?_⟩, hshown⟩
  simp only [readTable, hlocals]
  change (Cursor.parse _ _ >>= _) = _
  rw [hreads.parse base]
  rfl

/-- What is written for a method whose frames are computed holds the frames that it was prepared
with, if the entries of all of them can be counted. -/
theorem attributeInfo_stages {info : Bytes} (hj : setting.hierarchy.JoinsClasses)
    (hc : setting.computesFrames = true)
    (hy : Yields (attributeInfo setting method) b info b') (hw : b'.Within b'')
    (hr : b''.Reachable) : ∃ prepared b₁ laidOut program flow,
      Yields (prepare setting method) b prepared b₁ ∧
      Stages setting method b laidOut program flow prepared b₁ ∧ b₁.Within b'' ∧
      ((∀ {i f}, flow.At i f → Countable f) → prepared.frames.isEmpty = false →
        ∃ read, HoldsFrames setting.owner method b''.table info read ∧
          List.Forall₂ (Shown b''.table) prepared.frames.toList read) := by
  obtain ⟨prepared, b₁, hprepare, hy⟩ := yields_bind.mp hy
  obtain ⟨array, b₂, harray, hy⟩ := yields_bind.mp hy
  obtain ⟨handlers, b₃, hhandlers, hy⟩ := yields_bind.mp hy
  obtain ⟨lines, b₄, hlines, hy⟩ := yields_bind.mp hy
  obtain ⟨localVariables, b₅, hvariables, hy⟩ := yields_bind.mp hy
  obtain ⟨attributes, b₆, hattributes, hp⟩ := yields_bind.mp hy
  obtain ⟨rfl, rfl⟩ := yields_pure.mp hp
  obtain ⟨laidOut, program, flow, hstages⟩ := stages_prepare hc hprepare
  have hlate : b₁.Within b'' := ((lawful_encode _ _ _).grows harray).trans <|
    ((lawful_encodeHandlers _ _).grows hhandlers).trans <|
    ((lawful_tableAttribute? _ _).grows hlines).trans <|
    ((lawful_variableAttributes _ _).grows hvariables).trans <|
    ((lawful_frameAttribute _ _ _ _).grows hattributes).trans hw
  refine ⟨prepared, b₁, laidOut, program, flow, hprepare, hstages, hlate, fun hcount hne => ?_⟩
  obtain ⟨read, hholds, hshown⟩ := frameAttribute_holds hattributes hw hr.sound
    (fun hat => hstages.shows hj hlate hr hcount hat) hne
  exact ⟨read, (hholds.counted (lines ++ localVariables)).append _, hshown⟩

/-- Whatever the live code enters other than from the element before has a frame in what is written,
if the entries of all frames can be counted. That frame is the one of the last point at this offset:
it allows for what enters exactly if that point does, and so it does if that point does not come
before the one that is entered. -/
theorem attributeInfo_covers {info : Bytes} (hj : setting.hierarchy.JoinsClasses)
    (hc : setting.computesFrames = true)
    (hy : Yields (attributeInfo setting method) b info b') (hw : b'.Within b'')
    (hr : b''.Reachable) :
    ∃ prepared b₁ laidOut program flow, Yields (prepare setting method) b prepared b₁ ∧
      Analysed setting method b laidOut program flow ∧
      (method.body.Owns → ∀ {label index}, laidOut.code[index]? = some (.label label) →
        prepared.labelOffsets.at label = laidOut.offsets.getD index 0) ∧
      ((∀ {i f}, flow.At i f → Countable f) →
        ∀ {point g}, program.Enters setting.hierarchy flow point g →
        ∃ frames last f written, HoldsFrames setting.owner method b''.table info frames ∧
          (laidOut.offsets.getD point 0, written) ∈ frames ∧
          lastPoint? flow laidOut.offsets (framePoints program) (laidOut.offsets.getD point 0) =
            some last ∧ flow.At last f ∧
          (Covers setting.hierarchy (slotForm written)
            (g.mapCreation (laidOut.offsets.getD · 0)) ↔ Covers setting.hierarchy f g) ∧
          (point ≤ last → Covers setting.hierarchy f g)) := by
  obtain ⟨prepared, b₁, laidOut, program, flow, hprepare, hstages, hlate, hholds⟩ :=
    attributeInfo_stages hj hc hy hw hr
  refine ⟨prepared, b₁, laidOut, program, flow, hprepare, hstages.toAnalysed,
    fun howns _ _ hi => hstages.at_label howns hi, fun hcount point g henters => ?_⟩
  obtain ⟨last, f, encoded, hlast, hf, hat, hshows, hiff, hlater⟩ :=
    hstages.covers hj hlate hr henters
  have hne : prepared.frames.isEmpty = false := by
    rw [← Bool.not_eq_true]
    intro hempty
    rw [Std.TreeMap.getElem?_of_isEmpty hempty] at hat
    cases hat
  obtain ⟨read, hread, hshown⟩ := hholds hcount hne
  obtain ⟨⟨_, written⟩, hmem, rfl, hwritten⟩ := exists_shown_of_mem hshown
    (Std.TreeMap.mem_toList_iff_getElem?_eq_some.mpr hat)
  obtain rfl := hwritten.unique hshows
  exact ⟨read, last, f, _, hread, hmem, hlast, hf, hiff, hlater⟩

/-- A jump and the end of another branch meet at one offset, but at different labels. -/
def sharingOffset : Method :=
  { Method.declared (.ofBits .ofMethod 8) "m" "()V" with
    body := ⟨[.plain .aconstNull, .jump .ifnull ⟨1⟩, .plain .iconst0, .var .istore 0,
      .jump .goto ⟨0⟩, .label ⟨0⟩, .label ⟨1⟩, .plain .returnVoid], 2⟩ }

namespace SharingOffset

def computing : Setting :=
  ⟨"A", ⟨50, 0⟩, ⟨false, true⟩, .library⟩

def code : List (Instruction Label) :=
  sharingOffset.body.code

def places : Offsets :=
  #[0, 1, 4, 5, 6, 9, 9, 9, 10]

def program : Program :=
  programOf ⟨"A", "m", ⟨[], none⟩, true⟩ code []

theorem positions_eq : program.positions[(⟨0⟩ : Label)]? = some 5 ∧
    program.positions[(⟨1⟩ : Label)]? = some 6 :=
  ⟨Positions.getElem?_ofCode_of_once (by decide) rfl,
    Positions.getElem?_ofCode_of_once (by decide) rfl⟩

theorem successors_ifnull :
    successors program.code program.positions 1 (.jump .ifnull ⟨1⟩) = .ok [6, 2] := by
  have hf : program.positions.find ⟨1⟩ = .ok 6 := by rw [Positions.find, positions_eq.2]
  rw [successors, Instruction.jumpTargets, List.mapM_cons, hf]
  rfl

theorem successors_goto :
    successors program.code program.positions 4 (.jump .goto ⟨0⟩) = .ok [5] := by
  have hf : program.positions.find ⟨0⟩ = .ok 5 := by rw [Positions.find, positions_eq.1]
  rw [successors, Instruction.jumpTargets, List.mapM_cons, hf]
  rfl

def state (frames : List (Option SlotFrame)) (maxStack maxLocals : Nat) (pending : List Nat) :
    TypeState :=
  ⟨⟨frames.toArray, maxStack, maxLocals⟩,
    ⟨pending, ((List.range 8).map pending.contains).toArray⟩⟩

def bare : Option SlotFrame :=
  some ⟨[], []⟩

/-- The frame after a number has been stored. -/
def stored : Option SlotFrame :=
  some ⟨[.integer], []⟩

def frames : List (Option SlotFrame) :=
  [bare, some ⟨[], [.null]⟩, bare, some ⟨[], [.integer]⟩, stored, stored, bare, bare]

def flow : TypeFlow :=
  ⟨frames.toArray, 1, 1⟩

section Visits

variable (hierarchy : Hierarchy) (types : Std.HashMap Nat String)

theorem visit_ifnull : TypeState.visit program hierarchy types
    (state (frames.take 2 ++ List.replicate 6 none) 1 0 []) 1 =
      .ok (state (frames.take 3 ++ [none, none, none, bare, none]) 1 0 [2, 6]) := by
  change (_ >>= fun _ => (successors program.code program.positions 1
    (.jump .ifnull ⟨1⟩)).mapError _ >>= _) = _
  rw [successors_ifnull]
  rfl

theorem visit_goto : TypeState.visit program hierarchy types
    (state (frames.take 5 ++ [none, bare, none]) 1 1 [6]) 4 =
      .ok (state (frames.take 7 ++ [none]) 1 1 [5, 6]) := by
  change (_ >>= fun _ => (successors program.code program.positions 4
    (.jump .goto ⟨0⟩)).mapError _ >>= _) = _
  rw [successors_goto]
  rfl

end Visits

/-- Each element is visited once: what comes to the second label from the first one is nothing
new. -/
theorem computeTypes_eq (hierarchy : Hierarchy) : computeTypes hierarchy program = .ok flow := by
  have hpop : program.start.pop =
    (some 0, state (bare :: List.replicate 7 none) 0 0 []) := rfl
  have h₀ : TypeState.visit program hierarchy ∅ (state (bare :: List.replicate 7 none) 0 0 []) 0 =
      .ok (state (frames.take 2 ++ List.replicate 6 none) 1 0 [1]) := rfl
  have h₂ : TypeState.visit program hierarchy ∅
      (state (frames.take 3 ++ [none, none, none, bare, none]) 1 0 [6]) 2 =
        .ok (state (frames.take 4 ++ [none, none, bare, none]) 1 0 [3, 6]) := rfl
  have h₃ : TypeState.visit program hierarchy ∅
      (state (frames.take 4 ++ [none, none, bare, none]) 1 0 [6]) 3 =
        .ok (state (frames.take 5 ++ [none, bare, none]) 1 1 [4, 6]) := rfl
  have h₅ : TypeState.visit program hierarchy ∅ (state (frames.take 7 ++ [none]) 1 1 [6]) 5 =
      .ok (state (frames.take 7 ++ [none]) 1 1 [6]) := rfl
  have h₆ : TypeState.visit program hierarchy ∅ (state (frames.take 7 ++ [none]) 1 1 []) 6 =
      .ok (state frames 1 1 [7]) := rfl
  have h₇ : TypeState.visit program hierarchy ∅ (state frames 1 1 []) 7 =
      .ok (state frames 1 1 []) := rfl
  have hdrains : Drains TypeState.pop (TypeState.visit program hierarchy ∅) program.start
      [0, 1, 2, 3, 4, 5, 6, 7] (state frames 1 1 []) := by
    refine .visit hpop h₀ (.visit rfl (visit_ifnull hierarchy ∅) (.visit rfl h₂ ?_))
    refine .visit rfl h₃ (.visit rfl (visit_goto hierarchy ∅) (.visit rfl h₅ ?_))
    exact .visit rfl h₆ (.visit rfl h₇ (.done rfl))
  exact computeTypes_of_drains rfl (by decide) hdrains

theorem yields_widen : Yields (widen (computing.displayName sharingOffset) false
    (unframed sharingOffset.body)) .empty ⟨code, 2, places⟩ .empty :=
  @widen_of_short _ _ (unframed sharingOffset.body) _ _ _
    (show Yields (layout code) .empty places .empty from rfl) (by decide)

def table : FrameTable :=
  ((∅ : FrameTable).insert 9 ⟨[], []⟩).insert 9 ⟨[.integer], []⟩

def prepared : Prepared :=
  ⟨code, places, [], table, 1, 1⟩

theorem framePoints_eq : framePoints program = [6, 5] := by
  change [(⟨1⟩ : Label), ⟨0⟩].filterMap (program.positions[·]?) ++ [] = _
  simp [positions_eq.1, positions_eq.2]

theorem type_eq : sharingOffset.type? = .ok ⟨[], none⟩ :=
  MethodType.scan_inverts.complete_eq_ok.mpr rfl

theorem yields_context : Yields (contextOf computing sharingOffset) .empty
    ⟨"A", "m", ⟨[], none⟩, true⟩ .empty := by
  rw [contextOf, type_eq]
  rfl

theorem yields_prepare : Yields (prepare computing sharingOffset) .empty prepared .empty := by
  have hlabels : sharingOffset.checkLabels (computing.displayName sharingOffset) = .ok () :=
    Method.checkLabels_of_nodup (by decide) (by decide) _
  have htable : Yields (computedFrames program flow places) .empty table .empty := by
    rw [computedFrames, framePoints_eq]
    rfl
  have hstages : Stages computing sharingOffset .empty ⟨code, 2, places⟩ program flow prepared
      .empty :=
    { widened := ⟨.empty, yields_widen⟩
      built := ⟨⟨[], none⟩, type_eq, rfl⟩
      types := computeTypes_eq _
      labels := hlabels
      steps := ⟨table, .empty, .empty, yields_widen, htable, rfl⟩ }
  exact hstages.yields_prepare rfl (by decide)

/-- How the method is analysed. -/
theorem analysed_iff {laidOut : LaidOut} {program' : Program} {flow' : TypeFlow} :
    Analysed computing sharingOffset .empty laidOut program' flow' ↔
      laidOut = ⟨code, 2, places⟩ ∧ program' = program ∧ flow' = flow := by
  constructor
  · rintro ⟨⟨b', hwiden⟩, ⟨type, htype, rfl⟩, hflow⟩
    obtain rfl := hwiden.value_eq yields_widen
    obtain rfl := Except.ok.inj (htype.symm.trans type_eq)
    exact ⟨rfl, rfl, Except.ok.inj (hflow.symm.trans (computeTypes_eq _))⟩
  · rintro ⟨rfl, rfl, rfl⟩
    exact ⟨⟨_, yields_widen⟩, ⟨_, type_eq, rfl⟩, computeTypes_eq _⟩

/-- Only the name of the attribute for the frames has to be added to the pool. -/
theorem exists_attributeInfo : ∃ info b,
    Yields (attributeInfo computing sharingOffset) .empty info b ∧ b.Reachable := by
  obtain ⟨array, harray⟩ : ∃ array,
      Yields (encode code places prepared.labelOffsets) .empty array .empty := ⟨_, rfl⟩
  have htable : Takes (tableAttribute "StackMapTable"
      ((entries ⟨[], []⟩ table.toList).map Entry.encode)) 2 0 :=
    (takes_text _).bind fun _ => takes_pure _
  obtain ⟨bytes, b, hbytes, -⟩ := htable .empty 0 (by decide)
  have hframes : Yields (frameAttribute computing sharingOffset places table) .empty [bytes] b :=
    yields_bind.mpr ⟨_, .empty, yields_context, yields_bind.mpr ⟨⟨[], []⟩, .empty, rfl,
      yields_bind.mpr ⟨bytes, b, hbytes, rfl⟩⟩⟩
  exact ⟨_, b, yields_bind.mpr ⟨prepared, .empty, yields_prepare,
    yields_bind.mpr ⟨array, .empty, harray, yields_bind.mpr ⟨[], .empty, rfl,
    yields_bind.mpr ⟨[], .empty, rfl, yields_bind.mpr ⟨[], .empty, rfl,
    yields_bind.mpr ⟨[bytes], b, hframes, rfl⟩⟩⟩⟩⟩⟩,
    (lawful_attributeBytes _ _).reaches .empty hbytes⟩

theorem countable {i : Nat} {f : SlotFrame} (hf : flow.At i f) : Countable f := by
  have hm : some f ∈ frames := List.mem_of_getElem? (List.getElem?_toArray.symm.trans hf)
  simp only [frames, List.mem_cons, bare, stored, Option.some.injEq, List.not_mem_nil, or_false]
    at hm
  rcases hm with rfl | rfl | rfl | rfl | rfl | rfl | rfl | rfl
  all_goals exact ⟨by decide, by decide⟩

theorem enters_goto : program.Enters computing.hierarchy flow 5 ⟨[.integer], []⟩ :=
  .jump (i := 4) (f := ⟨[.integer], []⟩) rfl rfl rfl List.mem_cons_self positions_eq.1

theorem enters_ifnull : program.Enters computing.hierarchy flow 6 ⟨[], []⟩ :=
  .jump (i := 1) (f := ⟨[], [.null]⟩) rfl rfl rfl List.mem_cons_self positions_eq.2

/-- What is written for the method holds one frame. -/
theorem holdsFrames {info : Bytes} {b : Builder}
    (hy : Yields (attributeInfo computing sharingOffset) .empty info b) (hr : b.Reachable) :
    HoldsFrames "A" sharingOffset b.table info [(9, ⟨[.integer], []⟩)] := by
  obtain ⟨prepared', b', laidOut, program', flow', hprepare, hstages, -, hholds⟩ :=
    attributeInfo_stages Ancestry.library_joinsClasses rfl hy (.refl _) hr
  obtain ⟨rfl, rfl, rfl⟩ := analysed_iff.mp hstages.toAnalysed
  obtain rfl := hprepare.value_eq yields_prepare
  obtain ⟨read, hread, hshown⟩ := hholds countable rfl
  have hframe : Shows b.table ⟨[.integer], []⟩ ⟨[.integer], []⟩ := ⟨.cons rfl .nil, .nil⟩
  change List.Forall₂ (Shown b.table) [(9, ⟨[.integer], []⟩)] read at hshown
  obtain ⟨⟨_, frame⟩, tail, hentry, hnil, rfl⟩ := List.forall₂_cons_left_iff.mp hshown
  obtain rfl := List.forall₂_nil_left_iff.mp hnil
  obtain ⟨rfl, hshows⟩ := hentry
  obtain rfl := hshows.unique hframe
  exact hread

/-- The frame at the offset allows for what comes from the end of the branch, as that is where the
label that is mentioned last is reached from. -/
theorem goto_covered : ∃ info b frames written,
    Yields (attributeInfo computing sharingOffset) .empty info b ∧ b.Reachable ∧
    program.Enters computing.hierarchy flow 5 ⟨[.integer], []⟩ ∧
    HoldsFrames "A" sharingOffset b.table info frames ∧ (9, written) ∈ frames ∧
    Covers computing.hierarchy (slotForm written) ⟨[.integer], []⟩ := by
  obtain ⟨info, b, hy, hr⟩ := exists_attributeInfo
  obtain ⟨_, _, laidOut, program', flow', -, hanalysed, -, hcovers⟩ :=
    attributeInfo_covers Ancestry.library_joinsClasses rfl hy (.refl _) hr
  obtain ⟨rfl, rfl, rfl⟩ := analysed_iff.mp hanalysed
  obtain ⟨frames, last, f, written, hholds, hm, hlast, -, hiff, hlater⟩ :=
    hcovers countable enters_goto
  rw [framePoints_eq] at hlast
  obtain rfl := Option.some.inj hlast
  exact ⟨info, b, frames, written, hy, hr, enters_goto, hholds, hm,
    hiff.mpr (hlater (Nat.le_refl 5))⟩

/-- It does not allow for what comes from the first jump, where there is no local yet. -/
theorem ifnull_notCovered : ∃ info b,
    Yields (attributeInfo computing sharingOffset) .empty info b ∧ b.Reachable ∧
    Analysed computing sharingOffset .empty ⟨code, 2, places⟩ program flow ∧
    program.Enters computing.hierarchy flow 6 ⟨[], []⟩ ∧ places.getD 6 0 = 9 ∧
    HoldsFrames "A" sharingOffset b.table info [(9, ⟨[.integer], []⟩)] ∧
    ¬ Covers computing.hierarchy (slotForm ⟨[.integer], []⟩) ⟨[], []⟩ := by
  obtain ⟨info, b, hy, hr⟩ := exists_attributeInfo
  refine ⟨info, b, hy, hr, analysed_iff.mpr ⟨rfl, rfl, rfl⟩, enters_ifnull, rfl,
    holdsFrames hy hr, ?_⟩
  rw [covers_iff]
  rintro ⟨-, -, hlocals⟩
  cases hlocals

end SharingOffset

end ClassTree.Code
