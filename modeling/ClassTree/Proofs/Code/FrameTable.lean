import ClassTree.Code.Prepared
import ClassTree.Proofs.Code.DeadCode
import ClassTree.Proofs.Code.Widening
import ClassTree.Proofs.Flow.Covering
import ClassTree.Proofs.Pool.Lookup
import ClassTree.Proofs.StackMap.RoundTrip

namespace ClassTree.Code

open Pool Build ClassTree.Flow ClassTree.Frame StackMap

variable {b b' b'' : Builder} {offsets : Offsets} {f : SlotFrame} {encoded : EncodedFrame}

def slotForm (frame : OffsetFrame) : SlotFrame :=
  ⟨frame.localSlots, (expand frame.stack).reverse⟩

theorem lawful_traverse {ν : Type} (place : ν → UInt16) (type : VerificationType String ν) :
    Lawful (type.traverse Build.classRef place) := by
  cases type with
  | object name => exact (lawful_classRef name).bind fun _ => lawful_pure _
  | _ => exact lawful_pure _

theorem lawful_frame {ν : Type} (frame : Frame String ν) (place : ν → UInt16) :
    Lawful (frame.traverse Build.classRef place) :=
  (lawful_mapM (lawful_traverse _) _).bind fun _ =>
    (lawful_mapM (lawful_traverse _) _).bind fun _ => lawful_pure _

theorem lawful_encodeFrame (offsets : Offsets) (f : SlotFrame) :
    Lawful (encodeFrame offsets f) :=
  lawful_frame _ _

theorem shows_type {ν : Type} {type : VerificationType String ν} {found : EncodedType}
    {place : ν → Nat}
    (hshort : ∀ i ∈ type.creation?, place i < 0x10000)
    (hy : Yields (type.traverse Build.classRef fun i => UInt16.ofNat (place i)) b found b')
    (hw : b'.Within b'') (hs : b''.Sound) :
    ShowsType b''.table found (type.mapCreation place) := by
  cases type with
  | object name =>
    obtain ⟨index, middle, hc, hp⟩ := yields_bind.mp hy
    obtain ⟨rfl, rfl⟩ := yields_pure.mp hp
    simp only [ShowsType, VerificationType.traverse, className_found hc hw hs]
    rfl
  | uninitialized index =>
    obtain ⟨rfl, -⟩ := yields_pure.mp hy
    simp only [ShowsType, VerificationType.traverse, UInt16.toNat_ofNat_of_lt' (hshort index rfl)]
    rfl
  | _ =>
    obtain ⟨rfl, -⟩ := yields_pure.mp hy
    rfl

def shown (offsets : Offsets) (f : SlotFrame) : OffsetFrame :=
  ⟨f.toFrame.locals.map (·.mapCreation (offsets.getD · 0)),
    f.toFrame.stack.map (·.mapCreation (offsets.getD · 0))⟩

theorem shows_types {ν : Type} {types : List (VerificationType String ν)}
    {found : List EncodedType} {place : ν → Nat}
    (hshort : ∀ type ∈ types, ∀ i ∈ type.creation?, place i < 0x10000)
    (hf : List.Forall₂ (fun type code => Yields (VerificationType.traverse Build.classRef
      (fun i => UInt16.ofNat (place i)) type) b code b) types found)
    (hw : b.Within b'') (hs : b''.Sound) :
    List.Forall₂ (ShowsType b''.table) found (types.map (·.mapCreation place)) := by
  induction hf with
  | nil => exact .nil
  | cons hy _ ih =>
    exact .cons (shows_type (hshort _ List.mem_cons_self) hy hw hs)
      (ih fun type hm => hshort type (List.mem_cons_of_mem _ hm))

/-- What is written for a frame can be read. -/
theorem shows_frame {ν : Type} {frame : Frame String ν} {place : ν → Nat}
    (hshort : ∀ type ∈ frame.locals ++ frame.stack, ∀ i ∈ type.creation?, place i < 0x10000)
    (hy : Yields (frame.traverse Build.classRef fun i => UInt16.ofNat (place i)) b encoded b')
    (hw : b'.Within b'') (hs : b''.Sound) :
    Shows b''.table encoded
      ⟨frame.locals.map (·.mapCreation place), frame.stack.map (·.mapCreation place)⟩ := by
  obtain ⟨locals, middle, hlocals, hy⟩ := yields_bind.mp hy
  obtain ⟨stack, middle', hstack, hp⟩ := yields_bind.mp hy
  obtain ⟨rfl, rfl⟩ := yields_pure.mp hp
  have hm := (lawful_mapM (lawful_traverse _) _).grows hstack
  exact ⟨shows_types (fun type ht => hshort type (List.mem_append_left _ ht))
      (forall₂_of_mapM (lawful_traverse _) hlocals) (hm.trans hw) hs,
    shows_types (fun type ht => hshort type (List.mem_append_right _ ht))
      (forall₂_of_mapM (lawful_traverse _) hstack) hw hs⟩

def Countable (f : SlotFrame) : Prop :=
  f.toFrame.locals.length < 0x10000 ∧ f.toFrame.stack.length < 0x10000

theorem shows_encodeFrame
    (hshort : ∀ type ∈ f.toFrame.locals ++ f.toFrame.stack, ∀ i ∈ type.creation?,
      offsets.getD i 0 < 0x10000)
    (hy : Yields (encodeFrame offsets f) b encoded b') (hw : b'.Within b'') (hs : b''.Sound) :
    Shows b''.table encoded (shown offsets f) ∧ (Countable f → Fits encoded) := by
  have hshows := shows_frame hshort hy hw hs
  refine ⟨hshows, fun hc => ⟨?_, ?_⟩⟩
  · rw [hshows.locals.length_eq, List.length_map]
    exact hc.1
  · rw [hshows.stack.length_eq, List.length_map]
    exact hc.2

/-- What is read is the frame again, but for locals that nothing is known of. -/
theorem slotForm_shown {P : SlotType → Prop} (offsets : Offsets) (hf : WellFormed P f) :
    ∃ locals n, f.locals = locals ++ List.replicate n .top ∧
      slotForm (shown offsets f) = SlotFrame.mapCreation (offsets.getD · 0) ⟨locals, f.stack⟩ := by
  obtain ⟨n, hn⟩ := @exists_localSlots_append _ _ f.locals f.stack.reverse hf.locals
  refine ⟨_, n, hn, ?_⟩
  have hlocals : (shown offsets f).localSlots =
      f.toFrame.localSlots.map (·.mapCreation (offsets.getD · 0)) := expand_map _
  have hstack : expand (shown offsets f).stack =
      f.stack.reverse.map (·.mapCreation (offsets.getD · 0)) := by
    refine (expand_map _).trans ?_
    rw [SlotFrame.toFrame, ofSlots, expand_compact hf.stack.paired]
  rw [slotForm, hlocals, hstack, ← List.map_reverse, List.reverse_reverse]
  rfl

/-- Objects that are created by different instructions are told apart by the offsets of these. -/
theorem apart_offsets {program : Program} {code : List (Instruction Label)}
    (hcode : program.code = code.toArray) (hl : Laid b code offsets) :
    Apart program.Creates (offsets.getD · 0) := by
  have hlt : ∀ {i j name name'}, code[i]? = some (.type .new name) →
      code[j]? = some (.type .new name') → i < j → offsets.getD i 0 < offsets.getD j 0 := by
    intro i j name name' hi hj hij
    have hsize := hl.size_pos hi rfl
    have hle :=
      hl.le_of_le (Nat.succ_le_of_lt hij) (Nat.le_of_lt (List.getElem?_eq_some_iff.mp hj).1)
    exact Nat.lt_of_lt_of_le hsize hle
  refine apart_of_creations fun {i j} hi hj he => ?_
  obtain ⟨name, hi⟩ := hi i rfl
  obtain ⟨name', hj⟩ := hj j rfl
  rw [hcode, List.getElem?_toArray] at hi hj
  rcases Nat.lt_trichotomy i j with hij | hij | hij
  · exact absurd he (Nat.ne_of_lt (hlt hi hj hij))
  · exact hij
  · exact absurd he.symm (Nat.ne_of_lt (hlt hj hi hij))

/-- What is read allows for a frame just as well as what was computed. -/
theorem covers_shown {hierarchy : Hierarchy} {program : Program} {code : List (Instruction Label)}
    {g : SlotFrame} (hcode : program.code = code.toArray) (hl : Laid b code offsets)
    (hf : WellFormed program.Creates f) (hg : WellFormed program.Creates g) :
    Covers hierarchy (slotForm (shown offsets f)) (g.mapCreation (offsets.getD · 0)) ↔
      Covers hierarchy f g := by
  have hlenient := program.lenient_creates
  obtain ⟨locals, n, hn, hslots⟩ := slotForm_shown offsets hf
  have hlocals : ∀ type ∈ locals, program.Creates type := by
    intro type hm
    exact hf.localTypes type (hn ▸ List.mem_append_left _ hm)
  rw [hslots, covers_mapCreation (f := ⟨locals, f.stack⟩) hlenient (apart_offsets hcode hl) hlocals
    (hf.stack.allowed hlenient.tolerant) hg.localTypes
      (hg.stack.allowed hlenient.tolerant),
    ← covers_append_top locals f.stack n, ← hn]

section Points

variable {program : Program} {flow : TypeFlow} {points : List Nat}

/-- The last one of some points that is reached and is at an offset. -/
def lastPoint? (flow : TypeFlow) (offsets : Offsets) (points : List Nat) (offset : Nat) :
    Option Nat :=
  points.reverse.find? fun point =>
    (flow.frames.getD point none).isSome && offsets.getD point 0 == offset

theorem lastPoint?_append_singleton (point offset : Nat) :
    lastPoint? flow offsets (points ++ [point]) offset =
      if (flow.frames.getD point none).isSome && offsets.getD point 0 == offset then some point
      else lastPoint? flow offsets points offset := by
  rw [lastPoint?, List.reverse_concat, List.find?_cons]
  split
  · rename_i h
    rw [h]
    rfl
  · rename_i h
    rw [h]
    rfl

theorem lastPoint?_eq_some {offset point : Nat}
    (h : lastPoint? flow offsets points offset = some point) :
    point ∈ points ∧ (∃ f, flow.At point f) ∧ offsets.getD point 0 = offset := by
  have hm := List.mem_of_find?_eq_some h
  have hc := List.find?_some h
  rw [Bool.and_eq_true, Option.isSome_iff_exists, beq_iff_eq] at hc
  obtain ⟨⟨f, hf⟩, ho⟩ := hc
  exact ⟨List.mem_reverse.mp hm, ⟨f, getD_eq_some_iff_at.mp hf⟩, ho⟩

theorem exists_lastPoint? {point : Nat} (hp : point ∈ points) (hf : flow.At point f) :
    ∃ last, lastPoint? flow offsets points (offsets.getD point 0) = some last := by
  have hat : flow.frames.getD point none = some f := by
    rw [Array.getD_eq_getD_getElem?, hf]
    rfl
  rw [← Option.isSome_iff_exists, lastPoint?, List.find?_isSome]
  exact ⟨point, List.mem_reverse.mpr hp, by rw [hat]; simp⟩

def HoldsLast (flow : TypeFlow) (offsets : Offsets) (points : List Nat) (b : Builder)
    (table : FrameTable) : Prop :=
  ∀ offset last, lastPoint? flow offsets points offset = some last → ∃ f encoded,
    flow.At last f ∧ table[offset]? = some encoded ∧ Yields (encodeFrame offsets f) b encoded b

theorem computedFrames_holdsLast {table : FrameTable}
    (hy : Yields (points.foldlM (fun table point =>
      match flow.frames.getD point none with
      | none => pure table
      | some frame => return table.insert (offsets.getD point 0) (← encodeFrame offsets frame)) ∅)
      b table b') : HoldsLast flow offsets points b' table := by
  induction points using List.reverseRecOn generalizing table b' with
  | nil => nofun
  | append_singleton points point ih =>
    rw [List.foldlM_append] at hy
    obtain ⟨before, middle, hbefore, hy⟩ := yields_bind.mp hy
    have hold := ih hbefore
    rw [List.foldlM_cons] at hy
    obtain ⟨after, middle', hstep, hnil⟩ := yields_bind.mp hy
    obtain ⟨rfl, rfl⟩ := yields_pure.mp hnil
    intro offset last hlast
    rw [lastPoint?_append_singleton] at hlast
    split at hstep
    · rename_i hnone
      obtain ⟨rfl, rfl⟩ := yields_pure.mp hstep
      rw [hnone] at hlast
      exact hold offset last hlast
    · rename_i frame hsome
      obtain ⟨encoded, middle'', hencode, hp⟩ := yields_bind.mp hstep
      obtain ⟨rfl, rfl⟩ := yields_pure.mp hp
      have hgrow := (lawful_encodeFrame offsets frame).grows hencode
      rw [hsome, Option.isSome_some, Bool.true_and] at hlast
      split at hlast
      · rename_i ho
        obtain rfl := Option.some.inj hlast
        refine ⟨frame, encoded, getD_eq_some_iff_at.mp hsome, ?_,
          (lawful_encodeFrame offsets frame).again hencode (.refl _)⟩
        rw [← beq_iff_eq.mp ho, Std.TreeMap.getElem?_insert_self]
      · rename_i ho
        obtain ⟨f, encoded', hf, htable, hyields⟩ := hold offset last hlast
        refine ⟨f, encoded', hf, ?_, (lawful_encodeFrame offsets f).again hyields hgrow⟩
        have hne : compare (offsets.getD point 0) offset ≠ .eq := by
          rw [ne_eq, Nat.compare_eq_eq]
          exact fun h => ho (beq_iff_eq.mpr h)
        rw [Std.TreeMap.getElem?_insert, if_neg hne, htable]

theorem lawful_addPoint (table : FrameTable) (point : Nat) :
    Lawful (match flow.frames.getD point none with
      | none => pure table
      | some frame =>
        return table.insert (offsets.getD point 0) (← encodeFrame offsets frame)) := by
  split
  · exact lawful_pure _
  · exact (lawful_encodeFrame _ _).bind fun _ => lawful_pure _

theorem lawful_computedFrames (program : Program) (flow : TypeFlow) (offsets : Offsets) :
    Lawful (computedFrames program flow offsets) :=
  lawful_foldlM lawful_addPoint _ _

/-- What holds of all frames that are added one by one holds of those in the table. -/
theorem forall_of_foldlM {γ : Type} {step : FrameTable → γ → Build FrameTable}
    {P : Builder → Nat → EncodedFrame → Prop}
    (hmono : ∀ {b b' offset encoded}, P b offset encoded → b.Within b' → P b' offset encoded)
    (hlawful : ∀ table c, Lawful (step table c))
    (hstep : ∀ {table c b table' b' offset encoded}, Yields (step table c) b table' b' →
      table'[offset]? = some encoded → table[offset]? = some encoded ∨ P b' offset encoded)
    {l : List γ} {start table : FrameTable}
    (hstart : ∀ {offset encoded}, start[offset]? = some encoded → P b offset encoded)
    (hy : Yields (l.foldlM step start) b table b') :
    ∀ {offset encoded}, table[offset]? = some encoded → P b' offset encoded := by
  induction l generalizing start b with
  | nil =>
    obtain ⟨rfl, rfl⟩ := yields_pure.mp hy
    exact hstart
  | cons c l ih =>
    rw [List.foldlM_cons] at hy
    obtain ⟨middle, b₁, hfirst, hy⟩ := yields_bind.mp hy
    refine ih (fun hat => ?_) hy
    rcases hstep hfirst hat with hold | hnew
    · exact hmono (hstart hold) ((hlawful _ _).grows hfirst)
    · exact hnew

/-- Every frame of the table is that of a point at its offset. -/
theorem computedFrames_points {table : FrameTable}
    (hy : Yields (computedFrames program flow offsets) b table b') {offset : Nat}
    (hat : table[offset]? = some encoded) : ∃ point f, flow.At point f ∧
      offsets.getD point 0 = offset ∧ Yields (encodeFrame offsets f) b' encoded b' := by
  refine forall_of_foldlM (P := fun b offset encoded => ∃ point f, flow.At point f ∧
    offsets.getD point 0 = offset ∧ Yields (encodeFrame offsets f) b encoded b) ?_ ?_ ?_ ?_ hy hat
  · rintro b b' offset encoded ⟨point, f, hf, ho, hencode⟩ hw
    exact ⟨point, f, hf, ho, (lawful_encodeFrame _ _).again hencode hw⟩
  · exact lawful_addPoint
  · intro table point b table' b' offset encoded hy hat
    split at hy
    · obtain ⟨rfl, -⟩ := yields_pure.mp hy
      exact .inl hat
    · rename_i frame hsome
      obtain ⟨found, middle, hencode, hp⟩ := yields_bind.mp hy
      obtain ⟨rfl, rfl⟩ := yields_pure.mp hp
      rw [Std.TreeMap.getElem?_insert] at hat
      split at hat
      · rename_i ho
        obtain rfl := Option.some.inj hat
        exact .inr ⟨point, frame, getD_eq_some_iff_at.mp hsome, Nat.compare_eq_eq.mp ho,
          (lawful_encodeFrame _ _).again hencode (.refl _)⟩
      · exact .inl hat
  · intro offset encoded hat
    simp at hat

end Points

section Flowing

variable {hierarchy : Hierarchy} {program : Program} {flow : TypeFlow}
  {code : List (Instruction Label)} {i j : Nat}

theorem lt_of_at (hp : flow.PostFixpoint hierarchy program) (hcode : program.code = code.toArray)
    (hf : flow.At i f) : i < code.length := by
  have := (Array.getElem?_eq_some_iff.mp hf).1
  rwa [hp.size, hcode, List.size_toArray] at this

/-- Of elements at the same offset, a later one allows for what an earlier one has. -/
theorem allows_later (hj : hierarchy.JoinsClasses) (hp : flow.PostFixpoint hierarchy program)
    (hcode : program.code = code.toArray) (hl : Laid b code offsets) (hij : i ≤ j)
    (hlt : j < code.length) (ho : offsets.getD i 0 = offsets.getD j 0) (hf : flow.At i f) :
    flow.Allows hierarchy j f := by
  refine allows_of_markers hj hp hij (fun k hik hkj => ?_) hf
  have hk : code[k]? = some code[k] := List.getElem?_eq_getElem (Nat.lt_trans hkj hlt)
  refine ⟨code[k], by rw [hcode, List.getElem?_toArray, hk], ?_⟩
  rw [← Bool.not_eq_false]
  intro hreal
  have hsize := hl.size_pos hk hreal
  have hbefore := hl.le_of_le hik (Nat.le_of_lt (Nat.lt_trans hkj hlt))
  have hafter := hl.le_of_le (show k + 1 ≤ j from hkj) (Nat.le_of_lt hlt)
  omega

/-- Nothing that is reached is where an instruction starts that is not. -/
theorem offset_ne_of_dead (hj : hierarchy.JoinsClasses) (hp : flow.PostFixpoint hierarchy program)
    (hcode : program.code = code.toArray) (hl : Laid b code offsets) {insn : Instruction Label}
    (hf : flow.At i f) (hd : code[j]? = some insn) (hreal : insn.isMarker = false)
    (hdead : flow.frames.getD j none = none) : offsets.getD i 0 ≠ offsets.getD j 0 := by
  intro ho
  have hlt := (List.getElem?_eq_some_iff.mp hd).1
  have hi := lt_of_at hp hcode hf
  rcases Nat.lt_or_ge j i with hji | hij
  · have hsize := hl.size_pos hd hreal
    have hle := hl.le_of_le (show j + 1 ≤ i from hji) (Nat.le_of_lt hi)
    omega
  · obtain ⟨f', hf', -⟩ := allows_later hj hp hcode hl hij hlt ho hf
    rw [Array.getD_eq_getD_getElem?, hf'] at hdead
    cases hdead

/-- Markers that are reached lead to an instruction. -/
theorem exists_real {i : Nat} {f : SlotFrame} (hp : flow.PostFixpoint hierarchy program)
    (hcode : program.code = code.toArray) (hf : flow.At i f) : ∃ j insn, i ≤ j ∧
      code[j]? = some insn ∧ insn.isMarker = false := by
  obtain ⟨insn, g, targets, hs⟩ := hp.settled hf
  have hat := hs.at_
  rw [hcode, List.getElem?_toArray] at hat
  cases hm : insn.isMarker with
  | false => exact ⟨i, insn, Nat.le_refl i, hat, hm⟩
  | true =>
    obtain ⟨f', hf', -⟩ := hs.next _ (settled_marker hs hm).2
    have hlt := lt_of_at hp hcode hf'
    obtain ⟨j, insn', hij, hj, hreal⟩ := exists_real hp hcode hf'
    exact ⟨j, insn', Nat.le_of_succ_le hij, hj, hreal⟩
termination_by code.length - i

/-- What is reached is before the end of the code. -/
theorem offset_lt_length (hp : flow.PostFixpoint hierarchy program)
    (hcode : program.code = code.toArray) (hl : Laid b code offsets) (hf : flow.At i f) :
    offsets.getD i 0 < offsets.length := by
  obtain ⟨j, insn, hij, hj, hreal⟩ := exists_real hp hcode hf
  have hle := hl.le_of_le hij (Nat.le_of_lt (List.getElem?_eq_some_iff.mp hj).1)
  have hsize := hl.size_pos hj hreal
  have hend := hl.le_length (j + 1)
  omega

theorem mem_framePoints {point : Nat} (h : program.Enters hierarchy flow point f) :
    point ∈ framePoints program := by
  cases h with
  | jump _ at_ _ mem placed =>
    refine List.mem_append_left _ (List.mem_filterMap.mpr ⟨_, ?_, placed⟩)
    exact List.mem_flatMap.mpr ⟨_, Array.mem_toList_iff.mpr (Array.mem_of_getElem? at_), mem⟩
  | before _ _ _ mem _ => exact List.mem_append_right _ (List.mem_map_of_mem mem)
  | after _ _ _ _ mem _ => exact List.mem_append_right _ (List.mem_map_of_mem mem)

theorem mem_foldl_insert {runs : List DeadRun} {table : FrameTable} {dead encoded : EncodedFrame}
    {offset : Nat}
    (h : (runs.foldl (fun table run => table.insert run.startOffset dead) table)[offset]? =
      some encoded) : table[offset]? = some encoded ∨
        encoded = dead ∧ ∃ run ∈ runs, run.startOffset = offset := by
  induction runs generalizing table with
  | nil => exact .inl h
  | cons run runs ih =>
    rcases ih h with hat | ⟨hd, other, hm, ho⟩
    · rw [Std.TreeMap.getElem?_insert] at hat
      split at hat
      · rename_i ho
        exact .inr ⟨(Option.some.inj hat).symm, run, List.mem_cons_self, Nat.compare_eq_eq.mp ho⟩
      · exact .inl hat
    · exact .inr ⟨hd, other, List.mem_cons_of_mem _ hm, ho⟩

theorem getElem?_foldl_insert {runs : List DeadRun} {table : FrameTable} {dead : EncodedFrame}
    {offset : Nat} (h : ∀ run ∈ runs, run.startOffset ≠ offset) :
    (runs.foldl (fun table run => table.insert run.startOffset dead) table)[offset]? =
      table[offset]? := by
  induction runs generalizing table with
  | nil => rfl
  | cons run runs ih =>
    rw [List.foldl_cons, ih fun other hm => h other (List.mem_cons_of_mem _ hm),
      Std.TreeMap.getElem?_insert, if_neg]
    rw [Nat.compare_eq_eq]
    exact h run List.mem_cons_self

end Flowing

section Preparing

variable {setting : Setting} {method : Method} {laidOut : LaidOut} {flow : TypeFlow}
  {handlers : List TryCatch} {table : FrameTable} {prepared : Prepared} {program : Program}

theorem lawful_deadFrame : Lawful deadFrame :=
  (lawful_classRef _).bind fun _ => lawful_pure _

theorem shows_deadFrame (hy : Yields deadFrame b encoded b') (hw : b'.Within b'') (hs : b''.Sound) :
    Shows b''.table encoded ⟨[], [.object Name.throwable]⟩ ∧ Fits encoded := by
  obtain ⟨class_, middle, hclass, hp⟩ := yields_bind.mp hy
  obtain ⟨rfl, rfl⟩ := yields_pure.mp hp
  refine ⟨⟨.nil, .cons ?_ .nil⟩, by simp, by simp⟩
  simp only [ShowsType, VerificationType.traverse, className_found hclass hw hs]
  rfl

/-- Replacing what is not reached adds frames at most where that starts, and moves nothing. -/
structure WithoutDead (laidOut : LaidOut) (flow : TypeFlow) (table : FrameTable)
    (prepared : Prepared) (b' : Builder) : Prop where
  laid : Laid b' prepared.code prepared.offsets
  replaced : ∃ runs, Replaced laidOut.labels (reach laidOut.code flow.frames laidOut.offsets)
    prepared.code runs
  kept : ∀ {offset}, (∀ entry ∈ reach laidOut.code flow.frames laidOut.offsets,
    entry.isDead = true → entry.offset ≠ offset) → prepared.frames[offset]? = table[offset]?
  added : ∀ {offset encoded}, prepared.frames[offset]? = some encoded →
    table[offset]? = some encoded ∨ Yields deadFrame b' encoded b' ∧
      ∃ entry ∈ reach laidOut.code flow.frames laidOut.offsets, entry.isDead = true ∧
        entry.offset = offset

theorem withoutDead_spec (hl : Laid b laidOut.code laidOut.offsets)
    (hy : Yields (withoutDead laidOut flow handlers table) b prepared b') :
    b.Within b' ∧ WithoutDead laidOut flow table prepared b' := by
  have hspec := @replaceDead_spec b laidOut.code laidOut.offsets flow.frames laidOut.labels hl
  unfold withoutDead at hy
  generalize hr : replaceDead laidOut.code laidOut.labels flow.frames laidOut.offsets = result
    at hy hspec
  obtain ⟨code, labels, runs⟩ := result
  dsimp only at hy hspec
  split at hy
  · rename_i hempty
    obtain ⟨rfl, rfl⟩ := yields_pure.mp hy
    have hsame := hspec.same (List.isEmpty_iff.mp hempty)
    rw [map_insn_reach] at hsame
    refine ⟨.refl _, ?_, ⟨runs, hspec⟩, fun _ => rfl, .inl⟩
    dsimp only
    rwa [hsame]
  · obtain ⟨dead, middle, hdead, hy⟩ := yields_bind.mp hy
    obtain ⟨offsets, middle', hlayout, hp⟩ := yields_bind.mp hy
    obtain ⟨rfl, rfl⟩ := yields_pure.mp hp
    have hgrow := (lawful_layout _).grows hlayout
    refine ⟨(lawful_deadFrame.grows hdead).trans hgrow, laid_of_layout hlayout, ⟨runs, hspec⟩,
      fun hne => ?_, fun hat => ?_⟩
    · refine getElem?_foldl_insert fun run hm ho => ?_
      obtain ⟨entry, hentry, hd, hoff⟩ := hspec.starts run hm
      exact hne entry hentry hd (hoff.trans ho)
    · rcases mem_foldl_insert hat with hat | ⟨rfl, run, hm, ho⟩
      · exact .inl hat
      · obtain ⟨entry, hentry, hd, hoff⟩ := hspec.starts run hm
        exact .inr ⟨lawful_deadFrame.again hdead hgrow, entry, hentry, hd, hoff.trans ho⟩

/-- The code ends where it ended. -/
theorem WithoutDead.length_eq (h : WithoutDead laidOut flow table prepared b')
    (hl : Laid b laidOut.code laidOut.offsets) (hw : b.Within b') :
    prepared.offsets.length = laidOut.offsets.length := by
  obtain ⟨runs, hreplaced⟩ := h.replaced
  obtain ⟨hlength, hknown, -⟩ := reach_spec laidOut.code flow.frames laidOut.offsets
  have hlast := hreplaced.code.last (i := 0) (j := 0) hl h.laid hw
    (fun k entry hk => by rw [Nat.zero_add]; exact hknown k entry hk) List.drop_zero (Nat.zero_le _)
    (by rw [hl.first, h.laid.first])
  rw [h.laid.length_eq, hl.length_eq, hlast, Nat.zero_add, hlength]

def unframed (body : Body) : Body :=
  { body with code := body.code.filter fun insn => !insn.isFrame }

theorem placed_unframed (body : Body) : (unframed body).placed = body.placed := by
  simp only [unframed, Body.placed, List.filterMap_filter]
  congr 1
  funext insn
  cases insn <;> rfl

/-- What is analysed: the code as it is laid out, without the frames that it had. -/
structure Analysed (setting : Setting) (method : Method) (b : Builder) (laidOut : LaidOut)
    (program : Program) (flow : TypeFlow) : Prop where
  widened : ∃ b', Yields (widen (setting.displayName method) false (unframed method.body)) b
    laidOut b'
  built : ∃ type, method.type? = .ok type ∧ program =
    programOf (.ofMethod setting.owner method type) laidOut.code method.handlers
  types : computeTypes setting.hierarchy program = .ok flow

/-- The stages in which a method whose frames are computed is prepared. -/
structure Stages (setting : Setting) (method : Method) (b : Builder) (laidOut : LaidOut)
    (program : Program) (flow : TypeFlow) (prepared : Prepared) (b' : Builder) : Prop
    extends Analysed setting method b laidOut program flow where
  labels : method.checkLabels (setting.displayName method) = .ok ()
  steps : ∃ table b₁ b₂,
    Yields (widen (setting.displayName method) false (unframed method.body)) b laidOut b₁ ∧
    Yields (computedFrames program flow laidOut.offsets) b₁ table b₂ ∧
    Yields (withoutDead laidOut flow method.handlers table) b₂ prepared b'

theorem stages_prepare (hc : setting.computesFrames = true)
    (hy : Yields (prepare setting method) b prepared b') :
    ∃ laidOut program flow, Stages setting method b laidOut program flow prepared b' := by
  obtain ⟨_, middle, hchecked, hy⟩ := yields_bind.mp hy
  obtain ⟨hlabels, rfl⟩ := yields_ofExcept.mp hchecked
  rw [if_pos hc] at hy
  unfold prepareWithFrames at hy
  dsimp only at hy
  split at hy
  · obtain ⟨_, _, hthrow, -⟩ := yields_bind.mp hy
    exact absurd hthrow not_yields_throw
  obtain ⟨laidOut, b₁, hwiden, hy⟩ := yields_bind.mp hy
  obtain ⟨context, _, hcontext, hy⟩ := yields_bind.mp hy
  obtain ⟨flow, _, hcomputed, hy⟩ := yields_bind.mp hy
  obtain ⟨table, b₂, htable, hdead⟩ := yields_bind.mp hy
  obtain ⟨hflow, rfl⟩ := yields_ofExcept.mp hcomputed
  unfold contextOf at hcontext
  split at hcontext
  · rename_i type htype
    obtain ⟨rfl, rfl⟩ := yields_pure.mp hcontext
    exact ⟨laidOut, _, flow, ⟨⟨b₁, hwiden⟩, ⟨type, htype, rfl⟩, hflow⟩, mapError_eq_ok.mp hlabels,
      table, b₁, b₂, hwiden, htable, hdead⟩
  · exact absurd hcontext not_yields_throw

/-- The stages are all there is to it, unless there are subroutines. -/
theorem Stages.yields_prepare (h : Stages setting method b laidOut program flow prepared b')
    (hc : setting.computesFrames = true) (hplain : usesSubroutines method.body.code = false) :
    Yields (prepare setting method) b prepared b' := by
  obtain ⟨table, b₁, b₂, hwiden, htable, hdead⟩ := h.steps
  obtain ⟨type, htype, rfl⟩ := h.built
  have hcontext :
      Yields (contextOf setting method) b₁ (.ofMethod setting.owner method type) b₁ := by
    rw [contextOf, htype]
    rfl
  rw [prepare, h.labels, if_pos hc, prepareWithFrames]
  refine yields_bind.mpr ⟨(), b, rfl, ?_⟩
  rw [if_neg (by simp [hplain])]
  refine yields_bind.mpr ⟨laidOut, b₁, hwiden, yields_bind.mpr ⟨_, b₁, hcontext, ?_⟩⟩
  refine yields_bind.mpr ⟨flow, b₁, yields_ofExcept.mpr ⟨h.types, rfl⟩, ?_⟩
  exact yields_bind.mpr ⟨table, b₂, htable, hdead⟩

/-- Labels stay where they were when the code was analysed. -/
theorem Analysed.at_eq (howns : method.body.Owns) (hnodup : method.body.placed.Nodup)
    (hwiden : Yields (widen (setting.displayName method) false (unframed method.body)) b laidOut b')
    {runs : List DeadRun}
    (hreplaced : Replaced laidOut.labels (reach laidOut.code flow.frames laidOut.offsets)
      prepared.code runs)
    (hlaid : Laid b'' prepared.code prepared.offsets) (hw : b'.Within b'') {label : Label}
    {index : Nat} (hi : laidOut.code[index]? = some (.label label)) :
    prepared.labelOffsets.at label = laidOut.offsets.getD index 0 := by
  have hplaced := placed_unframed method.body
  have howns' : (unframed method.body).Owns := fun label hm => howns label (hplaced ▸ hm)
  obtain ⟨sites, hwidest⟩ := widest_of_widen howns' hwiden
  have honce := hwidest.once_of_placed howns' (hplaced ▸ hnodup) hi
  have hbelow : label.index < laidOut.labels := by
    refine hwidest.below label ?_
    rw [← hwidest.placed_eq]
    exact List.mem_filterMap.mpr ⟨_, List.mem_of_getElem? hi, rfl⟩
  obtain ⟨place, -, hunique, hat⟩ := @exists_at_of_once _ _ laidOut.offsets honce
  rw [Prepared.labelOffsets, hreplaced.at_eq hwidest.laid hlaid hw hbelow honce, hat,
    hunique index hi]

namespace Stages

variable (h : Stages setting method b laidOut program flow prepared b')
include h

theorem code_eq : program.code = laidOut.code.toArray := by
  obtain ⟨type, -, rfl⟩ := h.built
  rfl

theorem postFixpoint (hj : setting.hierarchy.JoinsClasses) :
    flow.PostFixpoint setting.hierarchy program := by
  obtain ⟨state, rfl, hdone, hprogress⟩ := progress_of_computeTypes hj h.types
  exact hprogress.postFixpoint hdone

theorem place_lt (i : Nat) : laidOut.offsets.getD i 0 < 0x10000 := by
  obtain ⟨_, hwiden⟩ := h.widened
  obtain ⟨hlaid, hshort⟩ := laid_of_widen hwiden
  have hle := hlaid.le_length i
  unfold maxLength at hshort
  omega

theorem offset_lt (hj : setting.hierarchy.JoinsClasses) {i : Nat} (hf : flow.At i f) :
    laidOut.offsets.getD i 0 < maxLength := by
  obtain ⟨_, hwiden⟩ := h.widened
  obtain ⟨hlaid, hshort⟩ := laid_of_widen hwiden
  exact Nat.lt_of_lt_of_le (offset_lt_length (h.postFixpoint hj) h.code_eq hlaid hf) hshort

/-- The stages after widening only add to the pool, and end without code that is never reached. -/
theorem outcome : ∃ table b₁ b₂,
    Yields (widen (setting.displayName method) false (unframed method.body)) b laidOut b₁ ∧
    Yields (computedFrames program flow laidOut.offsets) b₁ table b₂ ∧ b₁.Within b₂ ∧
    b₂.Within b' ∧ WithoutDead laidOut flow table prepared b' := by
  obtain ⟨table, b₁, b₂, hwiden, htable, hdead⟩ := h.steps
  have hgrow := (lawful_computedFrames _ _ _).grows htable
  exact ⟨table, b₁, b₂, hwiden, htable, hgrow,
    withoutDead_spec ((laid_of_widen hwiden).1.mono hgrow) hdead⟩

theorem at_label (howns : method.body.Owns) {label : Label} {index : Nat}
    (hi : laidOut.code[index]? = some (.label label)) :
    prepared.labelOffsets.at label = laidOut.offsets.getD index 0 := by
  obtain ⟨table, b₁, b₂, hwiden, -, hgrow, hgrow', hspec⟩ := h.outcome
  obtain ⟨runs, hreplaced⟩ := hspec.replaced
  exact Analysed.at_eq howns (Method.nodup_placed h.labels) hwiden hreplaced hspec.laid
    (hgrow.trans hgrow') hi

/-- Every frame is that of a point that is reached, or of one that is not. -/
theorem frame_cases {offset : Nat} (hat : prepared.frames[offset]? = some encoded) :
    (∃ point f, flow.At point f ∧ laidOut.offsets.getD point 0 = offset ∧
      Yields (encodeFrame laidOut.offsets f) b' encoded b') ∨
    (Yields deadFrame b' encoded b' ∧ offset < laidOut.offsets.length) := by
  obtain ⟨table, b₁, b₂, hwiden, htable, -, hgrow, hspec⟩ := h.outcome
  obtain ⟨hlaid, -⟩ := laid_of_widen hwiden
  rcases hspec.added hat with hat | ⟨hyields, entry, hm, hd, rfl⟩
  · obtain ⟨point, f, hf, ho, hencode⟩ := computedFrames_points htable hat
    exact .inl ⟨point, f, hf, ho, (lawful_encodeFrame _ _).again hencode hgrow⟩
  · obtain ⟨-, hknown, -⟩ := reach_spec laidOut.code flow.frames laidOut.offsets
    obtain ⟨index, hi⟩ := List.mem_iff_getElem?.mp hm
    have hdesc := hknown index entry hi
    have hsize := hlaid.size_pos hdesc.insn (hdesc.real hd).1
    have hend := hlaid.le_length (index + 1)
    exact .inr ⟨hyields, by rw [hdesc.offset]; omega⟩

/-- Every frame can be read, and is before the end of the code. -/
theorem shows (hj : setting.hierarchy.JoinsClasses) (hw : b'.Within b'') (hr : b''.Reachable)
    (hcount : ∀ {i f}, flow.At i f → Countable f) {offset : Nat}
    (hat : prepared.frames[offset]? = some encoded) :
    offset < maxLength ∧ Fits encoded ∧ ∃ frame, Shows b''.table encoded frame := by
  rcases h.frame_cases hat with ⟨point, f, hf, rfl, hencode⟩ | ⟨hyields, hlt⟩
  · obtain ⟨hshows, hfits⟩ := shows_encodeFrame (fun _ _ i _ => h.place_lt i) hencode hw hr.sound
    exact ⟨h.offset_lt hj hf, hfits (hcount hf), _, hshows⟩
  · obtain ⟨_, hwiden⟩ := h.widened
    refine ⟨Nat.lt_of_lt_of_le hlt (laid_of_widen hwiden).2, ?_⟩
    obtain ⟨hshows, hfits⟩ := shows_deadFrame hyields hw hr.sound
    exact ⟨hfits, _, hshows⟩

/-- Whatever is entered other than from the element before has a frame. It is that of the last
point that is at this offset, and allows for what enters exactly if that point does; which it does
if it does not come before the point that is entered. -/
theorem covers (hj : setting.hierarchy.JoinsClasses) (hw : b'.Within b'') (hr : b''.Reachable)
    {point : Nat} {g : SlotFrame} (henters : program.Enters setting.hierarchy flow point g) :
    ∃ last f encoded,
      lastPoint? flow laidOut.offsets (framePoints program) (laidOut.offsets.getD point 0) =
        some last ∧ flow.At last f ∧
      prepared.frames[laidOut.offsets.getD point 0]? = some encoded ∧
      Shows b''.table encoded (shown laidOut.offsets f) ∧
      (Covers setting.hierarchy (slotForm (shown laidOut.offsets f))
        (g.mapCreation (laidOut.offsets.getD · 0)) ↔ Covers setting.hierarchy f g) ∧
      (point ≤ last → Covers setting.hierarchy f g) := by
  obtain ⟨table, b₁, b₂, hwiden, htable, -, hgrow, hspec⟩ := h.outcome
  obtain ⟨hlaid, hshort⟩ := laid_of_widen hwiden
  have hfix := h.postFixpoint hj
  have hinv := invariant_wellFormed setting.hierarchy program
  obtain ⟨f₀, hf₀, habsorbs⟩ := henters.allows hfix
  obtain ⟨last, hlast⟩ :=
    @exists_lastPoint? laidOut.offsets _ _ _ _ (mem_framePoints henters) hf₀
  obtain ⟨f, encoded, hf, hat, hencode⟩ := computedFrames_holdsLast htable _ last hlast
  refine ⟨last, f, encoded, hlast, hf, ?_, ?_, ?_, ?_⟩
  · rw [hspec.kept, hat]
    intro entry hm hd ho
    obtain ⟨-, hknown, -⟩ := reach_spec laidOut.code flow.frames laidOut.offsets
    obtain ⟨index, hi⟩ := List.mem_iff_getElem?.mp hm
    have hdesc := hknown index entry hi
    obtain ⟨hreal, hnone⟩ := hdesc.real hd
    exact offset_ne_of_dead hj hfix h.code_eq hlaid hf₀ hdesc.insn hreal hnone
      (ho.symm.trans hdesc.offset)
  · exact (shows_encodeFrame (fun _ _ i _ => h.place_lt i) hencode (hgrow.trans hw) hr.sound).1
  · exact covers_shown h.code_eq hlaid (hinv.computeTypes h.types hf)
      (hinv.enters h.types henters)
  · intro hle
    obtain ⟨-, -, ho⟩ := lastPoint?_eq_some hlast
    obtain ⟨f', hf', ha⟩ := allows_later hj hfix h.code_eq hlaid hle (lt_of_at hfix h.code_eq hf)
      ho.symm hf₀
    obtain rfl := hf.unique hf'
    exact (ha.trans hj habsorbs).covers

end Stages

end Preparing

end ClassTree.Code
