import ClassTree.Proofs.Code.DeadRuns
import ClassTree.Proofs.Code.Ready
import ClassTree.Proofs.Reading.RoundTrip

namespace ClassTree

def Method.sized (method : Method) (maxStack maxLocals : Nat) : Method :=
  { method with maxStack := UInt16.ofNat maxStack, maxLocals := UInt16.ofNat maxLocals }

namespace Code

open Pool Build ClassTree.Flow StackMap

variable {b b' : Builder} {setting : Setting} {method : Method} {prepared : Prepared}
  {laidOut : LaidOut}

/-- Code in which nothing was replaced is as it was. -/
theorem Filled.map_fst_eq {frames : Array (Option SlotFrame)} {offsets : Offsets}
    {labels labels' : Nat} {elements placed : List (Instruction Label × Nat)} {runs : List DeadRun}
    (h : Filled frames offsets labels elements placed labels' runs) (hnone : runs = []) :
    placed.map Prod.fst = elements.map Prod.fst := by
  induction h with
  | nil => rfl
  | keep _ _ ih => rw [List.map_cons, List.map_cons, ih hnone]
  | run => cases hnone

/-- Each run that is replaced gets labels of its own. -/
theorem Filled.exists_new {frames : Array (Option SlotFrame)} {offsets : Offsets}
    {labels labels' : Nat} {elements placed : List (Instruction Label × Nat)} {runs : List DeadRun}
    (h : Filled frames offsets labels elements placed labels' runs) (hne : runs ≠ []) :
    ∃ label : Label, labels ≤ label.index ∧ .label label ∈ placed.map Prod.fst := by
  induction h with
  | nil => exact absurd rfl hne
  | keep _ _ ih =>
    obtain ⟨label, hle, hm⟩ := ih hne
    exact ⟨label, hle, List.mem_cons_of_mem _ hm⟩
  | @run _ _ _ _ labels => exact ⟨⟨labels⟩, Nat.le_refl _, List.mem_cons_self⟩

/-- Without labels for runs, there is no run. -/
theorem withoutDead_of_below {flow : TypeFlow} {handlers : List TryCatch} {table : FrameTable}
    (hy : Yields (withoutDead laidOut flow handlers table) b prepared b')
    (hbelow : ∀ label, .label label ∈ prepared.code → label.index < laidOut.labels) :
    prepared.code = laidOut.code ∧ prepared.offsets = laidOut.offsets ∧
      prepared.handlers = handlers ∧ b = b' := by
  obtain ⟨placed, hfilled, hcode⟩ :=
    exists_filled laidOut.code laidOut.labels flow.frames laidOut.offsets
  unfold withoutDead at hy
  generalize replaceDead laidOut.code laidOut.labels flow.frames laidOut.offsets = result
    at hy hfilled hcode
  obtain ⟨code, labels, runs⟩ := result
  dsimp only at hy hfilled hcode
  split at hy
  · rename_i hempty
    obtain ⟨rfl, rfl⟩ := yields_pure.mp hy
    have hsame := hcode.trans (hfilled.map_fst_eq (List.isEmpty_iff.mp hempty))
    exact ⟨hsame.trans (List.zipIdx_map_fst 0 laidOut.code), rfl, rfl, rfl⟩
  · rename_i hruns
    obtain ⟨dead, middle, -, hy⟩ := yields_bind.mp hy
    obtain ⟨offsets, middle', -, hp⟩ := yields_bind.mp hy
    obtain ⟨rfl, -⟩ := yields_pure.mp hp
    obtain ⟨label, hle, hm⟩ := hfilled.exists_new (by simpa using hruns)
    exact absurd (hbelow label (hcode ▸ hm)) (Nat.not_lt.mpr hle)

structure Keeps (b : Builder) (setting : Setting) (method : Method) (prepared : Prepared)
    (laidOut : LaidOut) : Prop where
  labels : method.checkLabels (setting.displayName method) = .ok ()
  widest : ∃ sites, Widest method.body b laidOut sites
  code : laidOut.code = method.body.code
  prepared_code : prepared.code = method.body.code
  offsets : prepared.offsets = laidOut.offsets
  handlers : prepared.handlers = method.handlers

theorem unframed_of_any {body : Body} (h : body.code.any Instruction.isFrame = false) :
    unframed body = body := by
  unfold unframed
  rw [List.filter_eq_self.mpr fun insn hm => by simpa using List.any_eq_false.mp h insn hm]

theorem exists_keeps (howns : method.body.Owns)
    (hframes : method.body.code.any Instruction.isFrame = false)
    (hy : Yields (prepare setting method) b prepared b) (hkept : prepared.code = method.body.code) :
    ∃ laidOut, Keeps b setting method prepared laidOut := by
  cases hc : setting.computesFrames with
  | true =>
    obtain ⟨laidOut, program, flow, hstages⟩ := stages_prepare hc hy
    obtain ⟨table, b₁, b₂, hwiden, htable, hdead⟩ := hstages.steps
    rw [unframed_of_any hframes] at hwiden
    obtain ⟨sites, hwidest⟩ := widest_of_widen howns hwiden
    have hbelow : ∀ label, .label label ∈ prepared.code → label.index < laidOut.labels := by
      intro label hm
      rw [hkept] at hm
      exact Nat.lt_of_lt_of_le (howns label (List.mem_filterMap.mpr ⟨_, hm, rfl⟩)) hwidest.more
    obtain ⟨hcode, hoffsets, hhandlers, rfl⟩ := withoutDead_of_below hdead hbelow
    exact ⟨laidOut, hstages.labels,
      ⟨sites, hwidest.mono ((lawful_computedFrames _ _ _).grows htable)⟩, hcode.symm.trans hkept,
      hkept, hoffsets, hhandlers⟩
  | false =>
    obtain ⟨_, middle, hchecked, hy⟩ := yields_bind.mp hy
    obtain ⟨hlabels, rfl⟩ := yields_ofExcept.mp hchecked
    rw [if_neg (by simp [hc])] at hy
    obtain ⟨laidOut, b₁, hwiden, hy⟩ := yields_bind.mp hy
    obtain ⟨⟨maxStack, maxLocals⟩, b₂, hmaxima, hy⟩ := yields_bind.mp hy
    obtain ⟨sites, hwidest⟩ := widest_of_widen howns hwiden
    have hgrow := (lawful_maxima _ _ _).grows hmaxima
    have hlaidOut : ∃ table, b₂.Within b ∧ prepared =
        ⟨laidOut.code, laidOut.offsets, method.handlers, table, maxStack, maxLocals⟩ := by
      dsimp only at hy
      split at hy
      · obtain ⟨table, b₃, htable, hp⟩ := yields_bind.mp hy
        obtain ⟨rfl, rfl⟩ := yields_pure.mp hp
        exact ⟨table, (lawful_placedFrames _).grows htable, rfl⟩
      · obtain ⟨table, b₃, htable, hp⟩ := yields_bind.mp hy
        obtain ⟨rfl, rfl⟩ := yields_pure.mp htable
        obtain ⟨rfl, rfl⟩ := yields_pure.mp hp
        exact ⟨∅, .refl _, rfl⟩
    obtain ⟨table, hwithin, rfl⟩ := hlaidOut
    exact ⟨laidOut, mapError_eq_ok.mp hlabels, ⟨sites, hwidest.mono (hgrow.trans hwithin)⟩, hkept,
      hkept, rfl, rfl⟩

section Reading

variable {owner : String} {table : Table} {declared : Method} {info : Bytes}

/-- Frames that are skipped are no table. -/
theorem isTable_skipped {fits : List (Nat × OffsetFrame) → Prop}
    {reader : Reader (List (Nat × OffsetFrame))} {frames : Option (List (Nat × OffsetFrame))}
    {placed : List RawAttribute} (h : Holds "StackMapTable" reader fits frames placed) :
    List.Forall₂ (IsTable owner method table ⟨false, true⟩) placed (placed.map fun _ => none) := by
  cases frames with
  | none =>
    obtain rfl : placed = [] := h
    exact .nil
  | some frames =>
    obtain ⟨info, rfl, -⟩ := h
    exact .cons (fun _ => rfl) .nil

/-- Code that stays as it is when it is written, and when it is read again: every switch is in the
order of its keys, no handler has an empty range, and variables, none of which ends before it
starts, are told apart. Everything can be counted. What is changed the first time may be changed
again: a widened jump can be short enough once it is read back, and what a handler catches counts
for the frame that it leads to only until its range is dropped. -/
structure Prepared.Steady (prepared : Prepared) (method : Method) : Prop where
  code : prepared.code = method.body.code
  switches : ∀ default cases, .lookupSwitch default cases ∈ method.body.code →
    cases.Pairwise fun entry later => entry.1.toInt ≤ later.1.toInt
  ranges : ∀ handler ∈ method.handlers,
    prepared.labelOffsets.at handler.start < prepared.labelOffsets.at handler.stop
  variables_ : ∀ entry ∈ method.variableList,
    prepared.labelOffsets.at entry.start ≤ prepared.labelOffsets.at entry.stop
  keys : (method.variableList.map fun entry =>
    (resolveVariable prepared.labelOffsets.at entry).1.key).Nodup
  handlerCount : method.handlers.length < 0x10000
  lineCount : method.body.code.countP Instruction.isLine < 0x10000
  variableCount : method.variableList.length < 0x10000

theorem length_offsetLines (labels : LabelOffsets) (code : List (Instruction Label)) :
    (offsetLines labels code).length = code.countP Instruction.isLine := by
  rw [offsetLines, List.length_filterMap_eq_countP]
  refine List.countP_congr fun insn _ => ?_
  cases insn <;> simp [Instruction.isLine]

theorem Keeps.fits (h : Keeps b setting method prepared laidOut) (hs : prepared.Steady method)
    (hframes : ∀ insn ∈ method.body.code, insn.isFrame = false) : laidOut.Fits method where
  handlers := by
    rw [offsetHandlers, List.length_map]
    exact Nat.lt_of_le_of_lt (List.length_filter_le _ _) hs.handlerCount
  lines := by
    rw [length_offsetLines, h.code]
    exact hs.lineCount
  variables_ := fun entries he => by
    have hcount := hs.variableCount
    rw [Method.variableList, he, Option.getD_some] at hcount
    exact Nat.lt_of_le_of_lt (List.length_filter_le _ _) hcount
  frames := fun locals stack hm => absurd (hframes _ (h.code ▸ hm)) (by simp [Instruction.isFrame])

theorem Keeps.labelOffsets (h : Keeps b setting method prepared laidOut) :
    prepared.labelOffsets = laidOut.labelOffsets := by
  rw [Prepared.labelOffsets, LaidOut.labelOffsets, h.prepared_code, h.offsets, h.code]

/-- What is written for a method whose code stays as it is, is read as that code. -/
theorem exists_readListing_skipping (hr : b.Reachable) (howns : method.body.Owns)
    (hframes : ∀ insn ∈ method.body.code, insn.isFrame = false)
    (hcan : ∀ insn ∈ method.body.code, insn.Canonical) (hsize : b.bootstrap.size ≤ 0x10000)
    (hsteady : ∀ prepared, Yields (prepare setting method) b prepared b → prepared.Steady method)
    (hlength : info.length < 0x100000000) (hy : Yields (attributeInfo setting method) b info b) :
    ∃ prepared laidOut, prepared.Steady method ∧ Keeps b setting method prepared laidOut ∧
      ∀ base, Cursor.parse ⟨info, 0, base⟩ (readListing owner declared b.table ⟨false, true⟩) =
        .ok (laidOut.listing
          (method.sized (min prepared.maxStack 0xFFFF) (min prepared.maxLocals 0xFFFF)) []) := by
  obtain ⟨prepared, stored, hprepare, hstored, hle, hreads⟩ := stored_of_attributeInfo hr hy
  have hprepared := hsteady prepared hprepare
  obtain ⟨laidOut, hkeeps⟩ := exists_keeps howns
    (List.any_eq_false.mpr fun insn hm => by simp [hframes insn hm]) hprepare hprepared.code
  have hlaidOut := hkeeps.fits hprepared hframes
  have hlabels := hkeeps.labelOffsets
  obtain ⟨sites, hwidest⟩ := hkeeps.widest
  have hhandlers : offsetHandlers prepared.labelOffsets prepared.handlers =
      offsetHandlers laidOut.labelOffsets method.handlers := by rw [hlabels, hkeeps.handlers]
  have hstoredFits := fits_storedCode hstored (hhandlers ▸ hlaidOut.handlers) hle hlength
  obtain ⟨parts, harray, hparts⟩ := hstored.array
  rw [Parts, hlabels, hkeeps.offsets, hkeeps.prepared_code, ← hkeeps.code] at hparts
  obtain ⟨lines, variables_, signatures, placed, frames, hall, h₁, h₂, h₃, -, h₄⟩ :=
    hstored.attributes
  rw [hlabels, hkeeps.prepared_code, ← hkeeps.code] at h₁
  rw [hlabels] at h₂ h₃
  have hdecode := fun base =>
    decode_parts hwidest.toLastRound (hkeeps.code ▸ hcan) hr.sound hsize hparts base
  have htables : List.Forall₂ (IsTable owner declared b.table ⟨false, true⟩) stored.attributes
      ((laidOut.tables method []).map some ++ placed.map fun _ => none) := by
    rw [hall]
    exact List.rel_append (isTable_debug hlaidOut h₁ h₂ h₃) (isTable_skipped h₄)
  have hnone : (placed.map fun _ => (none : Option CodeTable)).filterMap id = [] := by
    rw [List.filterMap_map, List.filterMap_eq_nil_iff]
    exact fun _ _ => rfl
  have hclamped : stored.clamped = ⟨min prepared.maxStack 0xFFFF, min prepared.maxLocals 0xFFFF,
      parts.flatten, offsetHandlers laidOut.labelOffsets method.handlers, stored.attributes⟩ := by
    rw [StoredCode.clamped, hstored.maxStack, hstored.maxLocals, harray, hstored.handlers,
      hhandlers]
  have hreads := hreads hstoredFits
  rw [hclamped] at hreads
  refine ⟨prepared, laidOut, hprepared, hkeeps, fun base => ?_⟩
  rw [StoredCode.parse_readListing hreads (fun base => (hdecode base).1) htables base]
  simp only [(hdecode 0).2, List.filterMap_append, hnone, List.append_nil, List.filterMap_map,
    Function.id_comp, List.filterMap_some]
  rfl

end Reading

end Code

end ClassTree
