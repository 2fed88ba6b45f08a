import ClassTree.Proofs.Code.Lawful

namespace ClassTree.Code

open Pool Build ClassTree.Flow ClassTree.Frame StackMap

variable {setting : Setting} {method : Method} {b b' b'' : Builder} {prepared : Prepared}

/-- Elements are where their offsets say, offsets can be expressed, and frames can be read. -/
structure Ready (b : Builder) (prepared : Prepared) : Prop where
  laid : Laid b prepared.code prepared.offsets
  short : prepared.offsets.length ≤ maxLength
  frames : ∀ {offset encoded}, prepared.frames[offset]? = some encoded →
    offset < 0x10000 ∧ ∃ frame, Shows b.table encoded frame

theorem Ready.at_lt (h : Ready b prepared) (label : Label) :
    prepared.labelOffsets.at label < 0x10000 := by
  rw [Prepared.labelOffsets, labelOffsets_at h.laid]
  exact Nat.lt_of_le_of_lt (Nat.le_trans (h.laid.le_length _) h.short) (by decide)

theorem Stages.ready {laidOut : LaidOut} {program : Program} {flow : TypeFlow}
    (h : Stages setting method b laidOut program flow prepared b') (hr : b'.Reachable) :
    Ready b' prepared := by
  obtain ⟨table, b₁, b₂, hwiden, -, hgrow, hgrow', hspec⟩ := h.outcome
  obtain ⟨hlaid, hshort⟩ := laid_of_widen hwiden
  have hlength := hspec.length_eq hlaid (hgrow.trans hgrow')
  refine ⟨hspec.laid, hlength ▸ hshort, fun hat => ?_⟩
  rcases h.frame_cases hat with ⟨point, f, hf, rfl, hencode⟩ | ⟨hyields, hlt⟩
  · exact ⟨h.place_lt point, _,
      (shows_encodeFrame (fun _ _ i _ => h.place_lt i) hencode (.refl _) hr.sound).1⟩
  · exact ⟨Nat.lt_of_lt_of_le hlt (Nat.le_trans hshort (by decide)), _,
      (shows_deadFrame hyields (.refl _) hr.sound).1⟩

/-- Frames that are placed by hand are before the end of the code. -/
theorem placedFrames_frames {laidOut : LaidOut} {table : FrameTable}
    (hy : Yields (placedFrames laidOut) b table b') {offset : Nat} {encoded : EncodedFrame}
    (hat : table[offset]? = some encoded) : offset < laidOut.offsets.length ∧
      ∃ frame : Frame String Label, Yields (frame.traverse Build.classRef fun label =>
        UInt16.ofNat ((LabelOffsets.ofCode laidOut.code laidOut.offsets).at label))
        b' encoded b' := by
  refine forall_of_foldlM (P := fun b offset encoded => offset < laidOut.offsets.length ∧
    ∃ frame : Frame String Label, Yields (frame.traverse Build.classRef fun label =>
      UInt16.ofNat ((LabelOffsets.ofCode laidOut.code laidOut.offsets).at label)) b encoded b)
    ?_ (lawful_addPlaced laidOut) ?_ ?_ hy hat
  · rintro b b' offset encoded ⟨hlt, frame, hencode⟩ hw
    exact ⟨hlt, frame, (lawful_frame _ _).again hencode hw⟩
  · rintro table ⟨insn, index⟩ b table' b' offset encoded hy hat
    dsimp only at hy
    split at hy
    · split at hy
      · rename_i hlt
        obtain ⟨found, middle, hencode, hp⟩ := yields_bind.mp hy
        obtain ⟨rfl, rfl⟩ := yields_pure.mp hp
        rw [Std.TreeMap.getElem?_insert] at hat
        split at hat
        · rename_i ho
          obtain rfl := Option.some.inj hat
          exact .inr ⟨Nat.compare_eq_eq.mp ho ▸ hlt, _,
            (lawful_frame _ _).again hencode (.refl _)⟩
        · exact .inl hat
      · obtain ⟨rfl, -⟩ := yields_pure.mp hy
        exact .inl hat
    · obtain ⟨rfl, -⟩ := yields_pure.mp hy
      exact .inl hat
  · intro offset encoded hat
    simp at hat

theorem ready_prepareAsIs (hy : Yields (prepareAsIs setting method) b prepared b')
    (hr : b'.Reachable) : Ready b' prepared := by
  obtain ⟨laidOut, b₁, hwiden, hy⟩ := yields_bind.mp hy
  obtain ⟨⟨maxStack, maxLocals⟩, b₂, hmaxima, hy⟩ := yields_bind.mp hy
  obtain ⟨hlaid, hshort⟩ := laid_of_widen hwiden
  have hgrow := (lawful_maxima _ _ _).grows hmaxima
  dsimp only at hy
  split at hy
  · obtain ⟨frames, b₃, hframes, hp⟩ := yields_bind.mp hy
    obtain ⟨rfl, rfl⟩ := yields_pure.mp hp
    refine ⟨hlaid.mono (hgrow.trans ((lawful_placedFrames _).grows hframes)), hshort, fun hat => ?_⟩
    obtain ⟨hlt, frame, hencode⟩ := placedFrames_frames hframes hat
    refine ⟨Nat.lt_of_lt_of_le hlt (Nat.le_trans hshort (by decide)), _,
      shows_frame (fun _ _ label _ => ?_) hencode (.refl _) hr.sound⟩
    rw [labelOffsets_at hlaid]
    exact Nat.lt_of_le_of_lt (Nat.le_trans (hlaid.le_length _) hshort) (by decide)
  · obtain ⟨frames, b₃, hframes, hp⟩ := yields_bind.mp hy
    obtain ⟨rfl, rfl⟩ := yields_pure.mp hframes
    obtain ⟨rfl, rfl⟩ := yields_pure.mp hp
    refine ⟨hlaid.mono hgrow, hshort, fun hat => ?_⟩
    simp at hat

theorem ready_prepare (hy : Yields (prepare setting method) b prepared b') (hr : b'.Reachable) :
    Ready b' prepared := by
  cases hc : setting.computesFrames with
  | true =>
    obtain ⟨laidOut, program, flow, hstages⟩ := stages_prepare hc hy
    exact hstages.ready hr
  | false =>
    obtain ⟨_, middle, hchecked, hy⟩ := yields_bind.mp hy
    rw [if_neg (by simp [hc])] at hy
    exact ready_prepareAsIs hy hr

end ClassTree.Code
