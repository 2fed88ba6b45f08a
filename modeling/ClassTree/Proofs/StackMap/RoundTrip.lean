import ClassTree.Proofs.Bytes.Reading
import ClassTree.StackMap.Entry
import ClassTree.StackMap.Reading
import Mathlib.Data.List.Perm.Subperm

namespace ClassTree.StackMap

open Pool Reader

variable {table : Table} {previous encoded : EncodedFrame} {before frame : OffsetFrame}
  {types : List EncodedType} {found : List (VerificationType String Nat)}

def ShowsType (table : Table) (type : EncodedType) (found : VerificationType String Nat) : Prop :=
  type.traverse table.className UInt16.toNat = .ok found

structure Shows (table : Table) (encoded : EncodedFrame) (frame : OffsetFrame) : Prop where
  locals : List.Forall₂ (ShowsType table) encoded.locals frame.locals
  stack : List.Forall₂ (ShowsType table) encoded.stack frame.stack

/-- The numbers of locals and of values on the stack can be written. -/
structure Fits (encoded : EncodedFrame) : Prop where
  locals : encoded.locals.length < 0x10000
  stack : encoded.stack.length < 0x10000

theorem reads_type {type : EncodedType} {found : VerificationType String Nat}
    (h : ShowsType table type found) (p : Nat) :
    Reads (readType table) p (encodeType type) found := by
  cases type with
  | object index =>
    obtain ⟨name, hn, h⟩ := bind_eq_ok.mp h
    obtain rfl := pure_eq_ok.mp h
    exact (reads_u8 7 p).bind ((reads_u16 index _).bind ((reads_lift hn _).map _))
  | uninitialized offset =>
    obtain rfl := pure_eq_ok.mp h
    exact (reads_u8 8 p).bind ((reads_u16 offset _).map _)
  | _ =>
    obtain rfl := pure_eq_ok.mp h
    exact (reads_u8 _ p).bind (reads_pure _ _)

theorem forall₂_reads (h : List.Forall₂ (ShowsType table) types found) :
    List.Forall₂ (fun type found => ∀ p, Reads (readType table) p (encodeType type) found)
      types found :=
  h.imp fun _ _ h => reads_type h

theorem toNat_toUInt8_of_le {delta : UInt16} (h : delta ≤ 63) :
    delta.toUInt8.toNat = delta.toNat := by
  have h : delta.toNat ≤ 63 := UInt16.le_iff_toNat_le.mp h
  rw [UInt16.toNat_toUInt8]
  omega

theorem le_of_toUInt8 {delta : UInt16} (h : delta ≤ 63) : delta.toUInt8 ≤ 63 := by
  rw [UInt8.le_iff_toNat_le, toNat_toUInt8_of_le h]
  exact UInt16.le_iff_toNat_le.mp h

theorem reads_same (locals : List (VerificationType String Nat)) (delta : UInt16) (p : Nat) :
    Reads (readEntry table locals) p (Entry.encode ⟨delta, .same⟩) (delta.toNat, ⟨locals, []⟩) := by
  unfold readEntry
  simp only [Entry.encode]
  split
  · rename_i hle
    refine (reads_u8 _ p).bind_pure ?_
    rw [if_pos (le_of_toUInt8 hle), toNat_toUInt8_of_le hle]
  · refine (reads_u8 251 p).bind ?_
    exact (reads_u16 delta _).map _

theorem reads_sameWithStack {type : EncodedType} {found : VerificationType String Nat}
    (h : ShowsType table type found) (locals : List (VerificationType String Nat)) (delta : UInt16)
    (p : Nat) : Reads (readEntry table locals) p (Entry.encode ⟨delta, .sameWithStack type⟩)
      (delta.toNat, ⟨locals, [found]⟩) := by
  unfold readEntry
  simp only [Entry.encode]
  split
  · rename_i hle
    have hn := toNat_toUInt8_of_le hle
    have hle : delta.toNat ≤ 63 := UInt16.le_iff_toNat_le.mp hle
    have htag : (delta.toUInt8 + 64).toNat = delta.toNat + 64 := by
      rw [UInt8.toNat_add, hn]
      exact Nat.mod_eq_of_lt (by change delta.toNat + 64 < 256; omega)
    refine (reads_u8 _ p).bind ?_
    have hlow : ¬ delta.toUInt8 + 64 ≤ 63 := by
      rw [UInt8.le_iff_toNat_le, htag]
      exact Nat.not_le.mpr (Nat.lt_add_left _ (by decide))
    have hhigh : delta.toUInt8 + 64 ≤ 127 := by
      rw [UInt8.le_iff_toNat_le, htag]
      exact Nat.add_le_add_right hle 64
    rw [if_neg hlow, if_pos hhigh]
    refine (reads_type h _).bind_pure ?_
    rw [htag, Nat.add_sub_cancel]
  · rw [List.append_assoc]
    exact (reads_u8 247 p).bind ((reads_u16 delta _).bind ((reads_type h _).map _))

theorem reads_chop {locals : List (VerificationType String Nat)} {count : Nat} (hpos : 0 < count)
    (hlt : count < 4) (hle : count ≤ locals.length) (delta : UInt16) (p : Nat) :
    Reads (readEntry table locals) p (Entry.encode ⟨delta, .chop count⟩)
      (delta.toNat, ⟨locals.take (locals.length - count), []⟩) := by
  have hbranch : ∀ tag : UInt8, 251 - tag.toNat = count → Reads (do
      let delta ← Reader.u16
      let chopped := 251 - tag.toNat
      if locals.length < chopped then bad "chop frame removes too many locals"
      return (delta.toNat, (⟨locals.take (locals.length - chopped), []⟩ : OffsetFrame)))
        (p + 1) (BigEndian.u16 delta) (delta.toNat, ⟨locals.take (locals.length - count), []⟩) := by
    intro tag htag
    refine (reads_u16 delta _).bind_pure ?_
    simp only [htag]
    rw [if_neg (Nat.not_lt.mpr hle)]
  unfold readEntry
  simp only [Entry.encode]
  match count, hpos, hlt with
  | 1, _, _ => exact (reads_u8 250 p).bind (hbranch 250 rfl)
  | 2, _, _ => exact (reads_u8 249 p).bind (hbranch 249 rfl)
  | 3, _, _ => exact (reads_u8 248 p).bind (hbranch 248 rfl)

theorem reads_append (h : List.Forall₂ (ShowsType table) types found) (hpos : 0 < types.length)
    (hlt : types.length < 4) (locals : List (VerificationType String Nat)) (delta : UInt16)
    (p : Nat) : Reads (readEntry table locals) p (Entry.encode ⟨delta, .append types⟩)
      (delta.toNat, ⟨locals ++ found, []⟩) := by
  unfold readEntry
  simp only [Entry.encode, List.append_assoc]
  have htypes := fun p => reads_times_of_forall₂ (forall₂_reads h) p
  generalize hn : types.length = n at htypes hpos hlt
  match n, hpos, hlt with
  | 1, _, _ => exact (reads_u8 252 p).bind ((reads_u16 delta _).bind ((htypes _).map _))
  | 2, _, _ => exact (reads_u8 253 p).bind ((reads_u16 delta _).bind ((htypes _).map _))
  | 3, _, _ => exact (reads_u8 254 p).bind ((reads_u16 delta _).bind ((htypes _).map _))

theorem reads_full (h : Shows table encoded frame) (hf : Fits encoded)
    (locals : List (VerificationType String Nat)) (delta : UInt16) (p : Nat) :
    Reads (readEntry table locals) p (Entry.encode ⟨delta, .replace encoded⟩)
      (delta.toNat, frame) := by
  unfold readEntry
  simp only [Entry.encode, Change.replace, List.append_assoc]
  have hlocals := reads_counted (forall₂_reads h.locals) hf.locals
  have hstack := reads_counted (forall₂_reads h.stack) hf.stack
  exact (reads_u8 255 p).bind ((reads_u16 delta _).bind ((hlocals _).bind ((hstack _).map _)))

theorem found_unique {found' : List (VerificationType String Nat)}
    (h : List.Forall₂ (ShowsType table) types found)
    (h' : List.Forall₂ (ShowsType table) types found') : found = found' :=
  Except.ok.inj ((mapM_eq_ok.mpr h).symm.trans (mapM_eq_ok.mpr h'))

theorem Shows.unique {frame' : OffsetFrame} (h : Shows table encoded frame)
    (h' : Shows table encoded frame') : frame = frame' := by
  obtain ⟨locals, stack⟩ := frame
  obtain rfl : locals = _ := found_unique h.locals h'.locals
  obtain rfl : stack = _ := found_unique h.stack h'.stack
  rfl

/-- An entry is read as the frame that it leads to. -/
theorem reads_between (hp : Shows table previous before) (h : Shows table encoded frame)
    (hf : Fits encoded) (delta : UInt16) (p : Nat) :
    Reads (readEntry table before.locals) p (Entry.encode ⟨delta, .between previous encoded⟩)
      (delta.toNat, frame) := by
  have hfull := reads_full h hf before.locals delta p
  obtain ⟨locals, stack⟩ := frame
  have hlocals := h.locals
  have hstack := h.stack
  dsimp only at hlocals hstack
  unfold Change.between
  split
  · rename_i hnil
    rw [hnil, List.forall₂_nil_left_iff] at hstack
    subst hstack
    dsimp only
    split
    · split
      · rename_i heq
        rw [heq] at hlocals
        obtain rfl := found_unique hp.locals hlocals
        exact reads_same _ delta p
      · exact hfull
    split
    · rename_i hlt
      split
      · rename_i hchop
        -- The locals that are left are the first ones of those before.
        have htake := List.prefix_iff_eq_take.mp (List.isPrefixOf_iff_prefix.mp hchop.2)
        have hkept := List.forall₂_take encoded.locals.length hp.locals
        rw [← htake] at hkept
        obtain rfl := found_unique hkept hlocals
        have hchopped := @reads_chop table before.locals _ (Nat.sub_pos_of_lt hlt) hchop.1
          (hp.locals.length_eq ▸ Nat.sub_le _ _) delta p
        rwa [← hp.locals.length_eq, Nat.sub_sub_self (Nat.le_of_lt hlt)] at hchopped
      · exact hfull
    · rename_i hne hge
      split
      · rename_i happend
        -- The locals before are the first ones, and the others are new.
        have htake := List.prefix_iff_eq_take.mp (List.isPrefixOf_iff_prefix.mp happend.2)
        have hold := List.forall₂_take previous.locals.length hlocals
        rw [← htake] at hold
        have hnew := List.forall₂_drop previous.locals.length hlocals
        have hlen : (encoded.locals.drop previous.locals.length).length =
          encoded.locals.length - previous.locals.length := List.length_drop
        have happended := reads_append hnew (by omega) (by omega) before.locals delta p
        have hall : before.locals ++ locals.drop previous.locals.length = locals := by
          rw [found_unique hp.locals hold, List.take_append_drop]
        rwa [hall] at happended
      · exact hfull
  · rename_i type hone
    rw [hone, List.forall₂_cons_left_iff] at hstack
    obtain ⟨found, rest, hfound, hrest, rfl⟩ := hstack
    obtain rfl := List.forall₂_nil_left_iff.mp hrest
    split
    · rename_i heq
      rw [heq] at hlocals
      obtain rfl := found_unique hp.locals hlocals
      exact reads_sameWithStack hfound _ delta p
    · exact hfull
  · exact hfull

def Shown (table : Table) (written : Nat × EncodedFrame) (read : Nat × OffsetFrame) : Prop :=
  written.1 = read.1 ∧ Shows table written.2 read.2

theorem exists_shown_of_mem {frames : List (Nat × EncodedFrame)} {read : List (Nat × OffsetFrame)}
    (h : List.Forall₂ (Shown table) frames read) {entry : Nat × EncodedFrame}
    (hm : entry ∈ frames) : ∃ shown ∈ read, Shown table entry shown :=
  exists_of_mem_left h hm

/-- Numbers below a bound that go up are no more than the bound. -/
theorem length_le_of_ascending {α : Type} {entries : List (Nat × α)} {bound : Nat}
    (hascending : entries.Pairwise fun entry later => entry.1 < later.1)
    (hbelow : ∀ entry ∈ entries, entry.1 < bound) : entries.length ≤ bound := by
  have hnodup : (entries.map Prod.fst).Nodup :=
    (List.pairwise_map.mpr hascending).imp fun hlt => Nat.ne_of_lt hlt
  have hsubset : entries.map Prod.fst ⊆ List.range bound := by
    intro offset hm
    obtain ⟨entry, hentry, rfl⟩ := List.mem_map.mp hm
    exact List.mem_range.mpr (hbelow entry hentry)
  simpa using (List.subperm_of_subset hnodup hsubset).length_le

/-- The next offset is found again from its distance. -/
theorem offsetAfter_deltaAfter {after : Option Nat} {offset : Nat}
    (hlt : ∀ previous ∈ after, previous < offset) (hmax : offset < 0x10000) :
    offsetAfter after (UInt16.ofNat (deltaAfter after offset)).toNat = offset := by
  cases after with
  | none => exact UInt16.toNat_ofNat_of_lt' hmax
  | some previous =>
    have hlt := hlt previous rfl
    have hfits : offset - previous - 1 < 0x10000 := by omega
    rw [deltaAfter, offsetAfter, UInt16.toNat_ofNat_of_lt' hfits]
    omega

theorem reads_entries {frames : List (Nat × EncodedFrame)} {read : List (Nat × OffsetFrame)}
    (hshown : List.Forall₂ (Shown table) frames read) (hp : Shows table previous before)
    {after : Option Nat} (hafter : ∀ place ∈ after, ∀ entry ∈ frames, place < entry.1)
    (hascending : frames.Pairwise fun entry later => entry.1 < later.1)
    (hfits : ∀ entry ∈ frames, entry.1 < 0x10000 ∧ Fits entry.2)
    (found : List (Nat × OffsetFrame)) (p : Nat) :
    Reads (readFrom table before.locals after found frames.length) p
      ((List.zipWith
        (fun before now => (⟨UInt16.ofNat (deltaAfter before.1 now.1), .between before.2 now.2⟩ :
          Entry))
        ((after, previous) :: frames.map fun frame => (some frame.1, frame.2)) frames).flatMap
          Entry.encode) (found.reverse ++ read) := by
  induction hshown generalizing previous before after found p with
  | nil => simpa [readFrom] using reads_pure found.reverse p
  | @cons written shown frames read hfirst _ ih =>
    obtain ⟨offset, encoded⟩ := written
    obtain ⟨_, frame⟩ := shown
    obtain ⟨rfl, hfirst⟩ := hfirst
    dsimp only at hfirst
    obtain ⟨hmax, hf⟩ := hfits _ List.mem_cons_self
    obtain ⟨hnext, hrest⟩ := List.pairwise_cons.mp hascending
    have hentry := reads_between hp hfirst hf (UInt16.ofNat (deltaAfter after offset)) p
    have hafter' : ∀ place ∈ some offset, ∀ entry ∈ frames, place < entry.1 := by
      rintro _ ⟨⟩ entry hm
      exact hnext entry hm
    have hlater := ih hfirst hafter' hrest
      (fun entry hm => hfits entry (List.mem_cons_of_mem _ hm)) ((offset, frame) :: found)
    rw [List.map_cons, List.zipWith_cons_cons, List.flatMap_cons, List.length_cons, readFrom]
    refine hentry.bind ?_
    dsimp only
    rw [offsetAfter_deltaAfter (fun place hplace => hafter place hplace _ List.mem_cons_self) hmax]
    simpa using hlater _

/-- A table is read as the frames that it was written from. -/
theorem reads_table {frames : List (Nat × EncodedFrame)} {read : List (Nat × OffsetFrame)}
    (hshown : List.Forall₂ (Shown table) frames read) (hp : Shows table previous before)
    (hascending : frames.Pairwise fun entry later => entry.1 < later.1)
    (hfits : ∀ entry ∈ frames, entry.1 < 0x10000 ∧ Fits entry.2) (hcount : frames.length < 0x10000)
    (p : Nat) : Reads (StackMap.read table before.locals) p
      (BigEndian.counted id ((entries previous frames).map Entry.encode)) read := by
  have hlen : ((entries previous frames).map Entry.encode).length = frames.length := by
    simp [entries]
  rw [BigEndian.counted, hlen, List.flatMap_id, ← List.flatMap_def]
  refine (reads_u16 _ p).bind ?_
  rw [UInt16.toNat_ofNat_of_lt' hcount]
  exact reads_entries hshown hp (by simp) hascending hfits [] _

end ClassTree.StackMap
