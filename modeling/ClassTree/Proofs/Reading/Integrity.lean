import ClassTree.Proofs.Code.Labels
import ClassTree.Proofs.Pool.Seeding
import ClassTree.Proofs.Reading.Canonical
import ClassTree.Proofs.Writing.Faults

namespace ClassTree

namespace Class

variable {skip : Skip} {bytes : Bytes} {tree : Class}

/-- Each method of a class that is read has sound labels, unless its last code attribute puts a
line or a frame at the end of the code, or an earlier one of several leaves labels behind. A class
of such methods never fails to be written because of a label, and gets fresh labels that are new. -/
theorem labelsSound_read (h : Class.read skip bytes = .ok tree) :
    ∃ header plain fields methods attributes table,
      (Cursor.ofBytes bytes).parse readParts = .ok (header, plain, fields, methods, attributes) ∧
      tree.pool = some table ∧
      List.Forall₂ (fun member method =>
        (method.LabelsSound ↔
          (∀ listing ∈ (member.listings tree.name table skip).getLast?, ¬ listing.MarksEnd) ∧
            method.HandedOut) ∧
        ((member.listings tree.name table skip).length ≤ 1 → method.HandedOut) ∧
        (method.HandedOut → method.body.freshLabel.1 ∉ method.mentions)) methods tree.methods ∧
      ((∀ method ∈ tree.methods, method.LabelsSound) → ∀ recompute hierarchy,
        SparesLabels (tree.write recompute hierarchy)) := by
  obtain ⟨header, plain, fields, methods, attributes, table, hparts, hgrown, hpool, -, hmethods⟩ :=
    read_cases h
  refine ⟨header, plain, fields, methods, attributes, table, hparts, hpool, ?_, spares_write⟩
  rw [show tree.name = header.name from hgrown.name]
  exact (mapM_eq_ok.mp hmethods).imp fun member method hm =>
    ⟨Method.labelsSound_ofRaw hm, Method.handedOut_ofRaw hm, Method.HandedOut.freshLabel_not_mem⟩

end Class

namespace Returning

/-- Contents of the code attribute, with the line at an offset. -/
def code (offset : UInt8) : Bytes :=
  [0, 0, 0, 0, 0, 0, 0, 1, 177, 0, 0, 0, 1, 0, 7, 0, 0, 0, 6, 0, 1, 0, offset, 0, 1]

def front : Bytes :=
  [202, 254, 186, 190, 0, 0, 0, 48, 0, 9,
    1, 0, 1, 65, 7, 0, 1,
    1, 0, 16, 106, 97, 118, 97, 47, 108, 97, 110, 103, 47, 79, 98, 106, 101, 99, 116, 7, 0, 3,
    1, 0, 1, 109, 1, 0, 3, 40, 41, 86,
    1, 0, 15, 76, 105, 110, 101, 78, 117, 109, 98, 101, 114, 84, 97, 98, 108, 101,
    1, 0, 4, 67, 111, 100, 101,
    0, 0, 0, 2, 0, 4, 0, 0, 0, 0, 0, 1, 0, 8, 0, 5, 0, 6, 0, 1, 0, 8]

def file (offset : UInt8) : Bytes :=
  front ++ [0, 0, 0, 25] ++ code offset ++ [0, 0]

def header : Header :=
  ⟨⟨48, 0⟩, .ofBits .ofClass 0, "A", some "java/lang/Object", []⟩

def constants : List Pool.Constant :=
  [.utf8 "A", .classRef 1, .utf8 "java/lang/Object", .classRef 3, .utf8 "m", .utf8 "()V",
    .utf8 "LineNumberTable", .utf8 "Code"]

def table : Pool.Table :=
  ⟨constants.foldl Pool.Constants.add .empty, #[]⟩

def pool : Pool.Builder :=
  .ofTable table

def member (offset : UInt8) (base : Nat) : RawMember :=
  ⟨8, "m", "()V", [("Code", ⟨code offset, 0, base⟩)]⟩

def declared : Method :=
  .declared (.ofBits .ofMethod 8) "m" "()V"

def listing (offset : UInt8) : Code.Listing :=
  ⟨0, 0, 1, [(0, .plain .returnVoid)], [], [.lines [(offset.toNat, 1)]]⟩

def method (offset : UInt8) : Method :=
  (listing offset).addedTo declared

def tree (offset : UInt8) : Class :=
  { Class.ofHeader header table with methods := [method offset] }

theorem fits_pool : ∀ constant ∈ pool.constants.toList, constant.Fits := by
  rw [show pool.constants.toList = constants from rfl]
  simp only [constants, List.forall_mem_cons, Pool.Constant.Fits, List.not_mem_nil, false_implies,
    implies_true]
  decide

theorem reachable_pool : pool.Reachable :=
  Pool.Builder.reachable_ofTable rfl fits_pool (by decide)

theorem parse_file (offset : UInt8) : ∃ base, (Cursor.ofBytes (file offset)).parse readParts =
    .ok (header, table, [], [member offset base], []) := by
  have hfront : BigEndian.u32 magic ++ Version.encode ⟨48, 0⟩ ++ pool.constants.encode ++
      (BigEndian.u16 0 ++ BigEndian.u16 2 ++ BigEndian.u16 4 ++ BigEndian.u16 0 ++
        BigEndian.u16 0 ++ BigEndian.u16 1 ++ BigEndian.u16 8 ++ BigEndian.u16 5 ++
          BigEndian.u16 6 ++ BigEndian.u16 1 ++ BigEndian.u16 8) = front := by
    decide +kernel
  have hlength : BigEndian.u32 (UInt32.ofNat 25) = [0, 0, 0, 25] := by decide +kernel
  have hend : BigEndian.u16 0 = [0, 0] := by decide +kernel
  obtain ⟨base, hparse⟩ := @exists_parse_code pool ⟨48, 0⟩ 8 (code offset) "A" "java/lang/Object"
    "m" "()V" 2 4 5 6 8 rfl reachable_pool fits_pool (by decide) (show 25 < 0x100000000 by decide)
    (Pool.Builder.yields_classRef_ofTable 1 (by decide) (by decide))
    (Pool.Builder.yields_classRef_ofTable 3 (by decide) (by decide))
    (Pool.Builder.yields_constant_ofTable (by decide))
    (Pool.Builder.yields_constant_ofTable (by decide))
    (Pool.Builder.yields_constant_ofTable (by decide))
  rw [hfront, show (code offset).length = 25 from rfl, hlength, hend] at hparse
  exact ⟨base, hparse⟩

theorem readListing_code {offset : UInt8} (h : offset = 0 ∨ offset = 1) (base : Nat) :
    (Cursor.mk (code offset) 0 base).parse (Code.readListing "A" declared table ⟨false, false⟩) =
      .ok (listing offset) := by
  let lines : RawAttribute := ⟨"LineNumberTable", [0, 1, 0, offset, 0, 1]⟩
  have hfits : (Code.StoredCode.mk 0 0 [177] [] [lines]).clamped.Fits :=
    ⟨Nat.zero_lt_succ _, Nat.zero_lt_succ _, Nat.zero_lt_succ _, show 1 < 0x10000 by decide,
      List.forall_mem_singleton.mpr (show 6 < 0x100000000 by decide)⟩
  have htext : table.text 7 = .ok "LineNumberTable" := Pool.text_found
    (Pool.Builder.yields_constant_ofTable (by decide)) (.refl _) reachable_pool.sound
  have hreads := Code.StoredCode.readsAs_sections hfits (show 1 < 0x100000000 by decide) .nil
    (.cons ⟨7, htext, rfl⟩ .nil)
  have hcode : code offset = Code.size16 0 ++ Code.size16 0 ++ BigEndian.u32 (UInt32.ofNat 1) ++
      [177] ++ BigEndian.counted id [] ++ BigEndian.counted id
        [BigEndian.u16 7 ++ BigEndian.u32 (UInt32.ofNat 6) ++ lines.info] := by
    rcases h with rfl | rfl <;> decide +kernel
  have hlines (base : Nat) : (Cursor.mk lines.info 0 base).parse (Reader.counted Code.readLine) =
      .ok [(offset.toNat, 1)] := by
    rcases h with rfl | rfl <;> rfl
  rw [hcode]
  exact Code.StoredCode.parse_readListing hreads (fun _ => rfl)
    (.cons (fun base => Code.readTable_lines (hlines base)) .nil) base

/-- The code is added to the method, wherever the line is. -/
theorem addTo_declared {offset : UInt8} (h : offset = 0 ∨ offset = 1) :
    (listing offset).addTo declared = .ok (method offset) := by
  refine Code.Listing.addTo_eq_ok.mpr ⟨Code.Listing.misplaced?_eq_none.mpr fun place hm => ?_, rfl⟩
  obtain rfl : place = offset.toNat := by
    simpa [listing, Code.Listing.mentions, Code.CodeTable.mentions, Instruction.references]
      using hm
  rcases h with rfl | rfl
  · exact .inr (by simp [listing])
  · exact .inl rfl

theorem read_file {offset : UInt8} (h : offset = 0 ∨ offset = 1) :
    Class.read ⟨false, false⟩ (file offset) = .ok (tree offset) := by
  obtain ⟨base, hparse⟩ := parse_file offset
  have hmethod : Method.ofRaw "A" table ⟨false, false⟩ (member offset base) = .ok (method offset) :=
    bind_eq_ok.mpr ⟨method offset,
      bind_eq_ok.mpr ⟨listing offset, readListing_code h base, addTo_declared h⟩, rfl⟩
  refine bind_eq_ok.mpr ⟨_, hparse, ?_⟩
  refine bind_eq_ok.mpr ⟨_, pure_eq_ok.mpr rfl, ?_⟩
  refine bind_eq_ok.mpr ⟨_, pure_eq_ok.mpr rfl, ?_⟩
  exact bind_eq_ok.mpr ⟨_, mapM_eq_ok.mpr (.cons hmethod .nil), rfl⟩

theorem listings_member {offset : UInt8} (h : offset = 0 ∨ offset = 1) (base : Nat) :
    (member offset base).listings "A" table ⟨false, false⟩ = [listing offset] :=
  RawMember.listingsOf_cons_code (readListing_code h base)

/-- A line at the start of the code leaves labels sound. -/
theorem labelsSound_atStart : Class.read ⟨false, false⟩ (file 0) = .ok (tree 0) ∧
    (method 0).LabelsSound ∧ (method 0).body.freshLabel.1 ∉ (method 0).mentions ∧
      SparesLabels ((tree 0).write ⟨true, true⟩ .library) := by
  have hread := @read_file 0 (.inl rfl)
  obtain ⟨_, _, _, _, _, _, hparts, hpool, hmethods, hwrite⟩ := Class.labelsSound_read hread
  obtain ⟨base, hparse⟩ := parse_file 0
  cases hparse.symm.trans hparts
  cases hpool
  obtain ⟨⟨hsound, hout, hfresh⟩, -⟩ := List.forall₂_cons.mp hmethods
  rw [show (tree 0).name = "A" from rfl, listings_member (.inl rfl) base] at hsound hout
  have hout := hout (Nat.le_refl 1)
  have hsound := hsound.mpr ⟨by
    rintro _ ⟨⟩
    decide, hout⟩
  refine ⟨hread, hsound, hfresh hout, hwrite ?_ _ _⟩
  rintro _ hm
  obtain rfl := List.mem_singleton.mp hm
  exact hsound

/-- A line at the end of the code has the label of the end placed twice. -/
theorem not_labelsSound_atEnd : Class.read ⟨false, false⟩ (file 1) = .ok (tree 1) ∧
    method 1 ∈ (tree 1).methods ∧ ¬ (method 1).LabelsSound ∧
      ∀ name, ∃ label, (method 1).checkLabels name = .error (.duplicateLabel name label) := by
  obtain ⟨cursor, hrun⟩ := Reader.parse_eq_ok.mp (readListing_code (.inr rfl) 0)
  have htwice : ¬ (method 1).body.placed.Nodup := by
    rw [Code.Listing.nodup_placed_addTo (Code.ascending_readListing hrun)
      (addTo_declared (.inr rfl)), not_not]
    decide
  exact ⟨read_file (.inr rfl), List.mem_singleton_self _, fun hs => htwice hs.nodup,
    Method.checkLabels_of_not_nodup htwice⟩

end Returning
end ClassTree
