import ClassTree.Proofs.Bytes.Sequential
import ClassTree.Proofs.Pool.Spelling
import ClassTree.Proofs.Reading.Integrity

namespace ClassTree

open Reader

theorem sequential_prelude : Sequential readPrelude := by
  unfold readPrelude
  refine parses_u32.sequential.bind fun found => .unless _ ?_
  refine parses_u16.sequential.bind fun minor => parses_u16.sequential.bind fun major => ?_
  exact .unless _ (Pool.Constants.parses_read.sequential.map _)

theorem sequential_header (version : Version) (table : Pool.Table) :
    Sequential (readHeader version table) := by
  unfold readHeader
  refine parses_u16.sequential.bind fun access => ?_
  refine parses_u16.sequential.bind fun name => (sequential_lift _).bind fun name => ?_
  refine parses_u16.sequential.bind fun superName => (sequential_lift _).bind fun superName => ?_
  refine Sequential.map (sequential_counted ?_) _
  exact parses_u16.sequential.bind fun name => sequential_lift _

theorem sequential_attributes (table : Pool.Table) : Sequential (readAttributes table) := by
  refine sequential_counted ?_
  refine parses_u16.sequential.bind fun name => (sequential_lift _).bind fun name => ?_
  exact parses_u32.sequential.bind fun length => (sequential_part _).map _

theorem sequential_members (table : Pool.Table) : Sequential (readMembers table) := by
  refine sequential_counted ?_
  refine parses_u16.sequential.bind fun access => ?_
  refine parses_u16.sequential.bind fun name => (sequential_lift _).bind fun name => ?_
  refine parses_u16.sequential.bind fun descriptor => (sequential_lift _).bind fun descriptor => ?_
  exact (sequential_attributes table).map _

def readFront : Reader (Header × Pool.Table × List RawMember × List RawMember ×
    List (String × Cursor)) := do
  let (version, table) ← readPrelude
  let header ← readHeader version table
  let fields ← readMembers table
  let methods ← readMembers table
  let attributes ← readAttributes table
  return (header, table, fields, methods, attributes)

theorem sequential_front : Sequential readFront := by
  refine sequential_prelude.bind fun ⟨version, table⟩ => ?_
  refine (sequential_header version table).bind fun header => ?_
  refine (sequential_members table).bind fun fields => ?_
  refine (sequential_members table).bind fun methods => ?_
  exact (sequential_attributes table).map _

/-- After the last part, nothing may be left. -/
theorem run_readParts (bytes : Bytes) :
    (Cursor.ofBytes bytes).parse readParts =
      readFront.run (.ofBytes bytes) >>= fun (parts, cursor) =>
        if cursor.rest.isEmpty then .ok parts
        else .error (.malformed (.trailingBytes cursor.offset)) := by
  have heq : readParts = readFront >>= fun parts => get >>= fun cursor =>
      if !cursor.rest.isEmpty then fail (.trailingBytes cursor.offset) else pure parts := by
    unfold readParts readFront
    simp only [bind_assoc, pure_bind]
    rfl
  rw [heq, Cursor.parse, StateT.run'_eq, StateT.run_bind]
  cases readFront.run (.ofBytes bytes) with
  | error fault => rfl
  | ok found =>
    obtain ⟨parts, cursor⟩ := found
    change Prod.fst <$> (if !cursor.rest.isEmpty then fail (.trailingBytes cursor.offset)
      else pure parts : Reader _).run cursor = if cursor.rest.isEmpty then _ else _
    cases cursor.rest.isEmpty <;> rfl

namespace Class

variable {skip : Skip} {bytes : Bytes} {tree : Class}

theorem consumes_of_read (h : Class.read skip bytes = .ok tree) :
    ∃ parts, Consumes readFront 0 0 bytes parts := by
  obtain ⟨parts, hparts, -⟩ := bind_eq_ok.mp h
  rw [run_readParts] at hparts
  obtain ⟨⟨parts', cursor⟩, hrun, hend⟩ := bind_eq_ok.mp hparts
  obtain ⟨taken, hrest, hconsumes, -⟩ := sequential_front.consumes hrun
  dsimp only at hend
  split at hend
  · rename_i hempty
    rw [List.isEmpty_iff.mp hempty, List.append_nil] at hrest
    obtain rfl : bytes = taken := hrest
    exact ⟨parts', hconsumes⟩
  · cases hend

/-- A file that is read is taken to its end, and the end is where the file itself says that it is:
all that is shorter is too short, and all that is longer has bytes left over. -/
theorem read_exactly (h : Class.read skip bytes = .ok tree) :
    (∀ skip' front, front <+: bytes → front ≠ bytes →
      ∃ offset ≤ front.length,
        Class.read skip' front = .error (.malformed (.unexpectedEnd offset))) ∧
    (∀ skip' more, more ≠ [] →
      Class.read skip' (bytes ++ more) = .error (.malformed (.trailingBytes bytes.length))) ∧
    ∀ skip' longer tree', Class.read skip' longer = .ok tree' → bytes <+: longer →
      longer = bytes := by
  obtain ⟨parts, hconsumes⟩ := consumes_of_read h
  have hmore : ∀ skip' more, more ≠ [] →
      Class.read skip' (bytes ++ more) = .error (.malformed (.trailingBytes bytes.length)) := by
    intro skip' more hne
    have hrun := hconsumes.whole more
    rw [Nat.zero_add] at hrun
    unfold Class.read
    rw [run_readParts, Cursor.ofBytes, hrun]
    change Except.bind (if more.isEmpty then _ else _) _ = _
    rw [if_neg (by rwa [List.isEmpty_iff]), Cursor.offset, Nat.zero_add]
    rfl
  refine ⟨fun skip' front hfront hne => ?_, hmore, fun skip' longer tree' h' hfront => ?_⟩
  · have hlt : front.length < bytes.length := by
      refine Nat.lt_of_le_of_ne hfront.length_le fun hlength => ?_
      exact hne (hfront.eq_of_length hlength)
    obtain ⟨offset, hrun, hle⟩ := hconsumes.short hfront hlt
    refine ⟨offset, by omega, ?_⟩
    unfold Class.read
    rw [run_readParts, Cursor.ofBytes, hrun]
    rfl
  · obtain ⟨more, rfl⟩ := hfront
    by_contra hne
    have hfault := hmore skip' more fun hnil => hne (by rw [hnil, List.append_nil])
    cases h'.symm.trans hfault

end Class

/-- A file that is cut off within its constants, and one with a byte too many. -/
theorem Returning.read_exactly_file :
    Class.read ⟨false, false⟩ (file 0) = .ok (tree 0) ∧
    (∃ offset ≤ 12, Class.read ⟨false, false⟩ ((file 0).take 12) =
      .error (.malformed (.unexpectedEnd offset))) ∧
    Class.read ⟨false, false⟩ (file 0 ++ [0]) = .error (.malformed (.trailingBytes 127)) := by
  have hread := @read_file 0 (.inl rfl)
  obtain ⟨hshort, hlong, -⟩ := Class.read_exactly hread
  refine ⟨hread, hshort ⟨false, false⟩ ((file 0).take 12) (List.take_prefix 12 _) (by decide), ?_⟩
  exact hlong ⟨false, false⟩ [0] nofun

end ClassTree
