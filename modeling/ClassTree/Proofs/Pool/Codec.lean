import ClassTree.Proofs.Bytes.Reading
import ClassTree.Proofs.Pool.Building
import ClassTree.Proofs.Text.ModifiedUtf8

namespace ClassTree.Pool

open Reader BigEndian

theorem HandleKind.ofCode?_code (kind : HandleKind) : HandleKind.ofCode? kind.code = some kind := by
  cases kind <;> rfl

namespace Constant

def Fits : Constant → Prop
  | utf8 text => (Text.ModifiedUtf8.encode text).length < 0x10000
  | _ => True

theorem reads {constant : Constant} (h : constant.Fits) (index : Index) (p : Nat) :
    Reads (read index) p constant.encode constant := by
  unfold read
  cases constant with
  | utf8 text =>
    rw [encode, List.append_assoc]
    refine (reads_u8 1 p).bind ((reads_u16 _ _).bind ?_)
    rw [UInt16.toNat_ofNat_of_lt' h]
    refine (reads_bytes _ _).bind_pure ?_
    rw [Text.ModifiedUtf8.decode_of_encode]
  | integer value => exact (reads_u8 3 p).bind ((reads_i32 value _).map integer)
  | float bits => exact (reads_u8 4 p).bind ((reads_u32 bits _).map float)
  | long value => exact (reads_u8 5 p).bind ((reads_i64 value _).map long)
  | double bits => exact (reads_u8 6 p).bind ((reads_u64 bits _).map double)
  | classRef name => exact (reads_u8 7 p).bind ((reads_u16 name _).map classRef)
  | string text => exact (reads_u8 8 p).bind ((reads_u16 text _).map string)
  | fieldRef owner pair =>
    rw [encode, List.append_assoc]
    exact (reads_u8 9 p).bind ((reads_u16 owner _).bind ((reads_u16 pair _).map (fieldRef owner)))
  | methodRef owner pair onInterface =>
    cases onInterface with
    | false =>
      rw [encode, List.append_assoc]
      exact (reads_u8 10 p).bind ((reads_u16 owner _).bind
        ((reads_u16 pair _).map (methodRef owner · false)))
    | true =>
      rw [encode, List.append_assoc]
      exact (reads_u8 11 p).bind ((reads_u16 owner _).bind
        ((reads_u16 pair _).map (methodRef owner · true)))
  | nameAndType name descriptor =>
    rw [encode, List.append_assoc]
    exact (reads_u8 12 p).bind ((reads_u16 name _).bind
      ((reads_u16 descriptor _).map (nameAndType name)))
  | methodHandle kind member =>
    rw [encode, List.append_assoc]
    refine (reads_u8 15 p).bind ((reads_u8 kind.code _).bind ?_)
    rw [HandleKind.ofCode?_code]
    exact (reads_u16 member _).map (methodHandle kind)
  | methodType descriptor =>
    exact (reads_u8 16 p).bind ((reads_u16 descriptor _).map methodType)
  | dynamic bootstrap pair =>
    rw [encode, List.append_assoc]
    exact (reads_u8 17 p).bind ((reads_u16 bootstrap _).bind
      ((reads_u16 pair _).map (dynamic bootstrap)))
  | invokeDynamic bootstrap pair =>
    rw [encode, List.append_assoc]
    exact (reads_u8 18 p).bind ((reads_u16 bootstrap _).bind
      ((reads_u16 pair _).map (invokeDynamic bootstrap)))
  | module name => exact (reads_u8 19 p).bind ((reads_u16 name _).map module)
  | package name => exact (reads_u8 20 p).bind ((reads_u16 name _).map package)

end Constant

namespace Constants

/-- Constants as they are when all of them have been added one after the other. -/
def Built (constants : Constants) : Prop :=
  constants = constants.toList.foldl add empty

theorem built_empty : empty.Built :=
  rfl

theorem toList_add (constants : Constants) (constant : Constant) :
    (constants.add constant).toList = constants.toList ++ [constant] :=
  Slots.toList_push ..

theorem Built.add {constants : Constants} (h : constants.Built) (constant : Constant) :
    (constants.add constant).Built := by
  rw [Built, toList_add, List.foldl_append, ← h]
  rfl

theorem built_readFrom {count : Nat} {constants result : Constants} {cursor cursor' : Cursor}
    (hb : constants.Built)
    (h : (readFrom count constants).run cursor = .ok (result, cursor')) : result.Built := by
  fun_induction readFrom count constants generalizing cursor with
  | case1 constants hlt ih =>
    obtain ⟨constant, middle, -, h⟩ := run_bind_eq_ok.mp h
    exact ih constant (hb.add constant) h
  | case2 constants hge =>
    cases h
    exact hb

theorem le_next_foldl (constants : Constants) (l : List Constant) :
    constants.next ≤ (l.foldl add constants).next := by
  induction l generalizing constants with
  | nil => exact Nat.le_refl _
  | cons constant l ih =>
    refine Nat.le_trans ?_ (ih _)
    rw [add, Slots.next_push]
    omega

/-- One constant after the other is read, until the next place is the one after the last. -/
theorem reads_readFrom {l : List Constant} (h : ∀ constant ∈ l, constant.Fits)
    (constants : Constants) (p : Nat) :
    Reads (readFrom (l.foldl add constants).next constants) p (l.flatMap Constant.encode)
      (l.foldl add constants) := by
  induction l generalizing constants p with
  | nil =>
    rw [List.foldl_nil, readFrom, dif_neg (Nat.lt_irrefl _)]
    exact reads_pure constants p
  | cons constant l ih =>
    have hlt : constants.next < ((constant :: l).foldl add constants).next := by
      refine Nat.lt_of_lt_of_le ?_ (le_next_foldl (constants.add constant) l)
      rw [add, Slots.next_push]
      split <;> omega
    rw [readFrom, dif_pos hlt]
    exact (Constant.reads (h constant List.mem_cons_self) _ p).bind
      (ih (fun other hm => h other (List.mem_cons_of_mem _ hm)) _ _)

theorem Built.reads {constants : Constants} (hb : constants.Built)
    (h : ∀ constant ∈ constants.toList, constant.Fits) (hlt : constants.next < 0x10000) (p : Nat) :
    Reads read p constants.encode constants := by
  refine (reads_u16 _ p).bind ?_
  rw [UInt16.toNat_ofNat_of_lt' hlt]
  have hr := reads_readFrom h empty (p + (u16 (UInt16.ofNat constants.next)).length)
  rwa [← hb] at hr

end Constants

theorem Constants.start_foldl (constants : Constants) (l : List Constant) :
    (l.foldl add constants).start = constants.start := by
  induction l generalizing constants with
  | nil => rfl
  | cons constant l ih => exact ih _

theorem Builder.Reachable.built {b : Builder} (h : b.Reachable) : b.constants.Built := by
  induction h with
  | empty => exact Constants.built_empty
  | seeded read =>
    obtain ⟨count, middle, -, h⟩ := run_bind_eq_ok.mp read
    exact Constants.built_readFrom Constants.built_empty h
  | add _ _ _ ih => exact ih.add _
  | addBootstrap _ _ ih => exact ih

/-- A pool of constants that fit is one that can be read. -/
theorem Builder.reachable_ofTable {table : Table} (hb : table.constants.Built)
    (hf : ∀ constant ∈ table.constants.toList, constant.Fits)
    (hlt : table.constants.next < 0x10000) : (Builder.ofTable table).Reachable :=
  .seeded (hb.reads hf hlt 0 [] 0)

/-- No constant is at index 0. -/
theorem Builder.Reachable.ne_zero {b : Builder} (h : b.Reachable) {index : Index}
    {constant : Constant} (hget : b.table.get index = .ok constant) : index ≠ 0 := by
  rintro rfl
  have hstart : b.constants.start = 1 := by
    rw [h.built]
    exact Constants.start_foldl _ _
  obtain ⟨hle, -⟩ := Slots.bounds_of_get? (Table.get_eq_ok.mp hget)
  change b.constants.start ≤ 0 at hle
  omega

end ClassTree.Pool
