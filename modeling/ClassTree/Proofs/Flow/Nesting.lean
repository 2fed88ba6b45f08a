import ClassTree.Proofs.Descriptor.Reading
import ClassTree.Proofs.Flow.Invariants
import ClassTree.Proofs.Flow.Ranks

namespace ClassTree

theorem RefType.length_classReference_le (type : RefType) :
    type.classReference.length ≤ type.render.length := by
  cases type with
  | object name =>
    change name.text.length ≤ ('L' :: name.text.toList ++ [';']).length
    simp only [List.cons_append, List.length_cons, List.length_append, String.length_toList]
    omega
  | array extra element =>
    rw [classReference, descriptor, String.length_ofList]

namespace Flow

variable {ancestry : Ancestry} {program : Program} {grading : Grading ancestry}
  {type : SlotType}

theorem length_le_of_parseField {text : String} {type : RefType}
    (h : parseField text = .ok (.ref type)) : type.classReference.length ≤ text.length := by
  have hp := FieldType.scan_inverts.complete_eq_ok.mp (mapError_eq_ok.mp h)
  rw [← hp, String.length_ofList]
  exact type.length_classReference_le

theorem length_le_of_parseMethod {text : String} {type : MethodType} {result : RefType}
    (h : parseMethod text = .ok type) (hr : type.result = some (.ref result)) :
    result.classReference.length ≤ text.length := by
  have hp := MethodType.scan_inverts.complete_eq_ok.mp (mapError_eq_ok.mp h)
  have hle := result.length_classReference_le
  rw [← hp, String.length_ofList, MethodType.render, hr]
  simp only [FieldType.render, Option.map_some, Option.getD_some, List.cons_append,
    List.length_cons, List.length_append]
  omega

section Spelling

theorem spelling_le {i : Nat} {insn : Instruction Label} (h : program.code[i]? = some insn) :
    spelling insn ≤ program.spelled := by
  have hm : insn ∈ program.code.toList := Array.mem_toList_iff.mpr (Array.mem_of_getElem? h)
  have := @le_total _ spelling _ _ hm
  unfold Program.spelled
  omega

theorem displayName_le (program : Program) :
    program.context.displayName.length ≤ program.spelled := by
  unfold Program.spelled
  omega

theorem catchType_le {range : HandlerRange} (h : range ∈ program.handlers) {name : String}
    (hn : range.catchType = some name) : name.length ≤ program.spelled := by
  have hle := @le_total _ (fun range => (range.catchType.map String.length).getD 0) _ _ h
  rw [hn, Option.map_some, Option.getD_some] at hle
  unfold Program.spelled
  omega

end Spelling

theorem Grading.within_of_depth {reference : String}
    (h : (Shape.ofChars reference.toList).depth ≤ program.spelled + 1) :
    grading.Within (program.nesting ancestry.hierarchy) (.object reference) := by
  intro found he
  obtain rfl := VerificationType.object.inj he
  exact Nat.add_le_add h (grading.weight_le _)

theorem Grading.within_of_length {reference : String} (h : reference.length ≤ program.spelled) :
    grading.Within (program.nesting ancestry.hierarchy) (.object reference) := by
  have := Shape.depth_ofChars_le reference.toList
  rw [String.length_toList] at this
  exact within_of_depth (by omega)

theorem Grading.within_named {name : String} (h : ClassReference.isArray name.toList = false) :
    grading.Within (program.nesting ancestry.hierarchy) (.object name) := by
  refine within_of_depth ?_
  rw [Shape.ofChars_named h]
  exact Nat.zero_le _

theorem Grading.within_ofFieldType {bound : Nat} {type : FieldType}
    (h : ∀ reference, type = .ref reference →
      grading.Within bound (.object reference.classReference)) :
    grading.Within bound (.ofFieldType type) := by
  cases type with
  | base type =>
    intro reference he
    cases type <;> cases he
  | ref type => exact h type rfl

theorem Grading.tolerant_within (grading : Grading ancestry) (bound : Nat) :
    Tolerant (grading.Within bound) where
  value := fun _ hobject _ reference he => absurd he (hobject reference)
  element := by
    intro reference element hr he found hf
    obtain rfl := VerificationType.object.inj hf
    have h := hr.reach
    rw [Shape.ofChars_array (Shape.isArray_of_element? he) he, grading.reach_array] at h
    rw [String.toList_ofList]
    omega

/-- Instructions bring nothing that reaches deeper than the texts allow for. -/
theorem Brings.within {i : Nat} {insn : Instruction Label} (hat : program.code[i]? = some insn)
    (h : Brings program.context program.code i insn type) :
    grading.Within (program.nesting ancestry.hierarchy) type := by
  have hspelled := spelling_le hat
  cases h with
  | new =>
    intro reference he
    cases he
  | @array op name =>
    refine Grading.within_of_depth ?_
    have := Shape.depth_ofChars_le name.toList
    rw [String.length_toList] at this
    rw [String.toList_ofList, Shape.ofChars_arrayOf, Shape.depth]
    exact Nat.succ_le_succ (Nat.le_trans this hspelled)
  | cast => exact Grading.within_of_length hspelled
  | field parsed =>
    refine Grading.within_ofFieldType ?_
    rintro reference rfl
    exact Grading.within_of_length (Nat.le_trans (length_le_of_parseField parsed) hspelled)
  | result parsed some | dynamic parsed some =>
    refine Grading.within_ofFieldType ?_
    rintro reference rfl
    exact Grading.within_of_length (Nat.le_trans (length_le_of_parseMethod parsed some) hspelled)
  | constructed constructed =>
    unfold Flow.constructed at constructed
    split at constructed
    · cases constructed
      refine Grading.within_of_length (Nat.le_trans ?_ (displayName_le program))
      simp only [Context.displayName, String.length_append]
      omega
    · split at constructed
      · rename_i hnew
        cases constructed
        have hle := spelling_le hnew
        exact Grading.within_of_length hle
      · cases constructed
    · cases constructed
  | @literal value =>
    cases value with
    | string _ | classRef _ | methodType _ | handle _ => exact Grading.within_named (by decide)
    | _ =>
      intro reference he
      cases he
  | @primitives op operand element =>
    refine Grading.within_of_depth ?_
    cases element <;> exact Nat.le_trans (Nat.le_of_eq (by
      rw [Shape.ofChars_primitive rfl rfl]; rfl)) (Nat.zero_le _)
  | dimensions => exact Grading.within_of_length hspelled

/-- Nor do handlers. -/
theorem entryTypes_within {handler : Nat} {name : String}
    (h : (entryTypes ancestry.hierarchy program.handlers)[handler]? = some name) :
    grading.Within (program.nesting ancestry.hierarchy) (.object name) := by
  let P (types : Std.HashMap Nat String) : Prop := ∀ (handler : Nat) (name : String),
    types[handler]? = some name → grading.Within (program.nesting ancestry.hierarchy) (.object name)
  have hthrowable : grading.Within (program.nesting ancestry.hierarchy) (.object Name.throwable) :=
    Grading.within_named (by decide)
  refine List.foldlRecOn (motive := P) program.handlers _ (fun _ _ he => by simp at he) ?_ handler
    name h
  intro types ht range hrange key found hf
  have hcaught : grading.Within (program.nesting ancestry.hierarchy)
      (.object (range.catchType.getD Name.throwable)) := by
    cases hc : range.catchType with
    | none => exact hthrowable
    | some name => exact Grading.within_of_length (catchType_le hrange hc)
  dsimp only at hf
  rw [Std.HashMap.getElem?_insert] at hf
  split at hf
  · obtain rfl := Option.some.inj hf
    split
    · exact hcaught
    · rename_i existing he
      split
      · exact hthrowable
      by_cases hsame : existing = range.catchType.getD Name.throwable
      · rw [← hsame, Ancestry.hierarchy_commonSuperclass, Ancestry.commonSuperclass_self, hsame]
        exact hcaught
      · intro found hf
        obtain rfl := VerificationType.object.inj hf
        refine Nat.le_trans (grading.reach_commonSuperclass hsame) (Nat.max_le.mpr ⟨?_, ?_⟩)
        all_goals exact Nat.le_trans (grading.weight_le _) (Nat.le_add_left _ _)
  · exact ht key found hf

theorem caught_within (handler : Nat) : ∀ type ∈ program.caught ancestry.hierarchy handler,
    grading.Within (program.nesting ancestry.hierarchy) type := by
  intro type hm
  rw [List.mem_singleton.mp hm, Std.HashMap.getD_eq_getD_getElem?]
  cases he : (entryTypes ancestry.hierarchy program.handlers)[handler]? with
  | none => exact Grading.within_named (by decide)
  | some name => exact entryTypes_within he

theorem entryLocals_within : ∀ type ∈ program.context.entryLocals,
    grading.Within (program.nesting ancestry.hierarchy) type := by
  have hname := displayName_le program
  simp only [Context.displayName, String.length_append] at hname
  intro type hm
  rcases List.mem_append.mp hm with hm | hm
  · split at hm
    · cases hm
    · rw [List.mem_singleton.mp hm]
      unfold Context.receiver
      split
      · exact nofun
      · exact Grading.within_of_length (by omega)
  · obtain ⟨parameter, hp, rfl⟩ := List.mem_map.mp hm
    refine Grading.within_ofFieldType ?_
    rintro reference rfl
    refine Grading.within_of_length (Nat.le_trans reference.length_classReference_le ?_)
    have hflat := (List.sublist_flatten_of_mem (List.mem_map_of_mem
      (f := FieldType.render) hp)).length_le
    rw [← List.flatMap_def] at hflat
    have hdescriptor : program.context.type.descriptor.length =
        program.context.type.render.length := String.length_ofList
    simp only [FieldType.render] at hflat
    simp only [MethodType.render, List.cons_append, List.length_cons, List.length_append]
      at hdescriptor
    omega

/-- No type that is computed reaches deeper than the texts allow for. -/
theorem invariant_within (program : Program) (grading : Grading ancestry) :
    Invariant ancestry.hierarchy program
      (WellFormed (grading.Within (program.nesting ancestry.hierarchy))) where
  initial := wellFormed_of_entryLocals (grading.tolerant_within _) entryLocals_within
  execute := fun hat hf hrun =>
    (keeps_execute (grading.tolerant_within _) (Brings.within hat) _ () _ hf hrun).1
  enter := fun handler hf => ⟨hf.locals, hf.localTypes,
    .narrow nofun nofun (caught_within handler _ List.mem_cons_self) .nil⟩
  merge := fun hf hg hm => hf.merge (fun h₁ h₂ => h₁.merge h₂) hg hm

end Flow
end ClassTree
