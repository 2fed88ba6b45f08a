import ClassTree.Proofs.Pool.Building

namespace ClassTree

/-- A handle of a field says nothing of an interface. -/
def Handle.Canonical (handle : Handle) : Prop :=
  handle.kind.isField = true → handle.onInterface = false

def Literal.Canonical : Literal → Prop
  | .handle value => value.Canonical
  | _ => True

namespace Pool

open Build

variable {b b' b'' : Builder} {index : Index}

theorem get_constant {constant : Constant} (hy : Yields (Build.constant constant) b index b')
    (hw : b'.Within b'') (hs : b''.Sound) : b''.table.get index = .ok constant := by
  exact Table.get_eq_ok.mpr (hs.indices (hw.indices (indices_of_constant hy)))

theorem text_found {value : String} (hy : Yields (Build.text value) b index b')
    (hw : b'.Within b'') (hs : b''.Sound) : b''.table.text index = .ok value := by
  rw [Table.text, get_constant hy hw hs]
  rfl

theorem className_found {name : String} (hy : Yields (Build.classRef name) b index b')
    (hw : b'.Within b'') (hs : b''.Sound) : b''.table.className index = .ok name := by
  obtain ⟨place, middle, ht, hc⟩ := yields_bind.mp hy
  have hm := ((lawful_constant _).grows hc).trans hw
  rw [Table.className, get_constant hc hw hs]
  exact text_found ht hm hs

theorem nameAndType_found {name descriptor : String}
    (hy : Yields (Build.nameAndType name descriptor) b index b')
    (hw : b'.Within b'') (hs : b''.Sound) :
    b''.table.nameAndType index = .ok (name, descriptor) := by
  obtain ⟨first, middle₁, hn, hy⟩ := yields_bind.mp hy
  obtain ⟨second, middle₂, hd, hc⟩ := yields_bind.mp hy
  have hm₂ := ((lawful_constant _).grows hc).trans hw
  have hm₁ := ((lawful_text _).grows hd).trans hm₂
  rw [Table.nameAndType, get_constant hc hw hs]
  change (b''.table.text first >>= fun name => b''.table.text second >>= fun descriptor =>
    pure (name, descriptor)) = _
  rw [text_found hn hm₁ hs, text_found hd hm₂ hs]
  rfl

theorem member_of_ref {member : Member} {owner pair : Index} {onInterface : Bool}
    {constant : Constant}
    (hc : constant = .fieldRef owner pair ∧ onInterface = false ∨
      constant = .methodRef owner pair onInterface)
    (hget : b''.table.get index = .ok constant)
    (ho : b''.table.className owner = .ok member.owner)
    (hp : b''.table.nameAndType pair = .ok (member.name, member.descriptor)) :
    b''.table.member index = .ok (member, onInterface) := by
  rcases hc with ⟨rfl, rfl⟩ | rfl <;>
    simp [Table.member, hget, ho, hp, bind, Except.bind, pure, Except.pure]

theorem field_found {member : Member} (hy : Yields (Build.field member) b index b')
    (hw : b'.Within b'') (hs : b''.Sound) : b''.table.member index = .ok (member, false) := by
  obtain ⟨owner, middle₁, ho, hy⟩ := yields_bind.mp hy
  obtain ⟨pair, middle₂, hp, hc⟩ := yields_bind.mp hy
  have hm₂ := ((lawful_constant _).grows hc).trans hw
  have hm₁ := ((lawful_nameAndType _ _).grows hp).trans hm₂
  exact member_of_ref (.inl ⟨rfl, rfl⟩) (get_constant hc hw hs) (className_found ho hm₁ hs)
    (nameAndType_found hp hm₂ hs)

theorem method_found {member : Member} {onInterface : Bool}
    (hy : Yields (Build.method member onInterface) b index b')
    (hw : b'.Within b'') (hs : b''.Sound) :
    b''.table.member index = .ok (member, onInterface) := by
  obtain ⟨owner, middle₁, ho, hy⟩ := yields_bind.mp hy
  obtain ⟨pair, middle₂, hp, hc⟩ := yields_bind.mp hy
  have hm₂ := ((lawful_constant _).grows hc).trans hw
  have hm₁ := ((lawful_nameAndType _ _).grows hp).trans hm₂
  exact member_of_ref (.inr rfl) (get_constant hc hw hs) (className_found ho hm₁ hs)
    (nameAndType_found hp hm₂ hs)

theorem handle_found {value : Handle} (hcan : value.Canonical)
    (hy : Yields (Build.handle value) b index b') (hw : b'.Within b'') (hs : b''.Sound) :
    (∃ place, b''.table.get index = .ok (.methodHandle value.kind place)) ∧
      b''.table.handle index = .ok value := by
  obtain ⟨member, middle, hm, hc⟩ : ∃ member middle,
      Yields (if value.kind.isField then Build.field value.member
        else Build.method value.member value.onInterface) b member middle ∧
      Yields (Build.constant (.methodHandle value.kind member)) middle index b' := by
    unfold Build.handle at hy
    split at hy
    · rename_i hf
      rw [if_pos hf]
      exact yields_bind.mp hy
    · rename_i hf
      rw [if_neg hf]
      exact yields_bind.mp hy
  have hwithin := ((lawful_constant _).grows hc).trans hw
  have hfound : b''.table.member member = .ok (value.member, value.onInterface) := by
    split at hm
    · rename_i hf
      rw [hcan hf]
      exact field_found hm hwithin hs
    · exact method_found hm hwithin hs
  have hget := get_constant hc hw hs
  refine ⟨⟨member, hget⟩, ?_⟩
  simp [Table.handle, hget, hfound, bind, Except.bind, pure, Except.pure]

theorem literal_found {value : Literal} (hcan : value.Canonical)
    (hy : Yields (Build.literal value) b index b') (hw : b'.Within b'') (hs : b''.Sound) :
    b''.table.literal index = .ok value := by
  unfold Table.literal
  cases value with
  | int | float | long | double => rw [get_constant hy hw hs]; rfl
  | string value | methodType value =>
    obtain ⟨place, middle, ht, hc⟩ := yields_bind.mp hy
    have htext := text_found ht (((lawful_constant _).grows hc).trans hw) hs
    simp [get_constant hc hw hs, htext, bind, Except.bind, pure, Except.pure]
  | classRef name =>
    obtain ⟨place, middle, ht, hc⟩ := yields_bind.mp hy
    have htext := text_found ht (((lawful_constant _).grows hc).trans hw) hs
    simp [get_constant hc hw hs, htext, bind, Except.bind, pure, Except.pure]
  | handle value =>
    obtain ⟨⟨place, hget⟩, hfound⟩ := handle_found hcan hy hw hs
    simp [hget, hfound, bind, Except.bind, pure, Except.pure]

theorem literals_found {values : List Literal} (hcan : ∀ value ∈ values, value.Canonical)
    {indices : List Index} (hy : Yields (values.mapM Build.literal) b indices b')
    (hw : b'.Within b'') (hs : b''.Sound) : indices.mapM b''.table.literal = .ok values := by
  induction values generalizing b indices with
  | nil =>
    obtain ⟨rfl, -⟩ := yields_pure.mp hy
    rfl
  | cons value values ih =>
    rw [List.mapM_cons] at hy
    obtain ⟨index, middle, hv, hy⟩ := yields_bind.mp hy
    obtain ⟨rest, last, hvs, hp⟩ := yields_bind.mp hy
    obtain ⟨rfl, rfl⟩ := yields_pure.mp hp
    have hm := ((lawful_mapM lawful_literal values).grows hvs).trans hw
    have hfirst := literal_found (hcan value (by simp)) hv hm hs
    have hrest := ih (fun v hv => hcan v (by simp [hv])) hvs
    simp [hfirst, hrest, bind, Except.bind, pure, Except.pure]

/-- An entry of the bootstrap table is found as long as its places are numbered with 16 bits. -/
theorem bootstrapMethod_found {method : Handle} {arguments : List Literal} {place : UInt16}
    (hm : method.Canonical) (ha : ∀ value ∈ arguments, value.Canonical)
    (hy : Yields (Build.bootstrapMethod method arguments) b place b') (hw : b'.Within b'')
    (hs : b''.Sound) (hsize : b''.bootstrap.size ≤ 0x10000) :
    b''.table.bootstrapMethod place = .ok (method, arguments) := by
  rw [bootstrapMethod_eq] at hy
  obtain ⟨handle, middle₁, hh, hy⟩ := yields_bind.mp hy
  obtain ⟨indices, middle₂, hi, he⟩ := yields_bind.mp hy
  have hm₂ := ((lawful_entry _).grows he).trans hw
  have hm₁ := ((lawful_mapM lawful_literal _).grows hi).trans hm₂
  obtain ⟨n, hn, rfl⟩ := hs.bootstrapIndices (hw.bootstrapIndices (indices_of_entry he))
  have hlt : n < 0x10000 := Nat.lt_of_lt_of_le (Array.getElem?_eq_some_iff.mp hn).1 hsize
  have hentry : b''.table.bootstrap[(UInt16.ofNat n).toNat]? = some ⟨handle, indices⟩ := by
    rw [UInt16.toNat_ofNat_of_lt' hlt]
    exact hn
  rw [Table.bootstrapMethod, hentry]
  simp [(handle_found hm hh hm₁ hs).2, literals_found ha hi hm₂ hs, bind, Except.bind, pure,
    Except.pure]

/-- The call site that an index was asked for; what its bootstrap index leads to is left open. -/
theorem invokeDynamic_found {name descriptor : String} {method : Handle} {arguments : List Literal}
    (hy : Yields (Build.invokeDynamic name descriptor method arguments) b index b')
    (hw : b'.Within b'') (hs : b''.Sound) :
    ∃ place pair, b''.table.get index = .ok (.invokeDynamic place pair) ∧
      b''.table.nameAndType pair = .ok (name, descriptor) ∧
      Yields (Build.bootstrapMethod method arguments) b'' place b'' := by
  obtain ⟨place, middle₁, hb, hy⟩ := yields_bind.mp hy
  obtain ⟨pair, middle₂, hp, hc⟩ := yields_bind.mp hy
  have hm₂ := ((lawful_constant _).grows hc).trans hw
  have hm₁ := ((lawful_nameAndType _ _).grows hp).trans hm₂
  exact ⟨place, pair, get_constant hc hw hs, nameAndType_found hp hm₂ hs,
    (lawful_bootstrapMethod _ _).again hb hm₁⟩

end Pool
end ClassTree
