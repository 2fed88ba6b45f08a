import Mathlib.Data.List.Induction
import Mathlib.Data.Set.Function
import ClassTree.Proofs.Code.Renaming
import ClassTree.Proofs.Numbering

namespace ClassTree

namespace Numbering

variable {α β : Type} [BEq α] [Hashable α] [LawfulBEq α] [BEq β] [Hashable β] [LawfulBEq β]
  {numbers : Numbering α} {things : List α} {a b : α}

omit [LawfulBEq α] in
theorem ofList_concat (things : List α) (a : α) :
    ofList (things ++ [a]) = (ofList things).see a := by
  simp [ofList]

theorem size_see (numbers : Numbering α) (a : α) :
    (numbers.see a).size = if a ∈ numbers then numbers.size else numbers.size + 1 := by
  rw [see, Std.HashMap.size_insertIfNew]

/-- What has a number keeps it. -/
theorem getD_see_of_mem (h : b ∈ numbers) : (numbers.see a).getD b 0 = numbers.getD b 0 := by
  rw [see, Std.HashMap.getD_insertIfNew, if_neg]
  rintro ⟨he, hnew⟩
  exact hnew (eq_of_beq he ▸ h)

theorem getD_see_self (h : a ∉ numbers) : (numbers.see a).getD a 0 = numbers.size := by
  rw [see, Std.HashMap.getD_insertIfNew, if_pos ⟨beq_self_eq_true a, h⟩]

/-- Things are numbered in the order of their first appearance. -/
theorem getD_ofList_lt_iff (ha : a ∈ things) (hb : b ∈ things) :
    (ofList things).getD a 0 < (ofList things).getD b 0 ↔ things.idxOf a < things.idxOf b := by
  induction things using List.reverseRecOn with
  | nil => cases ha
  | append_singleton things x ih =>
    rw [ofList_concat]
    by_cases hax : a ∈ things <;> by_cases hbx : b ∈ things
    · rw [getD_see_of_mem (mem_ofList.mpr hax), getD_see_of_mem (mem_ofList.mpr hbx),
        List.idxOf_append_of_mem hax, List.idxOf_append_of_mem hbx, ih hax hbx]
    · obtain rfl : b = x := by simpa [hbx] using hb
      rw [getD_see_of_mem (mem_ofList.mpr hax), getD_see_self (mt mem_ofList.mp hbx),
        List.idxOf_append_of_mem hax, List.idxOf_append_of_notMem hbx]
      have := getD_ofList_lt hax
      have := List.idxOf_lt_length_of_mem hax
      omega
    · obtain rfl : a = x := by simpa [hax] using ha
      rw [getD_see_of_mem (mem_ofList.mpr hbx), getD_see_self (mt mem_ofList.mp hax),
        List.idxOf_append_of_mem hbx, List.idxOf_append_of_notMem hax]
      have := getD_ofList_lt hbx
      have := List.idxOf_lt_length_of_mem hbx
      omega
    · obtain rfl : a = x := by simpa [hax] using ha
      obtain rfl : b = a := by simpa [hbx] using hb
      exact iff_of_false (Nat.lt_irrefl _) (Nat.lt_irrefl _)

/-- Things that are renamed, different ones differently, are numbered as before. -/
theorem ofList_map {f : α → β} (hf : Set.InjOn f {a | a ∈ things}) :
    (ofList (things.map f)).size = (ofList things).size ∧
      ∀ a ∈ things, (ofList (things.map f)).getD (f a) 0 = (ofList things).getD a 0 := by
  induction things using List.reverseRecOn with
  | nil => exact ⟨rfl, nofun⟩
  | append_singleton things x ih =>
    obtain ⟨hsize, hnumber⟩ := ih (hf.mono fun a ha => List.mem_append_left _ ha)
    have hseen : f x ∈ ofList (things.map f) ↔ x ∈ ofList things := by
      rw [mem_ofList, mem_ofList]
      refine ⟨fun h => ?_, List.mem_map_of_mem⟩
      obtain ⟨y, hy, he⟩ := List.mem_map.mp h
      exact hf (List.mem_append_left _ hy) (List.mem_append_right _ List.mem_cons_self) he ▸ hy
    rw [List.map_append, List.map_singleton, ofList_concat, ofList_concat, size_see, size_see,
      hsize]
    refine ⟨if_congr hseen rfl rfl, fun a ha => ?_⟩
    by_cases hold : a ∈ things
    · rw [getD_see_of_mem (mem_ofList.mpr (List.mem_map_of_mem hold)),
        getD_see_of_mem (mem_ofList.mpr hold), hnumber a hold]
    · obtain rfl : a = x := by simpa [hold] using ha
      have hnew : a ∉ ofList things := mt mem_ofList.mp hold
      rw [getD_see_self (mt hseen.mp hnew), getD_see_self hnew, hsize]

end Numbering

namespace Instruction

theorem mentions_mapLabels {ι ι' : Type} (f : ι → ι') (insn : Instruction ι) :
    (insn.mapLabels f).mentions = insn.mentions.map f := by
  cases insn with
  | tableSwitch low high default targets =>
    exact references_mapLabels f (.tableSwitch low high default targets)
  | lookupSwitch default cases => exact references_mapLabels f (.lookupSwitch default cases)
  | frame locals stack => exact references_mapLabels f (.frame locals stack)
  | _ => rfl

theorem isLine_mapLabels {ι ι' : Type} (f : ι → ι') (insn : Instruction ι) :
    (insn.mapLabels f).isLine = insn.isLine := by
  cases insn <;> rfl

end Instruction

namespace Method

variable {method other : Method} {f : Label → Label}

theorem variableList_mapLabels (f : Label → Label) (labels : Nat) (method : Method) :
    (method.mapLabels f labels).variableList =
      method.variableList.map (LocalVariable.mapLabels f) := by
  rw [variableList, variableList, localVariables_mapLabels]
  cases method.localVariables <;> rfl

theorem mentions_mapLabels (f : Label → Label) (labels : Nat) (method : Method) :
    (method.mapLabels f labels).mentions = method.mentions.map f := by
  simp only [mentions, variableList_mapLabels, code_mapLabels, handlers_mapLabels, List.map_append,
    List.map_flatMap, List.flatMap_map, Instruction.mentions_mapLabels]
  rfl

def number (method : Method) (label : Label) : Label :=
  ⟨(Numbering.ofList method.mentions).getD label 0⟩

def labelCount (method : Method) : Nat :=
  (Numbering.ofList method.mentions).size

theorem relabelled_eq (method : Method) :
    method.relabelled = method.mapLabels method.number method.labelCount := rfl

theorem injOn_number (method : Method) :
    Set.InjOn method.number {label | label ∈ method.mentions} := by
  intro a ha b hb h
  exact Numbering.getD_ofList_inj ha hb (Label.mk.inj h)

theorem bijOn_number (method : Method) : Set.BijOn method.number {label | label ∈ method.mentions}
    {label | label.index < method.labelCount} := by
  refine ⟨fun label hm => Numbering.getD_ofList_lt hm, method.injOn_number, fun label hlt => ?_⟩
  obtain ⟨old, hm, hn⟩ := Numbering.exists_of_lt_size hlt
  exact ⟨old, hm, congrArg Label.mk hn⟩

/-- The second method is the first one with its labels renamed one to one. How many labels have been
handed out for either is left aside. -/
def RenamesTo (method other : Method) : Prop :=
  ∃ f, Set.BijOn f {label | label ∈ method.mentions} {label | label ∈ other.mentions} ∧
    method.mapLabels f other.body.labels = other

theorem renamesTo_of_injOn (hf : Set.InjOn f {label | label ∈ method.mentions})
    (h : method.mapLabels f other.body.labels = other) : method.RenamesTo other := by
  refine ⟨f, ⟨fun label hm => ?_, hf, fun label hm => ?_⟩, h⟩
  · rw [← h]
    exact (mem_mentions_mapLabels _).mpr ⟨label, hm, rfl⟩
  · rw [Set.mem_ofPred_eq, ← h] at hm
    exact (mem_mentions_mapLabels _).mp hm

/-- A renamed method is relabelled to the same. -/
theorem RenamesTo.relabelled_eq (h : method.RenamesTo other) :
    method.relabelled = other.relabelled := by
  obtain ⟨f, hf, he⟩ := h
  rw [← he]
  obtain ⟨hsize, hnumber⟩ := Numbering.ofList_map hf.injOn
  rw [Method.relabelled_eq, Method.relabelled_eq, mapLabels_mapLabels, labelCount, labelCount,
    mentions_mapLabels, hsize]
  refine mapLabels_congr (fun label hm => ?_) _
  rw [Function.comp_apply, number, number, mentions_mapLabels, hnumber label hm]

/-- Methods that are relabelled to the same differ in the names of their labels only: a label of one
of them stands for that of the other one which has the same number. -/
theorem renamesTo_of_relabelled_eq (h : method.relabelled = other.relabelled) :
    method.RenamesTo other := by
  have : Nonempty Label := ⟨⟨0⟩⟩
  let back := Function.invFunOn other.number {label | label ∈ other.mentions}
  have hback : ∀ label ∈ other.mentions, back (other.number label) = label :=
    fun label hm => other.injOn_number.leftInvOn_invFunOn hm
  have hrenamed : (method.relabelled.mapLabels back other.body.labels) = other := by
    rw [h, Method.relabelled_eq, mapLabels_mapLabels]
    exact (mapLabels_congr (g := id) hback _).trans other.mapLabels_id
  have hnumbers : ∀ label ∈ method.mentions, ∃ label' ∈ other.mentions,
      other.number label' = method.number label := by
    intro label hm
    rw [← mem_mentions_mapLabels (g := other.number) other.labelCount, ← Method.relabelled_eq, ← h]
    exact (mem_mentions_mapLabels _).mpr ⟨label, hm, rfl⟩
  apply renamesTo_of_injOn (f := back ∘ method.number)
  · intro a ha b hb hab
    obtain ⟨a', ha', hna⟩ := hnumbers a ha
    obtain ⟨b', hb', hnb⟩ := hnumbers b hb
    have hsame : a' = b' := by
      rw [← hback a' ha', ← hback b' hb', hna, hnb]
      exact hab
    exact method.injOn_number ha hb (by rw [← hna, ← hnb, hsame])
  · rw [← mapLabels_mapLabels back method.number method.labelCount]
    exact hrenamed

theorem renamesTo_relabelled (method : Method) : method.RenamesTo method.relabelled :=
  renamesTo_of_injOn method.injOn_number rfl

theorem relabelled_relabelled (method : Method) :
    method.relabelled.relabelled = method.relabelled :=
  method.renamesTo_relabelled.relabelled_eq.symm

end Method

/-- The number of a label that is met, which is a new one if it has none yet. -/
def Numbering.meet (label : Label) : StateM (Numbering Label) Label := fun numbers =>
  (⟨(numbers.see label).getD label 0⟩, numbers.see label)

namespace VerificationType

def traverseCreation [Monad m] (visit : ν → m ν') : VerificationType κ ν → m (VerificationType κ ν')
  | top => pure top
  | integer => pure integer
  | float => pure float
  | double => pure double
  | long => pure long
  | null => pure null
  | uninitializedThis => pure uninitializedThis
  | object type => pure (object type)
  | uninitialized creation => return uninitialized (← visit creation)

end VerificationType

def Instruction.traverse [Monad m] (visit : Label → m Label) :
    Instruction Label → m (Instruction Label)
  | jump op target => return jump op (← visit target)
  | label l => return label (← visit l)
  | tableSwitch low high default targets =>
    return tableSwitch low high (← visit default) (← targets.mapM visit)
  | lookupSwitch default cases =>
    return lookupSwitch (← visit default)
      (← cases.mapM fun entry => return (entry.1, ← visit entry.2))
  | line number start => return line number (← visit start)
  | frame locals stack =>
    return frame (← locals.mapM (VerificationType.traverseCreation visit))
      (← stack.mapM (VerificationType.traverseCreation visit))
  | other => return other

def TryCatch.traverse [Monad m] (visit : Label → m Label) (handler : TryCatch) : m TryCatch :=
  return ⟨← visit handler.start, ← visit handler.stop, ← visit handler.handler, handler.catchType⟩

def LocalVariable.traverse [Monad m] (visit : Label → m Label) (entry : LocalVariable) :
    m LocalVariable :=
  return { entry with start := ← visit entry.start, stop := ← visit entry.stop }

/-- Going through a method once: its code, its handlers and its variables. -/
def Method.traverse [Monad m] (visit : Label → m Label) (method : Method) : m Method := do
  let code ← method.body.code.mapM (Instruction.traverse visit)
  let handlers ← method.handlers.mapM (TryCatch.traverse visit)
  let localVariables ← method.localVariables.mapM (·.mapM (LocalVariable.traverse visit))
  return { method with body := { method.body with code }, handlers, localVariables }

/-- The method with each label replaced by its number as soon as it is met. -/
def Method.renumbered (method : Method) : Method :=
  let (renamed, numbers) := (method.traverse Numbering.meet).run ∅
  { renamed with body := { renamed.body with labels := numbers.size } }

namespace Numbering

def Settled (numbers final : Numbering Label) : Prop :=
  ∀ label ∈ numbers, label ∈ final ∧ final.getD label 0 = numbers.getD label 0

theorem Settled.refl (numbers : Numbering Label) : Settled numbers numbers :=
  fun _ hm => ⟨hm, rfl⟩

theorem Settled.of_foldl {numbers final : Numbering Label} {labels : List Label}
    (h : Settled (labels.foldl see numbers) final) : Settled numbers final := by
  induction labels generalizing numbers with
  | nil => exact h
  | cons first rest ih =>
    intro label hm
    obtain ⟨hfinal, he⟩ := ih h label (mem_see.mpr (.inr hm))
    exact ⟨hfinal, he.trans (getD_see_of_mem hm)⟩

/-- A run meets some labels in order and comes to what the final numbers make of them. -/
def Meets (run : StateM (Numbering Label) α) (labels : List Label) (outcome : (Label → Label) → α) :
    Prop :=
  ∀ numbers final : Numbering Label, Settled (labels.foldl see numbers) final →
    run.run numbers = (outcome fun label => ⟨final.getD label 0⟩, labels.foldl see numbers)

variable {α β : Type} {run : StateM (Numbering Label) α} {next : α → StateM (Numbering Label) β}
  {labels labels' : List Label} {outcome : (Label → Label) → α}
  {outcome' : α → (Label → Label) → β}

theorem meets_pure (a : α) : Meets (pure a) [] fun _ => a :=
  fun _ _ _ => rfl

theorem meets_meet (label : Label) : Meets (meet label) [label] fun rename => rename label := by
  intro numbers final h
  obtain ⟨-, he⟩ := h label (mem_see.mpr (.inl rfl))
  exact Prod.ext (congrArg Label.mk he.symm) rfl

theorem Meets.bind (h : Meets run labels outcome) (h' : ∀ a, Meets (next a) labels' (outcome' a)) :
    Meets (run >>= next) (labels ++ labels') fun rename => outcome' (outcome rename) rename := by
  intro numbers final hs
  rw [List.foldl_append] at hs ⊢
  rw [StateT.run_bind, h numbers final hs.of_foldl]
  exact h' _ _ final hs

theorem Meets.of_eq {outcome' : (Label → Label) → α} (h : Meets run labels outcome)
    (hl : labels = labels') (ho : outcome = outcome') : Meets run labels' outcome' :=
  hl ▸ ho ▸ h

/-- What is made of the outcome meets no more labels. -/
theorem Meets.map (h : Meets run labels outcome) (f : α → β) :
    Meets (do return f (← run)) labels fun rename => f (outcome rename) :=
  (h.bind fun a => meets_pure (f a)).of_eq (List.append_nil _) rfl

theorem meets_mapM {visit : α → StateM (Numbering Label) β} {met : α → List Label}
    {renamed : (Label → Label) → α → β}
    (h : ∀ a, Meets (visit a) (met a) fun rename => renamed rename a) (l : List α) :
    Meets (l.mapM visit) (l.flatMap met) fun rename => l.map (renamed rename) := by
  induction l with
  | nil => exact meets_pure []
  | cons a l ih =>
    rw [List.mapM_cons]
    exact (h a).bind fun b => ih.map (b :: ·)

theorem meets_mapM_meet (l : List Label) :
    Meets (l.mapM meet) l fun rename => l.map rename :=
  (meets_mapM meets_meet l).of_eq (List.flatMap_singleton' l) rfl

theorem meets_traverseCreation {κ : Type} (type : VerificationType κ Label) :
    Meets (type.traverseCreation meet) type.creation?.toList
      fun rename => type.mapCreation rename := by
  cases type with
  | uninitialized creation => exact (meets_meet creation).map _
  | _ => exact meets_pure _

theorem meets_traverseCreations {κ : Type} (types : List (VerificationType κ Label)) :
    Meets (types.mapM (VerificationType.traverseCreation meet))
      (types.filterMap VerificationType.creation?)
      fun rename => types.map (VerificationType.mapCreation rename) :=
  (meets_mapM meets_traverseCreation types).of_eq (List.filterMap_eq_flatMap_toList _ _).symm rfl

/-- An element meets the labels that it mentions, as they are mentioned. -/
theorem meets_traverse (insn : Instruction Label) :
    Meets (insn.traverse meet) insn.mentions fun rename => insn.mapLabels rename := by
  cases insn with
  | jump op target => exact (meets_meet target).map _
  | label label => exact (meets_meet label).map _
  | line number start => exact (meets_meet start).map _
  | tableSwitch low high default targets =>
    exact (meets_meet default).bind fun _ => (meets_mapM_meet targets).map _
  | lookupSwitch default cases =>
    have hcases :=
      meets_mapM (fun entry : Int32 × Label => (meets_meet entry.2).map (entry.1, ·)) cases
    refine ((meets_meet default).bind fun _ => hcases.map _).of_eq ?_ rfl
    exact congrArg (default :: ·) List.map_eq_flatMap.symm
  | frame locals stack =>
    refine ((meets_traverseCreations locals).bind fun _ =>
      (meets_traverseCreations stack).map _).of_eq ?_ rfl
    exact List.filterMap_append.symm
  | _ => exact meets_pure _

theorem meets_traverseHandler (handler : TryCatch) :
    Meets (handler.traverse meet) handler.mentions fun rename => handler.mapLabels rename :=
  (meets_meet handler.start).bind fun _ => (meets_meet handler.stop).bind fun _ =>
    (meets_meet handler.handler).map _

theorem meets_traverseVariable (entry : LocalVariable) :
    Meets (entry.traverse meet) entry.mentions fun rename => entry.mapLabels rename :=
  (meets_meet entry.start).bind fun _ => (meets_meet entry.stop).map _

theorem meets_traverseMethod (method : Method) :
    Meets (method.traverse meet) method.mentions
      fun rename => method.mapLabels rename method.body.labels := by
  have hvariables : Meets (method.localVariables.mapM (·.mapM (LocalVariable.traverse meet)))
      (method.variableList.flatMap LocalVariable.mentions)
      fun rename => method.localVariables.map (·.map (LocalVariable.mapLabels rename)) := by
    unfold Method.variableList
    cases method.localVariables with
    | none => exact meets_pure none
    | some entries => exact (meets_mapM meets_traverseVariable entries).map some
  refine ((meets_mapM meets_traverse method.body.code).bind fun _ =>
    (meets_mapM meets_traverseHandler method.handlers).bind fun _ => hvariables.map _).of_eq ?_ rfl
  rw [Method.mentions, List.append_assoc]

end Numbering

namespace Method

variable {method : Method}

/-- Numbering labels as they are met comes to the same as numbering them beforehand. -/
theorem renumbered_eq (method : Method) : method.renumbered = method.relabelled := by
  have hrun := Numbering.meets_traverseMethod method ∅ _ (.refl _)
  rw [renumbered, hrun]
  rfl

theorem withoutLines_noLines (method : Method) :
    ∀ insn ∈ method.withoutLines.body.code, insn.isLine = false := by
  intro insn hm
  obtain ⟨old, hold, rfl⟩ := List.mem_map.mp hm
  rw [Instruction.isLine_mapLabels]
  simpa using (List.mem_filter.mp hold).2

theorem withoutLines_eq_of_noLines (h : ∀ insn ∈ method.body.code, insn.isLine = false) :
    method.withoutLines = method.relabelled := by
  have hall : (method.body.code.filter fun insn => !insn.isLine) = method.body.code :=
    List.filter_eq_self.mpr fun insn hm => by simp [h insn hm]
  unfold withoutLines
  rw [hall]

theorem withoutLines_withoutLines (method : Method) :
    method.withoutLines.withoutLines = method.withoutLines := by
  rw [withoutLines_eq_of_noLines method.withoutLines_noLines]
  exact relabelled_relabelled _

/-- Relabelling renames the labels of a method one to one to the numbers from zero, in the order of
their first appearance, and that by giving each the next number when it is met. Methods come out the
same if and only if they differ in the names of their labels only; what has come out stays as it is.
Likewise without lines, where the outcome is that of the method with the lines taken out. -/
theorem relabelled_canonical (method : Method) :
    (∃ rename count, method.relabelled = method.mapLabels rename count ∧
      Set.BijOn rename {label | label ∈ method.mentions} {label | label.index < count} ∧
      ∀ a ∈ method.mentions, ∀ b ∈ method.mentions,
        (rename a).index < (rename b).index ↔ method.mentions.idxOf a < method.mentions.idxOf b) ∧
    method.renumbered = method.relabelled ∧
    (∀ other, method.relabelled = other.relabelled ↔ method.RenamesTo other) ∧
    method.relabelled.relabelled = method.relabelled ∧
    method.withoutLines = relabelled { method with
      body := { method.body with code := method.body.code.filter fun insn => !insn.isLine } } ∧
    (∀ insn ∈ method.withoutLines.body.code, insn.isLine = false) ∧
    method.withoutLines.withoutLines = method.withoutLines := by
  refine ⟨⟨method.number, method.labelCount, rfl, method.bijOn_number, fun a ha b hb => ?_⟩,
    method.renumbered_eq, fun other => ?_, method.relabelled_relabelled, rfl,
    method.withoutLines_noLines, method.withoutLines_withoutLines⟩
  · exact Numbering.getD_ofList_lt_iff ha hb
  · exact ⟨renamesTo_of_relabelled_eq, RenamesTo.relabelled_eq⟩

end Method
end ClassTree
