import ClassTree.Proofs.Code.Listing
import ClassTree.Proofs.Subroutine.Equivalence
import ClassTree.Proofs.Subroutine.Serving

namespace ClassTree

/-- Nothing of subroutines is left in the code of a method, nor frames, and its labels are sound. -/
structure Method.SelfContained (method : Method) : Prop extends method.LabelsSound where
  noCall : ∀ target, .jump .jsr target ∉ method.body.code
  noReturn : ∀ slot, .var .ret slot ∉ method.body.code
  noFrame : ∀ locals stack, .frame locals stack ∉ method.body.code
  accepted : ∀ name, method.checkLabels name = .ok ()

theorem Instruction.mapLabels_eq_var {ι ι' : Type} (f : ι → ι') {insn : Instruction ι}
    {op : Opcode} {slot : UInt16} : insn.mapLabels f = .var op slot ↔ insn = .var op slot := by
  cases insn <;> simp [mapLabels]

namespace Subroutine

theorem callTarget?_mapLabels (f : Label → Label) (insn : Instruction Label) :
    callTarget? (insn.mapLabels f) = (callTarget? insn).map f := by
  cases insn with
  | jump op target =>
    unfold callTarget? Instruction.mapLabels
    by_cases hop : op = .jsr
    · subst hop
      rfl
    · simp [hop]
  | _ => rfl

variable {job : Job} {body : Subroutine} {copies : List Copy} {out : Method} {copy : Copy}
  {label clone : Label} {insn : Instruction Label} {code : List (Instruction Label)}

/-- What is in the code is in the piece of a copy for some element. -/
theorem Copied.exists_piece (h : Copied job body copies code) (hm : insn ∈ code) :
    ∃ copy ∈ copies, ∃ (i : Nat) (element : Instruction Label) (piece : List (Instruction Label)),
      job.outline.method.body.code[i]? = some element ∧ copy.pieces[i]? = some piece ∧
      Piece job copy.nesting i element piece ∧ insn ∈ piece := by
  rw [h.code] at hm
  obtain ⟨copy, hc, hm⟩ := List.mem_flatMap.mp hm
  obtain ⟨piece, hpiece, hm⟩ := List.mem_flatten.mp hm
  obtain ⟨i, hi⟩ := List.getElem?_of_mem hpiece
  have hlen := (h.pieces copy hc).length_eq
  rw [List.length_zipIdx] at hlen
  have hlt : i < job.outline.method.body.code.length := hlen ▸ (List.getElem?_eq_some_iff.mp hi).1
  have hat := List.getElem?_eq_getElem hlt
  obtain ⟨k, hk⟩ := List.getElem?_of_mem hc
  obtain ⟨piece', hi', hp⟩ := h.piece hk hat
  obtain rfl := Option.some.inj (hi.symm.trans hi')
  exact ⟨copy, hc, i, _, piece, hat, hi, hp, hm⟩

/-- Every instance that a copy is within has a copy. -/
theorem Copied.exists_around (h : Copied job body copies code) (hm : copy ∈ copies) :
    ∀ inst ∈ copy.nesting.inner :: copy.nesting.outer,
      ∃ around ∈ copies, around.nesting.inner = inst := by
  obtain ⟨k, hk⟩ := List.getElem?_of_mem hm
  induction k using Nat.strongRecOn generalizing copy with
  | ind k ih =>
    intro inst hi
    rcases List.mem_cons.mp hi with rfl | hi
    · exact ⟨copy, hm, rfl⟩
    · -- copies around a copy come before it
      have henclosed := h.enclosed hk
      generalize copy.enclosing = enclosing at henclosed
      cases henclosed with
      | outermost alone =>
        rw [alone] at hi
        cases hi
      | @within place outer at_ nested =>
        rw [List.getElem?_take] at at_
        split at at_
        · rename_i hlt
          rw [nested] at hi
          exact ih place hlt (List.mem_of_getElem? at_) at_ inst hi
        · cases at_

namespace Assembled

variable (h : Assembled job body copies out)
include h

/-- What stands for a label in a copy is placed. -/
theorem placed_of_stands (hc : copy ∈ copies)
    (hl : copy.nesting.inner.labels[label]? = some clone) : clone ∈ out.body.placed := by
  have hcomplete := h.complete copy hc
  obtain ⟨_, hp⟩ := hcomplete.pending
  obtain ⟨_, _, -, -, hclones⟩ := hp.clones
  obtain ⟨i, hi⟩ := hclones.placed hl
  obtain ⟨j, first, -, -, -, hpiece⟩ := hcomplete.places hi hl
  have hm : .label clone ∈ copy.code :=
    List.mem_flatten.mpr ⟨_, List.mem_of_getElem? hpiece, List.mem_singleton_self _⟩
  rw [Body.placed, h.copied.code]
  exact List.mem_filterMap.mpr ⟨_, List.mem_flatMap.mpr ⟨copy, hc, hm⟩, rfl⟩

theorem placed_of_rangeLabel (hc : copy ∈ copies)
    (hr : job.rangeLabel copy.nesting label = .ok clone) : clone ∈ out.body.placed :=
  h.placed_of_stands hc (stands_of_rangeLabel hr)

/-- Jumps may leave a copy, but only for the copies around it. -/
theorem placed_of_jumpLabel (hc : copy ∈ copies)
    (hj : job.jumpLabel copy.nesting label = .ok clone) : clone ∈ out.body.placed := by
  obtain ⟨index, -, hj⟩ := bind_eq_ok.mp hj
  split at hj
  · rename_i found hf
    obtain rfl := pure_eq_ok.mp hj
    obtain ⟨owner, ho, hl⟩ := Option.bind_eq_some_iff.mp hf
    have hm : owner ∈ copy.nesting.inner :: copy.nesting.outer := by
      unfold Nesting.owner? at ho
      split at ho
      · exact List.mem_reverse.mp (List.mem_of_find?_eq_some ho)
      · cases ho
    obtain ⟨around, ha, rfl⟩ := h.copied.exists_around hc owner hm
    exact h.placed_of_stands ha hl
  · cases hj

/-- Whatever an element of the code refers to is placed. -/
theorem placed_of_references (hm : insn ∈ out.body.code) :
    ∀ label ∈ insn.references, label ∈ out.body.placed := by
  obtain ⟨copy, hc, i, element, piece, hat, hi, hp, hm⟩ := h.copied.exists_piece hm
  intro label hl
  cases hp with
  | label stands =>
    obtain rfl := List.mem_singleton.mp hm
    cases hl
  | shared | hidden | frame => cases hm
  | ret own back =>
    obtain rfl := List.mem_singleton.mp hm
    obtain rfl := List.mem_singleton.mp hl
    exact h.returned copy hc _ back
  | @call target entry back called own =>
    obtain ⟨copy', hc', entry', back', hi', hcall⟩ := h.calls copy hc hat own
    obtain ⟨rfl, rfl⟩ : entry = entry' ∧ back = back' := by
      simpa [callPiece] using Option.some.inj (hi.symm.trans hi')
    simp only [List.mem_cons, List.not_mem_nil, or_false] at hm
    rcases hm with rfl | rfl | rfl
    · cases hl
    · obtain rfl := List.mem_singleton.mp hl
      exact h.placed_of_jumpLabel hc' hcall.enters
    · cases hl
  | copy own element' noFrame noReturn noCall resolved =>
    obtain rfl := List.mem_singleton.mp hm
    obtain ⟨f, rfl, hf⟩ := resolve_ok resolved
    rw [Instruction.references_mapLabels] at hl
    obtain ⟨original, ho, rfl⟩ := List.mem_map.mp hl
    exact h.placed_of_jumpLabel hc (hf original ho)

theorem placed_of_handler {handler : TryCatch} (hm : handler ∈ out.handlers) :
    ∀ label ∈ handler.mentions, label ∈ out.body.placed := by
  obtain ⟨copy, hc, original, -, he⟩ := h.handled handler hm
  have hjump := jumpLabel_of_emitHandler he
  obtain ⟨start, hstart, he⟩ := bind_eq_ok.mp he
  obtain ⟨stop, hstop, he⟩ := bind_eq_ok.mp he
  split at he
  · cases he
  · obtain ⟨target, htarget, he⟩ := bind_eq_ok.mp he
    obtain rfl := Option.some.inj (pure_eq_ok.mp he)
    simp only [TryCatch.mentions, List.forall_mem_cons, List.not_mem_nil, false_imp_iff,
      implies_true, and_true]
    exact ⟨h.placed_of_rangeLabel hc hstart, h.placed_of_rangeLabel hc hstop,
      h.placed_of_jumpLabel hc hjump⟩

theorem placed_of_variable {entry : LocalVariable} (hm : entry ∈ out.variableList) :
    ∀ label ∈ entry.mentions, label ∈ out.body.placed := by
  obtain ⟨copy, hc, original, -, he⟩ := h.localVariables entry hm
  obtain ⟨start, hstart, he⟩ := bind_eq_ok.mp he
  obtain ⟨stop, hstop, he⟩ := bind_eq_ok.mp he
  split at he
  · cases he
  · obtain rfl := Option.some.inj (pure_eq_ok.mp he)
    simp only [LocalVariable.mentions, List.forall_mem_cons, List.not_mem_nil, false_imp_iff,
      implies_true, and_true]
    exact ⟨h.placed_of_rangeLabel hc hstart, h.placed_of_rangeLabel hc hstop⟩

theorem placed_of_mem_references : ∀ label ∈ out.references, label ∈ out.body.placed := by
  intro label hm
  rcases List.mem_append.mp hm with hm | hm
  · rcases List.mem_append.mp hm with hm | hm
    · obtain ⟨insn, hi, hm⟩ := List.mem_flatMap.mp hm
      exact h.placed_of_references hi label hm
    · obtain ⟨handler, hh, hm⟩ := List.mem_flatMap.mp hm
      exact h.placed_of_handler hh label hm
  · obtain ⟨entry, he, hm⟩ := List.mem_flatMap.mp hm
    exact h.placed_of_variable he label hm

theorem labelsSound : out.LabelsSound where
  resolved := fun label hm => List.count_eq_one_of_mem h.nodup (h.placed_of_mem_references label hm)
  nodup := h.nodup
  handedOut := by
    intro label hm
    rcases Method.mem_mentions.mp hm with hm | hm
    · exact h.below label hm
    · exact h.below label (h.placed_of_mem_references label hm)

/-- What is not made for a call, a return or a label is an element of the method, with labels
replaced. -/
theorem exists_copied (hm : insn ∈ out.body.code) :
    insn = .plain .aconstNull ∨ (∃ target, insn = .jump .goto target) ∨
      (∃ label, insn = .label label) ∨
      ∃ element ∈ job.outline.method.body.code, ∃ f, insn = element.mapLabels f ∧
        element.isFrame = false ∧ (∀ slot, element ≠ .var .ret slot) ∧
        callTarget? element = none := by
  obtain ⟨copy, hc, i, element, piece, hat, -, hp, hm⟩ := h.copied.exists_piece hm
  cases hp with
  | label => exact .inr (.inr (.inl ⟨_, List.mem_singleton.mp hm⟩))
  | shared | hidden | frame => cases hm
  | ret => exact .inr (.inl ⟨_, List.mem_singleton.mp hm⟩)
  | call =>
    simp only [List.mem_cons, List.not_mem_nil, or_false] at hm
    rcases hm with rfl | rfl | rfl
    · exact .inl rfl
    · exact .inr (.inl ⟨_, rfl⟩)
    · exact .inr (.inr (.inl ⟨_, rfl⟩))
  | copy own element' noFrame noReturn noCall resolved =>
    obtain ⟨f, hf, -⟩ := resolve_ok resolved
    rw [← List.mem_singleton.mp hm] at hf
    exact .inr (.inr (.inr ⟨element, List.mem_of_getElem? hat, f, hf, noFrame, noReturn, noCall⟩))

theorem selfContained : out.SelfContained := by
  have hfree {insn : Instruction Label} (hm : insn ∈ out.body.code) : insn.isFrame = false ∧
      (∀ slot, insn ≠ .var .ret slot) ∧ callTarget? insn = none := by
    rcases h.exists_copied hm with rfl | ⟨_, rfl⟩ | ⟨_, rfl⟩ | ⟨element, -, f, rfl, hfree⟩
    · exact ⟨rfl, nofun, rfl⟩
    · exact ⟨rfl, nofun, rfl⟩
    · exact ⟨rfl, nofun, rfl⟩
    · rwa [Instruction.isFrame_mapLabels, callTarget?_mapLabels, Option.map_eq_none_iff,
        forall_congr' fun slot => not_congr (Instruction.mapLabels_eq_var f)]
  exact {
    toLabelsSound := h.labelsSound
    noCall := fun _ hm => nomatch (hfree hm).2.2
    noReturn := fun slot hm => (hfree hm).2.1 slot rfl
    noFrame := fun _ _ hm => nomatch (hfree hm).1
    accepted := Method.checkLabels_of_nodup h.nodup h.placed_of_mem_references }

/-- Inlining makes no wide calls. -/
theorem noWideCall (hwide : ∀ target, .jump .jsrWide target ∉ job.outline.method.body.code) :
    ∀ target, .jump .jsrWide target ∉ out.body.code := by
  intro target hm
  rcases h.exists_copied hm with he | ⟨_, he⟩ | ⟨_, he⟩ | ⟨element, hin, f, he, -⟩
  · cases he
  · cases he
  · cases he
  · cases element <;> cases he
    exact hwide _ hin

end Assembled

/-- Inlining the subroutines of a method comes to an end, and what comes of it stands by itself. The
instances are emitted in the order in which they are called for, all those within each other being
of different subroutines; a call that would repeat one is what the method is refused for. -/
theorem inlineSubroutines_selfContained {method : Method} (h : method.callsSubroutines = true) :
    (∀ out, method.inlineSubroutines = .ok out → out.SelfContained ∧
      ((∀ target, .jump .jsrWide target ∉ method.body.code) →
        ∀ target, .jump .jsrWide target ∉ out.body.code)) ∧
    ((∃ cause, beginInlining method = .error cause ∧ method.inlineSubroutines = .error cause) ∨
      ∃ job start supply run outcome, beginInlining method = .ok (job, start, supply) ∧
        job.Serves (.blank supply) [start] run outcome ∧
        method.inlineSubroutines = outcome.map (finishInlining method) ∧
        (∀ state queue, (state, queue) ∈ run → ∀ nesting ∈ queue,
          ((nesting.inner :: nesting.outer).map (·.subroutine.entry)).Nodup) ∧
        (method.inlineSubroutines = .error (.recursiveSubroutine method.displayName) ↔
          ∃ state nesting queue, (state, nesting :: queue) ∈ run ∧ job.Repeats state nesting)) := by
  constructor
  · intro out hout
    obtain ⟨body, called, copies, -, -, hassembled⟩ := assembled_inlineSubroutines h hout
    exact ⟨hassembled.selfContained, hassembled.noWideCall⟩
  cases hbegin : beginInlining method with
  | error cause => exact .inl ⟨cause, rfl, by rw [inlineSubroutines_eq h, hbegin]; rfl⟩
  | ok begun =>
    obtain ⟨job, start, supply⟩ := begun
    obtain ⟨body, -, houtline, hn, hp, -, hback, houter⟩ := beginInlining_ok hbegin
    have hn : job.outline.method.body.placed.Nodup := houtline ▸ hn
    have hqueue : ∀ nesting ∈ [start],
        Pending job body 0 (Inlined.blank supply).supply nesting := by
      intro nesting hm
      exact List.mem_singleton.mp hm ▸ hp
    have hinline : method.inlineSubroutines = (job.emitAll (job.subroutines.length + 1)
        { Inlined.blank supply with calls := [start] }).map (finishInlining method) := by
      rw [inlineSubroutines_eq h, hbegin]
      rfl
    obtain ⟨run, hrun⟩ := @serves_emitAll job { Inlined.blank supply with calls := [start] } _
      fun final hfinal => by
        obtain ⟨copies, -, hdone, -⟩ := assembly_emitAll hn hp houter hback hfinal
        exact hdone
    refine .inr ⟨job, start, supply, run, _, rfl, hrun, hinline, hrun.distinct hn rfl hqueue, ?_⟩
    have hname : method.displayName = job.outline.method.displayName := by
      rw [houtline]
      rfl
    rw [hinline, map_eq_error, hname, hrun.eq_error_iff]
    simp only [emit_recursive (knows_beginInlining hbegin)]

/-- The inlined call leaves nothing of the subroutine behind. -/
theorem callingOnce_selfContained : callingOnce.callsSubroutines = true ∧
    ∃ out, callingOnce.inlineSubroutines = .ok out ∧ out.SelfContained := by
  have hc : callingOnce.callsSubroutines = true := rfl
  obtain ⟨hcontained, -⟩ := inlineSubroutines_selfContained hc
  exact ⟨hc, _, CallingOnce.inlineSubroutines_eq, (hcontained _ CallingOnce.inlineSubroutines_eq).1⟩

def callingItself : Method :=
  { Method.declared (.ofBits .ofMethod 0) "run" "()V" with
    body := ⟨[.jump .jsr ⟨0⟩, .plain .returnVoid, .label ⟨0⟩, .var .astore 0, .jump .jsr ⟨0⟩,
      .var .ret 0], 1⟩ }

example : callingItself.inlineSubroutines =
    .error (.recursiveSubroutine callingItself.displayName) := by
  cbv

end Subroutine
end ClassTree
