import ClassTree.Proofs.Subroutine.Mirroring

namespace ClassTree.Subroutine

variable {job : Job} {body : Subroutine} {copies : List Copy} {out : Method} {copy : Copy}
  {k j p : Nat} {insn : Instruction Label}

/-- Control is before the same instruction, in the method and in a copy that returns to the right
indices. -/
def Beside (job : Job) (copies : List Copy) (out : Method) (config : Config) (p : Nat) : Prop :=
  ∃ k copy, copies[k]? = some copy ∧ Stacked job copies config.returns k ∧
    Lands job copies out k copy config.index p

/-- Control is at a call in the method, and in the middle of what the call comes to in a copy. -/
def Midway (job : Job) (copies : List Copy) (config : Config) (p : Nat) : Prop :=
  ∃ k copy target, copies[k]? = some copy ∧ Stacked job copies config.returns k ∧
    copy.nesting.inner.subroutine.claims config.index = true ∧
    job.outline.method.body.code[config.index]? = some (.jump .jsr target) ∧
    p = start copies k config.index + 1

namespace Separate

variable (h : Separate job body copies out)
include h

/-- What an instruction of a copy is seen as, and what it throws to. -/
theorem real_at (hk : copies[k]? = some copy)
    (hj : copy.nesting.inner.subroutine.claims j = true)
    (hat : job.outline.method.body.code[j]? = some insn) (hreal : insn.isMarker = false) :
    origin job.outline.method copies (start copies k j) = seenAt job.outline.method j ∧
      Mirrored job copies out k copy (job.outline.method.Throws j)
        (out.Throws (start copies k j)) := by
  obtain ⟨piece, hpiece, hp⟩ := h.copied.piece hk hat
  obtain ⟨first, rest, rfl, hfirst⟩ := hp.real (h.owns_of_claims hk hj) hreal
  have hout := h.code_at hk hpiece (n := 0) (by simp)
  refine ⟨origin_start _ hk hpiece (n := 0) (by simp),
    h.mirrored_throws hk hj hat hreal (Nat.le_refl _) ?_ hout hfirst⟩
  rw [start_succ hk hpiece]
  simp

/-- A copy can do what the method does. -/
theorem forth_real {returns : List Nat} {config : Config} (hs : Stacked job copies returns k)
    (hk : copies[k]? = some copy) (hj : copy.nesting.inner.subroutine.claims j = true)
    (hat : job.outline.method.body.code[j]? = some insn) (hreal : insn.isMarker = false)
    (step : Step job.outline.method ⟨j, returns⟩ config) : ∃ p,
      (out.flat (origin job.outline.method copies)).Run (start copies k j)
        (seenAt job.outline.method j).toList p ∧ Beside job copies out config p := by
  obtain ⟨horigin, hthrows⟩ := h.real_at hk hj hat hreal
  have hrun : ∀ {p}, out.Leads (start copies k j) p ∨ out.Throws (start copies k j) p →
      (out.flat (origin job.outline.method copies)).Run (start copies k j)
        (seenAt job.outline.method j).toList p :=
    fun hp => horigin ▸ .single hp
  cases step with
  | leads hat' noCall leads =>
    obtain rfl := Option.some.inj (hat.symm.trans hat')
    have noReturn : ∀ slot, insn ≠ .var .ret slot := by
      rintro slot rfl
      exact not_leads_return hat leads
    obtain ⟨p, hp, hl⟩ := (h.mirrored_leads hk hj hat hreal noCall noReturn).forth leads
    exact ⟨p, hrun (.inl hp), k, copy, hk, hs, hl⟩
  | throws throws =>
    obtain ⟨p, hp, hl⟩ := hthrows.forth throws
    exact ⟨p, hrun (.inr hp), k, copy, hk, hs, hl⟩
  | call hat' hi =>
    obtain ⟨entry, back, k', copy', i, p, hpiece, hk', hs', hi', hp, hl⟩ := h.call_at hs hk hj hat'
    obtain rfl := Option.some.inj (hi.symm.trans hi')
    have hnull := h.code_at hk hpiece (n := 0) (by simp [callPiece])
    have hgoto := h.code_at hk hpiece (n := 1) (by simp [callPiece])
    have hunseen := origin_start job.outline.method hk hpiece (n := 1) (by simp [callPiece])
    rw [seenAt_call hat'] at hunseen
    have hrest : (out.flat (origin job.outline.method copies)).Run (start copies k j + 1) [] p :=
      .silent (.inl (.jump hgoto List.mem_cons_self hp)) hunseen (.refl p)
    have hboth := (hrun (.inl (.next hnull rfl))).trans hrest
    rw [List.append_nil] at hboth
    exact ⟨p, hboth, k', copy', hk', hs', hl⟩
  | ret hat' =>
    obtain ⟨back, i, rest, k', copy', p, hpiece, hreturns, hk', hs', hp, hl⟩ :=
      h.return_at hs hk hj hat'
    obtain ⟨rfl, rfl⟩ := List.cons.inj hreturns
    have hgoto := h.code_at hk hpiece (n := 0) (by simp)
    exact ⟨p, hrun (.inl (.jump hgoto List.mem_cons_self hp)), k', copy', hk', hs', hl⟩

/-- A copy can do nothing but what the method does. -/
theorem back_real {returns : List Nat} (hs : Stacked job copies returns k)
    (hk : copies[k]? = some copy) (hj : copy.nesting.inner.subroutine.claims j = true)
    (hat : job.outline.method.body.code[j]? = some insn) (hreal : insn.isMarker = false)
    (step : out.Leads (start copies k j) p ∨ out.Throws (start copies k j) p) : ∃ config,
      (calling job.outline.method).Run ⟨j, returns⟩ (seenAt job.outline.method j).toList config ∧
        (Beside job copies out config p ∨ Midway job copies config p) := by
  obtain ⟨-, hthrows⟩ := h.real_at hk hj hat hreal
  rcases step with leads | throws
  · by_cases hcall : ∃ target, insn = .jump .jsr target
    · obtain ⟨target, rfl⟩ := hcall
      obtain ⟨entry, back, _, _, _, _, hpiece, -⟩ := h.call_at hs hk hj hat
      have hnull := h.code_at hk hpiece (n := 0) (by simp [callPiece])
      refine ⟨⟨j, returns⟩, ?_, .inr ⟨k, copy, target, hk, hs, hj, hat, ?_⟩⟩
      · rw [seenAt_call hat]
        exact .refl _
      · cases leads with
        | next => rfl
        | jump hat' hm =>
          obtain rfl := Option.some.inj (hnull.symm.trans hat')
          cases hm
    by_cases hret : ∃ slot, insn = .var .ret slot
    · obtain ⟨slot, rfl⟩ := hret
      obtain ⟨back, i, rest, k', copy', p', hpiece, rfl, hk', hs', hp, hl⟩ :=
        h.return_at hs hk hj hat
      have hgoto := h.code_at hk hpiece (n := 0) (by simp)
      obtain rfl : p' = p := by
        cases leads with
        | next hat' hc =>
          obtain rfl := Option.some.inj (hgoto.symm.trans hat')
          cases hc
        | jump hat' hm hp' =>
          obtain rfl := Option.some.inj (hgoto.symm.trans hat')
          obtain rfl := List.mem_singleton.mp hm
          exact Option.some.inj (hp.symm.trans hp')
      exact ⟨⟨i, rest⟩, .single (.ret hat), .inl ⟨k', copy', hk', hs', hl⟩⟩
    · have noCall : callTarget? insn = none := by
        unfold callTarget?
        split
        · exact absurd ⟨_, rfl⟩ hcall
        · rfl
      obtain ⟨i, hi, hl⟩ := (h.mirrored_leads hk hj hat hreal noCall
        (fun slot he => hret ⟨slot, he⟩)).back leads
      exact ⟨⟨i, returns⟩, .single (.leads hat noCall hi), .inl ⟨k, copy, hk, hs, hl⟩⟩
  · obtain ⟨i, hi, hl⟩ := hthrows.back throws
    exact ⟨⟨i, returns⟩, .single (.throws hi), .inl ⟨k, copy, hk, hs, hl⟩⟩

/-- The second of the instructions that a call comes to enters the subroutine. -/
theorem back_midway {config : Config} {q : Nat} (hm : Midway job copies config p)
    (step : out.Leads p q ∨ out.Throws p q) : ∃ config',
      (calling job.outline.method).Run config [] config' ∧ Beside job copies out config' q := by
  obtain ⟨k, copy, target, hk, hs, hj, hat, rfl⟩ := hm
  obtain ⟨j, returns⟩ := config
  obtain ⟨entry, back, k', copy', i, p, hpiece, hk', hs', hi, hp, hl⟩ := h.call_at hs hk hj hat
  have hgoto := h.code_at hk hpiece (n := 1) (by simp [callPiece])
  have hsingle : ∀ {config'}, Step job.outline.method ⟨j, returns⟩ config' →
      (calling job.outline.method).Run ⟨j, returns⟩ [] config' :=
    fun hstep => .silent hstep (seenAt_call hat) (.refl _)
  rcases step with leads | throws
  · obtain rfl : p = q := by
      cases leads with
      | next hat' hc =>
        obtain rfl := Option.some.inj (hgoto.symm.trans hat')
        cases hc
      | jump hat' hm hp' =>
        obtain rfl := Option.some.inj (hgoto.symm.trans hat')
        obtain rfl := List.mem_singleton.mp hm
        exact Option.some.inj (hp.symm.trans hp')
    exact ⟨_, hsingle (.call hat hi), k', copy', hk', hs', hl⟩
  · have hhi : start copies k j + 1 < start copies k (j + 1) := by
      rw [start_succ hk hpiece]
      simp [callPiece]
    obtain ⟨i', hi', hl'⟩ :=
      (h.mirrored_throws hk hj hat rfl (Nat.le_succ _) hhi hgoto rfl).back throws
    exact ⟨_, hsingle (.throws hi'), k, copy, hk, hs, hl'⟩

section Traces

variable {config config' : Config} {q : Nat}
  (hend : ∀ config, Reaches job.outline.method config →
    config.index < job.outline.method.body.code.length)
include hend

/-- A step of the method is followed by the inlined code. -/
theorem forth (hr : Reaches job.outline.method config ∧ Beside job copies out config p)
    (step : Step job.outline.method config config') : ∃ p',
      (out.flat (origin job.outline.method copies)).Run p
        (seenAt job.outline.method config.index).toList p' ∧
      Reaches job.outline.method config' ∧ Beside job copies out config' p' := by
  obtain ⟨hreach, k, copy, hk, hs, hl⟩ := hr
  have hreach' := hreach.step step
  obtain ⟨i, returns⟩ := config
  obtain ⟨insn, hat⟩ : ∃ insn, job.outline.method.body.code[i]? = some insn :=
    ⟨_, List.getElem?_eq_getElem (hend _ hreach)⟩
  cases hm : insn.isMarker with
  | true =>
    obtain rfl := (step_marker hat hm).mp step
    refine ⟨p, ?_, hreach', k, copy, hk, hs,
      ⟨fun hj => hl.next ((nextReal_of_marker hat hm).trans hj)⟩⟩
    rw [seenAt_marker hat hm]
    exact .refl p
  | false =>
    obtain ⟨hi, hnext⟩ := hl.next (nextReal_of_real hat hm)
    obtain ⟨p', hrun, hbeside⟩ := h.forth_real hs hk hi hat hm step
    exact ⟨p', (h.copied.run_nextReal hnext).trans hrun, hreach', hbeside⟩

omit hend in
theorem origin_midway (hm : Midway job copies config p) :
    origin job.outline.method copies p = none := by
  obtain ⟨k, copy, target, hk, hs, hj, hat, rfl⟩ := hm
  obtain ⟨entry, back, _, _, _, _, hpiece, -⟩ := h.call_at hs hk hj hat
  rw [origin_start _ hk hpiece (by simp [callPiece]), seenAt_call hat]

omit h in
/-- Control of the method gets to an instruction, and that of the copy is there, or at a marker. -/
theorem settle (hreach : Reaches job.outline.method config)
    (hl : Lands job copies out k copy config.index p) : ∃ j insn,
      copy.nesting.inner.subroutine.claims j = true ∧
      job.outline.method.body.code[j]? = some insn ∧ insn.isMarker = false ∧
      (calling job.outline.method).Run config [] ⟨j, config.returns⟩ ∧
      (p = start copies k j ∨ ∃ element, out.body.code[p]? = some element ∧
        element.isMarker = true) := by
  obtain ⟨j, hj⟩ := hreach.nextReal hend
  obtain ⟨hclaims, hnext⟩ := hl.next hj
  obtain ⟨-, ⟨insn, hat, hreal⟩, -⟩ := nextReal_spec hj
  obtain ⟨hpj, ⟨_, hlast, -⟩, hmarkers⟩ := nextReal_spec hnext
  refine ⟨j, insn, hclaims, hat, hreal, run_nextReal hj _, ?_⟩
  rcases Nat.eq_or_lt_of_le hpj with heq | hlt
  · exact .inl heq
  · have hin := List.getElem?_eq_getElem
      (Nat.lt_trans hlt (List.getElem?_eq_some_iff.mp hlast).1)
    exact .inr ⟨_, hin, hmarkers p _ (Nat.le_refl p) hlt hin⟩

/-- A step of the inlined code is one of the method, or nothing happens. -/
theorem back (hr : Reaches job.outline.method config ∧
      (Beside job copies out config p ∨ Midway job copies config p))
    (step : out.Leads p q ∨ out.Throws p q) : ∃ config',
      (calling job.outline.method).Run config (origin job.outline.method copies p).toList config' ∧
      Reaches job.outline.method config' ∧
        (Beside job copies out config' q ∨ Midway job copies config' q) := by
  obtain ⟨hreach, ⟨k, copy, hk, hs, hl⟩ | hmid⟩ := hr
  · obtain ⟨j, insn, hclaims, hat, hreal, hsettle, rfl | ⟨element, hin, hm⟩⟩ :=
      settle hend hreach hl
    · obtain ⟨config', hrun, hbeside⟩ := h.back_real hs hk hclaims hat hreal step
      rw [(h.real_at hk hclaims hat hreal).1]
      exact ⟨config', hsettle.trans hrun, hreach.run (hsettle.trans hrun), hbeside⟩
    · obtain rfl : q = p + 1 := by
        rcases step with leads | throws
        · exact (leads_marker hin hm).mp leads
        · exact absurd throws (not_throws_marker hin hm)
      refine ⟨config, ?_, hreach, .inl ⟨k, copy, hk, hs, ⟨fun hj => ?_⟩⟩⟩
      · rw [h.copied.origin_marker hin hm]
        exact .refl _
      · rw [← nextReal_of_marker hin hm]
        exact hl.next hj
  · obtain ⟨config', hrun, hbeside⟩ := h.back_midway hmid step
    rw [h.origin_midway hmid]
    exact ⟨config', hrun, hreach.run hrun, .inl hbeside⟩

/-- Both start in the body. -/
theorem beside_start : Beside job copies out ⟨0, []⟩ 0 := by
  have hlt := hend ⟨0, []⟩ ⟨[], .refl _⟩
  obtain ⟨copy, hk, hsub, hback⟩ := h.starts
  have hclaims : copy.nesting.inner.subroutine.claims 0 = true := by
    rw [hsub]
    refine Outline.claims_body h.subroutines ?_
    rw [h.outline]
    simpa [Outline.ofMethod] using hlt
  exact ⟨0, copy, hk, .body hk hback, h.lands_start hk hclaims (List.getElem?_eq_getElem hlt)⟩

/-- The method and the inlined code are seen to do the same. -/
theorem traces_iff (seen : List Nat) : (calling job.outline.method).Traces ⟨0, []⟩ seen ↔
    (out.flat (origin job.outline.method copies)).Traces 0 seen := by
  have hreach : Reaches job.outline.method ⟨0, []⟩ := ⟨[], .refl _⟩
  have hstart := h.beside_start hend
  constructor
  · refine System.Traces.follow
      (R := fun config p => Reaches job.outline.method config ∧ Beside job copies out config p)
      (fun hr step => h.forth hend hr step) ?_ ⟨hreach, hstart⟩
    rintro ⟨i, returns⟩ p x ⟨hr, k, copy, hk, -, hl⟩ hx
    have hat := List.getElem?_eq_getElem (hend _ hr)
    have hreal := real_of_seenAt hat hx
    obtain ⟨hi, hnext⟩ := hl.next (nextReal_of_real hat hreal)
    exact ⟨_, h.copied.run_nextReal hnext, (h.real_at hk hi hat hreal).1.trans hx⟩
  · refine System.Traces.follow
      (R := fun p config => Reaches job.outline.method config ∧
        (Beside job copies out config p ∨ Midway job copies config p))
      (fun hr step => h.back hend hr step) ?_ ⟨hreach, .inl hstart⟩
    rintro p config x ⟨hr, ⟨k, copy, hk, -, hl⟩ | hmid⟩ hx
    · obtain ⟨j, insn, hj, hat, hreal, hsettle, rfl | ⟨element, hin, hm⟩⟩ := settle hend hr hl
      · exact ⟨_, hsettle, (h.real_at hk hj hat hreal).1.symm.trans hx⟩
      · cases (h.copied.origin_marker hin hm).symm.trans hx
    · cases (h.origin_midway hmid).symm.trans hx

end Traces

end Separate

/-- Inlining disjoint subroutines keeps the finite traces of a method, if control cannot run off the
end of its code. -/
theorem traces_inlineSubroutines {method out : Method} {body : Subroutine}
    {called : List Subroutine} (hc : method.callsSubroutines = true)
    (h : method.inlineSubroutines = .ok out)
    (hs : (Outline.ofMethod method).subroutines = .ok (body, called))
    (hd : (body :: called).Pairwise Disjoint)
    (hend : ∀ config, Reaches method config → config.index < method.body.code.length) :
    ∃ copies, Copied ⟨.ofMethod method, called⟩ body copies out.body.code ∧
      Tracked method out.body.code (origin method copies) ∧
        ∀ seen, (calling method).Traces ⟨0, []⟩ seen ↔
        (out.flat (origin method copies)).Traces 0 seen := by
  obtain ⟨body', called', copies, hs', honce, hassembled⟩ := assembled_inlineSubroutines hc h
  obtain ⟨rfl, rfl⟩ := Prod.mk.inj (Except.ok.inj (hs.symm.trans hs'))
  have hseparate : Separate ⟨.ofMethod method, called⟩ body copies out :=
    ⟨hassembled, rfl, hs, honce, hd⟩
  exact ⟨copies, hassembled.copied, hassembled.copied.tracked, hseparate.traces_iff hend⟩

def callingOnce : Method :=
  { Method.declared (.ofBits .ofMethod 0) "run" "()V" with
    body := ⟨[.jump .jsr ⟨0⟩, .plain .returnVoid, .label ⟨0⟩, .var .astore 0, .var .ret 0], 1⟩ }

namespace CallingOnce

def caller : Subroutine := ⟨none, #[true, true, false, false, false]⟩

def callee : Subroutine := ⟨some ⟨0⟩, #[false, false, true, true, true]⟩

def inlining : Job := ⟨.ofMethod callingOnce, [callee]⟩

def callerCopy : Nesting :=
  ⟨⟨caller, none, (∅ : Std.HashMap Label Label).insert ⟨0⟩ ⟨0⟩⟩, []⟩

def calleeCopy : Nesting :=
  ⟨⟨callee, some ⟨1⟩, (∅ : Std.HashMap Label Label).insert ⟨0⟩ ⟨2⟩⟩, [callerCopy.inner]⟩

theorem place?_eq {label : Label} {i : Nat} (h : callingOnce.place? label = some i) : i = 2 := by
  have hp : Flow.Positions.ofCode callingOnce.body.code = (∅ : Flow.Positions).insert ⟨0⟩ 2 := rfl
  rw [Method.place?, hp, Std.HashMap.getElem?_insert] at h
  split at h
  · exact (Option.some.inj h).symm
  · simp at h

theorem position_eq : inlining.outline.position ⟨0⟩ = .ok 2 := by
  have hp : inlining.outline.positions = (∅ : Flow.Positions).insert ⟨0⟩ 2 := rfl
  simp only [Outline.position, hp, Std.HashMap.getElem?_insert]
  rfl

theorem subroutines_eq : inlining.outline.subroutines = .ok (caller, [callee]) := by
  have hcaller : inlining.outline.membersFrom 0 = .ok caller.members := by cbv
  have hcallee : inlining.outline.membersFrom 2 = .ok callee.members := by cbv
  have hat : inlining.outline.subroutineAt ⟨0⟩ = .ok callee := by
    rw [Outline.subroutineAt, position_eq]
    change (inlining.outline.membersFrom 2 >>= _) = _
    rw [hcallee]
    rfl
  rw [Outline.subroutines, hcaller]
  change ([(⟨0⟩ : Label)].mapM inlining.outline.subroutineAt >>= _) = _
  rw [List.mapM_cons, hat]
  rfl

theorem emit_caller : inlining.emit ⟨1, [], [], [], []⟩ callerCopy =
    .ok ⟨3, [.label ⟨0⟩, .plain .returnVoid, .label ⟨1⟩, .jump .goto ⟨2⟩, .plain .aconstNull], [],
      [], [calleeCopy]⟩ := by
  have hcallee : calleeCopy.inner.labels[(⟨0⟩ : Label)]? = some ⟨2⟩ := by
    simp only [calleeCopy, Std.HashMap.getElem?_insert]
    rfl
  have hcaller : callerCopy.inner.labels[(⟨0⟩ : Label)]? = some ⟨0⟩ := by
    simp only [callerCopy, Std.HashMap.getElem?_insert]
    rfl
  have hcall : inlining.emitElement callerCopy ⟨1, none, [], []⟩ (.jump .jsr ⟨0⟩, 0) =
      .ok ⟨3, none, [.label ⟨1⟩, .jump .goto ⟨2⟩, .plain .aconstNull], [calleeCopy]⟩ := by
    change (inlining.jumpLabel calleeCopy ⟨0⟩ >>= _) = _
    rw [jumpLabel_ok position_eq rfl hcallee]
    rfl
  have hf : callingOnce.body.code.zipIdx.foldlM (inlining.emitElement callerCopy)
      ⟨1, none, [], []⟩ = .ok ⟨3, some ⟨0⟩, [.label ⟨0⟩, .plain .returnVoid, .label ⟨1⟩,
        .jump .goto ⟨2⟩, .plain .aconstNull], [calleeCopy]⟩ := by
    change (inlining.emitElement callerCopy ⟨1, none, [], []⟩ (.jump .jsr ⟨0⟩, 0) >>= _) = _
    rw [hcall]
    change (inlining.emitElement callerCopy _ (.label ⟨0⟩, 2) >>= _) = _
    rw [emitElement_label hcaller]
    rfl
  rw [Job.emit]
  change (callingOnce.body.code.zipIdx.foldlM (inlining.emitElement callerCopy)
    ⟨1, none, [], []⟩ >>= _) = _
  rw [hf]
  rfl

theorem emit_callee (state : Inlined) : inlining.emit state calleeCopy =
    .ok { state with code := [.jump .goto ⟨1⟩, .var .astore 0, .label ⟨2⟩] ++ state.code } := by
  have hcallee : calleeCopy.inner.labels[(⟨0⟩ : Label)]? = some ⟨2⟩ := by
    simp only [calleeCopy, Std.HashMap.getElem?_insert]
    rfl
  have hf : callingOnce.body.code.zipIdx.foldlM (inlining.emitElement calleeCopy)
      ⟨state.supply, none, [], []⟩ = .ok ⟨state.supply, some ⟨2⟩,
        [.jump .goto ⟨1⟩, .var .astore 0, .label ⟨2⟩], []⟩ := by
    change (inlining.emitElement calleeCopy _ (.label ⟨0⟩, 2) >>= _) = _
    rw [emitElement_label hcallee]
    rfl
  rw [Job.emit]
  change (callingOnce.body.code.zipIdx.foldlM (inlining.emitElement calleeCopy)
    ⟨state.supply, none, [], []⟩ >>= _) = _
  rw [hf]
  rfl

theorem inlineSubroutines_eq : callingOnce.inlineSubroutines = .ok { callingOnce with
    body := ⟨[.plain .aconstNull, .jump .goto ⟨2⟩, .label ⟨1⟩, .plain .returnVoid, .label ⟨0⟩,
      .label ⟨2⟩, .var .astore 0, .jump .goto ⟨1⟩], 3⟩ } := by
  have hplaced : callingOnce.checkPlacedOnce callingOnce.displayName = .ok () := by cbv
  have hall : inlining.emitAll 2 ⟨1, [], [], [], [callerCopy]⟩ = .ok ⟨3, [.jump .goto ⟨1⟩,
      .var .astore 0, .label ⟨2⟩, .label ⟨0⟩, .plain .returnVoid, .label ⟨1⟩, .jump .goto ⟨2⟩,
      .plain .aconstNull], [], [], []⟩ := by
    change ((inlining.emit ⟨1, [], [], [], []⟩ callerCopy >>= _) >>= _) = _
    rw [emit_caller]
    change ((inlining.emit _ calleeCopy >>= _) >>= _) = _
    rw [emit_callee]
    rfl
  rw [Method.inlineSubroutines, hplaced]
  change (inlining.outline.subroutines >>= _) = _
  rw [subroutines_eq]
  change (inlining.emitAll 2 ⟨1, [], [], [], [callerCopy]⟩ >>= _) = _
  rw [hall]
  rfl

theorem disjoint : [caller, callee].Pairwise Disjoint := by
  refine List.pairwise_pair.mpr fun i => ?_
  rcases Nat.lt_or_ge i 5 with hlt | hge
  · have hall : ∀ i < 5, ¬ (caller.claims i = true ∧ callee.claims i = true) := by decide
    exact hall i hlt
  · rintro ⟨hc, -⟩
    rw [claims, Array.getD_eq_getD_getElem?, Array.getElem?_eq_none hge] at hc
    cases hc

/-- Control is in the body, or in the one call of the subroutine. -/
def Within (config : Config) : Prop :=
  config.index < 2 ∧ config.returns = [] ∨
    2 ≤ config.index ∧ config.index < 5 ∧ config.returns = [1]

/-- Of what is not a call, only the first elements of the subroutine lead anywhere. -/
theorem leads_next {i j : Nat} {insn : Instruction Label}
    (hat : callingOnce.body.code[i]? = some insn) (noCall : callTarget? insn = none)
    (leads : callingOnce.Leads i j) : 2 ≤ i ∧ i < 4 ∧ j = i + 1 := by
  have hlt : i < 5 := (List.getElem?_eq_some_iff.mp hat).1
  have hall : ∀ i < 5, ∀ insn ∈ callingOnce.body.code[i]?, callTarget? insn = none →
      insn.jumpTargets = [] ∧ (Outline.continues insn = true → 2 ≤ i ∧ i < 4) := by decide
  obtain ⟨hjump, hnext⟩ := hall i hlt insn hat noCall
  cases leads with
  | next hat' hc =>
    obtain rfl := Option.some.inj (hat.symm.trans hat')
    exact ⟨(hnext hc).1, (hnext hc).2, rfl⟩
  | jump hat' hm =>
    obtain rfl := Option.some.inj (hat.symm.trans hat')
    rw [hjump] at hm
    cases hm

theorem Within.step {config config' : Config} (h : Within config)
    (step : Step callingOnce config config') : Within config' := by
  cases step with
  | leads hat noCall leads =>
    obtain ⟨hlo, hhi, rfl⟩ := leads_next hat noCall leads
    rcases h with ⟨hlt, -⟩ | ⟨-, -, hr⟩
    · exact absurd hlt (Nat.not_lt.mpr hlo)
    · exact .inr ⟨Nat.le_succ_of_le hlo, Nat.succ_lt_succ hhi, hr⟩
  | throws throws =>
    obtain ⟨-, -, hm, -, -⟩ := throws
    cases hm
  | @call i j returns target hat hi =>
    obtain rfl := place?_eq hi
    have hall : ∀ i < 5, ∀ insn ∈ callingOnce.body.code[i]?, (callTarget? insn).isSome →
        i = 0 := by decide
    obtain rfl := hall i (List.getElem?_eq_some_iff.mp hat).1 _ hat rfl
    rcases h with ⟨-, hr⟩ | ⟨hlo, -⟩
    · exact .inr ⟨Nat.le_refl _, (by decide : 2 < 5), congrArg (1 :: ·) hr⟩
    · cases hlo
  | @ret i j returns slot hat =>
    rcases h with ⟨-, hr⟩ | ⟨-, -, hr⟩
    · cases hr
    · obtain ⟨rfl, rfl⟩ := List.cons.inj hr
      exact .inl ⟨by decide, rfl⟩

/-- The subroutine stores the return address, and after its return the method returns. -/
theorem traces_calling : (calling callingOnce).Traces ⟨0, []⟩ [3, 1] := by
  have hplace : callingOnce.place? ⟨0⟩ = some 2 := Method.place?_of_nodup (by decide) rfl
  have hcall : Step callingOnce ⟨0, []⟩ ⟨2, [1]⟩ := .call rfl hplace
  have henter : Step callingOnce ⟨2, [1]⟩ ⟨3, [1]⟩ := .leads rfl rfl (.next rfl rfl)
  have hstore : Step callingOnce ⟨3, [1]⟩ ⟨4, [1]⟩ := .leads rfl rfl (.next rfl rfl)
  have hret : Step callingOnce ⟨4, [1]⟩ ⟨1, []⟩ := .ret rfl
  have hrun : (calling callingOnce).Run ⟨3, [1]⟩ [3] ⟨1, []⟩ :=
    .head hstore (.silent hret rfl (.refl _))
  exact ⟨[3], ⟨1, []⟩, .silent hcall rfl (.silent henter rfl hrun), .inr rfl⟩

theorem index_lt (config : Config) (h : Reaches callingOnce config) :
    config.index < callingOnce.body.code.length := by
  obtain ⟨seen, hr⟩ := h
  have hw : Within config := hr.keeps (fun hw step => hw.step step) (.inl ⟨by decide, rfl⟩)
  rcases hw with ⟨hlt, -⟩ | ⟨-, hlt, -⟩
  · exact Nat.lt_trans hlt (by decide)
  · exact hlt

end CallingOnce

theorem callingOnce_traces : ∃ copies,
    Copied ⟨.ofMethod callingOnce, [CallingOnce.callee]⟩ CallingOnce.caller copies
      [.plain .aconstNull, .jump .goto ⟨2⟩, .label ⟨1⟩, .plain .returnVoid, .label ⟨0⟩,
        .label ⟨2⟩, .var .astore 0, .jump .goto ⟨1⟩] ∧
    ∃ out, callingOnce.inlineSubroutines = .ok out ∧
      (out.flat (origin callingOnce copies)).Traces 0 [3, 1] := by
  obtain ⟨copies, hcopied, -, htraces⟩ := traces_inlineSubroutines (by decide)
    CallingOnce.inlineSubroutines_eq CallingOnce.subroutines_eq CallingOnce.disjoint
    CallingOnce.index_lt
  exact ⟨copies, hcopied, _, CallingOnce.inlineSubroutines_eq,
    (htraces [3, 1]).mp CallingOnce.traces_calling⟩

end ClassTree.Subroutine
